import Mathlib

namespace Gatel
open Std (TransOrd TransCmp LawfulEqOrd)

/-- An unsigned 64-bit counter. Both counters of the program refuse to wrap. -/
abbrev U64 := Fin (2 ^ 64)

instance U64.neZero : NeZero (2 ^ 64) := ⟨by decide⟩

/-- `checked_add(1)`: exhaustion is an absence, never a smaller number. -/
def U64.next (n : U64) : Option U64 :=
  if h : n.val + 1 < 2 ^ 64 then some ⟨n.val + 1, h⟩ else none

theorem U64.next_eq_some {n m : U64} : n.next = some m ↔ m.val = n.val + 1 := by
  unfold U64.next
  split
  · rename_i h
    simp only [Option.some.injEq, Fin.ext_iff]
    exact eq_comm
  · rename_i h
    simp only [reduceCtorEq, false_iff]
    intro he
    exact h (he ▸ m.isLt)

/-- The digest of a byte string: always 32 bytes. -/
structure Fingerprint where
  bytes : List UInt8
  length_bytes : bytes.length = 32
  deriving DecidableEq

namespace Fingerprint

def zero : Fingerprint := ⟨List.replicate 32 0, by decide⟩

/-- `Fingerprint::from_bytes`, on the 32 bytes a reader has just taken. -/
def fromBytes? (bytes : List UInt8) : Option Fingerprint :=
  if h : bytes.length = 32 then some ⟨bytes, h⟩ else none

def hexDigit (n : Nat) : Char :=
  if n < 10 then Char.ofNat (48 + n) else Char.ofNat (87 + n)

/-- The lower-case hexadecimal display of a digest. -/
def toHex (f : Fingerprint) : String :=
  String.ofList (f.bytes.flatMap fun b => [hexDigit (b.toNat / 16), hexDigit (b.toNat % 16)])

/-- The first 16 characters of the display, used in derived names. -/
def short (f : Fingerprint) : String := String.ofList (f.toHex.toList.take 16)

end Fingerprint

inductive SourceKind where
  | file
  | admin
  | kubernetes
  deriving DecidableEq, Repr

/-- Declaration order, which is what the derived order of the source compares. -/
def SourceKind.rank : SourceKind → Nat
  | .file => 0
  | .admin => 1
  | .kubernetes => 2

theorem SourceKind.rank_injective : Function.Injective SourceKind.rank := by
  intro a b h
  cases a <;> cases b <;> simp_all [SourceKind.rank]

/-- The frontend that owns a contribution. The admin frontend has one identity,
so a value of this type cannot name an admin source other than `runtime`. -/
inductive SourceId where
  | file (name : String)
  | admin
  | kubernetes (space : String)
  deriving DecidableEq, Repr

namespace SourceId

def kind : SourceId → SourceKind
  | .file _ => .file
  | .admin => .admin
  | .kubernetes _ => .kubernetes

def name : SourceId → String
  | .file name => name
  | .admin => "runtime"
  | .kubernetes space => space

theorem ext_kind_name {a b : SourceId} (hk : a.kind = b.kind) (hn : a.name = b.name) : a = b := by
  cases a <;> cases b <;> simp_all [kind, name]

/-- Ordered by kind, then by name. -/
instance : Ord SourceId :=
  ⟨compareLex (compareOn fun s => s.kind.rank) (compareOn name)⟩

instance : TransOrd SourceId :=
  inferInstanceAs (TransCmp (compareLex (compareOn fun s => s.kind.rank) (compareOn name)))

instance : LawfulEqOrd SourceId where
  eq_of_compare {a b} h := by
    obtain ⟨hk, hn⟩ := compareLex_eq_eq.mp h
    exact ext_kind_name (SourceKind.rank_injective (LawfulEqOrd.eq_of_compare hk))
      (LawfulEqOrd.eq_of_compare hn)

/-- The prefix every resource of this source carries; files own the root. -/
def namespacePrefix : SourceId → Option String
  | .file _ => none
  | .admin => some "runtime/"
  | .kubernetes space => some ("k8s/" ++ space ++ "/")

/-- Whether this source may own a resource of that name. -/
def owns (s : SourceId) (resource : String) : Bool :=
  match s.namespacePrefix with
  | some pre => pre.toList.isPrefixOf resource.toList
  | none => !resource.toList.contains '/'

@[grind =] def display : SourceId → String
  | .file name => "file:" ++ name
  | .admin => "admin"
  | .kubernetes space => "k8s:" ++ space

end SourceId

/-- The version a source was observed at. -/
abbrev SourceRev := U64

instance SourceRev.lawfulBEq : LawfulBEq SourceRev := inferInstance

/-- A committed runtime generation, counted from zero (`NONE`). -/
abbrev Generation := U64

def Generation.none : Generation := 0

/-- One process lifetime. -/
abbrev BootId := Fingerprint

end Gatel
