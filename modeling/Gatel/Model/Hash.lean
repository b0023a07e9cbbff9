import Gatel.Lib.CanonicalSort
import Gatel.Lib.LittleEndian
import Gatel.Model.Value

namespace Gatel
open CanonicalSort (sortBy)
open LittleEndian (bytes)

/-- The digest function. Nothing is assumed of it here: statements that need two
inputs kept apart say which two. -/
abbrev Digest := List UInt8 → Fingerprint

def utf8 (s : String) : List UInt8 := s.toByteArray.data.toList

theorem fromUTF8?_eq_some {l : List UInt8} {s : String} :
    String.fromUTF8? ⟨l.toArray⟩ = some s ↔ utf8 s = l := by
  unfold String.fromUTF8? utf8
  constructor
  · intro h
    split at h
    · cases h
      rfl
    · cases h
  · intro h
    subst h
    have hv : (ByteArray.mk s.toByteArray.data.toList.toArray) = s.toByteArray := by simp
    rw [hv]
    simp [s.isValidUTF8, String.fromUTF8]

theorem utf8_append (a b : String) : utf8 (a ++ b) = utf8 a ++ utf8 b := by
  simp [utf8, String.toByteArray_append]

theorem length_utf8_of_ascii {s : String} (h : ∀ c ∈ s.toList, c.utf8Size = 1) :
    (utf8 s).length = s.toList.length := by
  have hs : s.toByteArray = s.toList.utf8Encode := by
    rw [← String.toByteArray_ofList, String.ofList_toList]
  have hl : ∀ l : List Char, (∀ c ∈ l, c.utf8Size = 1) →
      (l.flatMap String.utf8EncodeChar).length = l.length := by
    intro l hl
    induction l with
    | nil => rfl
    | cons c l ih =>
      rw [List.flatMap_cons, List.length_append, String.length_utf8EncodeChar,
        hl c List.mem_cons_self, ih (fun d hd => hl d (List.mem_cons_of_mem c hd)),
        List.length_cons, Nat.add_comm]
  rw [utf8, hs]
  simpa [List.utf8Encode] using hl s.toList h

/-- A duration in nanoseconds, of seconds that fit 64 bits. -/
abbrev Duration := Fin (2 ^ 64 * 10 ^ 9)

instance Duration.neZero : NeZero (2 ^ 64 * 10 ^ 9) := ⟨by decide⟩

def Duration.fromSecs (n : U64) : Duration := ⟨n.val * 10 ^ 9, by omega⟩

/-- The typed writes of one fingerprint, as the bytes fed to the digest. -/
structure Hasher where
  written : List UInt8
  deriving DecidableEq

namespace Hasher

def new : Hasher := ⟨[]⟩

def update (h : Hasher) (tag : UInt8) (payload : List UInt8) : Hasher := ⟨h.written ++ tag :: payload⟩

def updateStr (h : Hasher) (value : String) : Hasher :=
  h.update 1 (bytes 8 (utf8 value).length ++ utf8 value)

def updateU64 (h : Hasher) (value : U64) : Hasher := h.update 2 (bytes 8 value.val)

def updateI64 (h : Hasher) (value : I64) : Hasher := h.update 3 (bytes 8 value.toBits.val)

def updateBool (h : Hasher) (value : Bool) : Hasher := h.update 4 [if value then 1 else 0]

def updateBytes (h : Hasher) (value : List UInt8) : Hasher :=
  h.update 5 (bytes 8 value.length ++ value)

def updateDuration (h : Hasher) (value : Duration) : Hasher := h.update 6 (bytes 16 value.val)

/-- Mark an absent optional field. -/
def updateNone (h : Hasher) : Hasher := h.update 7 []

def updateOptStr (h : Hasher) : Option String → Hasher
  | some text => h.updateStr text
  | none => h.updateNone

def updateFingerprint (h : Hasher) (value : Fingerprint) : Hasher := h.update 8 value.bytes

def finish (blake3 : Digest) (h : Hasher) : Fingerprint := blake3 h.written

/-- Each element hashed on its own, the digests sorted: declaration order does not
matter. -/
def updateUnordered {α : Type} (blake3 : Digest) (items : List α)
    (hashItem : α → Hasher → Hasher) (h : Hasher) : Hasher :=
  let digests := sortBy compare (items.map fun item => ((hashItem item new).finish blake3).bytes)
  h.update 9 (bytes 8 digests.length ++ digests.flatten)

/-- Position is part of the meaning. -/
def updateOrdered {α : Type} (blake3 : Digest) (items : List α)
    (hashItem : α → Hasher → Hasher) (h : Hasher) : Hasher :=
  h.update 10 (bytes 8 items.length ++
    items.flatMap fun item => ((hashItem item new).finish blake3).bytes)

/-- An optional part: its own writes, or the mark of its absence. -/
def updateOption {α : Type} (hashItem : α → Hasher → Hasher) (h : Hasher) : Option α → Hasher
  | some item => hashItem item h
  | none => h.updateNone

theorem updateUnordered_congr {α β : Type} {blake3 : Digest} {items : List α} {items' : List β}
    {hashItem : α → Hasher → Hasher} {hashItem' : β → Hasher → Hasher}
    (hp : (items.map fun item => hashItem item new).Perm (items'.map fun item => hashItem' item new))
    (h : Hasher) :
    updateUnordered blake3 items hashItem h = updateUnordered blake3 items' hashItem' h := by
  have hd : (items.map fun item => ((hashItem item new).finish blake3).bytes).Perm
      (items'.map fun item => ((hashItem' item new).finish blake3).bytes) := by
    simpa [List.map_map, Function.comp_def] using hp.map fun g => (g.finish blake3).bytes
  have hs := CanonicalSort.sortBy_eq_of_perm hd
    (fun a _ b _ he => Std.LawfulEqOrd.eq_of_compare he)
  unfold updateUnordered
  rw [hs]

end Hasher

end Gatel
