import Gatel.Model.Id

namespace Gatel

abbrev U32 := Fin (2 ^ 32)

instance U32.neZero : NeZero (2 ^ 32) := ⟨by decide⟩

/-- A signed 64-bit integer. -/
structure I64 where
  val : Int
  lower : -(2 ^ 63) ≤ val
  upper : val < 2 ^ 63
  deriving DecidableEq

namespace I64

/-- The two's complement bit pattern. -/
def toBits (n : I64) : U64 := Fin.ofNat _ (n.val % 2 ^ 64).toNat

def ofBits (b : U64) : I64 :=
  if h : b.val < 2 ^ 63 then ⟨b.val, by omega, by omega⟩
  else ⟨(b.val : Int) - 2 ^ 64, by omega, by omega⟩

theorem ofBits_toBits (n : I64) : ofBits n.toBits = n := by
  obtain ⟨v, hl, hu⟩ := n
  have hb : (toBits ⟨v, hl, hu⟩).val = (v % 2 ^ 64).toNat := by
    simp only [toBits, Fin.ofNat_eq_cast, Fin.val_natCast]
    omega
  unfold ofBits
  split
  · rename_i h
    rw [hb] at h
    simp only [I64.mk.injEq, hb]
    omega
  · rename_i h
    rw [hb] at h
    simp only [I64.mk.injEq, hb]
    omega

theorem toBits_ofBits (b : U64) : (ofBits b).toBits = b := by
  have hb := b.isLt
  apply Fin.ext
  unfold ofBits
  split
  · simp only [toBits, Fin.ofNat_eq_cast, Fin.val_natCast]
    omega
  · simp only [toBits, Fin.ofNat_eq_cast, Fin.val_natCast]
    omega

end I64

/-- A byte span with its line and column. `usize` has 64 bits. -/
structure Span where
  offset : U64
  length : U64
  line : U32
  column : U32
  deriving DecidableEq

/-- The three frontend locations; the borrowed view of the source shows exactly
these fields. -/
inductive OriginKind where
  | file (file : String) (span : Span)
  | api (source : String) (pointer : String)
  | synthetic (reason : String)
  deriving DecidableEq

structure Origin where
  kind : OriginKind
  path : String
  deriving DecidableEq

namespace Origin

def file (name : String) (span : Span) : Origin := ⟨.file name span, ""⟩
def api (source pointer : String) : Origin := ⟨.api source pointer, ""⟩
def synthetic (reason : String) : Origin := ⟨.synthetic reason, ""⟩

/-- Append a field name to the dotted path. -/
def field (o : Origin) (name : String) : Origin :=
  { o with path := if o.path = "" then name else o.path ++ "." ++ name }

theorem field_of_empty {o : Origin} (h : o.path = "") (name : String) :
    o.field name = ⟨o.kind, name⟩ := by simp [field, h]

end Origin

/-- A scalar. Floats are their bit pattern: every comparison the program makes
of a recorded tree is on bits. -/
inductive Scalar where
  | null
  | bool (value : Bool)
  | int (value : I64)
  | float (bits : U64)
  | str (value : String)
  deriving DecidableEq

structure Value where
  scalar : Scalar
  origin : Origin
  deriving DecidableEq

namespace Value

def asStr (v : Value) : Option String :=
  match v.scalar with
  | .str s => some s
  | _ => none

def asInt (v : Value) : Option I64 :=
  match v.scalar with
  | .int n => some n
  | _ => none

def asBool (v : Value) : Option Bool :=
  match v.scalar with
  | .bool b => some b
  | _ => none

end Value

structure Property where
  name : String
  value : Value
  origin : Origin
  deriving DecidableEq

/-- One configuration node. -/
structure Node where
  name : String
  args : List Value
  props : List Property
  children : List Node
  origin : Origin

mutual
/-- Nodes of a tree, its root included. -/
def Node.count : Node → Nat
  | ⟨_, _, _, children, _⟩ => 1 + Node.countAll children

@[grind =] def Node.countAll : List Node → Nat
  | [] => 0
  | n :: ns => n.count + Node.countAll ns
end

namespace Node

theorem count_eq (n : Node) : n.count = 1 + countAll n.children := by
  cases n; rw [count]

/-- The frontend comparison of two trees: an explicit stack of pairs, popped one
at a time. The stack's top is the head of the list. -/
@[grind =] def sameLoop : Nat → List (Node × Node) → Bool
  | 0, pending => pending.isEmpty
  | _ + 1, [] => true
  | fuel + 1, (left, right) :: pending =>
    if left.name ≠ right.name ∨ left.origin ≠ right.origin ∨
        left.args.length ≠ right.args.length ∨ left.props.length ≠ right.props.length ∨
        left.children.length ≠ right.children.length ∨
        ¬ (left.args.zip right.args).all (fun p => p.1 == p.2) ∨
        ¬ (left.props.zip right.props).all (fun p => p.1.name == p.2.name &&
            p.1.origin == p.2.origin && p.1.value == p.2.value) then
      false
    else sameLoop fuel ((left.children.zip right.children).reverse ++ pending)

/-- `same_nodes`; each round pops a distinct left node, so the left count bounds
the rounds. -/
def same (left right : List Node) : Bool :=
  if left.length ≠ right.length then false
  else sameLoop (countAll left) (left.zip right).reverse

def pendingCount (pending : List (Node × Node)) : Nat := (pending.map (fun p => p.1.count)).sum

theorem zip_all_beq {α : Type} [DecidableEq α] {xs ys : List α} (h : xs.length = ys.length) :
    (xs.zip ys).all (fun p => p.1 == p.2) = true ↔ xs = ys := by
  induction xs generalizing ys with
  | nil => cases ys <;> grind
  | cons x xs ih =>
    cases ys with
    | nil => simp at h
    | cons y ys =>
      have hl : xs.length = ys.length := by simpa using h
      simp [ih hl]

theorem zip_all_props {xs ys : List Property} (h : xs.length = ys.length) :
    (xs.zip ys).all (fun p => p.1.name == p.2.name && p.1.origin == p.2.origin &&
      p.1.value == p.2.value) = true ↔ xs = ys := by
  have hb : (fun p : Property × Property => p.1.name == p.2.name && p.1.origin == p.2.origin &&
      p.1.value == p.2.value) = (fun p => p.1 == p.2) := by
    funext p
    obtain ⟨⟨n, v, o⟩, ⟨n', v', o'⟩⟩ := p
    apply Bool.eq_iff_iff.mpr
    simp only [Bool.and_eq_true, beq_iff_eq, Property.mk.injEq]
    tauto
  rw [hb, zip_all_beq h]

theorem zip_forall_eq {α : Type} {xs ys : List α} (h : xs.length = ys.length) :
    (∀ p ∈ xs.zip ys, p.1 = p.2) ↔ xs = ys := by
  classical
  rw [← zip_all_beq h]
  simp

theorem pendingCount_zip {xs ys : List Node} (h : xs.length = ys.length) :
    pendingCount (xs.zip ys) = countAll xs := by
  induction xs generalizing ys with
  | nil => simp [pendingCount, countAll]
  | cons x xs ih =>
    cases ys with
    | nil => simp at h
    | cons y ys =>
      have ht := ih (show xs.length = ys.length by simpa using h)
      simp only [pendingCount] at ht
      simp [pendingCount, countAll, ht]

theorem pendingCount_append (xs ys : List (Node × Node)) :
    pendingCount (xs ++ ys) = pendingCount xs + pendingCount ys := by simp [pendingCount]

theorem pendingCount_reverse (xs : List (Node × Node)) :
    pendingCount xs.reverse = pendingCount xs := by
  simp [pendingCount, List.sum_reverse]

/-- With a round for every pending left node, the loop decides equality of all
pending pairs. -/
theorem same_loop_iff (fuel : Nat) (pending : List (Node × Node))
    (hf : pendingCount pending ≤ fuel) :
    sameLoop fuel pending = true ↔ ∀ p ∈ pending, p.1 = p.2 := by
  induction fuel generalizing pending with
  | zero =>
    cases pending with
    | nil => simp [sameLoop]
    | cons p ps =>
      have hp := count_eq p.1
      simp only [pendingCount, List.map_cons, List.sum_cons] at hf
      omega
  | succ fuel ih =>
    cases pending with
    | nil => simp [sameLoop]
    | cons p ps =>
      obtain ⟨⟨ln, la, lp, lc, lo⟩, ⟨rn, ra, rp, rc, ro⟩⟩ := p
      rw [sameLoop]
      split
      · -- some field differs, so the pair itself differs
        rename_i hd
        simp only [Bool.false_eq_true, List.mem_cons, forall_eq_or_imp, Node.mk.injEq, false_iff,
          not_and]
        rintro ⟨rfl, rfl, rfl, rfl, rfl⟩
        have ha := (zip_all_beq (rfl : la.length = la.length)).mpr rfl
        have hp := (zip_all_props (rfl : lp.length = lp.length)).mpr rfl
        simp [ha, hp] at hd
      · rename_i hs
        simp only [not_or, not_not] at hs
        obtain ⟨rfl, rfl, hla, hlp, hlc, ha, hp⟩ := hs
        obtain rfl := (zip_all_beq hla).mp ha
        obtain rfl := (zip_all_props hlp).mp hp
        have hc := pendingCount_zip hlc
        have hroot := count_eq ⟨ln, la, lp, lc, lo⟩
        rw [ih]
        · simp only [List.mem_append, List.mem_reverse, or_imp, forall_and, List.forall_mem_cons]
          rw [zip_forall_eq hlc]
          simp
        · rw [pendingCount_append, pendingCount_reverse, hc]
          simp only [pendingCount, List.map_cons, List.sum_cons] at hf hroot ⊢
          omega

/-- The stack walk is exact identity of node lists, order and origins included. -/
theorem same_iff (left right : List Node) : same left right = true ↔ left = right := by
  unfold same
  split
  · rename_i h
    simp only [Bool.false_eq_true, false_iff]
    rintro rfl
    exact h rfl
  · rename_i h
    simp only [not_not] at h
    rw [same_loop_iff, ← zip_forall_eq h]
    · simp
    · rw [pendingCount_reverse]
      exact (pendingCount_zip h).le

instance : DecidableEq Node := fun left right =>
  decidable_of_iff (same [left] [right] = true) (by rw [same_iff]; simp)

def new (name : String) (origin : Origin) : Node := ⟨name, [], [], [], origin⟩

/-- The first property of that name. -/
def prop (n : Node) (name : String) : Option Property := n.props.find? (fun p => p.name == name)

/-- The first child of that name. -/
def child (n : Node) (name : String) : Option Node := n.children.find? (fun c => c.name == name)

def childrenNamed (n : Node) (name : String) : List Node :=
  n.children.filter (fun c => c.name == name)

end Node

end Gatel
