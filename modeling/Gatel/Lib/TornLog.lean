import Mathlib

namespace TornLog

/-! An append-only log of numbered records on a medium that may tear the last write. -/

section
variable {α : Type} (frame : Nat → α → List UInt8)

/-- Records back to back, numbered from `n`. -/
@[grind =] def logFrom (n : Nat) : List α → List UInt8
  | [] => []
  | a :: l => frame n a ++ logFrom (n + 1) l

variable {frame}

@[simp] theorem logFrom_nil (n : Nat) : logFrom frame n [] = [] := rfl

theorem logFrom_append (n : Nat) (l m : List α) :
    logFrom frame n (l ++ m) = logFrom frame n l ++ logFrom frame (n + l.length) m := by
  induction l generalizing n with
  | nil => simp [logFrom]
  | cons a l ih =>
    simp only [List.cons_append, logFrom, ih, List.append_assoc, List.length_cons]
    rw [Nat.add_right_comm, Nat.add_assoc]

theorem logFrom_concat (n : Nat) (l : List α) (a : α) :
    logFrom frame n (l ++ [a]) = logFrom frame n l ++ frame (n + l.length) a := by
  rw [logFrom_append]
  simp [logFrom]

variable (frame) (ok : α → Prop)

/-- The beginning of one more record, but not all of it. -/
def Tail (n : Nat) (tail : List UInt8) : Prop :=
  tail = [] ∨ ∃ a, ok a ∧ tail <+: frame n a ∧ tail.length < (frame n a).length

variable {frame ok}

/-- Writing any prefix of a record leaves a tail or the whole record. -/
theorem write_cases {n : Nat} {a : α} (ha : ok a) (k : Nat) :
    Tail frame ok n ((frame n a).take k) ∨ (frame n a).take k = frame n a := by
  by_cases hk : k < (frame n a).length
  · left
    refine .inr ⟨a, ha, List.take_prefix k _, ?_⟩
    rw [List.length_take]
    omega
  · right
    exact List.take_of_length_le (not_lt.mp hk)

/-- Cutting a tail leaves a tail. -/
theorem Tail.take {n : Nat} {tail : List UInt8} (h : Tail frame ok n tail) (k : Nat) :
    Tail frame ok n (tail.take k) := by
  rcases h with rfl | ⟨a, ha, hp, hl⟩
  · simp [Tail]
  · refine .inr ⟨a, ha, (List.take_prefix k tail).trans hp, ?_⟩
    rw [List.length_take]
    omega

end

end TornLog
