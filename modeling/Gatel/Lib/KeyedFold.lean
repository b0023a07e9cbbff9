import Mathlib

namespace KeyedFold

/-! Folds that touch one key per item. Reading the result at a key depends only on
the item of that key, so a loop over a map's entries is described key by key. -/

section
variable {ι κ ν σ : Type} [DecidableEq κ]
variable (key : ι → κ) (read : σ → κ → Option ν) (put : ι → Option ν → Option ν) (f : σ → ι → σ)

/-- Each item changes the reading at its own key alone. -/
def Local : Prop :=
  ∀ s i k, read (f s i) k = if key i = k then put i (read s k) else read s k

variable {key read put f}

theorem read_foldl_absent (hf : Local key read put f) (l : List ι) (s : σ) (k : κ)
    (ha : ∀ i ∈ l, key i ≠ k) : read (l.foldl f s) k = read s k := by
  induction l generalizing s with
  | nil => rfl
  | cons i l ih =>
    rw [List.foldl_cons, ih _ (fun j hj => ha j (List.mem_cons_of_mem _ hj)), hf]
    simp [ha i List.mem_cons_self]

/-- With distinct keys, the item of a key is applied to the original reading. -/
theorem read_foldl_present (hf : Local key read put f) (l : List ι)
    (hd : l.Pairwise (fun a b => key a ≠ key b)) (s : σ) {i : ι} (hi : i ∈ l) :
    read (l.foldl f s) (key i) = put i (read s (key i)) := by
  induction l generalizing s with
  | nil => cases hi
  | cons j l ih =>
    obtain ⟨hj, hl⟩ := List.pairwise_cons.mp hd
    rw [List.foldl_cons]
    rcases List.mem_cons.mp hi with rfl | hm
    · rw [read_foldl_absent hf l _ _ (fun x hx he => hj x hx he.symm), hf]
      simp
    · rw [ih hl _ hm, hf]
      simp [hj i hm]

end

end KeyedFold
