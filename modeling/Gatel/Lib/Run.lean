import Mathlib

namespace Run

section
variable {σ α : Type} (step : σ → α → σ)

/-- A whole run: one step after another. -/
def run (s : σ) (l : List α) : σ := l.foldl step s

@[simp] theorem run_nil (s : σ) : run step s [] = s := rfl

@[simp] theorem run_cons (s : σ) (a : α) (l : List α) :
    run step s (a :: l) = run step (step s a) l := rfl

theorem run_append (s : σ) (l m : List α) : run step s (l ++ m) = run step (run step s l) m :=
  List.foldl_append

variable {step}

/-- What every step keeps, every run keeps. -/
theorem invariant {I : σ → Prop} (hs : ∀ s a, I s → I (step s a)) {s : σ} (h0 : I s)
    (l : List α) : I (run step s l) := by
  induction l generalizing s with
  | nil => exact h0
  | cons a l ih => exact ih (hs s a h0)

/-- The same for runs whose actions are all admissible. -/
theorem invariant_of_forall {I : σ → Prop} {A : α → Prop} (hs : ∀ s a, A a → I s → I (step s a))
    {s : σ} (h0 : I s) {l : List α} (hl : ∀ a ∈ l, A a) : I (run step s l) := by
  induction l generalizing s with
  | nil => exact h0
  | cons a l ih =>
    exact ih (hs s a (hl a List.mem_cons_self) h0) (fun b hb => hl b (List.mem_cons_of_mem a hb))

/-- The same with the states passed through at hand. -/
theorem invariant_of_visited {I : σ → Prop} {V : σ → Prop}
    (hs : ∀ s a, V s → I s → I (step s a)) {s : σ} (h0 : I s) {l : List α}
    (hv : ∀ p, p <+: l → V (run step s p)) : I (run step s l) := by
  induction l generalizing s with
  | nil => exact h0
  | cons a l ih =>
    refine ih (hs s a (hv [] List.nil_prefix) h0) ?_
    intro p hp
    exact hv (a :: p) (List.cons_prefix_cons.mpr ⟨rfl, hp⟩)

/-- A preorder every step climbs, under an invariant, is climbed by every run. -/
theorem related {I : σ → Prop} {R : σ → σ → Prop} (hI : ∀ s a, I s → I (step s a))
    (hrefl : ∀ s, R s s) (htrans : ∀ {a b c}, R a b → R b c → R a c)
    (hR : ∀ s a, I s → R s (step s a)) {s : σ} (h0 : I s) (l : List α) : R s (run step s l) := by
  induction l generalizing s with
  | nil => exact hrefl s
  | cons a l ih => exact htrans (hR s a h0) (ih (hI s a h0))

end

end Run
