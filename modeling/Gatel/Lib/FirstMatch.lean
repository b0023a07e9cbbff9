import Mathlib

namespace FirstMatch

variable {α : Type} {r : α → α → Prop} {p : α → Bool} {l : List α}

/-- The first match comes before every other one. -/
theorem find?_before (hs : l.Pairwise r) {a : α} (h : l.find? p = some a) {b : α} (hb : b ∈ l) (hp : p b = true) :
    b = a ∨ r a b := by
  induction l with
  | nil => cases hb
  | cons x l ih =>
    rw [List.find?_cons] at h
    split at h
    · cases h
      obtain rfl | hb := List.mem_cons.mp hb
      · exact Or.inl rfl
      · exact Or.inr ((List.pairwise_cons.mp hs).1 b hb)
    · rename_i hx
      obtain rfl | hb := List.mem_cons.mp hb
      · rw [hp] at hx
        cases hx
      · exact ih (List.pairwise_cons.mp hs).2 h hb

/-- A match that no other match may stand before is found. -/
theorem find?_of_top (hs : l.Pairwise r) {a : α} (ha : a ∈ l) (hp : p a = true)
    (htop : ∀ b ∈ l, p b = true → r b a → b = a) : l.find? p = some a := by
  cases h : l.find? p with
  | none => exact absurd hp (by simpa using List.find?_eq_none.mp h a ha)
  | some b =>
    have hb := List.mem_of_find?_eq_some h
    obtain rfl | hr := find?_before hs h ha hp
    · rfl
    · rw [htop b hb (List.find?_some h) hr]

/-- Pairwise in every respect at once. -/
theorem pairwise_forall_mem {β : Type} {s : β → α → α → Prop} {m : List β} :
    l.Pairwise (fun a b => ∀ x ∈ m, s x a b) ↔ ∀ x ∈ m, l.Pairwise (s x) := by
  induction l with
  | nil => simp
  | cons a l ih =>
    simp only [List.pairwise_cons, ih]
    constructor
    · intro h x hx
      exact ⟨fun b hb => h.1 b hb x hx, h.2 x hx⟩
    · intro h
      exact ⟨fun b hb x hx => (h x hx).1 b hb, fun x hx => (h x hx).2⟩

end FirstMatch
