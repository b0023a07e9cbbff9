import Mathlib

namespace Shuffle

variable {α β : Type} {r : α → α → Prop} {q : β → β → Prop}

/-- The same elements up to order, each changed by `r` only. -/
def Shuffled (r : α → α → Prop) (l l' : List α) : Prop := ∃ m, l.Perm m ∧ List.Forall₂ r m l'

theorem forall₂_imp_mem {r s : α → α → Prop} {l l' : List α} (h : List.Forall₂ r l l')
    (hs : ∀ a ∈ l, ∀ b ∈ l', r a b → s a b) : List.Forall₂ s l l' := by
  induction h with
  | nil => exact .nil
  | @cons a b l l' hab _ ih =>
    refine .cons (hs a List.mem_cons_self b List.mem_cons_self hab) (ih ?_)
    intro x hx y hy
    exact hs x (List.mem_cons_of_mem a hx) y (List.mem_cons_of_mem b hy)

namespace Shuffled

theorem of_perm (hr : ∀ a, r a a) {l l' : List α} (h : l.Perm l') : Shuffled r l l' :=
  ⟨l', h, List.forall₂_same.mpr fun a _ => hr a⟩

theorem trans_perm {l l' l'' : List α} (h : Shuffled r l l') (hp : l'.Perm l'') : Shuffled r l l'' := by
  obtain ⟨m, hm, hf⟩ := h
  have hc : Relation.Comp (List.Forall₂ r) List.Perm m l'' := ⟨l', hf, hp⟩
  rw [List.forall₂_comp_perm_eq_perm_comp_forall₂] at hc
  obtain ⟨n, hn, hf'⟩ := hc
  exact ⟨n, hm.trans hn, hf'⟩

theorem symm (hr : ∀ a b, r a b → r b a) {l l' : List α} (h : Shuffled r l l') : Shuffled r l' l := by
  obtain ⟨m, hp, hf⟩ := h
  have hf' : List.Forall₂ r l' m := List.Forall₂.flip (hf.imp fun a b => hr a b)
  have hself : Shuffled r l' m := ⟨l', .refl _, hf'⟩
  exact hself.trans_perm hp.symm

theorem append {l₁ l₁' l₂ l₂' : List α} (h₁ : Shuffled r l₁ l₁') (h₂ : Shuffled r l₂ l₂') :
    Shuffled r (l₁ ++ l₂) (l₁' ++ l₂') := by
  obtain ⟨m₁, hp₁, hf₁⟩ := h₁
  obtain ⟨m₂, hp₂, hf₂⟩ := h₂
  exact ⟨m₁ ++ m₂, hp₁.append hp₂, List.rel_append hf₁ hf₂⟩

theorem flatMap_forall₂ {γ : Type} {f g : γ → List β} {R : γ → γ → Prop}
    (hf : ∀ a b, R a b → Shuffled q (f a) (g b)) {l l' : List γ} (h : List.Forall₂ R l l') :
    Shuffled q (l.flatMap f) (l'.flatMap g) := by
  induction h with
  | nil => exact ⟨[], .refl _, .nil⟩
  | cons hab _ ih =>
    simp only [List.flatMap_cons]
    exact (hf _ _ hab).append ih

/-- What the elements contribute is shuffled too. -/
theorem flatMap {f : α → List β} (hf : ∀ a b, r a b → Shuffled q (f a) (f b)) {l l' : List α}
    (h : Shuffled r l l') : Shuffled q (l.flatMap f) (l'.flatMap f) := by
  obtain ⟨m, hp, hm⟩ := h
  obtain ⟨n, hn, hq⟩ := flatMap_forall₂ hf hm
  exact ⟨n, (hp.flatMap_right f).trans hn, hq⟩

theorem perm_of_eq {l l' : List α} (h : Shuffled (· = ·) l l') : l.Perm l' := by
  obtain ⟨m, hp, hf⟩ := h
  rw [List.forall₂_eq_eq_eq] at hf
  exact hf ▸ hp

/-- What the elements contribute is the same up to order. -/
theorem flatMap_perm {f : α → List β} (hf : ∀ a b, r a b → (f a).Perm (f b)) {l l' : List α}
    (h : Shuffled r l l') : (l.flatMap f).Perm (l'.flatMap f) :=
  perm_of_eq (flatMap (fun a b hab => of_perm (fun _ => rfl) (hf a b hab)) h)

theorem map {f : α → β} (hf : ∀ a b, r a b → q (f a) (f b)) {l l' : List α} (h : Shuffled r l l') :
    Shuffled q (l.map f) (l'.map f) := by
  obtain ⟨m, hp, hm⟩ := h
  exact ⟨m.map f, hp.map f, List.rel_map (fun a b hab => hf a b hab) hm⟩

theorem map_perm {f : α → β} (hf : ∀ a b, r a b → f a = f b) {l l' : List α} (h : Shuffled r l l') :
    (l.map f).Perm (l'.map f) := perm_of_eq (h.map hf)

theorem any_eq {p p' : α → Bool} (hp : ∀ a b, r a b → p a = p' b) {l l' : List α} (h : Shuffled r l l') :
    l.any p = l'.any p' := by
  obtain ⟨m, hm, hf⟩ := h
  rw [hm.any_eq]
  clear hm
  induction hf with
  | nil => rfl
  | cons hab _ ih => simp only [List.any_cons, hp _ _ hab, ih]

/-- A class of elements that `r` leaves as they are is only permuted. -/
theorem filter_perm {p : α → Bool} (hp : ∀ a b, r a b → p a = p b) (he : ∀ a b, r a b → p a = true → a = b)
    {l l' : List α} (h : Shuffled r l l') : (l.filter p).Perm (l'.filter p) := by
  obtain ⟨m, hm, hf⟩ := h
  refine (hm.filter p).trans ?_
  clear hm
  induction hf with
  | nil => exact .refl _
  | @cons a b m l hab _ ih =>
    by_cases ha : p a = true
    · have hb : p b = true := (hp a b hab) ▸ ha
      obtain rfl := he a b hab ha
      simpa [ha] using ih
    · have hb : ¬ p b = true := (hp a b hab) ▸ ha
      simpa [ha, hb] using ih

theorem exists_of_mem {l l' : List α} (h : Shuffled r l l') {a : α} (ha : a ∈ l) : ∃ b ∈ l', r a b := by
  obtain ⟨m, hm, hf⟩ := h
  have ham := hm.mem_iff.mp ha
  clear hm ha
  induction hf with
  | nil => cases ham
  | @cons x y m l' hxy _ ih =>
    cases ham with
    | head => exact ⟨y, List.mem_cons_self, hxy⟩
    | tail _ hm =>
      obtain ⟨b, hb, hr⟩ := ih hm
      exact ⟨b, List.mem_cons_of_mem y hb, hr⟩

/-- Lists that some map takes to permutations of each other. -/
theorem of_map_perm {f : α → β} {l l' : List α} (h : (l.map f).Perm (l'.map f)) :
    Shuffled (fun a b => f a = f b) l l' := by
  have hf : List.Forall₂ (fun x b => x = f b) (l'.map f) l' := by
    rw [List.forall₂_map_left_iff, List.forall₂_same]
    exact fun _ _ => rfl
  obtain ⟨m, hm, hp⟩ := List.perm_comp_forall₂ h hf
  rw [List.forall₂_map_left_iff] at hm
  have hself : Shuffled (fun a b => f a = f b) l m := ⟨l, .refl _, hm⟩
  exact hself.trans_perm hp

theorem imp_mem {s : α → α → Prop} {l l' : List α} (h : Shuffled r l l')
    (hs : ∀ a ∈ l, ∀ b ∈ l', r a b → s a b) : Shuffled s l l' := by
  obtain ⟨m, hm, hf⟩ := h
  exact ⟨m, hm, forall₂_imp_mem hf fun a ha => hs a (hm.mem_iff.mpr ha)⟩

end Shuffled

end Shuffle
