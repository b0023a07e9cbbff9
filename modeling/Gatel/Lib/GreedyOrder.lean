import Mathlib

namespace GreedyOrder
open Relation (TransGen)

section
variable {α : Type} (before : α → α → Prop)

/-- Nothing comes after what it has to precede. -/
def Respects (l : List α) : Prop := l.Pairwise fun a b => ¬ before b a

/-- A step of the precedence between two different items of a list. -/
def Edge (l : List α) (a b : α) : Prop := a ∈ l ∧ b ∈ l ∧ a ≠ b ∧ before a b

def Cyclic (l : List α) : Prop := ∃ a, TransGen (Edge before l) a a

/-- Lexicographically no later, by a comparison of the items. -/
def LexLE (cmp : α → α → Ordering) (l m : List α) : Prop :=
  l = m ∨ List.Lex (fun a b => cmp a b = .lt) l m

variable {before} {rest l m : List α} {a b : α}

theorem Edge.mono (hs : ∀ x ∈ l, x ∈ m) (h : Edge before l a b) : Edge before m a b :=
  ⟨hs a h.1, hs b h.2.1, h.2.2⟩

theorem Cyclic.mono (hs : ∀ x ∈ l, x ∈ m) (h : Cyclic before l) : Cyclic before m := by
  obtain ⟨a, ha⟩ := h
  exact ⟨a, ha.lift id fun x y hxy => Edge.mono hs hxy⟩

/-- Where everything has something to wait for, there is a cycle. -/
theorem cyclic_of_blocked (hne : rest ≠ [])
    (h : ∀ a ∈ rest, ∃ b ∈ rest, b ≠ a ∧ before b a) : Cyclic before rest := by
  by_contra hno
  have hirrefl : Std.Irrefl fun x y : { x // x ∈ rest } => TransGen (Edge before rest) x.1 y.1 :=
    ⟨fun x hx => hno ⟨x.1, hx⟩⟩
  have htrans : IsTrans { x // x ∈ rest } fun x y => TransGen (Edge before rest) x.1 y.1 :=
    ⟨fun _ _ _ hxy hyz => hxy.trans hyz⟩
  have hfinite : Finite { x // x ∈ rest } := rest.finite_toSet.to_subtype
  have hwf := Finite.wellFounded_of_trans_of_irrefl
    fun x y : { x // x ∈ rest } => TransGen (Edge before rest) x.1 y.1
  obtain ⟨first, hfirst⟩ := List.exists_mem_of_ne_nil rest hne
  obtain ⟨a, -, hmin⟩ := hwf.has_min Set.univ ⟨⟨first, hfirst⟩, trivial⟩
  obtain ⟨b, hb, hba, hbefore⟩ := h a.1 a.2
  exact hmin ⟨b, hb⟩ trivial (.single ⟨hb, a.2, hba, hbefore⟩)

variable [DecidableEq α]

/-- The position of an item only grows along the precedence. -/
theorem idxOf_lt_of_edge (hr : Respects before m) (hs : ∀ x ∈ l, x ∈ m) (h : Edge before l a b) :
    m.idxOf a < m.idxOf b := by
  obtain ⟨ha, hb, hne, hbefore⟩ := h
  have hia := List.idxOf_lt_length_of_mem (hs a ha)
  have hib := List.idxOf_lt_length_of_mem (hs b hb)
  rcases lt_trichotomy (m.idxOf a) (m.idxOf b) with hlt | heq | hgt
  · exact hlt
  · have hab := List.getElem_idxOf hia
    simp only [heq, List.getElem_idxOf] at hab
    exact absurd hab.symm hne
  · have hno := List.pairwise_iff_getElem.mp hr _ _ hib hia hgt
    rw [List.getElem_idxOf, List.getElem_idxOf] at hno
    exact absurd hbefore hno

/-- An order that respects the precedence leaves no room for a cycle. -/
theorem not_cyclic_of_respects (hr : Respects before m) (hs : ∀ x ∈ l, x ∈ m) : ¬ Cyclic before l := by
  rintro ⟨a, ha⟩
  have hlt : ∀ x y, TransGen (Edge before l) x y → m.idxOf x < m.idxOf y := by
    intro x y hxy
    induction hxy with
    | single h => exact idxOf_lt_of_edge hr hs h
    | tail _ h ih => exact lt_trans ih (idxOf_lt_of_edge hr hs h)
  exact lt_irrefl _ (hlt a a ha)

end

variable {α : Type} [DecidableEq α] (before : α → α → Prop) [DecidableRel before]

/-- Nothing else in the list has to precede this item. -/
def free (rest : List α) (a : α) : Bool := rest.all fun b => decide (b = a ∨ ¬ before b a)

/-- Take the first free item, again and again. -/
@[grind =] def greedy : Nat → List α → Option (List α)
  | 0, _ => some []
  | rounds + 1, rest =>
    match rest.find? (free before rest) with
    | none => none
    | some a => (greedy rounds (rest.erase a)).map (a :: ·)

variable {before} {rest l m : List α} {a b : α}

theorem free_iff : free before rest a = true ↔ ∀ b ∈ rest, b ≠ a → ¬ before b a := by
  simp only [free, List.all_eq_true, decide_eq_true_eq]
  constructor
  · intro h b hb hne
    exact (h b hb).resolve_left hne
  · intro h b hb
    by_cases hba : b = a
    · exact .inl hba
    · exact .inr (h b hb hba)

/-- What is picked first is free, and nothing before it is. -/
theorem greedy_succ {rounds : Nat} {result : List α} (h : greedy before (rounds + 1) rest = some result) :
    ∃ a tail, rest.find? (free before rest) = some a ∧
      greedy before rounds (rest.erase a) = some tail ∧ result = a :: tail := by
  rw [greedy] at h
  cases hf : rest.find? (free before rest) with
  | none => simp [hf] at h
  | some a =>
    simp only [hf, Option.map_eq_some_iff] at h
    obtain ⟨tail, ht, rfl⟩ := h
    exact ⟨a, tail, rfl, ht, rfl⟩

theorem greedy_perm {rounds : Nat} {result : List α} (hlen : rest.length = rounds)
    (h : greedy before rounds rest = some result) : result.Perm rest := by
  induction rounds generalizing rest result with
  | zero =>
    rw [List.eq_nil_of_length_eq_zero hlen]
    cases h
    exact .nil
  | succ rounds ih =>
    obtain ⟨a, tail, hf, ht, rfl⟩ := greedy_succ h
    have hmem := List.mem_of_find?_eq_some hf
    have hl : (rest.erase a).length = rounds := by
      rw [List.length_erase_of_mem hmem, hlen]
      rfl
    exact ((ih hl ht).cons a).trans (List.perm_cons_erase hmem).symm

theorem greedy_respects {rounds : Nat} {result : List α} (hnd : rest.Nodup) (hlen : rest.length = rounds)
    (h : greedy before rounds rest = some result) : Respects before result := by
  induction rounds generalizing rest result with
  | zero =>
    cases h
    exact .nil
  | succ rounds ih =>
    obtain ⟨a, tail, hf, ht, rfl⟩ := greedy_succ h
    have hmem := List.mem_of_find?_eq_some hf
    have hl : (rest.erase a).length = rounds := by
      rw [List.length_erase_of_mem hmem, hlen]
      rfl
    refine .cons ?_ (ih (hnd.erase a) hl ht)
    intro b hb
    have hb' := (greedy_perm hl ht).mem_iff.mp hb
    rw [hnd.mem_erase_iff] at hb'
    exact free_iff.1 (List.find?_some hf) b hb'.2 hb'.1

/-- No order that respects the precedence comes lexicographically before the greedy one. -/
theorem greedy_least {cmp : α → α → Ordering} {rounds : Nat} {result : List α}
    (hsorted : rest.Pairwise fun a b => cmp a b = .lt) (hnd : rest.Nodup) (hlen : rest.length = rounds)
    (h : greedy before rounds rest = some result) (hp : m.Perm rest) (hr : Respects before m) :
    LexLE cmp result m := by
  induction rounds generalizing rest result m with
  | zero =>
    rw [List.eq_nil_of_length_eq_zero hlen] at hp
    cases h
    exact .inl (List.perm_nil.mp hp).symm
  | succ rounds ih =>
    obtain ⟨a, tail, hf, ht, rfl⟩ := greedy_succ h
    have hmem := List.mem_of_find?_eq_some hf
    cases m with
    | nil =>
      rw [← hp.length_eq] at hlen
      cases hlen
    | cons c m =>
      have hc : c ∈ rest := hp.mem_iff.mp List.mem_cons_self
      have hfree : free before rest c = true := by
        apply free_iff.2
        intro b hb hne
        have hbm : b ∈ m := (List.mem_cons.mp (hp.mem_iff.mpr hb)).resolve_left hne
        exact List.rel_of_pairwise_cons hr hbm
      by_cases hca : c = a
      · subst hca
        have hl : (rest.erase c).length = rounds := by
          rw [List.length_erase_of_mem hmem, hlen]
          rfl
        have hpm : m.Perm (rest.erase c) := List.cons_perm_iff_perm_erase.mp hp |>.2
        rcases ih (hsorted.sublist List.erase_sublist) (hnd.erase c) hl ht hpm hr.of_cons with he | hlex
        · exact .inl (by rw [he])
        · exact .inr (.cons hlex)
      · -- the first free item stands before every other free one
        obtain ⟨-, front, back, hrest, hfront⟩ := List.find?_eq_some_iff_append.mp hf
        have hback : c ∈ back := by
          rw [hrest] at hc
          rcases List.mem_append.mp hc with hin | hin
          · have := hfront c hin
            rw [hfree] at this
            cases this
          · exact (List.mem_cons.mp hin).resolve_left hca
        rw [hrest] at hsorted
        have hlt := List.rel_of_pairwise_cons (List.pairwise_append.mp hsorted).2.1 hback
        exact .inr (.rel hlt)

/-- The greedy order is missing exactly when the precedence has a cycle. -/
theorem greedy_eq_none {rounds : Nat} (hnd : rest.Nodup) (hlen : rest.length = rounds) :
    greedy before rounds rest = none ↔ Cyclic before rest := by
  constructor
  · intro h
    induction rounds generalizing rest with
    | zero => cases h
    | succ rounds ih =>
      rw [greedy] at h
      cases hf : rest.find? (free before rest) with
      | none =>
        have hne : rest ≠ [] := by
          rintro rfl
          cases hlen
        apply cyclic_of_blocked hne
        intro a ha
        by_contra hno
        refine List.find?_eq_none.mp hf a ha (free_iff.2 ?_)
        intro b hb hba hbefore
        exact hno ⟨b, hb, hba, hbefore⟩
      | some a =>
        simp only [hf, Option.map_eq_none_iff] at h
        have hmem := List.mem_of_find?_eq_some hf
        have hl : (rest.erase a).length = rounds := by
          rw [List.length_erase_of_mem hmem, hlen]
          rfl
        exact (ih (hnd.erase a) hl h).mono fun x hx => List.mem_of_mem_erase hx
  · intro hc
    cases h : greedy before rounds rest with
    | none => rfl
    | some result =>
      have hp := greedy_perm hlen h
      exact absurd hc (not_cyclic_of_respects (greedy_respects hnd hlen h)
        fun x hx => hp.mem_iff.mpr hx)

end GreedyOrder
