import Mathlib

/-! The running choice of a loop that keeps the best item seen so far. -/

namespace Extremum

section
variable {α : Type} (beats : α → α → Prop) [DecidableRel beats]

/-- The best item so far gives way to one that beats it. -/
@[grind =] def running (best : α) : List α → α
  | [] => best
  | a :: l => running (if beats a best then a else best) l

variable {beats}

theorem running_mem (best : α) (l : List α) : running beats best l ∈ best :: l := by
  induction l generalizing best with
  | nil => exact List.mem_cons_self
  | cons a l ih =>
    rw [running]
    rcases List.mem_cons.mp (ih (if beats a best then a else best)) with h | h
    · rw [h]
      split
      · exact List.mem_cons_of_mem best List.mem_cons_self
      · exact List.mem_cons_self
    · exact List.mem_cons_of_mem best (List.mem_cons_of_mem a h)

end

variable {α β : Type} [LinearOrder β]

/-- An item of the list with a greatest key. -/
def Top (key : α → β) (l : List α) (a : α) : Prop := a ∈ l ∧ ∀ b ∈ l, key b ≤ key a

variable {key : α → β} {l m : List α} {a b : α}

theorem running_mem_argmax {beats : α → α → Prop} [DecidableRel beats] (hb : ∀ a b, beats a b ↔ key b < key a)
    (best : α) (l : List α) : running beats best l ∈ List.argmax key (best :: l) := by
  have hfold : ∀ (best : α) (l : List α),
      l.foldl (List.argAux fun x y => key y < key x) (some best) = some (running beats best l) := by
    intro best l
    induction l generalizing best with
    | nil => rfl
    | cons a l ih =>
      rw [List.foldl_cons, running, ← ih]
      simp only [List.argAux, hb]
      split <;> rfl
  exact hfold best l

/-- The loop ends with the item of the greatest key. -/
theorem top_running {beats : α → α → Prop} [DecidableRel beats] (hb : ∀ a b, beats a b ↔ key b < key a)
    (best : α) (l : List α) : Top key (best :: l) (running beats best l) := by
  have h := running_mem_argmax hb best l
  exact ⟨List.argmax_mem h, fun x hx => List.le_of_mem_argmax hx h⟩

namespace Top

/-- Where keys tell the items apart there is one greatest. -/
theorem unique (hinj : ∀ x ∈ l, ∀ y ∈ l, key x = key y → x = y) (ha : Top key l a) (hb : Top key l b) : a = b :=
  hinj a ha.1 b hb.1 (le_antisymm (hb.2 a ha.1) (ha.2 b hb.1))

theorem perm (hp : l.Perm m) (h : Top key l a) : Top key m a :=
  ⟨hp.mem_iff.mp h.1, fun b hb => h.2 b (hp.mem_iff.mpr hb)⟩

/-- Fewer items leave the greatest among them what it was. -/
theorem of_subset (hs : m ⊆ l) (ha : a ∈ m) (h : Top key l a) : Top key m a :=
  ⟨ha, fun b hb => h.2 b (hs hb)⟩

/-- One more item changes nothing or is the greatest itself. -/
theorem of_cons {c : α} (h : Top key (c :: l) b) (hne : b ≠ c) : Top key l b :=
  ⟨(List.mem_cons.mp h.1).resolve_left hne, fun x hx => h.2 x (List.mem_cons_of_mem c hx)⟩

end Top

/-! The first of the greatest items, above a bound. -/

/-- The item whose key is above all seen so far, with that key. -/
def keepBest (key : α → β) (best : Option α × β) (a : α) : Option α × β := if key a > best.2 then (some a, key a) else best

/-- An item above the bound, those before it are below it and those behind it not above. -/
structure First (key : α → β) (bound : β) (l : List α) (a : α) (before after : List α) : Prop where
  split : l = before ++ a :: after
  above : bound < key a
  before : ∀ b ∈ before, key b < key a
  after : ∀ b ∈ after, key b ≤ key a

theorem foldl_keepBest (key : α → β) (bound : β) (l : List α) :
    (l.foldl (keepBest key) (none, bound) = (none, bound) ∧ ∀ a ∈ l, key a ≤ bound) ∨
      ∃ a before after, l.foldl (keepBest key) (none, bound) = (some a, key a) ∧ First key bound l a before after := by
  induction l using List.reverseRecOn with
  | nil => exact .inl ⟨rfl, by simp⟩
  | append_singleton l c ih =>
    rw [List.foldl_append, List.foldl_cons, List.foldl_nil]
    rcases ih with ⟨hfold, hall⟩ | ⟨a, before, after, hfold, hfirst⟩
    · rw [hfold, keepBest]
      split
      · rename_i hc
        exact .inr ⟨c, l, [], rfl, rfl, hc, fun b hb => (hall b hb).trans_lt hc, by simp⟩
      · rename_i hc
        refine .inl ⟨rfl, ?_⟩
        intro b hb
        rcases List.mem_append.mp hb with hb | hb
        · exact hall b hb
        · rw [List.mem_singleton.mp hb]
          exact not_lt.mp hc
    · have hle : ∀ b ∈ l, key b ≤ key a := by
        intro b hb
        rw [hfirst.split, List.mem_append, List.mem_cons] at hb
        rcases hb with hb | rfl | hb
        · exact (hfirst.before b hb).le
        · exact le_rfl
        · exact hfirst.after b hb
      rw [hfold, keepBest]
      split
      · rename_i hc
        exact .inr ⟨c, l, [], rfl, rfl, hfirst.above.trans hc, fun b hb => (hle b hb).trans_lt hc, by simp⟩
      · rename_i hc
        refine .inr ⟨a, before, after ++ [c], rfl, by simp [hfirst.split], hfirst.above, hfirst.before, ?_⟩
        intro b hb
        rcases List.mem_append.mp hb with hb | hb
        · exact hfirst.after b hb
        · rw [List.mem_singleton.mp hb]
          exact not_lt.mp hc

theorem First.unique {bound : β} {before after before' after' : List α} (h : First key bound l a before after)
    (h' : First key bound l b before' after') : a = b := by
  have hshorter : ∀ {a b : α} {before after before' after' : List α}, First key bound l a before after →
      First key bound l b before' after' → ¬ before.length < before'.length := by
    intro a b before after before' after' h h' hlt
    have ha : before'[before.length]? = some a := by
      have hget : l[before.length]? = some a := by simp [h.split]
      rwa [h'.split, List.getElem?_append_left hlt] at hget
    have hb : b ∈ after := by
      have hget : l[before'.length]? = some b := by simp [h'.split]
      rw [h.split, List.getElem?_append_right hlt.le, List.getElem?_cons, if_neg (by omega)] at hget
      exact List.mem_of_getElem? hget
    exact absurd (h'.before a (List.mem_of_getElem? ha)) (not_lt.mpr (h.after b hb))
  have hlength : before.length = before'.length := Nat.le_antisymm (not_lt.mp (hshorter h' h)) (not_lt.mp (hshorter h h'))
  obtain ⟨_, hcons⟩ := List.append_inj (h.split.symm.trans h'.split) hlength
  exact (List.cons.inj hcons).1

end Extremum
