import Mathlib

namespace CanonicalSort
open Std (TransCmp OrientedCmp)

variable {α β : Type} {cmp : α → α → Ordering}

/-- A comparison through a key. -/
theorem transCmp_on {cmp : β → β → Ordering} [TransCmp cmp] (f : α → β) :
    TransCmp fun a b => cmp (f a) (f b) where
  eq_swap := OrientedCmp.eq_swap
  isLE_trans := TransCmp.isLE_trans

/-- A stable sort by a three-way comparison. -/
def sortBy (cmp : α → α → Ordering) (l : List α) : List α :=
  l.insertionSort fun a b => (cmp a b).isLE = true

theorem sortBy_perm (cmp : α → α → Ordering) (l : List α) : (sortBy cmp l).Perm l :=
  List.perm_insertionSort _ l

@[simp] theorem mem_sortBy {a : α} {l : List α} : a ∈ sortBy cmp l ↔ a ∈ l :=
  (sortBy_perm cmp l).mem_iff

theorem sortBy_pairwise [TransCmp cmp] (l : List α) :
    (sortBy cmp l).Pairwise fun a b => (cmp a b).isLE = true := by
  have htotal : Std.Total fun a b => (cmp a b).isLE = true := by
    refine ⟨fun a b => ?_⟩
    rw [@OrientedCmp.eq_swap α cmp _ b a]
    cases cmp a b <;> simp
  have htrans : IsTrans α fun a b => (cmp a b).isLE = true := ⟨fun _ _ _ => TransCmp.isLE_trans⟩
  exact List.pairwise_insertionSort _ l

/-- Two orders of one collection sort to the same list when ties are impossible. -/
theorem sortBy_eq_of_perm [TransCmp cmp] {l l' : List α} (hp : l.Perm l')
    (ht : ∀ a ∈ l, ∀ b ∈ l, cmp a b = .eq → a = b) : sortBy cmp l = sortBy cmp l' := by
  have hs : (sortBy cmp l).Perm (sortBy cmp l') :=
    (sortBy_perm cmp l).trans (hp.trans (sortBy_perm cmp l').symm)
  refine hs.eq_of_pairwise ?_ (sortBy_pairwise l) (sortBy_pairwise l')
  intro a b ha hb hab hba
  refine ht a (mem_sortBy.1 ha) b (hp.mem_iff.mpr (mem_sortBy.1 hb)) ?_
  exact OrientedCmp.isLE_antisymm hab hba

/-- Sorting commutes with a map that the comparison sees through. -/
theorem map_sortBy (f : α → β) {cmp' : β → β → Ordering} (hf : ∀ a b, cmp a b = cmp' (f a) (f b))
    (l : List α) : (sortBy cmp l).map f = sortBy cmp' (l.map f) := by
  refine List.map_insertionSort _ _ f l ?_
  intro a _ b _
  rw [hf a b]

end CanonicalSort
