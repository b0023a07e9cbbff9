import Mathlib

/-! Maps as lists of entries in the order of their keys. -/

namespace SortedMap

variable {κ ν : Type} [LinearOrder κ]

def Sorted (l : List (κ × ν)) : Prop := l.Pairwise fun a b => a.1 < b.1

def lookup (k : κ) (l : List (κ × ν)) : Option ν := (l.find? fun e => e.1 = k).map Prod.snd

/-- An entry under a key that is new, at its place. -/
@[grind =] def insert (k : κ) (v : ν) : List (κ × ν) → List (κ × ν)
  | [] => [(k, v)]
  | e :: l => if k < e.1 then (k, v) :: e :: l else e :: insert k v l

/-- Another value under a key that is there. -/
def replace (k : κ) (v : ν) (l : List (κ × ν)) : List (κ × ν) := l.map fun e => if e.1 = k then (k, v) else e

variable {k : κ} {v : ν} {l : List (κ × ν)}

theorem insert_perm (k : κ) (v : ν) (l : List (κ × ν)) : (insert k v l).Perm ((k, v) :: l) := by
  induction l with
  | nil => exact List.Perm.refl _
  | cons e l ih =>
    rw [insert]
    split
    · exact List.Perm.refl _
    · exact (ih.cons e).trans (List.Perm.swap _ _ _)

@[simp] theorem mem_insert {e : κ × ν} : e ∈ insert k v l ↔ e = (k, v) ∨ e ∈ l := by
  rw [(insert_perm k v l).mem_iff, List.mem_cons]

theorem Sorted.insert (h : Sorted l) (hk : k ∉ l.map Prod.fst) : Sorted (insert k v l) := by
  induction l with
  | nil => exact List.pairwise_singleton _ _
  | cons e l ih =>
    obtain ⟨hhead, htail⟩ := List.pairwise_cons.mp h
    rw [List.map_cons, List.mem_cons, not_or] at hk
    rw [SortedMap.insert]
    split
    · rename_i hlt
      refine List.pairwise_cons.mpr ⟨?_, h⟩
      intro x hx
      rcases List.mem_cons.mp hx with rfl | hx
      · exact hlt
      · exact hlt.trans (hhead x hx)
    · rename_i hlt
      refine List.pairwise_cons.mpr ⟨?_, ih htail hk.2⟩
      intro x hx
      rcases mem_insert.1 hx with rfl | hx
      · exact lt_of_le_of_ne (not_lt.mp hlt) (Ne.symm hk.1)
      · exact hhead x hx

theorem Sorted.keys_nodup (h : Sorted l) : (l.map Prod.fst).Nodup := by
  rw [List.nodup_iff_pairwise_ne, List.pairwise_map]
  exact h.imp ne_of_lt

theorem Sorted.unique (h : Sorted l) {a b : κ × ν} (ha : a ∈ l) (hb : b ∈ l) (he : a.1 = b.1) : a = b :=
  List.inj_on_of_nodup_map h.keys_nodup ha hb he

theorem mem_of_lookup (h : lookup k l = some v) : (k, v) ∈ l := by
  obtain ⟨e, he, rfl⟩ := Option.map_eq_some_iff.mp h
  have hk : e.1 = k := by simpa using List.find?_some he
  rw [← hk]
  exact List.mem_of_find?_eq_some he

/-- A key has the value it stands with. -/
theorem Sorted.lookup_eq (h : Sorted l) : lookup k l = some v ↔ (k, v) ∈ l := by
  constructor
  · exact mem_of_lookup
  · intro hm
    cases hl : lookup k l with
    | none =>
      rw [lookup, Option.map_eq_none_iff, List.find?_eq_none] at hl
      exact absurd (by simp) (hl (k, v) hm)
    | some w => rw [(Prod.mk.inj (h.unique (mem_of_lookup hl) hm rfl)).2]

theorem lookup_eq_none : lookup k l = none ↔ k ∉ l.map Prod.fst := by
  rw [lookup, Option.map_eq_none_iff, List.find?_eq_none]
  constructor
  · intro h hk
    obtain ⟨e, he, rfl⟩ := List.mem_map.mp hk
    exact absurd (by simp) (h e he)
  · intro h e he hk
    exact h (List.mem_map.mpr ⟨e, he, by simpa using hk⟩)

@[simp] theorem keys_replace (k : κ) (v : ν) (l : List (κ × ν)) : (replace k v l).map Prod.fst = l.map Prod.fst := by
  rw [replace, List.map_map]
  apply List.map_congr_left
  intro e _
  by_cases h : e.1 = k <;> simp [h]

theorem Sorted.replace (h : Sorted l) : Sorted (replace k v l) := by
  have hkeys : ((SortedMap.replace k v l).map Prod.fst).Pairwise (· < ·) := by
    rw [keys_replace]
    exact List.pairwise_map.mpr h
  exact List.pairwise_map.mp hkeys

theorem mem_replace {e : κ × ν} (h : e ∈ replace k v l) : e = (k, v) ∧ k ∈ l.map Prod.fst ∨ e ∈ l ∧ e.1 ≠ k := by
  obtain ⟨x, hx, rfl⟩ := List.mem_map.mp h
  by_cases hk : x.1 = k
  · rw [if_pos hk]
    exact .inl ⟨rfl, hk ▸ List.mem_map_of_mem hx⟩
  · rw [if_neg hk]
    exact .inr ⟨hx, hk⟩

theorem lookup_cons (e : κ × ν) (l : List (κ × ν)) (j : κ) : lookup j (e :: l) = if e.1 = j then some e.2 else lookup j l := by
  by_cases h : e.1 = j <;> simp [lookup, h]

theorem lookup_insert (hk : k ∉ l.map Prod.fst) (j : κ) : lookup j (insert k v l) = if k = j then some v else lookup j l := by
  induction l with
  | nil => rw [SortedMap.insert, lookup_cons]
  | cons e l ih =>
    rw [List.map_cons, List.mem_cons, not_or] at hk
    rw [SortedMap.insert]
    split
    · rw [lookup_cons]
    · rw [lookup_cons, lookup_cons, ih hk.2]
      by_cases he : e.1 = j
      · have hkj : k ≠ j := fun hkj => hk.1 (hkj.trans he.symm)
        simp [he, hkj]
      · simp [he]

theorem lookup_replace_ne {j : κ} (h : k ≠ j) : lookup j (replace k v l) = lookup j l := by
  induction l with
  | nil => rfl
  | cons e l ih =>
    rw [replace, List.map_cons, ← replace, lookup_cons, lookup_cons, ih]
    by_cases he : e.1 = k
    · simp [he, h]
    · simp [he]

theorem lookup_replace_self (hk : k ∈ l.map Prod.fst) : lookup k (replace k v l) = some v := by
  induction l with
  | nil => cases hk
  | cons e l ih =>
    rw [replace, List.map_cons, ← replace, lookup_cons]
    by_cases he : e.1 = k
    · simp [he]
    · simp [he, ih ((List.mem_cons.mp hk).resolve_left (Ne.symm he))]

/-- A measure of the entries follows a replaced value. -/
theorem Sorted.sum_replace (size : κ × ν → ℕ) (h : Sorted l) {old : ν} (hold : (k, old) ∈ l) :
    ((SortedMap.replace k v l).map size).sum + size (k, old) = (l.map size).sum + size (k, v) := by
  induction l with
  | nil => cases hold
  | cons e l ih =>
    obtain ⟨hhead, htail⟩ := List.pairwise_cons.mp h
    rw [SortedMap.replace, List.map_cons, List.map_cons, List.map_cons, List.sum_cons, List.sum_cons]
    rcases List.mem_cons.mp hold with rfl | hold
    · have hrest : l.map (fun e => if e.1 = k then (k, v) else e) = l := by
        conv_rhs => rw [← List.map_id l]
        apply List.map_congr_left
        intro x hx
        exact if_neg (hhead x hx).ne'
      rw [hrest, if_pos rfl]
      omega
    · have hne : e.1 ≠ k := (hhead _ hold).ne
      have hsum := ih htail hold
      rw [SortedMap.replace] at hsum
      rw [if_neg hne]
      omega

/-- One entry apart from the others. -/
theorem Sorted.perm_cons (h : Sorted l) (hm : (k, v) ∈ l) : l.Perm ((k, v) :: l.filter fun e => e.1 ≠ k) := by
  induction l with
  | nil => cases hm
  | cons e l ih =>
    obtain ⟨hhead, htail⟩ := List.pairwise_cons.mp h
    rcases List.mem_cons.mp hm with rfl | hm
    · have hrest : l.filter (fun e => e.1 ≠ k) = l := by
        apply List.filter_eq_self.mpr
        intro x hx
        exact decide_eq_true (hhead x hx).ne'
      rw [List.filter_cons_of_neg (by simp), hrest]
    · have hne : e.1 ≠ k := (hhead _ hm).ne
      rw [List.filter_cons_of_pos (by simpa using hne)]
      exact ((ih htail hm).cons e).trans (List.Perm.swap _ _ _)

end SortedMap
