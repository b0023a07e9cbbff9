import Mathlib

/-! Parties in a list, some of which hold something. -/

namespace Holdings

variable {τ ρ : Type} (held : τ → Option ρ)

/-- What is held by anyone. -/
def all (l : List τ) : List ρ := l.filterMap held

variable {held} {l : List τ} {i : ℕ} {t t' : τ}

@[simp] theorem all_nil : all held [] = [] := rfl

theorem all_append (l : List τ) (t : τ) : all held (l ++ [t]) = all held l ++ (held t).toList := by
  rw [all, List.filterMap_append, ← all]
  cases h : held t <;> simp [h]

/-- One party changes: its share goes, and another comes. -/
theorem all_set (h : l[i]? = some t) :
    ((held t).toList ++ all held (l.set i t')).Perm ((held t').toList ++ all held l) := by
  induction l generalizing i with
  | nil => cases h
  | cons a l ih =>
    have hcons : ∀ (a : τ) (l : List τ), all held (a :: l) = (held a).toList ++ all held l := by
      intro a l
      cases ha : held a <;> simp [all, ha]
    cases i with
    | zero =>
      obtain rfl : a = t := by simpa using h
      rw [List.set_cons_zero, hcons, hcons, ← List.append_assoc, ← List.append_assoc]
      exact List.perm_append_comm.append_right _
    | succ i =>
      rw [List.set_cons_succ, hcons, hcons, ← List.append_assoc, ← List.append_assoc]
      have hswap : ∀ x y z : List ρ, (x ++ y ++ z).Perm (y ++ (x ++ z)) := by
        intro x y z
        rw [← List.append_assoc]
        exact List.perm_append_comm.append_right z
      exact (hswap _ _ _).trans (((ih (by simpa using h)).append_left _).trans (hswap _ _ _).symm)

/-- What one party gives up leaves the rest. -/
theorem all_release {r : ρ} (h : l[i]? = some t) (hr : held t = some r) (hn : held t' = none) :
    (r :: all held (l.set i t')).Perm (all held l) := by
  have hset := @all_set _ _ held _ _ _ t' h
  simpa [hr, hn] using hset

theorem all_keep (h : l[i]? = some t) (hr : held t' = held t) : (all held (l.set i t')).Perm (all held l) := by
  have hset := @all_set _ _ held _ _ _ t' h
  rw [hr] at hset
  exact (List.perm_append_left_iff _).mp hset

theorem mem_all {r : ρ} (h : l[i]? = some t) (hr : held t = some r) : r ∈ all held l :=
  List.mem_filterMap.mpr ⟨t, List.mem_of_getElem? h, hr⟩

end Holdings
