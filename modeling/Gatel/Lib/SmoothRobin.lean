import Mathlib

/-! Smooth weighted round robin, over any candidates. -/

namespace SmoothRobin

variable {ι : Type} [DecidableEq ι] {weight : ι → ℤ} {s : Finset ι}

/-- Credits after a round: everyone taking part is credited its weight, and the winner
pays the total. -/
def paid (weight : ι → ℤ) (s : Finset ι) (c : ι → ℤ) (winner i : ι) : ℤ :=
  c i + (if i ∈ s then weight i else 0) - if i = winner then ∑ j ∈ s, weight j else 0

/-- What a round costs its winner comes from those who took part. -/
theorem sum_paid {u : Finset ι} (hs : s ⊆ u) (c : ι → ℤ) {winner : ι} (hw : winner ∈ u) :
    ∑ i ∈ u, paid weight s c winner i = ∑ i ∈ u, c i := by
  have hcredit : ∑ i ∈ u, (if i ∈ s then weight i else 0) = ∑ i ∈ s, weight i := by
    rw [Finset.sum_ite_mem, Finset.inter_eq_right.mpr hs]
  have hdebit : ∑ i ∈ u, (if i = winner then ∑ j ∈ s, weight j else 0) = ∑ j ∈ s, weight j := by
    rw [Finset.sum_ite_eq' u winner, if_pos hw]
  simp only [paid, Finset.sum_sub_distrib, Finset.sum_add_distrib, hcredit, hdebit]
  omega

/-- What a group can be credited while candidates come and go: nothing or everyone sums
to zero, and half of them have the most. -/
def Spread (u : Finset ι) (bound : ℤ) (c : ι → ℤ) : Prop :=
  ∀ t ⊆ u, 2 * ∑ i ∈ t, c i ≤ bound * (t.card * (u.card - t.card))

theorem sum_paid_group (s t : Finset ι) (c : ι → ℤ) (winner : ι) :
    ∑ i ∈ t, paid weight s c winner i =
      ∑ i ∈ t, c i + ∑ i ∈ t ∩ s, weight i - if winner ∈ t then ∑ j ∈ s, weight j else 0 := by
  simp only [paid, Finset.sum_sub_distrib, Finset.sum_add_distrib, Finset.sum_ite_mem, Finset.sum_ite_eq']

theorem spread_paid {u : Finset ι} {bound : ℤ} {c : ι → ℤ} {winner : ι} (hs : s ⊆ u) (hw : ∀ i ∈ s, 0 ≤ weight i)
    (hb : ∑ i ∈ s, weight i ≤ bound) (hmem : winner ∈ s)
    (hg : ∀ i ∈ s, c i + weight i ≤ c winner + weight winner) (h : Spread u bound c) :
    Spread u bound (paid weight s c winner) := by
  intro t ht
  have hwin : ∀ {g : Finset ι}, g ⊆ s → ∑ i ∈ g, weight i ≤ ∑ i ∈ s, weight i := fun hgs =>
    Finset.sum_le_sum_of_subset_of_nonneg hgs fun i hi _ => hw i hi
  have hpart := hwin (@Finset.inter_subset_right _ _ t s)
  rw [sum_paid_group]
  by_cases hp : winner ∈ t
  · have := h t ht
    rw [if_pos hp]
    omega
  rw [if_neg hp, sub_zero]
  rcases Finset.eq_empty_or_nonempty (t ∩ s) with hempty | hnonempty
  · rw [hempty, Finset.sum_empty, add_zero]
    exact h t ht
  -- the group apart from those who took part, and the group joined by the winner
  have hrest := h (t \ s) (Finset.sdiff_subset.trans ht)
  have hjoined := h (insert winner t) (Finset.insert_subset (hs hmem) ht)
  have hmost : ∑ i ∈ t ∩ s, (c i + weight i) ≤ (t ∩ s).card * (c winner + weight winner) := by
    rw [← nsmul_eq_mul]
    exact Finset.sum_le_card_nsmul _ _ _ fun i hi => hg i (Finset.mem_inter.mp hi).2
  have hpay : ∑ i ∈ t ∩ s, weight i + weight winner ≤ bound := by
    have hnot : winner ∉ t ∩ s := fun hin => hp (Finset.mem_inter.mp hin).1
    have hall := hwin (Finset.insert_subset hmem (@Finset.inter_subset_right _ _ t s))
    rw [Finset.sum_insert hnot] at hall
    omega
  have hsplit : ∑ i ∈ t, c i = ∑ i ∈ t \ s, c i + ∑ i ∈ t ∩ s, c i := by
    rw [← Finset.sum_sdiff (@Finset.inter_subset_left _ _ t s), Finset.sdiff_inter_self_left]
  have hcard : (t.card : ℤ) = (t \ s).card + (t ∩ s).card := by
    rw [← Finset.card_sdiff_add_card_inter t s]
    push_cast
    ring
  rw [Finset.sum_insert hp, Finset.card_insert_of_notMem hp] at hjoined
  rw [Finset.sum_add_distrib] at hmost
  push_cast at hjoined
  rw [hcard] at hjoined ⊢
  rw [hsplit] at hjoined ⊢
  have hone : (1 : ℤ) ≤ (t ∩ s).card := by exact_mod_cast hnonempty.card_pos
  have hzero : 0 ≤ bound := (Finset.sum_nonneg hw).trans hb
  generalize ((t ∩ s).card : ℤ) = a at *
  generalize ((t \ s).card : ℤ) = k at *
  generalize (u.card : ℤ) = n at *
  generalize ∑ i ∈ t \ s, c i = rest at *
  generalize ∑ i ∈ t ∩ s, c i = took at *
  generalize ∑ i ∈ t ∩ s, weight i = given at *
  have hslack : 0 ≤ bound * (a * (a - 1)) := mul_nonneg hzero (mul_nonneg (by omega) (by omega))
  have hscaled : (a + 1) * (2 * (rest + took + given)) ≤ (a + 1) * (bound * ((k + a) * (n - (k + a)))) := by
    have hj := mul_le_mul_of_nonneg_left hjoined (by omega : (0 : ℤ) ≤ a)
    have hb := mul_le_mul_of_nonneg_left hpay (by omega : (0 : ℤ) ≤ 2 * a)
    linear_combination hrest + hj + hb + 2 * hmost + hslack
  exact le_of_mul_le_mul_left hscaled (by omega)

/-- Where everything sums to zero, nothing is far from it. -/
theorem Spread.abs_le {u : Finset ι} {bound : ℤ} {c : ι → ℤ} (h : Spread u bound c) (h0 : ∑ i ∈ u, c i = 0)
    {i : ι} (hi : i ∈ u) : 2 * |c i| ≤ bound * (u.card - 1) := by
  have hone := h {i} (Finset.singleton_subset_iff.mpr hi)
  have hothers := h (u.erase i) (Finset.erase_subset i u)
  have hsum := Finset.add_sum_erase u c hi
  rw [Finset.card_erase_of_mem hi, Nat.cast_sub (Finset.card_pos.mpr ⟨i, hi⟩)] at hothers
  rw [Finset.sum_singleton, Finset.card_singleton] at hone
  push_cast at hone hothers
  rw [h0] at hsum
  rcases abs_cases (c i) with ⟨hc, -⟩ | ⟨hc, -⟩
  · rw [hc]
    linarith
  · rw [hc]
    linarith

/-- A choice among the credited that takes one of the highest. -/
structure Robin (weight : ι → ℤ) (s : Finset ι) where
  pick : (ι → ℤ) → ι
  mem : ∀ c, pick c ∈ s
  greatest : ∀ c, ∀ i ∈ s, c i + weight i ≤ c (pick c) + weight (pick c)

namespace Robin
variable (r : Robin weight s)

def next (c : ι → ℤ) : ι → ℤ := paid weight s c (r.pick c)

/-- The credits after a number of rounds. -/
def credits (c : ι → ℤ) (t : ℕ) : ι → ℤ := r.next^[t] c

/-- How often a candidate was picked in the rounds before one. -/
def picks (c : ι → ℤ) (t : ℕ) (i : ι) : ℕ := (List.range t).countP fun k => r.pick (r.credits c k) = i

@[simp] theorem credits_zero (c : ι → ℤ) : r.credits c 0 = c := rfl

theorem credits_succ (c : ι → ℤ) (t : ℕ) : r.credits c (t + 1) = r.next (r.credits c t) :=
  Function.iterate_succ_apply' r.next t c

theorem credits_add (c : ι → ℤ) (t u : ℕ) : r.credits c (t + u) = r.credits (r.credits c u) t :=
  Function.iterate_add_apply r.next t u c

@[simp] theorem picks_zero (c : ι → ℤ) (i : ι) : r.picks c 0 i = 0 := rfl

theorem picks_succ (c : ι → ℤ) (t : ℕ) (i : ι) :
    r.picks c (t + 1) i = r.picks c t i + if r.pick (r.credits c t) = i then 1 else 0 := by
  simp [picks, List.range_succ]

theorem sum_next (c : ι → ℤ) : ∑ i ∈ s, r.next c i = ∑ i ∈ s, c i :=
  sum_paid (Finset.Subset.refl s) c (r.mem c)

theorem sum_credits {c : ι → ℤ} (h0 : ∑ i ∈ s, c i = 0) (t : ℕ) : ∑ i ∈ s, r.credits c t i = 0 := by
  induction t with
  | zero => exact h0
  | succ t ih => rw [credits_succ, sum_next, ih]

/-- A candidate's credit says how far its picks are behind its share. -/
theorem credits_eq (c : ι → ℤ) (t : ℕ) (i : ι) :
    r.credits c t i = c i + t * (if i ∈ s then weight i else 0) - r.picks c t i * ∑ j ∈ s, weight j := by
  induction t with
  | zero => simp
  | succ t ih =>
    rw [credits_succ, next, paid, ih, picks_succ]
    by_cases hi : r.pick (r.credits c t) = i
    · rw [if_pos hi, if_pos hi.symm]
      push_cast
      ring
    · rw [if_neg hi, if_neg (Ne.symm hi)]
      push_cast
      ring

omit [DecidableEq ι] in
/-- One of the highest credits of a round is positive. -/
theorem pick_pos {c : ι → ℤ} (h0 : ∑ i ∈ s, c i = 0) (hw : ∀ i ∈ s, 0 < weight i) :
    0 < c (r.pick c) + weight (r.pick c) := by
  have hpos : 0 < ∑ i ∈ s, weight i := Finset.sum_pos hw ⟨_, r.mem c⟩
  have hsum : ∑ i ∈ s, (c i + weight i) = ∑ i ∈ s, weight i := by
    rw [Finset.sum_add_distrib, h0, zero_add]
  by_contra hle
  have hnone : ∑ i ∈ s, (c i + weight i) ≤ 0 :=
    Finset.sum_nonpos fun i hi => (r.greatest c i hi).trans (not_lt.mp hle)
  omega

theorem next_of_mem {c : ι → ℤ} {i : ι} (hi : i ∈ s) :
    r.next c i = c i + weight i - if i = r.pick c then ∑ j ∈ s, weight j else 0 := by
  rw [next, paid, if_pos hi]

/-- No credit falls to the total below zero. -/
theorem neg_total_lt_next {c : ι → ℤ} (h0 : ∑ i ∈ s, c i = 0) (hw : ∀ i ∈ s, 0 < weight i)
    (hc : ∀ i ∈ s, -(∑ j ∈ s, weight j) < c i) : ∀ i ∈ s, -(∑ j ∈ s, weight j) < r.next c i := by
  intro i hi
  rw [r.next_of_mem hi]
  by_cases hp : i = r.pick c
  · have hpos := r.pick_pos h0 hw
    rw [← hp] at hpos
    rw [if_pos hp]
    omega
  · have := hc i hi
    have := hw i hi
    rw [if_neg hp]
    omega

theorem neg_total_lt_credits {c : ι → ℤ} (h0 : ∀ i ∈ s, c i = 0) (hw : ∀ i ∈ s, 0 < weight i) (t : ℕ) :
    ∀ i ∈ s, -(∑ j ∈ s, weight j) < r.credits c t i := by
  induction t with
  | zero =>
    intro i hi
    have hpos : 0 < ∑ j ∈ s, weight j := Finset.sum_pos hw ⟨i, hi⟩
    rw [credits_zero, h0 i hi]
    omega
  | succ t ih =>
    rw [credits_succ]
    exact r.neg_total_lt_next (r.sum_credits (Finset.sum_eq_zero h0) t) hw ih

theorem sum_picks (c : ι → ℤ) (t : ℕ) : ∑ i ∈ s, r.picks c t i = t := by
  induction t with
  | zero => simp
  | succ t ih =>
    have hone : ∑ i ∈ s, (if r.pick (r.credits c t) = i then 1 else 0) = 1 := by
      rw [Finset.sum_ite_eq s, if_pos (r.mem _)]
    simp only [picks_succ, Finset.sum_add_distrib, ih, hone]

section
variable {c : ι → ℤ} {total : ℕ}

/-- After as many rounds as the weights sum to, everyone had its share. -/
theorem picks_total (h0 : ∀ i ∈ s, c i = 0) (hw : ∀ i ∈ s, 0 < weight i) (ht : ∑ j ∈ s, weight j = total) :
    ∀ i ∈ s, (r.picks c total i : ℤ) = weight i := by
  have hle : ∀ i ∈ s, (r.picks c total i : ℤ) ≤ weight i := by
    intro i hi
    have hlow := r.neg_total_lt_credits h0 hw total i hi
    have hpos : (0 : ℤ) < total := ht ▸ Finset.sum_pos hw ⟨i, hi⟩
    rw [r.credits_eq, h0 i hi, if_pos hi, ht] at hlow
    by_contra hgt
    have hstep : weight i + 1 ≤ r.picks c total i := by omega
    nlinarith
  have hsum : ∑ i ∈ s, (r.picks c total i : ℤ) = ∑ i ∈ s, weight i := by
    rw [ht]
    exact_mod_cast r.sum_picks c total
  exact fun i hi => (Finset.sum_eq_sum_iff_of_le hle).mp hsum i hi

theorem credits_total (h0 : ∀ i ∈ s, c i = 0) (hw : ∀ i ∈ s, 0 < weight i) (ht : ∑ j ∈ s, weight j = total) :
    r.credits c total = c := by
  funext i
  rw [r.credits_eq, ht]
  by_cases hi : i ∈ s
  · rw [r.picks_total h0 hw ht i hi, if_pos hi]
    ring
  · have hnone : r.picks c total i = 0 := by
      refine List.countP_eq_zero.mpr ?_
      intro k hk hpick
      exact hi (of_decide_eq_true hpick ▸ r.mem _)
    rw [hnone, if_neg hi]
    simp

theorem credits_add_total (h0 : ∀ i ∈ s, c i = 0) (hw : ∀ i ∈ s, 0 < weight i) (ht : ∑ j ∈ s, weight j = total)
    (t : ℕ) : r.credits c (t + total) = r.credits c t := by
  rw [credits_add, r.credits_total h0 hw ht]

/-- The credits are back where they were after every such number of rounds. -/
theorem credits_mul_total (h0 : ∀ i ∈ s, c i = 0) (hw : ∀ i ∈ s, 0 < weight i) (ht : ∑ j ∈ s, weight j = total)
    (k : ℕ) : r.credits c (k * total) = c := by
  induction k with
  | zero => simp
  | succ k ih => rw [Nat.add_one_mul, r.credits_add_total h0 hw ht, ih]

/-- Every window of that many rounds is exact, wherever it starts. -/
theorem picks_window (h0 : ∀ i ∈ s, c i = 0) (hw : ∀ i ∈ s, 0 < weight i) (ht : ∑ j ∈ s, weight j = total)
    (t : ℕ) {i : ι} (hi : i ∈ s) : (r.picks c (t + total) i : ℤ) = r.picks c t i + weight i := by
  have hback := congrFun (r.credits_add_total h0 hw ht t) i
  have hpos : (0 : ℤ) < total := ht ▸ Finset.sum_pos hw ⟨i, hi⟩
  rw [r.credits_eq, r.credits_eq, if_pos hi, ht] at hback
  push_cast at hback
  refine mul_right_cancel₀ (ne_of_gt hpos) ?_
  linarith

end

/-! How high credits rise. -/

/-- The mean of a group a winner joins is no lower. -/
theorem sum_credited_le {c : ι → ℤ} {t : Finset ι} (ht : t ⊆ s) (hp : r.pick c ∉ t) :
    (t.card + 1) * ∑ i ∈ t, (c i + weight i) ≤ t.card * ∑ i ∈ insert (r.pick c) t, (c i + weight i) := by
  have hmost : ∑ i ∈ t, (c i + weight i) ≤ t.card * (c (r.pick c) + weight (r.pick c)) := by
    rw [← nsmul_eq_mul]
    exact Finset.sum_le_card_nsmul t _ _ fun i hi => r.greatest c i (ht hi)
  rw [Finset.sum_insert hp]
  linarith

/-- What a group of candidates can have been credited: the fewer, the more each. -/
def Below (weight : ι → ℤ) (s : Finset ι) (c : ι → ℤ) : Prop :=
  ∀ t ⊆ s, ((∑ i ∈ t, c i : ℤ) : ℚ) ≤
    t.card * ((∑ j ∈ s, weight j : ℤ) : ℚ) * (harmonic s.card - harmonic t.card)

theorem harmonic_mono {m n : ℕ} (h : m ≤ n) : harmonic m ≤ harmonic n := by
  refine Finset.sum_le_sum_of_subset_of_nonneg (Finset.range_mono h) ?_
  intro i _ _
  positivity

omit [DecidableEq ι] in
theorem below_of_zero {c : ι → ℤ} (h0 : ∀ i ∈ s, c i = 0) (hw : ∀ i ∈ s, 0 < weight i) : Below weight s c := by
  intro t ht
  have hpos : 0 ≤ ∑ j ∈ s, weight j := Finset.sum_nonneg fun i hi => (hw i hi).le
  rw [Finset.sum_eq_zero fun i hi => h0 i (ht hi), Int.cast_zero]
  refine mul_nonneg (mul_nonneg (Nat.cast_nonneg _) (by exact_mod_cast hpos)) ?_
  exact sub_nonneg.mpr (harmonic_mono (Finset.card_le_card ht))

theorem below_next {c : ι → ℤ} (hw : ∀ i ∈ s, 0 < weight i) (h : Below weight s c) : Below weight s (r.next c) := by
  intro t ht
  have hwt : ∑ i ∈ t, weight i ≤ ∑ j ∈ s, weight j :=
    Finset.sum_le_sum_of_subset_of_nonneg ht fun i hi _ => (hw i hi).le
  by_cases hp : r.pick c ∈ t
  · -- the winner paid more than the others of the group were credited
    have hsum : ∑ i ∈ t, r.next c i = ∑ i ∈ t, c i + ∑ i ∈ t, weight i - ∑ j ∈ s, weight j := by
      rw [Finset.sum_congr rfl fun i hi => r.next_of_mem (ht hi), Finset.sum_sub_distrib, Finset.sum_add_distrib,
        Finset.sum_ite_eq' t, if_pos hp]
    have hle : ∑ i ∈ t, r.next c i ≤ ∑ i ∈ t, c i := by omega
    exact (Int.cast_le.mpr hle).trans (h t ht)
  · have hsum : ∑ i ∈ t, r.next c i = ∑ i ∈ t, (c i + weight i) := by
      refine Finset.sum_congr rfl ?_
      intro i hi
      have hne : i ≠ r.pick c := fun he => hp (he ▸ hi)
      rw [r.next_of_mem (ht hi), if_neg hne, sub_zero]
    have hins : insert (r.pick c) t ⊆ s := Finset.insert_subset (r.mem c) ht
    have hcard : (insert (r.pick c) t).card = t.card + 1 := Finset.card_insert_of_notMem hp
    have hgroup := h _ hins
    have hwins : ∑ i ∈ insert (r.pick c) t, weight i ≤ ∑ j ∈ s, weight j :=
      Finset.sum_le_sum_of_subset_of_nonneg hins fun i hi _ => (hw i hi).le
    have hjoin := r.sum_credited_le ht hp
    rw [Finset.sum_add_distrib (s := insert (r.pick c) t)] at hjoin
    have hboth : (t.card + 1) * ∑ i ∈ t, (c i + weight i) ≤
        t.card * (∑ i ∈ insert (r.pick c) t, c i + ∑ j ∈ s, weight j) :=
      hjoin.trans (mul_le_mul_of_nonneg_left (by omega) (Int.natCast_nonneg _))
    have hbothQ : ((t.card : ℚ) + 1) * ((∑ i ∈ t, (c i + weight i) : ℤ) : ℚ) ≤
        t.card * (((∑ i ∈ insert (r.pick c) t, c i : ℤ) : ℚ) + ((∑ j ∈ s, weight j : ℤ) : ℚ)) := by
      exact_mod_cast hboth
    rw [hcard, harmonic_succ] at hgroup
    push_cast at hgroup
    rw [hsum]
    have hk : (0 : ℚ) < t.card + 1 := by positivity
    have hstep : (t.card : ℚ) * (((∑ i ∈ insert (r.pick c) t, c i : ℤ) : ℚ) + ((∑ j ∈ s, weight j : ℤ) : ℚ)) ≤
        (t.card + 1) * (t.card * ((∑ j ∈ s, weight j : ℤ) : ℚ) * (harmonic s.card - harmonic t.card)) := by
      have hinv : ((t.card : ℚ) + 1) * ((t.card : ℚ) + 1)⁻¹ = 1 := mul_inv_cancel₀ hk.ne'
      push_cast
      have := mul_le_mul_of_nonneg_left hgroup (Nat.cast_nonneg (α := ℚ) t.card)
      linear_combination this - (t.card : ℚ) * (∑ j ∈ s, (weight j : ℚ)) * hinv
    exact le_of_mul_le_mul_left (hbothQ.trans hstep) hk

theorem below_credits {c : ι → ℤ} (h0 : ∀ i ∈ s, c i = 0) (hw : ∀ i ∈ s, 0 < weight i) (t : ℕ) :
    Below weight s (r.credits c t) := by
  induction t with
  | zero => exact below_of_zero h0 hw
  | succ t ih =>
    rw [credits_succ]
    exact r.below_next hw ih

/-- No credit rises above the total times the harmonic number of the candidates less one. -/
theorem credits_le {c : ι → ℤ} (h0 : ∀ i ∈ s, c i = 0) (hw : ∀ i ∈ s, 0 < weight i) (t : ℕ) {i : ι} (hi : i ∈ s) :
    (r.credits c t i : ℚ) ≤ ((∑ j ∈ s, weight j : ℤ) : ℚ) * (harmonic s.card - 1) := by
  have h := r.below_credits h0 hw t {i} (Finset.singleton_subset_iff.mpr hi)
  simpa using h

end Robin
end SmoothRobin
