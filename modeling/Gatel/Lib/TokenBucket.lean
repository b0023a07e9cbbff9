import Mathlib

/-! Buckets of whole tokens that fill at a rational rate: what comes in between two takes is cut to
whole tokens. -/

namespace TokenBucket

/-- The price of a take, the most a bucket holds, and what comes in a tick. -/
structure Params where
  price : ℕ
  capacity : ℕ
  rate : ℚ
  price_pos : 0 < price
  price_le : price ≤ capacity
  rate_pos : 0 < rate

structure Bucket where
  tokens : ℕ
  last : ℕ
  deriving DecidableEq

variable (p : Params)

/-- Whole tokens that come in over so many ticks. -/
def earned (ticks : ℕ) : ℕ := ⌊(ticks : ℚ) * p.rate⌋₊

def full (now : ℕ) : Bucket := ⟨p.capacity, now⟩

/-- What a bucket holds at a time. -/
def credit (b : Bucket) (now : ℕ) : ℕ := ⌊min ((b.tokens : ℚ) + ((now - b.last : ℕ) : ℚ) * p.rate) p.capacity⌋₊

/-- How long the rest of the price takes. -/
def wait (b : Bucket) (now : ℕ) : ℕ := ⌈((p.price - credit p b now : ℕ) : ℚ) / p.rate⌉₊

/-- A take: nothing, or how long to wait. -/
def take (b : Bucket) (now : ℕ) : Option ℕ × Bucket :=
  if p.price ≤ credit p b now then (none, ⟨credit p b now - p.price, now⟩) else (some (wait p b now), ⟨credit p b now, now⟩)

/-- Takes one after another, each with its time and its answer. -/
@[grind =] def run (b : Bucket) : List ℕ → List (ℕ × Option ℕ)
  | [] => []
  | now :: times => (now, (take p b now).1) :: run (take p b now).2 times

@[grind =] def after (b : Bucket) : List ℕ → Bucket
  | [] => b
  | now :: times => after (take p b now).2 times

variable {p} {b : Bucket} {now : ℕ}

theorem credit_eq (b : Bucket) (now : ℕ) : credit p b now = min (b.tokens + earned p (now - b.last)) p.capacity := by
  have hnn : (0 : ℚ) ≤ ((now - b.last : ℕ) : ℚ) * p.rate := mul_nonneg (Nat.cast_nonneg _) p.rate_pos.le
  have hfloor : ⌊(b.tokens : ℚ) + ((now - b.last : ℕ) : ℚ) * p.rate⌋₊ = b.tokens + earned p (now - b.last) := by
    rw [earned, add_comm, Nat.floor_add_natCast hnn, add_comm]
  rcases le_total ((b.tokens : ℚ) + ((now - b.last : ℕ) : ℚ) * p.rate) p.capacity with h | h
  · rw [credit, min_eq_left h, hfloor, min_eq_left]
    rw [← hfloor]
    exact Nat.floor_le_of_le h
  · rw [credit, min_eq_right h, Nat.floor_natCast, min_eq_right]
    rw [← hfloor]
    exact Nat.le_floor h

theorem credit_le (b : Bucket) (now : ℕ) : credit p b now ≤ p.capacity := by
  rw [credit_eq]
  exact min_le_right _ _

theorem earned_le (ticks : ℕ) : (earned p ticks : ℚ) ≤ ticks * p.rate :=
  Nat.floor_le (mul_nonneg (Nat.cast_nonneg _) p.rate_pos.le)

theorem take_admitted (h : p.price ≤ credit p b now) : take p b now = (none, ⟨credit p b now - p.price, now⟩) := if_pos h

theorem take_refused (h : credit p b now < p.price) : take p b now = (some (wait p b now), ⟨credit p b now, now⟩) :=
  if_neg (Nat.not_le.mpr h)

@[simp] theorem take_last (b : Bucket) (now : ℕ) : (take p b now).2.last = now := by
  rw [take]
  split <;> rfl

theorem take_tokens_le (b : Bucket) (now : ℕ) : (take p b now).2.tokens ≤ p.capacity := by
  have hle := credit_le (p := p) b now
  rw [take]
  split
  · exact (Nat.sub_le _ _).trans hle
  · exact hle

/-- A take is admitted exactly if it gets no wait. -/
theorem take_none : (take p b now).1 = none ↔ p.price ≤ credit p b now := by
  rw [take]
  split <;> grind

/-- A bucket that would be full by now is as good as a new one. -/
theorem credit_of_full (h : (p.capacity : ℚ) ≤ b.tokens + ((now - b.last : ℕ) : ℚ) * p.rate) : credit p b now = p.capacity := by
  rw [credit, min_eq_right h, Nat.floor_natCast]

theorem take_of_credit {b' : Bucket} (h : credit p b now = credit p b' now) : take p b now = take p b' now := by
  simp only [take, wait, h]

theorem credit_full (now : ℕ) : credit p (full p now) now = p.capacity := by
  apply credit_of_full
  simp [full]

/-! Admissions in an interval. -/

def admissions (l : List (ℕ × Option ℕ)) : List ℕ := l.filterMap fun x => if x.2 = none then some x.1 else none

theorem admissions_cons (b : Bucket) (now : ℕ) (times : List ℕ) : admissions (run p b (now :: times)) =
    if p.price ≤ credit p b now then now :: admissions (run p (take p b now).2 times)
    else admissions (run p (take p b now).2 times) := by
  by_cases h : p.price ≤ credit p b now
  · simp [run, admissions, take_admitted h, h]
  · simp [run, admissions, take_refused (Nat.not_le.mp h), h]

theorem admissions_mem {b : Bucket} {times : List ℕ} {t : ℕ} (h : t ∈ admissions (run p b times)) : t ∈ times := by
  induction times generalizing b with
  | nil => cases h
  | cons now times ih =>
    rw [admissions_cons] at h
    split at h
    · rcases List.mem_cons.mp h with rfl | h
      · exact List.mem_cons_self
      · exact List.mem_cons_of_mem now (ih h)
    · exact List.mem_cons_of_mem now (ih h)

/-- What a bucket holds pays for the takes that are admitted up to a time. -/
theorem admissions_le (b : Bucket) {times : List ℕ} {stop : ℕ} (h : (b.last :: times).Pairwise (· ≤ ·)) (hb : b.last ≤ stop) :
    (((admissions (run p b times)).filter (· ≤ stop)).length * p.price : ℚ) ≤ b.tokens + (stop - b.last : ℕ) * p.rate := by
  have hnn : (0 : ℚ) ≤ b.tokens + (stop - b.last : ℕ) * p.rate :=
    add_nonneg (Nat.cast_nonneg _) (mul_nonneg (Nat.cast_nonneg _) p.rate_pos.le)
  induction times generalizing b with
  | nil => simpa [run, admissions] using hnn
  | cons now times ih =>
    obtain ⟨hfirst, hrest⟩ := List.pairwise_cons.mp h
    have hnow := hfirst now List.mem_cons_self
    by_cases hend : now ≤ stop
    · have hnn' : (0 : ℚ) ≤ (take p b now).2.tokens + (stop - (take p b now).2.last : ℕ) * p.rate :=
        add_nonneg (Nat.cast_nonneg _) (mul_nonneg (Nat.cast_nonneg _) p.rate_pos.le)
      have hstep := ih (take p b now).2 (by rwa [take_last]) (by rwa [take_last]) hnn'
      have hcredit : (credit p b now : ℚ) ≤ b.tokens + (now - b.last : ℕ) * p.rate := by
        have hle : credit p b now ≤ b.tokens + earned p (now - b.last) := by
          rw [credit_eq]
          exact min_le_left _ _
        have hearned := earned_le (p := p) (now - b.last)
        have hcast : (credit p b now : ℚ) ≤ b.tokens + earned p (now - b.last) := by exact_mod_cast hle
        linarith
      have hsplit : ((stop - b.last : ℕ) : ℚ) * p.rate = (now - b.last : ℕ) * p.rate + (stop - now : ℕ) * p.rate := by
        rw [← add_mul, ← Nat.cast_add]
        congr 2
        omega
      rw [take_last] at hstep
      by_cases had : p.price ≤ credit p b now
      · have htokens : ((take p b now).2.tokens : ℚ) = credit p b now - p.price := by
          rw [take_admitted had, Nat.cast_sub had]
        rw [admissions_cons, if_pos had, List.filter_cons_of_pos (by simpa using hend), List.length_cons]
        push_cast
        linarith
      · have htokens : ((take p b now).2.tokens : ℚ) = credit p b now := by rw [take_refused (Nat.not_le.mp had)]
        rw [admissions_cons, if_neg had]
        linarith
    · have hnone : (admissions (run p b (now :: times))).filter (fun t => decide (t ≤ stop)) = [] := by
        apply List.filter_eq_nil_iff.mpr
        intro t ht
        have hlate : now ≤ t := by
          rcases List.mem_cons.mp (admissions_mem ht) with rfl | hin
          · exact le_rfl
          · exact (List.pairwise_cons.mp hrest).1 t hin
        simp only [decide_eq_true_eq]
        omega
      rw [hnone]
      simpa using hnn

theorem run_append (b : Bucket) (xs ys : List ℕ) : run p b (xs ++ ys) = run p b xs ++ run p (after p b xs) ys := by
  induction xs generalizing b with
  | nil => rfl
  | cons x xs ih => simp [run, after, ih]

theorem after_append (b : Bucket) (xs ys : List ℕ) : after p b (xs ++ ys) = after p (after p b xs) ys := by
  induction xs generalizing b with
  | nil => rfl
  | cons x xs ih => simp [after, ih]

@[simp] theorem run_times (b : Bucket) (times : List ℕ) : (run p b times).map Prod.fst = times := by
  induction times generalizing b with
  | nil => rfl
  | cons now times ih => simp [run, ih]

/-- In an interval a bucket admits what it can hold and what comes in. -/
theorem interval_le (b : Bucket) {times : List ℕ} (h : times.Pairwise (· ≤ ·)) (start ticks : ℕ) :
    (((admissions (run p b times)).filter fun t => start ≤ t ∧ t ≤ start + ticks).length * p.price : ℚ) ≤
      p.capacity + ticks * p.rate := by
  have hnn : (0 : ℚ) ≤ p.capacity + ticks * p.rate :=
    add_nonneg (Nat.cast_nonneg _) (mul_nonneg (Nat.cast_nonneg _) p.rate_pos.le)
  induction times generalizing b with
  | nil => simpa [run, admissions] using hnn
  | cons now times ih =>
    obtain ⟨hfirst, hrest⟩ := List.pairwise_cons.mp h
    by_cases hin : start ≤ now
    · by_cases hend : now ≤ start + ticks
      · -- From here on the bucket pays, and it holds its capacity at most.
        have hstate : run p b (now :: times) = run p ⟨credit p b now, now⟩ (now :: times) := by
          have hsame : take p b now = take p ⟨credit p b now, now⟩ now := by
            apply take_of_credit
            rw [credit_eq (p := p) ⟨credit p b now, now⟩]
            simp [earned, credit_le]
          simp only [run, hsame]
        have hpaid := admissions_le (p := p) ⟨credit p b now, now⟩ (List.pairwise_cons.mpr ⟨fun t ht => by
          rcases List.mem_cons.mp ht with rfl | ht
          · exact le_rfl
          · exact hfirst t ht, h⟩) hend
        have hsub : ((admissions (run p b (now :: times))).filter fun t => start ≤ t ∧ t ≤ start + ticks).length ≤
            ((admissions (run p b (now :: times))).filter (· ≤ start + ticks)).length := by
          apply List.Sublist.length_le
          apply List.monotone_filter_right
          intro t ht
          simp only [decide_eq_true_eq] at ht ⊢
          exact ht.2
        have hcount : (((admissions (run p b (now :: times))).filter fun t => start ≤ t ∧ t ≤ start + ticks).length : ℚ) *
            p.price ≤ ((admissions (run p b (now :: times))).filter (· ≤ start + ticks)).length * p.price :=
          mul_le_mul_of_nonneg_right (by exact_mod_cast hsub) (Nat.cast_nonneg _)
        rw [hstate] at hcount ⊢
        have hcredit : (credit p b now : ℚ) ≤ p.capacity := by exact_mod_cast credit_le (p := p) b now
        have hticks : ((start + ticks - now : ℕ) : ℚ) * p.rate ≤ ticks * p.rate := by
          apply mul_le_mul_of_nonneg_right _ p.rate_pos.le
          exact_mod_cast (by omega : start + ticks - now ≤ ticks)
        linarith
      · have hnone : (admissions (run p b (now :: times))).filter (fun t => start ≤ t ∧ t ≤ start + ticks) = [] := by
          apply List.filter_eq_nil_iff.mpr
          intro t ht
          have hlate : now ≤ t := by
            rcases List.mem_cons.mp (admissions_mem ht) with rfl | hm
            · exact le_rfl
            · exact hfirst t hm
          simp only [decide_eq_true_eq]
          omega
        rw [hnone]
        simpa using hnn
    · have hout : (admissions (run p b (now :: times))).filter (fun t => start ≤ t ∧ t ≤ start + ticks) =
          (admissions (run p (take p b now).2 times)).filter fun t => start ≤ t ∧ t ≤ start + ticks := by
        rw [admissions_cons]
        split
        · rw [List.filter_cons_of_neg (by simp [hin])]
        · rfl
      rw [hout]
      exact ih _ hrest

/-! What a refused take means for later ones. -/

/-- Whole tokens that come in over the gaps between these times. -/
@[grind =] def gaps (p : Params) : ℕ → List ℕ → ℕ
  | _, [] => 0
  | last, now :: times => earned p (now - last) + gaps p now times

/-- While the price cannot have come in nothing is admitted, and the first take after that finds what came in over
the gaps. -/
theorem first_after {tokens last stop t : ℕ} {mid : List ℕ} (h : (last :: mid).Pairwise (· ≤ ·)) (hmid : ∀ x ∈ mid, x ≤ stop)
    (hlast : last ≤ stop) (hshort : (tokens : ℚ) + (stop - last : ℕ) * p.rate < p.price) :
    p.price ≤ credit p (after p ⟨tokens, last⟩ mid) t ↔ p.price ≤ tokens + gaps p last (mid ++ [t]) := by
  induction mid generalizing tokens last with
  | nil =>
    rw [after, credit_eq]
    simp [gaps, p.price_le]
  | cons x mid ih =>
    obtain ⟨hfirst, hrest⟩ := List.pairwise_cons.mp h
    have hx := hfirst x List.mem_cons_self
    have hxs := hmid x List.mem_cons_self
    have hearned := earned_le (p := p) (x - last)
    have hsplit : ((stop - last : ℕ) : ℚ) * p.rate = (x - last : ℕ) * p.rate + (stop - x : ℕ) * p.rate := by
      rw [← add_mul, ← Nat.cast_add]
      congr 2
      omega
    have hnn : (0 : ℚ) ≤ (stop - x : ℕ) * p.rate := mul_nonneg (Nat.cast_nonneg _) p.rate_pos.le
    have htokens : tokens + earned p (x - last) < p.price := by
      have hcast : ((tokens + earned p (x - last) : ℕ) : ℚ) < p.price := by
        push_cast
        linarith
      exact_mod_cast hcast
    have hcredit : credit p ⟨tokens, last⟩ x = tokens + earned p (x - last) := by
      rw [credit_eq]
      exact min_eq_left (htokens.le.trans p.price_le)
    have hstep : (take p ⟨tokens, last⟩ x).2 = ⟨tokens + earned p (x - last), x⟩ := by
      rw [take_refused (by rwa [hcredit]), hcredit]
    rw [after, hstep, ih hrest (fun y hy => hmid y (List.mem_cons_of_mem x hy)) hxs (by push_cast; linarith), List.cons_append,
      gaps, Nat.add_assoc]

/-- Wherever a take is refused, the first one after the wait it was told is admitted, whatever was refused between. -/
def Undelayed (p : Params) (b : Bucket) (times : List ℕ) : Prop :=
  ∀ before s w mid t answer later, run p b times = before ++ (s, some w) :: (mid ++ (t, answer) :: later) →
    (∀ x ∈ mid, x.1 < s + w) → s + w ≤ t → answer = none

/-- Wherever a take finds too little, what comes in whole over the gaps makes up for it by the first take at which the rate
alone would. -/
def Covered (p : Params) (b : Bucket) (times : List ℕ) : Prop :=
  ∀ before s mid t later, times = before ++ s :: (mid ++ t :: later) → credit p (after p b before) s < p.price →
    (∀ x ∈ mid, ((x - s : ℕ) : ℚ) * p.rate < (p.price - credit p (after p b before) s : ℕ)) →
    ((p.price - credit p (after p b before) s : ℕ) : ℚ) ≤ (t - s : ℕ) * p.rate →
    p.price - credit p (after p b before) s ≤ gaps p s (mid ++ [t])

theorem wait_le_iff (b : Bucket) (now ticks : ℕ) :
    wait p b now ≤ ticks ↔ ((p.price - credit p b now : ℕ) : ℚ) ≤ ticks * p.rate := by
  rw [wait, Nat.ceil_le, div_le_iff₀ p.rate_pos]

theorem wait_pos (h : credit p b now < p.price) : 0 < wait p b now := by
  apply Nat.ceil_pos.mpr
  apply div_pos _ p.rate_pos
  exact_mod_cast Nat.sub_pos_of_lt h

/-- A refused take and the first one after its wait. -/
theorem admitted_after {s t : ℕ} {mid : List ℕ} (h : (s :: mid).Pairwise (· ≤ ·)) (href : credit p b s < p.price)
    (hmid : ∀ x ∈ mid, x < s + wait p b s) : (take p (after p b (s :: mid)) t).1 = none ↔
      p.price - credit p b s ≤ gaps p s (mid ++ [t]) := by
  have hpos := wait_pos href
  have hshort : (credit p b s : ℚ) + ((s + wait p b s - 1) - s : ℕ) * p.rate < p.price := by
    have hno := mt (wait_le_iff (p := p) b s (wait p b s - 1)).mpr (by omega)
    have hticks : s + wait p b s - 1 - s = wait p b s - 1 := by omega
    rw [not_le, Nat.cast_sub href.le] at hno
    rw [hticks]
    linarith
  rw [take_none, after, take_refused href,
    first_after h (fun x hx => Nat.le_sub_one_of_lt (hmid x hx)) (by omega) hshort]
  omega

theorem run_split {b : Bucket} {times : List ℕ} {before later : List (ℕ × Option ℕ)} {x : ℕ × Option ℕ}
    (h : run p b times = before ++ x :: later) :
    ∃ ts ts', times = ts ++ x.1 :: ts' ∧ before = run p b ts ∧ x.2 = (take p (after p b ts) x.1).1 ∧
      later = run p (take p (after p b ts) x.1).2 ts' := by
  induction before generalizing b times with
  | nil =>
    cases times with
    | nil => cases h
    | cons now times =>
      obtain ⟨rfl, rfl⟩ := List.cons.inj h
      exact ⟨[], times, rfl, rfl, rfl, rfl⟩
  | cons y before ih =>
    cases times with
    | nil => cases h
    | cons now times =>
      obtain ⟨rfl, htail⟩ := List.cons.inj h
      obtain ⟨ts, ts', rfl, rfl, hx, hlater⟩ := ih htail
      exact ⟨now :: ts, ts', rfl, rfl, hx, hlater⟩

theorem undelayed_iff {times : List ℕ} (h : times.Pairwise (· ≤ ·)) : Undelayed p b times ↔ Covered p b times := by
  constructor
  · intro hund before s mid t later htimes href hmid ht
    have hsorted : (s :: mid).Pairwise (· ≤ ·) := by
      rw [htimes] at h
      have hsub : (s :: mid).Sublist (before ++ s :: (mid ++ t :: later)) := by
        apply List.Sublist.trans _ (List.sublist_append_right before _)
        exact (List.sublist_append_left mid _).cons_cons s
      exact h.sublist hsub
    have hst : s ≤ t := by
      rw [htimes] at h
      exact (List.pairwise_cons.mp (List.pairwise_append.mp h).2.1).1 t (by simp)
    have hbefore : ∀ x ∈ mid, x < s + wait p (after p b before) s := by
      intro x hx
      have hno := mt (wait_le_iff (after p b before) s (x - s)).mp (not_le.mpr (hmid x hx))
      omega
    have hreach : s + wait p (after p b before) s ≤ t := by
      have hle := (wait_le_iff (after p b before) s (t - s)).mpr ht
      omega
    apply (admitted_after hsorted href hbefore).mp
    refine hund (run p b before) s (wait p (after p b before) s) (run p (take p (after p b before) s).2 mid) t _
      (run p (after p (after p b before) (s :: (mid ++ [t]))) later) ?_ ?_ hreach
    · rw [htimes, run_append, run, run_append, run, take_refused href]
      simp [after, after_append, take_refused href]
    · intro x hx
      apply hbefore
      rw [← run_times (p := p) (take p (after p b before) s).2 mid]
      exact List.mem_map_of_mem hx
  · intro hcov before s w mid t answer later hrun hmid ht
    obtain ⟨ts, rest, htimes, -, hs, hlater⟩ := run_split hrun
    obtain ⟨ms, rest', hrest, hms, ht', -⟩ := run_split hlater.symm
    dsimp only at hs ht' htimes hrest
    have href : credit p (after p b ts) s < p.price := by
      by_contra hno
      rw [take_none.2 (not_lt.mp hno)] at hs
      cases hs
    have hw : w = wait p (after p b ts) s := by
      rw [take_refused href] at hs
      exact Option.some.inj hs
    have hall : times = ts ++ s :: (ms ++ t :: rest') := by rw [htimes, hrest]
    have hin : ∀ x ∈ ms, x < s + wait p (after p b ts) s := by
      intro x hx
      have htimes' := run_times (p := p) (take p (after p b ts) s).2 ms
      rw [← hms] at htimes'
      rw [← htimes'] at hx
      obtain ⟨y, hy, rfl⟩ := List.mem_map.mp hx
      rw [← hw]
      exact hmid y hy
    have hsorted : (s :: ms).Pairwise (· ≤ ·) := by
      rw [hall] at h
      have hsub : (s :: ms).Sublist (ts ++ s :: (ms ++ t :: rest')) := by
        apply List.Sublist.trans _ (List.sublist_append_right ts _)
        exact (List.sublist_append_left ms _).cons_cons s
      exact h.sublist hsub
    have hle : ∀ x ∈ ms, s ≤ x := (List.pairwise_cons.mp hsorted).1
    rw [ht']
    apply (admitted_after hsorted href hin).mpr
    apply hcov ts s ms t rest' hall href
    · intro x hx
      have hbefore := hin x hx
      have hsx := hle x hx
      exact not_le.mp (mt (wait_le_iff (p := p) (after p b ts) s (x - s)).mpr (by omega))
    · apply (wait_le_iff (after p b ts) s (t - s)).mp
      omega

/-- A whole rate loses nothing to the gaps. -/
theorem gaps_whole {n : ℕ} (hrate : p.rate = n) {last t : ℕ} {mid : List ℕ} (h : (last :: (mid ++ [t])).Pairwise (· ≤ ·)) :
    gaps p last (mid ++ [t]) = (t - last) * n := by
  have hearned : ∀ ticks, earned p ticks = ticks * n := by
    intro ticks
    rw [earned, hrate, ← Nat.cast_mul, Nat.floor_natCast]
  induction mid generalizing last with
  | nil => simp [gaps, hearned]
  | cons x mid ih =>
    obtain ⟨hfirst, hrest⟩ := List.pairwise_cons.mp h
    have hx : last ≤ x := hfirst x List.mem_cons_self
    have ht : x ≤ t := (List.pairwise_cons.mp hrest).1 t (by simp)
    rw [List.cons_append, gaps, ih hrest, hearned, ← Nat.add_mul]
    congr 1
    omega

theorem covered_whole {n : ℕ} (hrate : p.rate = n) {times : List ℕ} (h : times.Pairwise (· ≤ ·)) : Covered p b times := by
  intro before s mid t later htimes _ _ hreach
  have hsorted : (s :: (mid ++ [t])).Pairwise (· ≤ ·) := by
    rw [htimes] at h
    have hsub : (s :: (mid ++ [t])).Sublist (before ++ s :: (mid ++ t :: later)) := by
      apply List.Sublist.trans _ (List.sublist_append_right before _)
      apply List.Sublist.cons_cons
      simp
    exact h.sublist hsub
  rw [gaps_whole hrate hsorted]
  rw [hrate] at hreach
  exact_mod_cast hreach

end TokenBucket
