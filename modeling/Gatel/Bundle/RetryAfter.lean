import Gatel.Bundle.RateLimit
import Gatel.Model.HashExact
import Gatel.Model.NetText

namespace Gatel.RateLimit
open TokenBucket (Bucket)

namespace Config

variable {c : Config} {b b' : Buckets} {key : String} {now : Instant}

/-- The credit a take of this key finds. -/
def credit (c : Config) (b : Buckets) (key : String) (now : Instant) : Nat :=
  ⌊min (c.filled ((b.inner.lookup key).getD ⟨c.capacity, now⟩) now) c.capacity⌋₊

/-- Making room for a key never touches the key itself. -/
theorem makeRoom_lookup (c : Config) (b : Buckets) (key : String) (now : Instant) :
    (c.makeRoom b key now).inner.lookup key = b.inner.lookup key := by
  by_cases hroom : b.inner.lookup key = none ∧ b.maxKeys ≤ b.inner.entries.length
  · rcases makeRoom_cases c b key now with ⟨m, hm, hlookup⟩ | hclear
    · rw [hm, hroom.1]
      rcases hlookup key with hsame | ⟨hgone, -⟩
      · exact hsame.trans hroom.1
      · exact hgone
    · rw [hclear, hroom.1]
      rfl
  · rw [makeRoom, if_neg hroom]

/-- A take sees its own bucket only. -/
theorem take_answer (c : Config) (b : Buckets) (key : String) (now : Instant) :
    (c.take b key now).1 = (c.takeFrom ((b.inner.lookup key).getD ⟨c.capacity, now⟩) now).1 := by
  rw [answer_of_take rfl, makeRoom_lookup]

theorem take_lookup (c : Config) (b : Buckets) (key : String) (now : Instant) : (c.take b key now).2.inner.lookup key =
    some (c.takeFrom ((b.inner.lookup key).getD ⟨c.capacity, now⟩) now).2 := by
  rw [buckets_of_take rfl, AList.lookup_insert, makeRoom_lookup]

/-- A take leaves the other keys' buckets alone or drops them. -/
theorem take_other {other : String} (hne : key ≠ other) : (c.take b other now).2.inner.lookup key = b.inner.lookup key ∨
    (c.take b other now).2.inner.lookup key = none := by
  have hinsert : (c.take b other now).2.inner.lookup key = (c.makeRoom b other now).inner.lookup key := by
    rw [buckets_of_take rfl, AList.lookup_insert_ne hne]
  rw [hinsert]
  rcases makeRoom_cases c b other now with ⟨m, hm, hlookup⟩ | hclear
  · rw [hm]
    rcases hlookup key with hsame | ⟨hgone, -⟩
    · exact .inl hsame
    · exact .inr hgone
  · rw [hclear]
    exact .inr rfl

theorem run_other {events : List (String × Instant)} (h : ∀ e ∈ events, key ≠ e.1) :
    (c.run b events).2.inner.lookup key = b.inner.lookup key ∨ (c.run b events).2.inner.lookup key = none := by
  induction events generalizing b with
  | nil => exact .inl rfl
  | cons event events ih =>
    have hrest := ih (b := (c.take b event.1 event.2).2) fun e he => h e (List.mem_cons_of_mem event he)
    have hone : (c.take b event.1 event.2).2.inner.lookup key = b.inner.lookup key ∨
        (c.take b event.1 event.2).2.inner.lookup key = none := take_other (h event List.mem_cons_self)
    rw [run]
    rcases hrest with hsame | hgone
    · rw [hsame]
      exact hone
    · exact .inr hgone

theorem tooMany_inj {m n : Nat} (h : c.tooMany m = c.tooMany n) : m = n := by
  simp only [tooMany, Outcome.answered.injEq, List.cons.injEq, Prod.mk.injEq, true_and, and_true] at h
  exact toString_inj (Hasher.utf8_injective h)

/-- The wait a refused take is told, in nanoseconds. -/
theorem takeFrom_error {bucket : Bucket} {wait : Nat} (h : (c.takeFrom bucket now).1 = .error wait) :
    ⌊min (c.filled bucket now) c.capacity⌋₊ < scale ∧ wait = TokenBucket.wait c.params bucket now ∧
      (c.takeFrom bucket now).2 = ⟨⌊min (c.filled bucket now) c.capacity⌋₊, now⟩ := by
  by_cases hlow : scale ≤ ⌊min (c.filled bucket now) c.capacity⌋₊
  · simp only [takeFrom, if_pos hlow] at h
    cases h
  · simp only [takeFrom, if_neg hlow] at h ⊢
    exact ⟨Nat.not_le.mp hlow, (Except.error.inj h).symm, trivial⟩

theorem takeFrom_ok {bucket : Bucket} : (∃ remaining, (c.takeFrom bucket now).1 = .ok remaining) ↔
    scale ≤ ⌊min (c.filled bucket now) c.capacity⌋₊ := by
  by_cases hlow : scale ≤ ⌊min (c.filled bucket now) c.capacity⌋₊
  · simp [takeFrom, hlow]
  · simp [takeFrom, hlow]

/-- What the rest of the price takes, in whole seconds rounded down but at least one, is enough exactly for a wait that is no
longer than a second or a whole number of them. -/
theorem seconds_enough (wait : Nat) : wait ≤ Max.max (wait / 10 ^ 9) 1 * 10 ^ 9 ↔ wait ≤ 10 ^ 9 ∨ 10 ^ 9 ∣ wait := by
  constructor
  · intro h
    rcases Nat.le_total (wait / 10 ^ 9) 1 with hone | hmore
    · rw [max_eq_right hone] at h
      exact .inl (by omega)
    · rw [max_eq_left hmore] at h
      right
      exact ⟨wait / 10 ^ 9, by omega⟩
  · rintro (h | ⟨k, rfl⟩)
    · have hle : 1 ≤ Max.max (wait / 10 ^ 9) 1 := le_max_right _ _
      omega
    · rw [Nat.mul_div_cancel_left k (by decide), mul_comm]
      exact Nat.mul_le_mul_right _ (le_max_left k 1)

/-- What a take of this key lacks. -/
def missing (c : Config) (b : Buckets) (key : String) (now : Instant) : Nat := scale - c.credit b key now

/-- What is missing comes in within a second, or in the last nanosecond of a whole second. -/
def OnTheSecond (c : Config) (missing : Nat) : Prop :=
  (missing : ℚ) ≤ 10 ^ 9 * c.perNano ∨
    ∃ seconds : Nat, ((seconds * 10 ^ 9 - 1 : ℚ)) * c.perNano < missing ∧ (missing : ℚ) ≤ seconds * 10 ^ 9 * c.perNano

/-- A client told to come back after so many seconds, and back then with the same key and not before, is let through. -/
def Sufficient (c : Config) (b : Buckets) (headers : HeaderMap) (clientIp : Option IpAddr) (now : Instant) : Prop :=
  ∀ key seconds b', c.key.extract headers clientIp = some key → c.handle b headers clientIp now = (c.tooMany seconds, b') →
    ∀ others : List (String × Instant), (∀ e ∈ others, key ≠ e.1 ∧ now ≤ e.2 ∧ e.2 ≤ now + seconds * 10 ^ 9) →
      ∀ headers' clientIp', c.key.extract headers' clientIp' = some key →
        ∃ added, (c.handle (c.run b' others).2 headers' clientIp' (now + seconds * 10 ^ 9)).1 = .next added

/-- A wait is so many ticks exactly if what is missing comes in during the last of them. -/
theorem wait_eq_iff (bucket : Bucket) (now : Instant) (ticks : Nat) : TokenBucket.wait c.params bucket now = ticks ↔
    ((ticks : ℚ) - 1) * c.perNano < (scale - TokenBucket.credit c.params bucket now : Nat) ∧
      ((scale - TokenBucket.credit c.params bucket now : Nat) : ℚ) ≤ ticks * c.perNano := by
  have hle : ∀ ticks : Nat, TokenBucket.wait c.params bucket now ≤ ticks ↔
      ((scale - TokenBucket.credit c.params bucket now : Nat) : ℚ) ≤ ticks * c.perNano :=
    TokenBucket.wait_le_iff bucket now
  rw [le_antisymm_iff, ← hle, and_comm]
  apply and_congr_left
  intro _
  cases ticks with
  | zero =>
    have hneg : ((0 : Nat) - 1 : ℚ) * c.perNano < 0 := by
      have hpos := c.perNano_pos
      push_cast
      linarith
    exact ⟨fun _ => lt_of_lt_of_le hneg (Nat.cast_nonneg _), fun _ => Nat.zero_le _⟩
  | succ ticks =>
    rw [Nat.succ_le_iff, ← not_le, hle, not_le]
    push_cast
    rw [add_sub_cancel_right]

theorem wait_iff (bucket : Bucket) (now : Instant) :
    TokenBucket.wait c.params bucket now ≤ 10 ^ 9 ∨ 10 ^ 9 ∣ TokenBucket.wait c.params bucket now ↔
      c.OnTheSecond (scale - TokenBucket.credit c.params bucket now) := by
  rw [OnTheSecond]
  apply or_congr
  · have hle := TokenBucket.wait_le_iff (p := c.params) bucket now (10 ^ 9)
    push_cast at hle
    exact hle
  · have heq : ∀ seconds : Nat, TokenBucket.wait c.params bucket now = seconds * 10 ^ 9 ↔
        ((seconds : ℚ) * 10 ^ 9 - 1) * c.perNano < (scale - TokenBucket.credit c.params bucket now : Nat) ∧
          ((scale - TokenBucket.credit c.params bucket now : Nat) : ℚ) ≤ seconds * 10 ^ 9 * c.perNano := by
      intro seconds
      rw [wait_eq_iff]
      push_cast
      rfl
    constructor
    · intro h
      obtain ⟨seconds, hseconds⟩ := h
      exact ⟨seconds, (heq seconds).mp (by rw [hseconds, mul_comm])⟩
    · intro h
      obtain ⟨seconds, hseconds⟩ := h
      exact ⟨seconds, by rw [(heq seconds).mpr hseconds, mul_comm]⟩

/-- What a take answers and leaves. -/
theorem take_parts (c : Config) (b : Buckets) (key : String) (now : Instant) :
    ∃ answer after, c.take b key now = (answer, after) ∧
      answer = (c.takeFrom ((b.inner.lookup key).getD ⟨c.capacity, now⟩) now).1 ∧
      after.inner.lookup key = some (c.takeFrom ((b.inner.lookup key).getD ⟨c.capacity, now⟩) now).2 :=
  ⟨_, _, Prod.mk.eta.symm, take_answer c b key now, take_lookup c b key now⟩

/-- The answer at a key, from what its bucket lacks. -/
theorem handle_of_key {headers : HeaderMap} {clientIp : Option IpAddr} (hkey : c.key.extract headers clientIp = some key) :
    (∃ added, (c.handle b headers clientIp now).1 = .next added) ↔ scale ≤ c.credit b key now := by
  obtain ⟨answer, after, htake, hanswer, -⟩ := take_parts c b key now
  rw [credit, ← takeFrom_ok, ← hanswer]
  cases answer with
  | ok remaining =>
    rw [handle_ok hkey htake]
    simp
  | error wait =>
    rw [handle_error hkey htake]
    simp [tooMany]

/-- A refusal: what it says, and what it leaves. -/
theorem handle_refused {headers : HeaderMap} {clientIp : Option IpAddr} (hkey : c.key.extract headers clientIp = some key)
    (hlow : c.credit b key now < scale) : ∃ wait after, c.handle b headers clientIp now =
      (c.tooMany (Max.max (wait / 10 ^ 9) 1), after) ∧ after.inner.lookup key = some ⟨c.credit b key now, now⟩ ∧
      wait = TokenBucket.wait c.params ((b.inner.lookup key).getD ⟨c.capacity, now⟩) now := by
  obtain ⟨answer, after, htake, hanswer, hlookup⟩ := take_parts c b key now
  cases answer with
  | ok remaining =>
    have hhigh := takeFrom_ok.1 ⟨remaining, hanswer.symm⟩
    rw [credit] at hlow
    exact absurd hlow (Nat.not_lt.mpr hhigh)
  | error wait =>
    obtain ⟨-, hwait, hbucket⟩ := takeFrom_error hanswer.symm
    refine ⟨wait, after, handle_error hkey htake, ?_, hwait⟩
    rw [hlookup, hbucket, credit]

/-- The credit some ticks after a refusal, while no one else takes from the bucket. -/
theorem credit_later {b b' : Buckets} {ticks : Nat} (hlow : c.credit b key now < scale)
    (hlookup : b'.inner.lookup key = some ⟨c.credit b key now, now⟩) :
    scale ≤ c.credit b' key (now + ticks) ↔
      TokenBucket.wait c.params ((b.inner.lookup key).getD ⟨c.capacity, now⟩) now ≤ ticks := by
  have hle := TokenBucket.wait_le_iff (p := c.params) ((b.inner.lookup key).getD ⟨c.capacity, now⟩) now ticks
  have hcredit : TokenBucket.credit c.params ((b.inner.lookup key).getD ⟨c.capacity, now⟩) now = c.credit b key now := rfl
  have hcapacity : (scale : ℚ) ≤ c.capacity := by exact_mod_cast c.params.price_le
  have hprice : c.params.price = scale := rfl
  have hrate : c.params.rate = c.perNano := rfl
  rw [hle, hcredit, hprice, hrate, Nat.cast_sub hlow.le, sub_le_iff_le_add', credit, hlookup, Option.getD_some, Nat.le_floor_iff'
    (by decide), le_min_iff, filled]
  simp [hcapacity]

theorem credit_absent (h : b.inner.lookup key = none) : c.credit b key now = c.capacity := by
  have hfull : c.filled ⟨c.capacity, now⟩ now = c.capacity := by simp [filled]
  rw [credit, h, Option.getD_none, hfull, min_self, Nat.floor_natCast]

/-- Coming back when told is enough exactly if what a refused take lacks comes in within a second, or by the end of a whole
number of them. -/
theorem retryAfter_iff (c : Config) (b : Buckets) (headers : HeaderMap) (clientIp : Option IpAddr) (now : Instant) :
    Sufficient c b headers clientIp now ↔
      ∀ key, c.key.extract headers clientIp = some key → c.OnTheSecond (c.missing b key now) := by
  constructor
  · intro h key hkey
    rcases Nat.lt_or_ge (c.credit b key now) scale with hlow | hhigh
    · obtain ⟨wait, after, hhandle, hlookup, hwait⟩ := handle_refused hkey hlow
      have hback := h key _ after hkey hhandle [] (by simp) headers clientIp hkey
      rw [handle_of_key hkey] at hback
      have hle := (credit_later hlow hlookup).mp hback
      rw [← hwait] at hle
      have hseconds := (seconds_enough wait).mp hle
      rw [hwait] at hseconds
      exact (wait_iff _ now).mp hseconds
    · left
      rw [missing, Nat.sub_eq_zero_of_le hhigh, Nat.cast_zero]
      exact mul_nonneg (by norm_num) c.perNano_pos.le
  · intro h key seconds b' hkey hhandle others hothers headers' clientIp' hkey'
    rw [handle_of_key hkey']
    rcases run_other (c := c) (b := b') fun e he => (hothers e he).1 with hsame | hgone
    · have hlow : c.credit b key now < scale := by
        by_contra hhigh
        obtain ⟨added, hnext⟩ := (handle_of_key hkey).mpr (not_lt.mp hhigh)
        rw [hhandle] at hnext
        cases hnext
      obtain ⟨wait, after, hrefused, hlookup, hwait⟩ := handle_refused hkey hlow
      obtain ⟨hanswer, rfl⟩ := Prod.mk.inj (hhandle.symm.trans hrefused)
      rw [credit_later hlow (hsame.trans hlookup), ← hwait, tooMany_inj hanswer]
      apply (seconds_enough wait).mpr
      rw [hwait]
      exact (wait_iff _ now).mpr (h key hkey)
    · -- A bucket that was dropped starts full.
      rw [credit_absent hgone]
      exact c.params.price_le

/-- One request in two and a half seconds. -/
def slow : Config where
  max := 1
  window := ⟨2500000000, by decide⟩
  key := .route
  maxKeys := 100000
  max_pos := oneASecond.max_pos
  window_pos := by decide
  maxKeys_pos := oneASecond.maxKeys_pos

/-- A client told two seconds waits for two seconds, and is refused again. -/
theorem slow_refused_again : ¬ Sufficient slow (slow.take slow.fresh "" 0).2 [] none 0 := by
  intro h
  have hcredit : slow.credit (slow.take slow.fresh "" 0).2 "" 0 = 0 := by decide +kernel
  have hlow : slow.credit (slow.take slow.fresh "" 0).2 "" 0 < scale := by
    rw [hcredit]
    decide
  obtain ⟨wait, after, hhandle, hlookup, hwait⟩ := handle_refused (c := slow) (rfl : slow.key.extract [] none = some "") hlow
  have hlong : wait = 2500000000 := by
    rw [hwait]
    decide +kernel
  have hback := h "" _ after rfl hhandle [] (by simp) [] none rfl
  rw [handle_of_key (rfl : slow.key.extract [] none = some ""), run, credit_later hlow hlookup, ← hwait, hlong] at hback
  revert hback
  decide

end Config
end Gatel.RateLimit
