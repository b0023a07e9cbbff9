import Gatel.Plan.HealthDecode
import Gatel.Plan.Reorder

namespace Gatel.State

/-! How long until the next probe of an endpoint. -/

/-- The milliseconds of a duration, in a word. -/
def millis (d : Duration) : U64 := Fin.ofNat _ (d.val / 10 ^ 6)

/-- Where in the spread a probe falls; the product and the sum wrap. -/
def probeOffset (spread index tick : U64) : Nat := (index * 2654435761 + tick).val % (spread.val * 2 + 1)

/-- Nothing is the answer where the arithmetic leaves a word or a duration. -/
def probeDelay (policy : Gatel.Health) (index tick : U64) : Option Duration :=
  if policy.jitter = 0 then some policy.interval
  else
    let spread := millis policy.jitter
    if spread.val * 2 + 1 < 2 ^ 64 then
      let later := policy.interval.val + probeOffset spread index tick * 10 ^ 6
      if h : later < 2 ^ 64 * 10 ^ 9 then
        if policy.jitter.val ≤ later then some ⟨later - policy.jitter.val, by omega⟩ else none
      else none
    else none

/-- There is a delay, and it is near the interval. -/
def Near (policy : Gatel.Health) (delay : Option Duration) : Prop :=
  ∃ d ∈ delay, policy.interval.val ≤ d.val + policy.jitter.val ∧ d.val ≤ policy.interval.val + policy.jitter.val

variable {policy : Gatel.Health}

theorem probeOffset_le (spread index tick : U64) : probeOffset spread index tick ≤ spread.val * 2 :=
  Nat.le_of_lt_succ (Nat.mod_lt _ (Nat.succ_pos _))

theorem probeOffset_zero (spread : U64) : probeOffset spread 0 0 = 0 := by simp [probeOffset]

theorem millis_val {d : Duration} (hj : d.val < 2 ^ 64 * 10 ^ 6) : (millis d).val = d.val / 10 ^ 6 :=
  Nat.mod_eq_of_lt (Nat.div_lt_of_lt_mul (by omega))

theorem near_of_le (hle : policy.jitter ≤ policy.interval) (hj : policy.jitter.val < 2 ^ 63 * 10 ^ 6)
    (hi : policy.interval.val < 2 ^ 64 * 10 ^ 6) (index tick : U64) : Near policy (probeDelay policy index tick) := by
  unfold probeDelay
  split
  · exact ⟨policy.interval, rfl, Nat.le_add_right _ _, Nat.le_add_right _ _⟩
  have hspread : (millis policy.jitter).val = policy.jitter.val / 10 ^ 6 := millis_val (by omega)
  have hhalf : policy.jitter.val / 10 ^ 6 < 2 ^ 63 := Nat.div_lt_of_lt_mul (by omega)
  have hmillis : policy.jitter.val / 10 ^ 6 * 10 ^ 6 ≤ policy.jitter.val := Nat.div_mul_le_self _ _
  have hoffset := probeOffset_le (millis policy.jitter) index tick
  have hle' : policy.jitter.val ≤ policy.interval.val := hle
  dsimp only
  rw [hspread] at hoffset ⊢
  rw [if_pos (by omega)]
  have hlater : policy.interval.val + probeOffset (millis policy.jitter) index tick * 10 ^ 6 < 2 ^ 64 * 10 ^ 9 := by omega
  rw [dif_pos hlater, if_pos (by omega)]
  exact ⟨_, rfl, by dsimp only; omega, by dsimp only; omega⟩

/-- At the first probe of the first endpoint there is no offset to make up for the jitter. -/
theorem not_near_of_lt (hlt : policy.interval < policy.jitter) : ¬ Near policy (probeDelay policy 0 0) := by
  rintro ⟨d, hd, -⟩
  have hlt' : policy.interval.val < policy.jitter.val := hlt
  have hne : policy.jitter ≠ 0 := by
    rintro h0
    rw [h0] at hlt'
    exact Nat.not_lt_zero _ hlt'
  unfold probeDelay at hd
  rw [if_neg hne] at hd
  simp only [probeOffset_zero, Nat.zero_mul, Nat.add_zero, not_le.mpr hlt', if_false] at hd
  split at hd
  · split at hd <;> cases hd
  · cases hd

theorem not_near_of_large (hne : policy.jitter ≠ 0) (hj : 2 ^ 63 * 10 ^ 6 ≤ policy.jitter.val)
    (hword : policy.jitter.val < 2 ^ 64 * 10 ^ 6) (index tick : U64) : ¬ Near policy (probeDelay policy index tick) := by
  rintro ⟨d, hd, -⟩
  have hhalf : 2 ^ 63 ≤ policy.jitter.val / 10 ^ 6 := (Nat.le_div_iff_mul_le (by decide)).mpr hj
  unfold probeDelay at hd
  dsimp only at hd
  rw [if_neg hne, millis_val hword, if_neg (by omega)] at hd
  cases hd

/-- The delays of an accepted health policy are there and near its interval for every endpoint
and tick exactly when its jitter is no longer than the interval, and half of a word of
milliseconds at most. -/
theorem probe_delay_near_iff {leaves : Leaves} {nodes : UpstreamNodes} {node : Node} {id : ResourceId}
    {owner : SourceId} {u : Upstream}
    (h : (decodeUpstreamBody leaves { nodes with health := HealthNode.fromNode } node id owner).value = some u)
    (hp : u.health = some policy) :
    (∀ index tick, Near policy (probeDelay policy index tick)) ↔
      policy.jitter ≤ policy.interval ∧ policy.jitter.val < 2 ^ 63 * 10 ^ 6 := by
  obtain ⟨child, d, hd, hinterval, hjitter⟩ := decodeUpstreamBody_health h hp
  obtain ⟨⟨-, hi⟩, hwhole⟩ := HealthNode.fromNode_whole hd
  rw [← hinterval] at hi hjitter
  have hj : policy.jitter.val < 2 ^ 64 * 10 ^ 6 := by
    rw [hjitter]
    cases hw : d.jitter with
    | some jitter => exact (hwhole jitter hw).2
    | none => exact (Nat.div_le_self _ _).trans_lt hi
  constructor
  · intro hall
    refine ⟨not_lt.mp fun hlt => not_near_of_lt hlt (hall 0 0), not_le.mp fun hlarge => ?_⟩
    have hne : policy.jitter ≠ 0 := by
      rintro h0
      rw [h0] at hlarge
      exact absurd hlarge (by decide)
    exact not_near_of_large hne hlarge hj 0 0 (hall 0 0)
  · rintro ⟨hle, hhalf⟩
    exact near_of_le hle hhalf hi

/-- A jitter that is left out always meets the condition. -/
theorem default_jitter_near {interval : Duration} (hi : interval.val < 2 ^ 64 * 10 ^ 6) :
    interval / 10 ≤ interval ∧ (interval / 10).val < 2 ^ 63 * 10 ^ 6 := by
  have hval : (interval / 10).val = interval.val / 10 := rfl
  refine ⟨Fin.le_def.mpr ?_, ?_⟩
  · rw [hval]
    exact Nat.div_le_self _ _
  · rw [hval]
    omega

/-! A backend probed every second, spread as it is written. -/

section
open Frontend.Sample (here text leaves endpointNode absent)

def written (name value : String) : Property := ⟨name, text value, here⟩

/-- A health check every second with some jitter. -/
def probedNode (jitter : String) : Node :=
  ⟨"upstream", [text "api"], [],
    [⟨"endpoint", [text "127.0.0.1:9000"], [], [], here⟩,
      ⟨"health", [text "tcp"], [written "interval" "1s", written "timeout" "1s", written "jitter" jitter], [], here⟩],
    here⟩

def sampleNodes : UpstreamNodes := ⟨endpointNode, absent, absent, absent, absent, absent, absent⟩

def everySecond (jitter : Duration) : Gatel.Health := ⟨.tcpConnect, .fromSecs 1, .fromSecs 1, 1, 2, jitter⟩

def decodedHealth (jitter : String) : Option (Option Gatel.Health) :=
  (decodeUpstreamBody leaves { sampleNodes with health := HealthNode.fromNode } (probedNode jitter)
    ⟨.upstream, "api"⟩ (.file "main")).value.map fun u => u.health

theorem decoded_half : decodedHealth "500ms" = some (some (everySecond ⟨500000000, by decide⟩)) := by decide

theorem decoded_twice : decodedHealth "2s" = some (some (everySecond (.fromSecs 2))) := by decide

theorem probe_delay_near_half :
    decodedHealth "500ms" = some (some (everySecond ⟨500000000, by decide⟩)) ∧
      ∀ index tick, Near (everySecond ⟨500000000, by decide⟩)
        (probeDelay (everySecond ⟨500000000, by decide⟩) index tick) := by
  obtain ⟨u, hu, hp⟩ := Option.map_eq_some_iff.mp decoded_half
  exact ⟨decoded_half, (probe_delay_near_iff hu hp).mpr (by decide)⟩

/-- A jitter of twice the interval is accepted, and the first probe has no delay to wait for. -/
theorem jitter_past_interval_underflows :
    decodedHealth "2s" = some (some (everySecond (.fromSecs 2))) ∧ probeDelay (everySecond (.fromSecs 2)) 0 0 = none :=
  ⟨decoded_twice, by decide⟩

end

end Gatel.State
