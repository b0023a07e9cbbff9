import Gatel.State.Endpoint

namespace Gatel.State
open Run (run run_append)

/-! The passive policy over a whole run of reports. -/

/-- What a passive policy keeps of the failures reported: the window they are counted in, how
many it counts, and until when they last took the endpoint out. -/
structure Ejection where
  started : Option Instant
  counted : Nat
  deadline : Option Instant
  deriving DecidableEq

namespace Ejection

def fresh : Ejection := ⟨none, 0, none⟩

/-- A cooldown that is over takes the failures it was about with it. -/
def elapse (x : Ejection) (now : Instant) : Ejection :=
  if x.deadline.any fun deadline => deadline ≤ now then ⟨x.started, 0, none⟩ else x

/-- The window a failure belongs to. -/
def enter (policy : PassiveHealth) (x : Ejection) (now : Instant) : Ejection :=
  if x.started.any fun started => now - started < policy.window.val then x else ⟨some now, 0, x.deadline⟩

/-- A failure fills the window while nothing keeps the endpoint out. -/
def Reaches (policy : PassiveHealth) (x : Ejection) (now : Instant) : Prop :=
  (x.elapse now).deadline = none ∧ policy.maxFails.val ≤ ((x.elapse now).enter policy now).counted + 1

instance (policy : PassiveHealth) (x : Ejection) (now : Instant) : Decidable (x.Reaches policy now) :=
  inferInstanceAs (Decidable (_ ∧ _))

def fail (policy : PassiveHealth) (x : Ejection) (now : Instant) : Ejection where
  started := ((x.elapse now).enter policy now).started
  counted := ((x.elapse now).enter policy now).counted + 1
  deadline := if x.Reaches policy now then some (now + policy.cooldown.val) else (x.elapse now).deadline

/-- A probe streak clears what live traffic said. -/
def recover (x : Ejection) : Ejection := ⟨x.started, 0, none⟩

end Ejection

namespace EndpointSet

/-- When a call was made, where that matters. -/
def Call.time? : Call → Option Instant
  | .traffic _ _ now => some now
  | .eligible now => some now
  | .probe _ _ | .drain _ | .undrain _ => none

def times (calls : List Call) : List Instant := calls.filterMap Call.time?

/-- A probe completes a streak of successes. -/
def Recovers (s : EndpointSet) (id : String) (c : Call) : Prop := s.Overrides id c ∧ c = .probe id true

instance (s : EndpointSet) (id : String) : DecidablePred (s.Recovers id) :=
  fun c => inferInstanceAs (Decidable (s.Overrides id c ∧ c = .probe id true))

/-- What the policy makes of a report that completes no streak. -/
@[grind =] def hear (id : String) (policy : PassiveHealth) (x : Ejection) : Call → Ejection
  | .traffic other failed now => if other = id ∧ failed = true then x.fail policy now else x
  | .probe _ _ | .eligible _ | .drain _ | .undrain _ => x

/-- A run next to what the policy makes of the reports on one endpoint. -/
def watch (id : String) (policy : PassiveHealth) (w : EndpointSet × Ejection) (c : Call) : EndpointSet × Ejection :=
  (w.1.step c, if w.1.Recovers id c then w.2.recover else hear id policy w.2 c)

/-- What the policy makes of a run, from a set in use for the first time. -/
def ejection (s : EndpointSet) (id : String) (policy : PassiveHealth) (calls : List Call) : Ejection :=
  (run (watch id policy) (s, .fresh) calls).2

/-- No failure is reported while a deadline that has passed is still in place. -/
def Looked (s : EndpointSet) (id : String) (calls : List Call) : Prop :=
  ∀ past now, past ++ [.traffic id true now] <+: calls →
    ∀ e ∈ (run step s past).get id, ∀ deadline ∈ e.ejectedUntil, now < deadline

/-- A failure that fills the window takes the endpoint out for the whole cooldown, and no
longer. -/
def CooldownHolds (s : EndpointSet) (id : String) (policy : PassiveHealth) (calls : List Call) : Prop :=
  ∀ past since later, calls = past ++ .traffic id true since :: later →
    (s.ejection id policy past).Reaches policy since →
    (∀ between c, between ++ [c] <+: later →
      ¬ (run step s (past ++ .traffic id true since :: between)).Recovers id c) →
    ∀ i, s.position id = some i → ∀ now, (∀ t ∈ times calls, t ≤ now) →
      (now < since + policy.cooldown.val → i ∉ ((run step s calls).eligible now).1) ∧
      (since + policy.cooldown.val ≤ now → (∀ t, .traffic id true t ∈ later → t < since + policy.cooldown.val) →
        (i ∈ ((run step s calls).eligible now).1 ↔
          (run step s calls).healthOf id = some .healthy ∨ (run step s calls).healthOf id = some .unknown))

/-! What one call leaves of the endpoint. -/

variable {s : EndpointSet} {id : String} {policy : PassiveHealth} {e : Endpoint} {x : Ejection}

theorem id_of_get (h : s.get id = some e) : e.id = id := by
  have := List.find?_some h
  simpa using this

theorem get_step_probe (h : s.get id = some e) (other : String) (success : Bool) :
    (s.step (.probe other success)).get id =
      some (if other = id then s.active.elim e fun policy => e.probed policy success else e) := by
  change (s.reportProbe other success).2.get id = _
  unfold reportProbe
  split
  · rename_i e' policy he ha
    dsimp only
    rw [get_modify fun e => id_of_written (probed_written policy success e), h, ha]
    split <;> rfl
  · rename_i hno
    rw [h]
    split
    · rename_i heq
      subst heq
      cases hact : s.active with
      | none => rfl
      | some policy => exact absurd hact (hno e policy h)
    · rfl

theorem get_step_traffic (h : s.get id = some e) (hp : s.passive = some policy) (other : String) (failed : Bool)
    (now : Instant) : (s.step (.traffic other failed now)).get id =
      some (if other = id ∧ failed = true then (e.failed policy now).2 else e) := by
  change (s.reportTraffic other failed now).2.get id = _
  unfold reportTraffic
  split
  · rename_i policy' e' hp' he'
    obtain rfl : policy = policy' := Option.some.inj (hp.symm.trans hp')
    cases failed with
    | true =>
      rw [if_pos rfl]
      dsimp only
      rw [get_modify fun e => id_of_written (failed_written policy now e).1, h]
      by_cases ho : other = id
      · simp [ho]
      · simp [ho]
    | false => simpa using h
  · rename_i hno
    have hne : other ≠ id := by
      rintro rfl
      exact hno policy e hp h
    simpa [hne] using h

theorem get_step_other (h : s.get id = some e) {c : Call} (hc : ∃ other, c = .drain other ∨ c = .undrain other) :
    ∃ e', (s.step c).get id = some e' ∧ e'.windowStarted = e.windowStarted ∧ e'.passiveFails = e.passiveFails ∧
      e'.ejectedUntil = e.ejectedUntil := by
  obtain ⟨other, rfl | rfl⟩ := hc
  · change ∃ e', (s.drain other).2.get id = some e' ∧ _
    unfold drain
    split
    · dsimp only
      rw [get_modify (by exact fun _ => rfl), h]
      split
      · exact ⟨_, rfl, rfl, rfl, rfl⟩
      · exact ⟨_, rfl, rfl, rfl, rfl⟩
    · exact ⟨e, h, rfl, rfl, rfl⟩
  · change ∃ e', (s.undrain other).2.get id = some e' ∧ _
    unfold undrain
    split
    · split
      · dsimp only
        rw [get_modify (by exact fun _ => rfl), h]
        split
        · exact ⟨_, rfl, rfl, rfl, rfl⟩
        · exact ⟨_, rfl, rfl, rfl, rfl⟩
      · exact ⟨e, h, rfl, rfl, rfl⟩
    · exact ⟨e, h, rfl, rfl, rfl⟩

/-- An endpoint is offered when its health allows it and nothing keeps it out. -/
theorem mem_eligible {i : Nat} (hi : s.position id = some i) (h : s.get id = some e) (now : Instant) :
    i ∈ (s.eligible now).1 ↔ (e.health = .healthy ∨ e.health = .unknown) ∧ ¬ ∃ u ∈ e.ejectedUntil, now < u := by
  have hplace : s.endpoints[i]? = some e := by
    rw [get, List.find?_eq_bind_findIdx?_getElem?] at h
    change s.endpoints.findIdx? (fun e => e.id == id) = some i at hi
    rwa [hi, Option.bind_some] at h
  have hlt : i < s.endpoints.length := (List.getElem?_eq_some_iff.mp hplace).1
  simp only [eligible, List.mem_filter, List.mem_range, hlt, true_and, hplace, Option.any_some]
  unfold Endpoint.isEligible
  cases hh : e.health with
  | unhealthy => simp
  | draining => simp
  | healthy | unknown =>
    unfold Endpoint.isEjected
    cases hu : e.ejectedUntil with
    | none => simp
    | some deadline =>
      by_cases hlt : now < deadline
      · simp [hlt]
      · simp [hlt]

/-! The counters and the policy's account of the same reports. -/

/-- What the policy would say of an endpoint, read from its counters: it is counting, it is
out, or it was out and that was noticed. -/
inductive Agrees (policy : PassiveHealth) (seen : List Instant) (e : Endpoint) (x : Ejection) : Prop where
  | counting (hw : e.windowStarted = x.started) (hu : e.ejectedUntil = none) (hd : x.deadline = none)
      (hc : e.passiveFails.val = x.counted) (hb : x.counted = 0 ∨ x.counted < policy.maxFails.val)
  | out (u : Instant) (hw : e.windowStarted = x.started) (hu : e.ejectedUntil = some u) (hd : x.deadline = some u)
  | back (u : Instant) (hw : e.windowStarted = x.started) (hu : e.ejectedUntil = none) (hd : x.deadline = some u)
      (hc : e.passiveFails = 0) (ht : ∃ t ∈ seen, u ≤ t)

namespace Agrees

variable {seen : List Instant}

theorem mono {e' : Endpoint} {seen' : List Instant} (h : Agrees policy seen e x) (hs : ∀ t ∈ seen, t ∈ seen')
    (hw : e'.windowStarted = e.windowStarted) (hc : e'.passiveFails = e.passiveFails)
    (hu : e'.ejectedUntil = e.ejectedUntil) : Agrees policy seen' e' x := by
  cases h with
  | counting hw' hu' hd hc' hb => exact .counting (hw.trans hw') (hu.trans hu') hd (hc ▸ hc') hb
  | out u hw' hu' hd => exact .out u (hw.trans hw') (hu.trans hu') hd
  | back u hw' hu' hd hc' ht =>
    obtain ⟨t, ht, hle⟩ := ht
    exact .back u (hw.trans hw') (hu.trans hu') hd (hc.trans hc') ⟨t, hs t ht, hle⟩

/-- They agree on whether the endpoint is out. -/
theorem out_iff (h : Agrees policy seen e x) {now : Instant} (hnow : ∀ t ∈ seen, t ≤ now) :
    (∃ u ∈ e.ejectedUntil, now < u) ↔ ∃ u ∈ x.deadline, now < u := by
  cases h with
  | counting hw hu hd hc hb => rw [hu, hd]
  | out u hw hu hd => rw [hu, hd]
  | back u hw hu hd hc ht =>
    obtain ⟨t, ht, hle⟩ := ht
    have := hnow t ht
    rw [hu, hd]
    constructor
    · rintro ⟨u', hu', -⟩
      cases hu'
    · rintro ⟨u', hu', hlt⟩
      cases hu'
      exact absurd hlt (Nat.not_lt.mpr (hle.trans this))

theorem recovered (h : Agrees policy seen e x) {e' : Endpoint} (hw : e'.windowStarted = e.windowStarted)
    (hu : e'.ejectedUntil = none) (hc : e'.passiveFails = 0) (seen' : List Instant) :
    Agrees policy seen' e' x.recover := by
  have hstarted : e.windowStarted = x.started := by cases h <;> assumption
  exact .counting (hw.trans hstarted) hu rfl (by rw [hc]; rfl) (.inl rfl)

/-- Both find the failure in the same window. -/
theorem entered (h : Agrees policy seen e x) (hu : e.ejectedUntil = none) (hd : x.deadline = none) (now : Instant) :
    (e.openWindow policy now).windowStarted = (x.enter policy now).started ∧
      (e.openWindow policy now).ejectedUntil = none ∧ (x.enter policy now).deadline = none ∧
      (e.openWindow policy now).passiveFails.val = (x.enter policy now).counted ∧
      ((x.enter policy now).counted = 0 ∨ (x.enter policy now).counted < policy.maxFails.val) := by
  cases h with
  | counting hw _ _ hc hb =>
    unfold Endpoint.openWindow Ejection.enter
    rw [hw]
    split
    · exact ⟨hw, hu, hd, hc, hb⟩
    · exact ⟨rfl, hu, hd, rfl, .inl rfl⟩
  | out u _ hu' _ => rw [hu] at hu'; cases hu'
  | back u _ _ hd' _ _ => rw [hd] at hd'; cases hd'

theorem counted (h : Agrees policy seen e x) {now : Instant} (hu : e.ejectedUntil = none) (hd : x.deadline = none)
    (seen' : List Instant) : Agrees policy seen' (e.failed policy now).2 (x.fail policy now) := by
  obtain ⟨hw, hu', hd', hc, hb⟩ := h.entered hu hd now
  have helapse : x.elapse now = x := by rw [Ejection.elapse, hd]; rfl
  have hnext : ((e.openWindow policy now).passiveFails + 1).val = (x.enter policy now).counted + 1 := by
    have := policy.maxFails.isLt
    rw [Fin.val_add, hc]
    refine Nat.mod_eq_of_lt ?_
    change (x.enter policy now).counted + 1 < 2 ^ 32
    omega
  have hreaches : x.Reaches policy now ↔ policy.maxFails ≤ (e.openWindow policy now).passiveFails + 1 := by
    rw [Fin.le_def, hnext, Ejection.Reaches, helapse, and_iff_right hd]
  unfold Endpoint.failed Ejection.fail
  by_cases hfull : x.Reaches policy now
  · have hle := hreaches.mp hfull
    simp only [helapse, hu', hle, hfull, decide_true, Option.isNone_none, Bool.and_self, if_true]
    exact .out _ hw rfl rfl
  · have hlt := mt hreaches.mpr hfull
    simp only [helapse, hu', hlt, hfull, decide_false, Bool.false_and, Bool.false_eq_true, if_false]
    exact .counting hw rfl hd hnext (.inr (not_le.mp fun hle => hlt (Fin.le_def.mpr (hnext ▸ hle))))

/-- A failure that no stale deadline is in the way of counts the same for both. -/
theorem failed (h : Agrees policy seen e x) {now : Instant} (hnow : ∀ t ∈ seen, t ≤ now)
    (hfresh : ∀ u ∈ e.ejectedUntil, now < u) (seen' : List Instant) :
    Agrees policy seen' (e.failed policy now).2 (x.fail policy now) := by
  cases h with
  | counting hw hu hd hc hb => exact Agrees.counted (.counting hw hu hd hc hb : Agrees policy seen e x) hu hd seen'
  | out u hw hu hd =>
    have hlt : now < u := hfresh u hu
    have helapse : x.elapse now = x := by
      rw [Ejection.elapse, hd]
      simp [hlt]
    have hno : ¬ x.Reaches policy now := by
      rw [Ejection.Reaches, helapse, hd]
      exact fun h => Option.some_ne_none _ h.1
    have hwindow : (e.openWindow policy now).windowStarted = (x.enter policy now).started ∧
        (e.openWindow policy now).ejectedUntil = some u := by
      unfold Endpoint.openWindow Ejection.enter
      rw [hw]
      split
      · exact ⟨hw, hu⟩
      · exact ⟨rfl, hu⟩
    unfold Endpoint.failed Ejection.fail
    simp only [helapse, hno, hwindow.2, Option.isNone_some, Bool.and_false, Bool.false_eq_true, if_false]
    exact .out u hwindow.1 rfl hd
  | back u hw hu hd hc ht =>
    obtain ⟨t, ht, hle⟩ := ht
    have hpast : u ≤ now := hle.trans (hnow t ht)
    have helapse : x.elapse now = ⟨x.started, 0, none⟩ := by
      rw [Ejection.elapse, hd]
      simp [hpast]
    have hfail : x.fail policy now = (⟨x.started, 0, none⟩ : Ejection).fail policy now := by
      have hstill : Ejection.elapse ⟨x.started, 0, none⟩ now = ⟨x.started, 0, none⟩ := rfl
      simp only [Ejection.fail, Ejection.Reaches, helapse, hstill]
    have hcleared : Agrees policy seen e ⟨x.started, 0, none⟩ := .counting hw hu rfl (by rw [hc]; rfl) (.inl rfl)
    rw [hfail]
    exact hcleared.counted hu rfl seen'

/-- Asking for the endpoints notices a deadline that has passed. -/
theorem asked (h : Agrees policy seen e x) {now : Instant} : Agrees policy (seen ++ [now]) (e.isEligible now).2 x := by
  have hsame : Agrees policy (seen ++ [now]) e x :=
    h.mono (fun t ht => List.mem_append_left _ ht) rfl rfl rfl
  have hejected : Agrees policy (seen ++ [now]) (e.isEjected now).2 x := by
    cases hu : e.ejectedUntil with
    | none =>
      rw [Endpoint.isEjected, hu]
      exact hsame
    | some u =>
      rw [Endpoint.isEjected, hu]
      dsimp only
      split
      · exact hsame
      · rename_i hpast
        cases h with
        | counting _ hu' _ _ _ => rw [hu] at hu'; cases hu'
        | back _ _ hu' _ _ _ => rw [hu] at hu'; cases hu'
        | out u' hw hu' hd =>
          obtain rfl : u = u' := Option.some.inj (hu.symm.trans hu')
          exact .back u hw rfl hd rfl ⟨now, by simp, not_lt.mp hpast⟩
  unfold Endpoint.isEligible
  split
  · exact hejected
  · exact hejected
  · exact hsame
  · exact hsame

end Agrees

/-! Whole runs. -/

theorem ejection_concat (s : EndpointSet) (id : String) (policy : PassiveHealth) (calls : List Call) (c : Call) :
    s.ejection id policy (calls ++ [c]) = (watch id policy (run step s calls, s.ejection id policy calls) c).2 := by
  have hfst : ∀ (l : List Call) (w : EndpointSet × Ejection), (run (watch id policy) w l).1 = run step w.1 l := by
    intro l
    induction l with
    | nil => exact fun _ => rfl
    | cons c l ih => exact fun w => ih (watch id policy w c)
  have hpair : run (watch id policy) (s, .fresh) calls = (run step s calls, s.ejection id policy calls) :=
    Prod.ext (hfst calls (s, .fresh)) rfl
  rw [ejection, run_append, hpair]
  rfl

theorem times_concat (calls : List Call) (c : Call) : times (calls ++ [c]) = times calls ++ c.time?.toList := by
  rw [times, List.filterMap_append]
  cases c <;> rfl

theorem run_passive (s : EndpointSet) (calls : List Call) : (run step s calls).passive = s.passive :=
  Run.invariant (I := fun t => t.passive = s.passive) (fun t c h => (step_written t c).2.2.trans h) rfl calls

theorem run_position (s : EndpointSet) (id : String) (calls : List Call) :
    (run step s calls).position id = s.position id := by
  rw [position_of_ids, position_of_ids, run_written]

/-- Every endpoint starts with nothing counted. -/
theorem get_new {u : Upstream} (h : (EndpointSet.new u).get id = some e) :
    e.windowStarted = none ∧ e.passiveFails = 0 ∧ e.ejectedUntil = none := by
  obtain ⟨spec, -, rfl⟩ := List.mem_map.mp (List.mem_of_find?_eq_some h)
  exact ⟨rfl, rfl, rfl⟩

/-- One call keeps the counters in step with the policy. -/
theorem agrees_step {seen : List Instant} {c : Call} (hp : s.passive = some policy) (h : s.get id = some e)
    (ha : Agrees policy seen e x) (ht : ∀ now ∈ c.time?, ∀ t ∈ seen, t ≤ now)
    (hlooked : ∀ now, c = .traffic id true now → ∀ u ∈ e.ejectedUntil, now < u) :
    ∃ e', (s.step c).get id = some e' ∧ Agrees policy (seen ++ c.time?.toList) e' (watch id policy (s, x) c).2 := by
  have hseen : ∀ t ∈ seen, t ∈ seen ++ c.time?.toList := fun t ht => List.mem_append_left _ ht
  by_cases hr : s.Recovers id c
  · have hwhole := hr
    obtain ⟨hover, rfl⟩ := hr
    obtain ⟨-, e', he', active, hact, hs⟩ := hover
    obtain rfl : e = e' := Option.some.inj (h.symm.trans he')
    have hle : active.healthyThreshold ≤ e.consecutiveOk + 1 := hs
    refine ⟨_, get_step_probe h id true, ?_⟩
    rw [watch, if_pos hwhole, if_pos rfl, Option.mem_def.mp hact, Option.elim_some]
    simp only [Endpoint.probed, hle, if_true]
    refine ha.recovered ?_ ?_ ?_ _
    all_goals rfl
  rw [watch, if_neg hr]
  cases c with
  | probe other success =>
    refine ⟨_, get_step_probe h other success, ?_⟩
    split
    · rename_i ho
      subst ho
      cases hact : s.active with
      | none => exact ha.mono hseen rfl rfl rfl
      | some active =>
        rw [Option.elim_some]
        cases success with
        | true =>
          have hlt : ¬ active.healthyThreshold ≤ e.consecutiveOk + 1 := fun hle =>
            hr ⟨⟨rfl, e, h, active, hact, hle⟩, rfl⟩
          simp only [Endpoint.probed, hlt, if_true, if_false]
          exact ha.mono hseen rfl rfl rfl
        | false =>
          simp only [Endpoint.probed, Bool.false_eq_true, if_false]
          split <;> exact ha.mono hseen rfl rfl rfl
    · exact ha.mono hseen rfl rfl rfl
  | traffic other failed now =>
    refine ⟨_, get_step_traffic h hp other failed now, ?_⟩
    by_cases hf : other = id ∧ failed = true
    · obtain ⟨rfl, rfl⟩ := hf
      rw [if_pos ⟨rfl, rfl⟩, hear, if_pos ⟨rfl, rfl⟩]
      exact ha.failed (ht now rfl) (hlooked now rfl) _
    · rw [if_neg hf, hear, if_neg hf]
      exact ha.mono hseen rfl rfl rfl
  | eligible now =>
    have hget := get_eligible s now id
    rw [h, Option.map_some] at hget
    exact ⟨_, hget, ha.asked⟩
  | drain other =>
    obtain ⟨e', he', hw, hc, hu⟩ := get_step_other h ⟨other, .inl rfl⟩
    exact ⟨e', he', ha.mono hseen hw hc hu⟩
  | undrain other =>
    obtain ⟨e', he', hw, hc, hu⟩ := get_step_other h ⟨other, .inr rfl⟩
    exact ⟨e', he', ha.mono hseen hw hc hu⟩

/-- A run in which no stale deadline meets a failure keeps the counters in step with the
policy. -/
theorem agrees_run {u : Upstream} (hp : u.passiveHealth = some policy) (hget : ((EndpointSet.new u).get id).isSome)
    {calls : List Call} (ht : (times calls).Pairwise (· ≤ ·)) (hl : (EndpointSet.new u).Looked id calls) :
    ∃ e, (run step (EndpointSet.new u) calls).get id = some e ∧
      Agrees policy (times calls) e ((EndpointSet.new u).ejection id policy calls) := by
  induction calls using List.reverseRecOn with
  | nil =>
    obtain ⟨e, he⟩ := Option.isSome_iff_exists.mp hget
    obtain ⟨hw, hc, hu⟩ := get_new he
    exact ⟨e, he, .counting hw hu rfl (by rw [hc]; rfl) (.inl rfl)⟩
  | append_singleton past c ih =>
    rw [times_concat] at ht ⊢
    obtain ⟨hpast, -, hlast⟩ := List.pairwise_append.mp ht
    obtain ⟨e, he, ha⟩ := ih hpast fun p now hpre => hl p now (hpre.trans (List.prefix_append _ _))
    have hpassive : (run step (EndpointSet.new u) past).passive = some policy := by
      rw [run_passive]
      exact hp
    have hlooked : ∀ now, c = .traffic id true now → ∀ deadline ∈ e.ejectedUntil, now < deadline := by
      rintro now rfl
      exact hl past now (List.prefix_refl _) e he
    have hafter : ∀ now ∈ c.time?, ∀ t ∈ times past, t ≤ now := fun now hnow t htp =>
      hlast t htp now (Option.mem_toList.mpr hnow)
    rw [ejection_concat, run_append]
    exact agrees_step hpassive he ha hafter hlooked

/-- What the failures of a run do not reach, they do not move. -/
theorem hear_deadline {deadline : Instant} (hd : x.deadline = some deadline) {c : Call}
    (hc : ∀ now, c = .traffic id true now → now < deadline) : (hear id policy x c).deadline = some deadline := by
  cases c with
  | traffic other failed now =>
    rw [hear]
    split
    · rename_i hf
      obtain ⟨rfl, rfl⟩ := hf
      have hlt := hc now rfl
      have helapse : x.elapse now = x := by
        rw [Ejection.elapse, hd]
        simp [hlt]
      have hno : ¬ x.Reaches policy now := by
        rw [Ejection.Reaches, helapse, hd]
        exact fun h => Option.some_ne_none _ h.1
      rw [Ejection.fail, if_neg hno, helapse]
      exact hd
    · exact hd
  | probe other success => exact hd
  | eligible now => exact hd
  | drain other => exact hd
  | undrain other => exact hd

/-- An ejection stands until its deadline, as long as no streak of probes lifts it. -/
theorem ejection_stands (s : EndpointSet) {past later : List Call} {since : Instant}
    (hr : (s.ejection id policy past).Reaches policy since)
    (hno : ∀ between c, between ++ [c] <+: later →
      ¬ (run step s (past ++ .traffic id true since :: between)).Recovers id c)
    (hlater : ∀ t, .traffic id true t ∈ later → t < since + policy.cooldown.val) :
    (s.ejection id policy (past ++ .traffic id true since :: later)).deadline = some (since + policy.cooldown.val) := by
  induction later using List.reverseRecOn with
  | nil =>
    have hout : ¬ (run step s past).Recovers id (.traffic id true since) := fun h => h.1
    rw [ejection_concat, watch, if_neg hout, hear, if_pos ⟨rfl, rfl⟩, Ejection.fail, if_pos hr]
  | append_singleton between c ih =>
    have hstands := ih (fun p d hp => hno p d (hp.trans (List.prefix_append _ _)))
      fun t ht => hlater t (List.mem_append_left _ ht)
    have hout := hno between c (List.prefix_refl _)
    rw [← List.cons_append, ← List.append_assoc, ejection_concat, watch, if_neg hout]
    refine hear_deadline hstands ?_
    rintro t rfl
    exact hlater t (List.mem_append_right _ (List.mem_singleton_self _))

theorem get_of_position {i : Nat} (h : s.position id = some i) : (s.get id).isSome = true := by
  rw [get, List.find?_isSome]
  obtain ⟨hlt, hid, -⟩ := List.findIdx?_eq_some_iff_getElem.mp h
  exact ⟨_, List.getElem_mem hlt, hid⟩

/-- Passive ejection holds for its whole cooldown in every run where no failure is reported
while a deadline that has passed is still in place. -/
theorem cooldown_holds_of_looked {u : Upstream} {policy : PassiveHealth} (hp : u.passiveHealth = some policy)
    {id : String} {calls : List Call} (ht : (times calls).Pairwise (· ≤ ·))
    (hl : (EndpointSet.new u).Looked id calls) : (EndpointSet.new u).CooldownHolds id policy calls := by
  rintro past since later rfl hr hno i hi now hnow
  obtain ⟨e, he, ha⟩ := agrees_run hp (get_of_position hi) ht hl
  have hplace := run_position (EndpointSet.new u) id (past ++ .traffic id true since :: later)
  have hhealth : (run step (EndpointSet.new u) (past ++ .traffic id true since :: later)).healthOf id = some e.health := by
    rw [healthOf, he]
    rfl
  rw [mem_eligible (hplace.trans hi) he, ha.out_iff hnow, hhealth]
  constructor
  · intro hbefore
    have hstands := ejection_stands (EndpointSet.new u) hr hno fun t ht => (hnow t (by
      refine List.mem_filterMap.mpr ⟨.traffic id true t, ?_, rfl⟩
      exact List.mem_append_right _ (List.mem_cons_of_mem _ ht))).trans_lt hbefore
    rw [hstands]
    exact fun h => h.2 ⟨_, rfl, hbefore⟩
  · intro hover hlater
    have hstands := ejection_stands (EndpointSet.new u) hr hno hlater
    rw [hstands]
    have hdone : ¬ ∃ deadline ∈ some (since + policy.cooldown.val), now < deadline := by
      rintro ⟨deadline, hd, hlt⟩
      obtain rfl := Option.mem_some_iff.mp hd
      exact absurd hlt (Nat.not_lt.mpr hover)
    simp only [hdone, not_false_iff, and_true, Option.some.injEq]

/-! One backend that a single failure takes out for five seconds. -/

def strict : PassiveHealth := ⟨1, .fromSecs 60, .fromSecs 5, []⟩

def guarded : Upstream where
  id := ⟨.upstream, "api"⟩
  owner := .file "main"
  endpoints := [⟨"a", .unix "a", 1, .zero, .synthetic "test"⟩]
  balance := .roundRobin
  timeouts := .default
  pool := .default
  retry := none
  health := none
  passiveHealth := some strict
  protocol := .http1
  tls := none
  resolve := .default
  origin := .synthetic "test"

def second : Nat := 10 ^ 9

/-- Between two failures the endpoints were asked for. -/
def lookedAt : List Call := [.traffic "a" true 0, .eligible (6 * second), .traffic "a" true (10 * second)]

theorem cooldown_holds_guarded : (EndpointSet.new guarded).CooldownHolds "a" strict lookedAt := by
  refine cooldown_holds_of_looked rfl (by decide) ?_
  intro past now hp
  obtain ⟨rest, he⟩ := hp
  rcases past with _ | ⟨one, _ | ⟨two, _ | ⟨three, past⟩⟩⟩
  · cases he
    decide
  · cases he
  · cases he
    decide
  · have hlen := congrArg List.length he
    simp [lookedAt] at hlen

/-- Where they were not, the second failure takes the endpoint out for no time at all. -/
theorem stale_deadline_readmits :
    guarded.passiveHealth = some strict ∧
      (times [.traffic "a" true 0, .traffic "a" true (10 * second)]).Pairwise (· ≤ ·) ∧
      ¬ (EndpointSet.new guarded).CooldownHolds "a" strict [.traffic "a" true 0, .traffic "a" true (10 * second)] := by
  refine ⟨rfl, by decide, ?_⟩
  intro h
  have hnever : ∀ between c, between ++ [c] <+: ([] : List Call) →
      ¬ (run step (EndpointSet.new guarded) ([.traffic "a" true 0] ++ .traffic "a" true (10 * second) :: between)).Recovers
        "a" c := by
    intro between c hp
    simp at hp
  have hout := (h [.traffic "a" true 0] (10 * second) [] rfl (by decide) hnever 0 (by decide) (11 * second)
    (by decide)).1 (by decide)
  exact hout (by decide)

end EndpointSet
end Gatel.State
