import Gatel.Lib.KeyedMap
import Gatel.Lib.Run
import Gatel.Model.Http
import Gatel.Plan.Upstream

namespace Gatel.State
open KeyedMap (modifyFirst)
open Run (run run_append run_cons run_nil)

/-! The endpoint set and its health. -/

/-- What the gateway currently believes about a backend. -/
inductive Health where
  | unknown
  | healthy
  | unhealthy
  | draining
  deriving DecidableEq, Repr

/-- One backend, with the counters the health logic reads; counters are 32 bits wide
and wrap. -/
structure Endpoint where
  id : String
  target : Target
  weight : U32
  priority : I32
  health : Health
  consecutiveOk : U32
  consecutiveFail : U32
  passiveFails : U32
  windowStarted : Option Instant
  ejectedUntil : Option Instant
  deriving DecidableEq

namespace Endpoint

def new (spec : Gatel.Endpoint) (probed : Bool) : Endpoint where
  id := spec.id
  target := spec.target
  weight := spec.weight
  priority := spec.priority
  health := if probed then .unknown else .healthy
  consecutiveOk := 0
  consecutiveFail := 0
  passiveFails := 0
  windowStarted := none
  ejectedUntil := none

/-- Whether it is ejected; an expired cooldown is cleared. -/
def isEjected (e : Endpoint) (now : Instant) : Bool × Endpoint :=
  match e.ejectedUntil with
  | some «until» =>
    if now < «until» then (true, e) else (false, { e with ejectedUntil := none, passiveFails := 0 })
  | none => (false, e)

/-- Eligible to receive a new request right now. -/
def isEligible (e : Endpoint) (now : Instant) : Bool × Endpoint :=
  match e.health with
  | .healthy | .unknown => (!(e.isEjected now).1, (e.isEjected now).2)
  | .unhealthy | .draining => (false, e)

def probed (e : Endpoint) (policy : Gatel.Health) (success : Bool) : Endpoint :=
  if success then
    let streak := e.consecutiveOk + 1
    let e := { e with consecutiveFail := 0, consecutiveOk := streak }
    if policy.healthyThreshold ≤ streak then
      { e with health := .healthy, ejectedUntil := none, passiveFails := 0 }
    else e
  else
    let streak := e.consecutiveFail + 1
    let e := { e with consecutiveOk := 0, consecutiveFail := streak }
    if policy.unhealthyThreshold ≤ streak then { e with health := .unhealthy } else e

/-- The window failures are counted in; a new one starts when the last is over. -/
def openWindow (e : Endpoint) (policy : PassiveHealth) (now : Instant) : Endpoint :=
  if e.windowStarted.any fun started => now - started < policy.window.val then e
  else { e with windowStarted := some now, passiveFails := 0 }

/-- What live traffic saw fail, and whether that ejects the endpoint. -/
def failed (e : Endpoint) (policy : PassiveHealth) (now : Instant) : Bool × Endpoint :=
  let e := e.openWindow policy now
  let fails := e.passiveFails + 1
  let e := { e with passiveFails := fails }
  if policy.maxFails ≤ fails && e.ejectedUntil.isNone then
    (true, { e with ejectedUntil := some (now + policy.cooldown.val) })
  else (false, e)

/-- What a reload may not change under a kept set: everything but health. -/
def written (e : Endpoint) : String × Target × U32 × I32 := (e.id, e.target, e.weight, e.priority)

end Endpoint

/-- Every backend of one upstream, plus the rules for taking them out. -/
structure EndpointSet where
  endpoints : List Endpoint
  passive : Option PassiveHealth
  active : Option Gatel.Health
  deriving DecidableEq

namespace EndpointSet

def new (u : Upstream) : EndpointSet :=
  ⟨u.endpoints.map fun spec => Endpoint.new spec u.health.isSome, u.passiveHealth, u.health⟩

/-- Where an endpoint is; the first one of that name. -/
def position (s : EndpointSet) (id : String) : Option Nat := s.endpoints.findIdx? fun e => e.id == id

def get (s : EndpointSet) (id : String) : Option Endpoint := s.endpoints.find? fun e => e.id == id

/-- Change one endpoint in place. -/
def modify (s : EndpointSet) (id : String) (f : Endpoint → Endpoint) : EndpointSet :=
  { s with endpoints := modifyFirst (fun e => e.id == id) f s.endpoints }

/-- The places of the endpoints a request may be sent to, in a stable order. -/
def eligible (s : EndpointSet) (now : Instant) : List Nat × EndpointSet :=
  ((List.range s.endpoints.length).filter fun i => s.endpoints[i]?.any fun e => (e.isEligible now).1,
    { s with endpoints := s.endpoints.map fun e => (e.isEligible now).2 })

/-- The outcome of an active probe, and what it changed. -/
def reportProbe (s : EndpointSet) (id : String) (success : Bool) : Option Health × EndpointSet :=
  match s.get id, s.active with
  | some e, some policy =>
    let after := (e.probed policy success).health
    (if e.health = after then none else some after, s.modify id fun e => e.probed policy success)
  | _, _ => (none, s)

/-- What live traffic saw; whether the endpoint was just ejected. -/
def reportTraffic (s : EndpointSet) (id : String) (failed : Bool) (now : Instant) : Bool × EndpointSet :=
  match s.passive, s.get id with
  | some policy, some e =>
    if failed then ((e.failed policy now).1, s.modify id fun e => (e.failed policy now).2) else (false, s)
  | _, _ => (false, s)

/-- Take an endpoint out of rotation without changing configuration. -/
def drain (s : EndpointSet) (id : String) : Bool × EndpointSet :=
  match s.get id with
  | some _ => (true, s.modify id fun e => { e with health := .draining })
  | none => (false, s)

def undrain (s : EndpointSet) (id : String) : Bool × EndpointSet :=
  match s.get id with
  | some e =>
    if e.health = .draining then
      (true, s.modify id fun e => { e with
        health := if s.active.isSome then .unknown else .healthy
        consecutiveOk := 0
        consecutiveFail := 0 })
    else (false, s)
  | none => (false, s)

/-- One call on an endpoint set. -/
inductive Call where
  | probe (id : String) (success : Bool)
  | traffic (id : String) (failed : Bool) (now : Instant)
  | eligible (now : Instant)
  | drain (id : String)
  | undrain (id : String)
  deriving DecidableEq

@[grind =] def step (s : EndpointSet) : Call → EndpointSet
  | .probe id success => (s.reportProbe id success).2
  | .traffic id failed now => (s.reportTraffic id failed now).2
  | .eligible now => (s.eligible now).2
  | .drain id => (s.drain id).2
  | .undrain id => (s.undrain id).2

/-! What the calls leave of one endpoint. -/

def healthOf (s : EndpointSet) (id : String) : Option Health := (s.get id).map Endpoint.health

theorem find?_modifyFirst {f : Endpoint → Endpoint} (hf : ∀ e, (f e).id = e.id) (a b : String) (l : List Endpoint) :
    (modifyFirst (fun e => e.id == a) f l).find? (fun e => e.id == b) =
      if a = b then (l.find? fun e => e.id == b).map f else l.find? fun e => e.id == b := by
  induction l with
  | nil => simp [modifyFirst]
  | cons e l ih =>
    simp only [modifyFirst]
    by_cases he : e.id = a
    · by_cases hab : a = b
      · simp [he, hab, hf]
      · simp [he, hab, hf]
    · by_cases heb : e.id = b
      · have hab : a ≠ b := fun h => he (heb.trans h.symm)
        simp [heb, hab, Ne.symm hab]
      · simp only [beq_iff_eq, he, if_false, List.find?_cons, beq_eq_false_iff_ne.mpr heb]
        exact ih

theorem get_modify {f : Endpoint → Endpoint} (hf : ∀ e, (f e).id = e.id) (s : EndpointSet) (a b : String) :
    (s.modify a f).get b = if a = b then (s.get b).map f else s.get b :=
  find?_modifyFirst hf a b s.endpoints

theorem probed_written (policy : Gatel.Health) (success : Bool) (e : Endpoint) :
    (e.probed policy success).written = e.written := by
  unfold Endpoint.probed
  dsimp only
  split
  · split <;> rfl
  · split <;> rfl

/-- Whether a probe result completes its streak. -/
def completes (policy : Gatel.Health) (e : Endpoint) (success : Bool) : Prop :=
  if success then policy.healthyThreshold ≤ e.consecutiveOk + 1 else policy.unhealthyThreshold ≤ e.consecutiveFail + 1

theorem probed_health_of_completes {policy : Gatel.Health} {e : Endpoint} {success : Bool}
    (h : completes policy e success) :
    (e.probed policy success).health = if success then .healthy else .unhealthy := by
  cases success with
  | true =>
    have hs : policy.healthyThreshold ≤ e.consecutiveOk + 1 := h
    simp [Endpoint.probed, hs]
  | false =>
    have hs : policy.unhealthyThreshold ≤ e.consecutiveFail + 1 := h
    simp [Endpoint.probed, hs]

theorem probed_health_of_not {policy : Gatel.Health} {e : Endpoint} {success : Bool}
    (h : ¬ completes policy e success) : (e.probed policy success).health = e.health := by
  cases success with
  | true =>
    have hs : ¬ policy.healthyThreshold ≤ e.consecutiveOk + 1 := h
    simp [Endpoint.probed, if_neg hs]
  | false =>
    have hs : ¬ policy.unhealthyThreshold ≤ e.consecutiveFail + 1 := h
    simp [Endpoint.probed, if_neg hs]

theorem failed_written (policy : PassiveHealth) (now : Instant) (e : Endpoint) :
    (e.failed policy now).2.written = e.written ∧ (e.failed policy now).2.health = e.health := by
  have hwindow : (e.openWindow policy now).written = e.written ∧ (e.openWindow policy now).health = e.health := by
    unfold Endpoint.openWindow
    split <;> exact ⟨rfl, rfl⟩
  unfold Endpoint.failed
  dsimp only
  split <;> exact hwindow

theorem isEligible_written (e : Endpoint) (now : Instant) :
    (e.isEligible now).2.written = e.written ∧ (e.isEligible now).2.health = e.health := by
  have hejected : (e.isEjected now).2.written = e.written ∧ (e.isEjected now).2.health = e.health := by
    unfold Endpoint.isEjected
    split
    · split <;> exact ⟨rfl, rfl⟩
    · exact ⟨rfl, rfl⟩
  unfold Endpoint.isEligible
  split
  · exact hejected
  · exact hejected
  · exact ⟨rfl, rfl⟩
  · exact ⟨rfl, rfl⟩

theorem id_of_written {a b : Endpoint} (h : a.written = b.written) : a.id = b.id := congrArg Prod.fst h

theorem get_eligible (s : EndpointSet) (now : Instant) (id : String) :
    (s.eligible now).2.get id = (s.get id).map fun e => (e.isEligible now).2 := by
  simp only [get, eligible, List.find?_map]
  congr 2
  funext e
  simp [id_of_written (isEligible_written e now).1]

/-- A probe result that completes a streak. -/
def Overrides (s : EndpointSet) (id : String) : Call → Prop
  | .probe other success => other = id ∧ ∃ e ∈ s.get id, ∃ policy ∈ s.active, completes policy e success
  | _ => False

instance (policy : Gatel.Health) (e : Endpoint) (success : Bool) : Decidable (completes policy e success) :=
  inferInstanceAs (Decidable (if success then _ else _))

instance (s : EndpointSet) (id : String) : DecidablePred (s.Overrides id)
  | .probe other success =>
    inferInstanceAs (Decidable (other = id ∧ ∃ e ∈ s.get id, ∃ policy ∈ s.active, completes policy e success))
  | .traffic _ _ _ => inferInstanceAs (Decidable False)
  | .eligible _ => inferInstanceAs (Decidable False)
  | .drain _ => inferInstanceAs (Decidable False)
  | .undrain _ => inferInstanceAs (Decidable False)

theorem healthOf_probe (s : EndpointSet) (id other : String) (success : Bool) :
    (s.step (.probe other success)).healthOf id =
      if other = id then s.active.elim (s.healthOf id) fun policy =>
        (s.get id).map fun e => (e.probed policy success).health
      else s.healthOf id := by
  have hid : ∀ policy e, (Endpoint.probed e policy success).id = e.id := fun policy e =>
    id_of_written (probed_written policy success e)
  unfold healthOf
  change ((s.reportProbe other success).2.get id).map Endpoint.health = _
  unfold reportProbe
  split
  · rename_i e policy he ha
    dsimp only
    rw [get_modify (hid policy), ha]
    split
    · simp [Function.comp_def]
    · rfl
  · rename_i hno
    split
    · rename_i heq
      subst heq
      cases hget : s.get other with
      | none => cases s.active <;> rfl
      | some e =>
        cases hact : s.active with
        | none => rfl
        | some policy => exact absurd hact (hno e policy hget)
    · rfl

theorem healthOf_traffic (s : EndpointSet) (id other : String) (failed : Bool) (now : Instant) :
    (s.step (.traffic other failed now)).healthOf id = s.healthOf id := by
  unfold healthOf
  change ((s.reportTraffic other failed now).2.get id).map Endpoint.health = _
  unfold reportTraffic
  split
  · rename_i policy e _ _
    split
    · dsimp only
      rw [get_modify fun e => id_of_written (failed_written policy now e).1]
      split
      · simp [Function.comp_def, (failed_written policy now _).2]
      · rfl
    · rfl
  · rfl

theorem healthOf_eligible (s : EndpointSet) (id : String) (now : Instant) :
    (s.step (.eligible now)).healthOf id = s.healthOf id := by
  simp only [healthOf, step, get_eligible, Option.map_map]
  congr 1
  funext e
  exact (isEligible_written e now).2

theorem healthOf_drain (s : EndpointSet) (id other : String) :
    (s.step (.drain other)).healthOf id = if other = id then (s.healthOf id).map fun _ => .draining else s.healthOf id := by
  unfold healthOf
  change ((s.drain other).2.get id).map Endpoint.health = _
  unfold drain
  split
  · dsimp only
    rw [get_modify (by exact fun _ => rfl)]
    split
    · simp [Function.comp_def]
    · rfl
  · rename_i hnone
    split
    · rename_i heq
      subst heq
      rw [hnone]
      rfl
    · rfl

theorem healthOf_undrain_ne (s : EndpointSet) {id other : String} (h : other ≠ id) :
    (s.step (.undrain other)).healthOf id = s.healthOf id := by
  unfold healthOf
  change ((s.undrain other).2.get id).map Endpoint.health = _
  unfold undrain
  split
  · split
    · dsimp only
      rw [get_modify (by exact fun _ => rfl), if_neg h]
    · rfl
  · rfl

/-- Whether the operator's last word on an endpoint was to drain it. -/
def drained (id : String) (calls : List Call) : Bool :=
  calls.foldl (fun last call => match call with
    | .drain other => if other = id then true else last
    | .undrain other => if other = id then false else last
    | _ => last) false

/-- Without a completed streak a drained endpoint stays drained. -/
theorem step_stays {s : EndpointSet} {id : String} {call : Call} (h : s.healthOf id = some .draining)
    (hn : ¬ s.Overrides id call) (hu : call ≠ .undrain id) : (s.step call).healthOf id = some .draining := by
  cases call with
  | probe other success =>
    rw [healthOf_probe]
    split
    · rename_i heq
      subst heq
      cases hact : s.active with
      | none => exact h
      | some policy =>
        obtain ⟨e, he, hd⟩ := Option.map_eq_some_iff.mp h
        rw [Option.elim_some, he, Option.map_some]
        rw [probed_health_of_not fun hs => hn ⟨rfl, e, he, policy, hact, hs⟩, hd]
    · exact h
  | traffic other failed now => rw [healthOf_traffic, h]
  | eligible now => rw [healthOf_eligible, h]
  | drain other =>
    rw [healthOf_drain, h]
    split <;> rfl
  | undrain other =>
    rw [healthOf_undrain_ne s fun he => hu (by rw [he]), h]

/-- A completed streak puts the probe's verdict in the place of the operator's. -/
theorem step_overridden {s : EndpointSet} {id : String} {call : Call} (h : s.Overrides id call) :
    (s.step call).healthOf id ≠ some .draining := by
  cases call with
  | probe other success =>
    obtain ⟨rfl, e, he, policy, hact, hs⟩ := h
    rw [healthOf_probe, if_pos rfl, Option.mem_def.mp hact, Option.elim_some, Option.mem_def.mp he, Option.map_some,
      probed_health_of_completes hs]
    cases success <;> simp
  | _ => exact h.elim

theorem not_eligible {s : EndpointSet} {id : String} {i : Nat} (hi : s.position id = some i)
    (h : s.healthOf id = some .draining) (now : Instant) : i ∉ (s.eligible now).1 := by
  obtain ⟨e, he, hd⟩ := Option.map_eq_some_iff.mp h
  rw [get, List.find?_eq_bind_findIdx?_getElem?] at he
  change s.endpoints.findIdx? (fun e => e.id == id) = some i at hi
  rw [hi, Option.bind_some] at he
  intro hm
  have hel := (List.mem_filter.mp hm).2
  rw [he, Option.any_some, Endpoint.isEligible, hd] at hel
  cases hel

theorem map_modifyFirst {f : Endpoint → Endpoint} (hf : ∀ e, (f e).written = e.written) (id : String)
    (l : List Endpoint) : (modifyFirst (fun e => e.id == id) f l).map Endpoint.written = l.map Endpoint.written := by
  induction l with
  | nil => rfl
  | cons e l ih =>
    simp only [modifyFirst]
    split
    · rw [List.map_cons, List.map_cons, hf]
    · rw [List.map_cons, List.map_cons, ih]

/-- No call changes what the configuration wrote. -/
theorem step_written (s : EndpointSet) (call : Call) :
    (s.step call).endpoints.map Endpoint.written = s.endpoints.map Endpoint.written ∧
      (s.step call).active = s.active ∧ (s.step call).passive = s.passive := by
  cases call with
  | probe id success =>
    change (s.reportProbe id success).2.endpoints.map _ = _ ∧ (s.reportProbe id success).2.active = _ ∧
      (s.reportProbe id success).2.passive = _
    unfold reportProbe
    split
    · exact ⟨map_modifyFirst (probed_written _ success) id s.endpoints, rfl, rfl⟩
    · exact ⟨rfl, rfl, rfl⟩
  | traffic id failed now =>
    change (s.reportTraffic id failed now).2.endpoints.map _ = _ ∧ (s.reportTraffic id failed now).2.active = _ ∧
      (s.reportTraffic id failed now).2.passive = _
    unfold reportTraffic
    split
    · split
      · exact ⟨map_modifyFirst (fun e => (failed_written _ now e).1) id s.endpoints, rfl, rfl⟩
      · exact ⟨rfl, rfl, rfl⟩
    · exact ⟨rfl, rfl, rfl⟩
  | eligible now =>
    refine ⟨?_, rfl, rfl⟩
    simp only [step, eligible, List.map_map]
    apply List.map_congr_left
    intro e _
    exact (isEligible_written e now).1
  | drain id =>
    change (s.drain id).2.endpoints.map _ = _ ∧ (s.drain id).2.active = _ ∧ (s.drain id).2.passive = _
    unfold drain
    split
    · exact ⟨map_modifyFirst (by exact fun _ => rfl) id s.endpoints, rfl, rfl⟩
    · exact ⟨rfl, rfl, rfl⟩
  | undrain id =>
    change (s.undrain id).2.endpoints.map _ = _ ∧ (s.undrain id).2.active = _ ∧ (s.undrain id).2.passive = _
    unfold undrain
    split
    · split
      · exact ⟨map_modifyFirst (by exact fun _ => rfl) id s.endpoints, rfl, rfl⟩
      · exact ⟨rfl, rfl, rfl⟩
    · exact ⟨rfl, rfl, rfl⟩

theorem isSome_healthOf (s : EndpointSet) (id : String) :
    (s.healthOf id).isSome = true ↔ id ∈ (s.endpoints.map Endpoint.written).map Prod.fst := by
  simp [healthOf, get, Endpoint.written]

theorem position_of_ids (s : EndpointSet) (id : String) :
    s.position id = ((s.endpoints.map Endpoint.written).map Prod.fst).findIdx? fun name => name == id := by
  simp [position, Endpoint.written, List.findIdx?_map, Function.comp_def]

theorem run_written (s : EndpointSet) (calls : List Call) :
    (run step s calls).endpoints.map Endpoint.written = s.endpoints.map Endpoint.written :=
  Run.invariant (I := fun t => t.endpoints.map Endpoint.written = s.endpoints.map Endpoint.written)
    (fun t call h => (step_written t call).1.trans h) rfl calls

theorem drained_concat (id : String) (calls : List Call) (call : Call) :
    drained id (calls ++ [call]) = match call with
      | .drain other => if other = id then true else drained id calls
      | .undrain other => if other = id then false else drained id calls
      | _ => drained id calls := by
  rw [drained, List.foldl_append]
  rfl

/-- Without a streak completed behind the operator's back, draining holds. -/
theorem run_stays {s : EndpointSet} {id : String} (hid : (s.healthOf id).isSome = true) {calls : List Call}
    (hc : ∀ past call, past ++ [call] <+: calls → drained id past = true → ¬ (run step s past).Overrides id call)
    (hd : drained id calls = true) : (run step s calls).healthOf id = some .draining := by
  induction calls using List.reverseRecOn with
  | nil => cases hd
  | append_singleton past call ih =>
    have hpast := ih fun p c hp => hc p c (hp.trans (List.prefix_append _ _))
    have hover := hc past call (List.prefix_refl _)
    have hstep : run step s (past ++ [call]) = (run step s past).step call := run_append step s past [call]
    have hsome : ((run step s past).healthOf id).isSome = true := by
      rw [isSome_healthOf, run_written, ← isSome_healthOf]
      exact hid
    rw [drained_concat] at hd
    rw [hstep]
    cases call with
    | drain other =>
      rw [healthOf_drain]
      dsimp only at hd
      split
      · obtain ⟨h, hh⟩ := Option.isSome_iff_exists.mp hsome
        rw [hh, Option.map_some]
      · rename_i hne
        rw [if_neg hne] at hd
        exact hpast hd
    | undrain other =>
      dsimp only at hd
      split at hd
      · cases hd
      · rename_i hne
        exact step_stays (hpast hd) not_false fun he => hne (by cases he; rfl)
    | probe other success => exact step_stays (hpast hd) (hover hd) Call.noConfusion
    | traffic other failed now => exact step_stays (hpast hd) not_false Call.noConfusion
    | eligible now => exact step_stays (hpast hd) not_false Call.noConfusion

/-- A drained endpoint stays out of rotation exactly when no probe result reported
meanwhile completes a streak. -/
theorem drained_stays_iff (s : EndpointSet) (id : String) (i : Nat) (hi : s.position id = some i) (calls : List Call) :
    (∀ past, past <+: calls → drained id past = true →
      (run step s past).healthOf id = some .draining ∧ ∀ now, i ∉ ((run step s past).eligible now).1) ↔
    ∀ past call, past ++ [call] <+: calls → drained id past = true → ¬ (run step s past).Overrides id call := by
  have hid : (s.healthOf id).isSome = true := by
    rw [isSome_healthOf]
    rw [position_of_ids] at hi
    obtain ⟨hlt, he, _⟩ := List.findIdx?_eq_some_iff_getElem.mp hi
    have hm := List.getElem_mem hlt
    rwa [eq_of_beq he] at hm
  constructor
  · intro h past call hp hd hover
    have hprobe : drained id (past ++ [call]) = true := by
      rw [drained_concat]
      cases call with
      | probe other success => exact hd
      | _ => exact hover.elim
    have hstep : run step s (past ++ [call]) = (run step s past).step call := run_append step s past [call]
    have hkept := (h _ hp hprobe).1
    rw [hstep] at hkept
    exact step_overridden hover hkept
  · intro h past hp hd
    have hkept := run_stays hid (fun p c hpc => h p c (hpc.trans hp)) hd
    refine ⟨hkept, fun now => not_eligible ?_ hkept now⟩
    rw [position_of_ids, run_written, ← position_of_ids]
    exact hi

/-- Two backends probed with the default thresholds. -/
def sample : EndpointSet where
  endpoints := ["a", "b"].map fun id => Endpoint.new ⟨id, .unix id, 1, .zero, .synthetic "test"⟩ true
  passive := none
  active := some ⟨.tcpConnect, .fromSecs 10, .fromSecs 2, 2, 3, 0⟩

theorem drained_stays_one_probe :
    drained "a" [.drain "a", .probe "a" true, .eligible 0] = true ∧
    (∀ past, past <+: [.drain "a", .probe "a" true, .eligible 0] → drained "a" past = true →
      (run step sample past).healthOf "a" = some .draining ∧ ∀ now, 0 ∉ ((run step sample past).eligible now).1) := by
  refine ⟨by decide, (drained_stays_iff sample "a" 0 (by decide) _).mpr ?_⟩
  intro past call hp _
  obtain ⟨rest, he⟩ := hp
  rcases past with _ | ⟨first, _ | ⟨second, _ | ⟨third, past⟩⟩⟩
  · cases he
    decide
  · cases he
    decide
  · cases he
    decide
  · have hlen := congrArg List.length he
    simp at hlen

/-- Two probes that succeed put a drained endpoint back into rotation. -/
theorem probes_readmit_drained :
    drained "a" [.drain "a", .probe "a" true, .probe "a" true] = true ∧
      (run step sample [.drain "a", .probe "a" true, .probe "a" true]).healthOf "a" = some .healthy ∧
      0 ∈ ((run step sample [.drain "a", .probe "a" true, .probe "a" true]).eligible 0).1 := by
  decide

end EndpointSet

end Gatel.State
