import Gatel.Lib.Run
import Gatel.Model.Body

namespace Gatel.Measured

/-- One call of `completed`, for which request, and what it adds to the counters. -/
structure Completion where
  request : Nat
  status : Nat
  bytes : Nat
  deriving DecidableEq

structure RouteMetrics where
  inFlight : Int
  completed : List Completion

/-- One request in progress. -/
structure Measure (ρ : Type) where
  route : ρ
  request : Nat

inductive ResBody where
  | none
  | once (bytes : List UInt8)
  | chunks (parts : List (List UInt8))
  /-- Everything that is not in memory yet. -/
  | streaming

structure MeasuredBody (ρ : Type) where
  measure : Option (Measure ρ)
  status : Nat
  sent : Nat

variable {ρ : Type} [DecidableEq ρ]

namespace Measure

/-- The gauge goes up here. -/
def start (metrics : ρ → RouteMetrics) (route : ρ) (request : Nat) : (ρ → RouteMetrics) × Measure ρ :=
  (Function.update metrics route { metrics route with inFlight := (metrics route).inFlight + 1 }, ⟨route, request⟩)

def finish (measure : Measure ρ) (metrics : ρ → RouteMetrics) (status bytes : Nat) : ρ → RouteMetrics :=
  Function.update metrics measure.route {
    inFlight := (metrics measure.route).inFlight - 1
    completed := (metrics measure.route).completed ++ [⟨measure.request, status, bytes⟩] }

end Measure

/-- Take the measurement, wrapping the body if it has not finished yet. -/
def observe (metrics : ρ → RouteMetrics) (status : Option Nat) (body : ResBody) (measure : Measure ρ) :
    (ρ → RouteMetrics) × Option (MeasuredBody ρ) :=
  let status := status.getD 200
  match body with
  | .none => (measure.finish metrics status 0, none)
  | .once bytes => (measure.finish metrics status bytes.length, none)
  | .chunks parts => (measure.finish metrics status (parts.map List.length).sum, none)
  | .streaming => (metrics, some ⟨some measure, status, 0⟩)

namespace MeasuredBody

/-- `measure.take()`, and the end of what it measured. -/
def conclude (b : MeasuredBody ρ) (metrics : ρ → RouteMetrics) : (ρ → RouteMetrics) × MeasuredBody ρ :=
  match b.measure with
  | some measure => (measure.finish metrics b.status b.sent, { b with measure := none })
  | none => (metrics, b)

/-- `poll_frame`, told what the body inside answers. -/
def pollFrame (b : MeasuredBody ρ) (metrics : ρ → RouteMetrics) : Polled String → (ρ → RouteMetrics) × MeasuredBody ρ
  | .frame f => (metrics, { b with sent := b.sent + f.dataBytes.length })
  | .failed _ | .ended => b.conclude metrics
  | .pending => (metrics, b)

end MeasuredBody

/-- What is left of a request in the process. -/
inductive Phase (ρ : Type) where
  | running (measure : Measure ρ)
  | streaming (body : MeasuredBody ρ)
  | gone

/-- What can happen to a request that was routed. -/
inductive Happening where
  /-- The chain came back with this response. -/
  | answered (status : Option Nat) (body : ResBody)
  /-- The handler's future was dropped at an await. -/
  | abandoned
  | polled (polled : Polled String)
  | dropped

/-- `Dispatcher::handle` from the start of the measurement on; what cannot happen to it in its phase changes nothing. -/
def Phase.after (metrics : ρ → RouteMetrics) : Phase ρ → Happening → (ρ → RouteMetrics) × Phase ρ
  | .running measure, .answered status body =>
    let (metrics, measured) := observe metrics status body measure
    (metrics, measured.elim .gone .streaming)
  -- `Measure` has no `Drop`.
  | .running _, .abandoned => (metrics, .gone)
  | .streaming body, .polled polled =>
    let (metrics, body) := body.pollFrame metrics polled
    (metrics, .streaming body)
  | .streaming body, .dropped => ((body.conclude metrics).1, .gone)
  | phase, _ => (metrics, phase)

inductive Event (ρ : Type) where
  | routed (route : ρ)
  | happened (request : Nat) (what : Happening)

structure State (ρ : Type) where
  metrics : ρ → RouteMetrics
  requests : List (Phase ρ)

namespace State

def init : State ρ := ⟨fun _ => ⟨0, []⟩, []⟩

def step (s : State ρ) : Event ρ → State ρ
  | .routed route =>
    let (metrics, measure) := Measure.start s.metrics route s.requests.length
    ⟨metrics, s.requests ++ [.running measure]⟩
  | .happened request what =>
    match s.requests[request]? with
    | none => s
    | some phase =>
      let (metrics, phase) := phase.after s.metrics what
      ⟨metrics, s.requests.set request phase⟩

end State

/-! What became of each request, without its measure. -/

def ResBody.size : ResBody → Option Nat
  | .none => some 0
  | .once bytes => some bytes.length
  | .chunks parts => some (parts.map List.length).sum
  | .streaming => .none

inductive Life where
  | running
  | streaming (handed : Nat)
  | left (handed : Nat)
  /-- Left with the chain still running. -/
  | abandoned
  deriving DecidableEq

namespace Life

def after : Life → Happening → Life
  | .running, .answered _ body => body.size.elim (.streaming 0) .left
  | .running, .abandoned => .abandoned
  | .streaming handed, .polled (.frame f) => .streaming (handed + f.dataBytes.length)
  | .streaming handed, .polled (.failed _) | .streaming handed, .polled .ended | .streaming handed, .dropped => .left handed
  | life, _ => life

def inFlight : Life → Bool
  | .running | .streaming _ => true
  | .left _ | .abandoned => false

/-- The bytes of the completions that should be recorded. -/
def recorded : Life → List Nat
  | .running | .streaming _ => []
  | .left handed => [handed]
  | .abandoned => [0]

end Life

/-- One event more in the lives of the requests, each with its route. -/
def replay (lives : List (ρ × Life)) : Event ρ → List (ρ × Life)
  | .routed route => lives ++ [(route, .running)]
  | .happened request what =>
    match lives[request]? with
    | none => lives
    | some (route, life) => lives.set request (route, life.after what)

/-- How many requests of a route are so. -/
def count (p : Life → Bool) (lives : List (ρ × Life)) (route : ρ) : Nat := lives.countP fun x => x.1 = route && p x.2

/-- The gauge of every route is right, and so is what is recorded of every request. -/
structure Balanced (metrics : ρ → RouteMetrics) (lives : List (ρ × Life)) : Prop where
  gauge : ∀ route, (metrics route).inFlight = count Life.inFlight lives route
  recorded : ∀ request route life, lives[request]? = some (route, life) →
    ((metrics route).completed.filter (·.request = request)).map Completion.bytes = life.recorded
  known : ∀ route, ∀ c ∈ (metrics route).completed, ∃ life, lives[c.request]? = some (route, life)

/-! What the code keeps instead: a request that was abandoned is never taken off the gauge, and never recorded. -/

namespace Life

@[grind =] def counted : Life → Bool
  | .running | .streaming _ | .abandoned => true
  | .left _ => false

def kept : Life → List Nat
  | .running | .streaming _ | .abandoned => []
  | .left handed => [handed]

end Life

/-- How a request stands in the process. -/
inductive Stands (measure : Measure ρ) : Phase ρ → Life → Prop where
  | running : Stands measure (.running measure) .running
  | streaming (status handed : Nat) : Stands measure (.streaming ⟨some measure, status, handed⟩) (.streaming handed)
  | finished (status sent handed : Nat) : Stands measure (.streaming ⟨none, status, sent⟩) (.left handed)
  | gone (handed : Nat) : Stands measure .gone (.left handed)
  | abandoned : Stands measure .gone .abandoned

structure Kept (s : State ρ) (lives : List (ρ × Life)) : Prop where
  length : s.requests.length = lives.length
  stands : ∀ i phase route life, s.requests[i]? = some phase → lives[i]? = some (route, life) → Stands ⟨route, i⟩ phase life
  gauge : ∀ route, (s.metrics route).inFlight = count Life.counted lives route
  recorded : ∀ i route life, lives[i]? = some (route, life) →
    ((s.metrics route).completed.filter (·.request = i)).map Completion.bytes = life.kept
  known : ∀ route, ∀ c ∈ (s.metrics route).completed, ∃ life, lives[c.request]? = some (route, life)

/-- What one happening does: nothing to the metrics, or it ends the measurement. -/
inductive Effect (metrics : ρ → RouteMetrics) (measure : Measure ρ) (life life' : Life) (metrics' : ρ → RouteMetrics) : Prop where
  | quiet (hm : metrics' = metrics) (hc : life'.counted = life.counted) (hk : life'.kept = life.kept)
  | finished (status handed : Nat) (hm : metrics' = measure.finish metrics status handed) (hc : life.counted = true) (hk : life.kept = [])
      (hl : life' = .left handed)

theorem Stands.after {measure : Measure ρ} {phase : Phase ρ} {life : Life} (h : Stands measure phase life)
    (metrics : ρ → RouteMetrics) (what : Happening) : Stands measure (phase.after metrics what).2 (life.after what) ∧
      Effect metrics measure life (life.after what) (phase.after metrics what).1 := by
  cases h with
  | running =>
    cases what with
    | answered status body =>
      cases body with
      | none => exact ⟨.gone _, .finished _ _ rfl rfl rfl rfl⟩
      | once bytes => exact ⟨.gone _, .finished _ _ rfl rfl rfl rfl⟩
      | chunks parts => exact ⟨.gone _, .finished _ _ rfl rfl rfl rfl⟩
      | streaming => exact ⟨.streaming _ _, .quiet rfl rfl rfl⟩
    | abandoned => exact ⟨.abandoned, .quiet rfl rfl rfl⟩
    | polled _ => exact ⟨.running, .quiet rfl rfl rfl⟩
    | dropped => exact ⟨.running, .quiet rfl rfl rfl⟩
  | streaming status handed =>
    cases what with
    | answered _ _ => exact ⟨.streaming _ _, .quiet rfl rfl rfl⟩
    | abandoned => exact ⟨.streaming _ _, .quiet rfl rfl rfl⟩
    | dropped => exact ⟨.gone _, .finished _ _ rfl rfl rfl rfl⟩
    | polled polled =>
      cases polled with
      | pending => exact ⟨.streaming _ _, .quiet rfl rfl rfl⟩
      | frame f => exact ⟨.streaming _ _, .quiet rfl rfl rfl⟩
      | failed _ => exact ⟨.finished _ _ _, .finished _ _ rfl rfl rfl rfl⟩
      | ended => exact ⟨.finished _ _ _, .finished _ _ rfl rfl rfl rfl⟩
  | finished status sent handed =>
    cases what with
    | answered _ _ => exact ⟨.finished _ _ _, .quiet rfl rfl rfl⟩
    | abandoned => exact ⟨.finished _ _ _, .quiet rfl rfl rfl⟩
    | dropped => exact ⟨.gone _, .quiet rfl rfl rfl⟩
    | polled polled => cases polled <;> exact ⟨.finished _ _ _, .quiet rfl rfl rfl⟩
  | gone handed => cases what <;> exact ⟨.gone _, .quiet rfl rfl rfl⟩
  | abandoned => cases what <;> exact ⟨.abandoned, .quiet rfl rfl rfl⟩

theorem finish_inFlight (measure : Measure ρ) (metrics : ρ → RouteMetrics) (status bytes : Nat) (route : ρ) :
    (measure.finish metrics status bytes route).inFlight = (metrics route).inFlight - if route = measure.route then 1 else 0 := by
  unfold Measure.finish
  by_cases h : route = measure.route
  · rw [if_pos h, h, Function.update_self]
  · rw [if_neg h, Function.update_of_ne h, sub_zero]

theorem finish_completed (measure : Measure ρ) (metrics : ρ → RouteMetrics) (status bytes : Nat) (route : ρ) :
    (measure.finish metrics status bytes route).completed =
      (metrics route).completed ++ if route = measure.route then [⟨measure.request, status, bytes⟩] else [] := by
  unfold Measure.finish
  by_cases h : route = measure.route
  · rw [if_pos h, h, Function.update_self]
  · rw [if_neg h, Function.update_of_ne h, List.append_nil]

theorem count_append (p : Life → Bool) (lives : List (ρ × Life)) (route other : ρ) (life : Life) :
    count p (lives ++ [(route, life)]) other = count p lives other + if other = route ∧ p life = true then 1 else 0 := by
  have hroute : (decide (route = other) && p life) = true ↔ other = route ∧ p life = true := by
    rw [Bool.and_eq_true, decide_eq_true_eq, eq_comm]
  rw [count, List.countP_append, List.countP_singleton, ← count]
  simp only [hroute]

theorem count_set (p : Life → Bool) {lives : List (ρ × Life)} {i : Nat} {route : ρ} {life : Life} (h : lives[i]? = some (route, life))
    (life' : Life) (other : ρ) : count p (lives.set i (route, life')) other + (if other = route ∧ p life = true then 1 else 0) =
      count p lives other + if other = route ∧ p life' = true then 1 else 0 := by
  have hroute (life : Life) : (decide (route = other) && p life) = true ↔ other = route ∧ p life = true := by
    rw [Bool.and_eq_true, decide_eq_true_eq, eq_comm]
  obtain ⟨hlt, he⟩ := List.getElem?_eq_some_iff.mp h
  have hsplit : lives = lives.take i ++ (route, life) :: lives.drop (i + 1) := by
    rw [← he, List.getElem_cons_drop, List.take_append_drop]
  have hset := List.set_eq_take_append_cons_drop (a := (route, life')) (l := lives) (i := i)
  rw [if_pos hlt] at hset
  rw [hset]
  conv_rhs => rw [hsplit]
  simp only [count, List.countP_append, List.countP_cons, hroute]
  omega

theorem getElem?_single {α : Type} {a b : α} {i : Nat} (h : [a][i]? = some b) : i = 0 ∧ b = a := by
  cases i with
  | zero => exact ⟨rfl, (Option.some.inj h).symm⟩
  | succ i => cases h

namespace Kept

theorem init : Kept (State.init : State ρ) [] where
  length := rfl
  stands := nofun
  gauge _ := rfl
  recorded := nofun
  known := nofun

variable {s : State ρ} {lives : List (ρ × Life)}

theorem routed (h : Kept s lives) (route : ρ) : Kept (s.step (.routed route)) (replay lives (.routed route)) := by
  have hcompleted (other : ρ) : ((s.step (.routed route)).metrics other).completed = (s.metrics other).completed := by
    simp only [State.step, Measure.start]
    by_cases he : other = route
    · rw [he, Function.update_self]
    · rw [Function.update_of_ne he]
  have hnone : ∀ other, (s.metrics other).completed.filter (·.request = lives.length) = [] := by
    intro other
    rw [List.filter_eq_nil_iff]
    intro c hc
    obtain ⟨life, hl⟩ := h.known other c hc
    have hlt := (List.getElem?_eq_some_iff.mp hl).1
    simp [hlt.ne]
  refine ⟨?_, ?_, ?_, ?_, ?_⟩
  · simp [State.step, replay, h.length]
  · intro i phase other life hp hl
    simp only [State.step, replay, Measure.start] at hp hl
    rcases Nat.lt_or_ge i lives.length with hi | hi
    · rw [List.getElem?_append_left (h.length ▸ hi)] at hp
      rw [List.getElem?_append_left hi] at hl
      exact h.stands i phase other life hp hl
    · rw [List.getElem?_append_right hi] at hl
      rw [List.getElem?_append_right (h.length ▸ hi)] at hp
      obtain ⟨hi0, hl⟩ := getElem?_single hl
      obtain ⟨-, hp⟩ := getElem?_single hp
      cases hl
      subst hp
      have hi : i = s.requests.length := by rw [h.length]; omega
      exact hi ▸ .running
  · intro other
    simp only [State.step, replay, Measure.start, count_append]
    by_cases he : other = route
    · rw [he, Function.update_self]
      simp [h.gauge route, Life.counted]
    · rw [Function.update_of_ne he, h.gauge other]
      simp [he]
  · intro i other life hl
    rw [hcompleted]
    simp only [replay] at hl
    rcases Nat.lt_or_ge i lives.length with hi | hi
    · rw [List.getElem?_append_left hi] at hl
      exact h.recorded i other life hl
    · rw [List.getElem?_append_right hi] at hl
      obtain ⟨hi0, hl⟩ := getElem?_single hl
      cases hl
      have hi : i = lives.length := by omega
      rw [hi, hnone]
      rfl
  · intro other c hc
    rw [hcompleted] at hc
    obtain ⟨life, hl⟩ := h.known other c hc
    exact ⟨life, by rw [replay, List.getElem?_append_left (List.getElem?_eq_some_iff.mp hl).1, hl]⟩

theorem happened (h : Kept s lives) (i : Nat) (what : Happening) : Kept (s.step (.happened i what)) (replay lives (.happened i what)) := by
  cases hl : lives[i]? with
  | none =>
    have hp : s.requests[i]? = none := by rwa [List.getElem?_eq_none_iff, h.length, ← List.getElem?_eq_none_iff]
    simp only [State.step, replay, hl, hp]
    exact h
  | some x =>
    obtain ⟨route, life⟩ := x
    have hlt := (List.getElem?_eq_some_iff.mp hl).1
    obtain ⟨phase, hp⟩ : ∃ phase, s.requests[i]? = some phase := ⟨_, List.getElem?_eq_getElem (h.length ▸ hlt)⟩
    obtain ⟨hstands, heffect⟩ := (h.stands i phase route life hp hl).after s.metrics what
    simp only [State.step, replay, hl, hp]
    rcases hafter : phase.after s.metrics what with ⟨metrics, phase'⟩
    rw [hafter] at hstands heffect
    generalize life.after what = life' at hstands heffect
    have hcount := fun other => count_set Life.counted hl life' other
    have hother {j : Nat} (hne : j ≠ i) : (lives.set i (route, life'))[j]? = lives[j]? := List.getElem?_set_ne hne.symm
    have hself : (lives.set i (route, life'))[i]? = some (route, life') := List.getElem?_set_self hlt
    refine ⟨by simpa using h.length, ?_, ?_, ?_, ?_⟩
    · intro j phase'' other life'' hpj hlj
      by_cases hj : j = i
      · subst hj
        rw [List.getElem?_set_self (h.length ▸ hlt)] at hpj
        rw [hself] at hlj
        cases hpj
        cases hlj
        exact hstands
      · rw [List.getElem?_set_ne (Ne.symm hj)] at hpj
        rw [hother hj] at hlj
        exact h.stands j phase'' other life'' hpj hlj
    · intro other
      specialize hcount other
      cases heffect with
      | quiet hm hc hk =>
        rw [hm, h.gauge other]
        rw [hc] at hcount
        exact congrArg Nat.cast (Nat.add_right_cancel hcount).symm
      | finished status handed hm hc hk hlife =>
        rw [hm, finish_inFlight, h.gauge other]
        have hleft : life'.counted = false := by rw [hlife]; rfl
        simp only [hc, hleft, and_true, Bool.false_eq_true, and_false, if_false] at hcount
        by_cases he : other = route
        · simp only [he, if_true] at hcount ⊢
          omega
        · simp only [he, if_false] at hcount ⊢
          omega
    · intro j other life'' hlj
      by_cases hj : j = i
      · subst hj
        rw [hself] at hlj
        cases hlj
        have hrec := h.recorded j _ life hl
        cases heffect with
        | quiet hm hc hk => rw [hm, hrec, hk]
        | finished status handed hm hc hk hlife =>
          rw [hm, finish_completed, if_pos rfl, List.filter_append, List.map_append, hrec, hk, hlife]
          simp [Life.kept]
      · rw [hother hj] at hlj
        rw [← h.recorded j other life'' hlj]
        cases heffect with
        | quiet hm hc hk => rw [hm]
        | finished status handed hm hc hk hlife =>
          rw [hm, finish_completed, List.filter_append]
          split <;> simp [Ne.symm hj]
    · intro other c hc
      have hold {c : Completion} (hc : c ∈ (s.metrics other).completed) :
          ∃ life, (lives.set i (route, life'))[c.request]? = some (other, life) := by
        obtain ⟨life'', hlc⟩ := h.known other c hc
        by_cases hi : c.request = i
        · rw [hi] at hlc ⊢
          rw [hl] at hlc
          cases hlc
          exact ⟨life', hself⟩
        · exact ⟨life'', by rw [hother hi, hlc]⟩
      cases heffect with
      | quiet hm => exact hold (hm ▸ hc)
      | finished status handed hm =>
        rw [hm, finish_completed] at hc
        rcases List.mem_append.mp hc with hc | hc
        · exact hold hc
        · by_cases he : other = route
          · rw [if_pos he, List.mem_singleton] at hc
            subst hc
            exact ⟨life', by rw [hself, he]⟩
          · rw [if_neg he] at hc
            cases hc

theorem step (h : Kept s lives) (e : Event ρ) : Kept (s.step e) (replay lives e) := by
  cases e with
  | routed route => exact h.routed route
  | happened i what => exact h.happened i what

end Kept

theorem kept_run (events : List (Event ρ)) : Kept (Run.run State.step State.init events) (Run.run replay [] events) := by
  suffices h : ∀ (s : State ρ) lives, Kept s lives → Kept (Run.run State.step s events) (Run.run replay lives events) from h _ _ .init
  induction events with
  | nil => exact fun _ _ h => h
  | cons e events ih => exact fun _ _ h => ih _ _ (h.step e)

/-- After any events, everything is right exactly when no request left with its chain still running. -/
theorem balanced_iff (events : List (Event ρ)) :
    Balanced (Run.run State.step State.init events).metrics (Run.run replay [] events) ↔
      ∀ x ∈ Run.run replay [] events, x.2 ≠ .abandoned := by
  have h := kept_run events
  generalize (Run.run State.step State.init events) = s at h ⊢
  generalize Run.run replay [] events = lives at h ⊢
  constructor
  · rintro hb ⟨route, life⟩ hx rfl
    obtain ⟨i, hi⟩ := List.mem_iff_getElem?.mp hx
    have hrec := (hb.recorded i route _ hi).symm.trans (h.recorded i route _ hi)
    cases hrec
  · intro hnone
    refine ⟨?_, ?_, h.known⟩
    · intro route
      rw [h.gauge route, count, count]
      refine congrArg Nat.cast (List.countP_congr ?_)
      intro x hx
      have hne := hnone x hx
      cases hlife : x.2 <;> simp_all [Life.counted, Life.inFlight]
    · intro i route life hl
      rw [h.recorded i route life hl]
      have hne := hnone _ (List.mem_of_getElem? hl)
      cases life <;> first | rfl | exact absurd rfl hne

/-- A client that goes away while the chain runs stays on the gauge. -/
theorem abandoned_stays : ¬ ∀ events : List (Event Unit),
    Balanced (Run.run State.step State.init events).metrics (Run.run replay [] events) := by
  intro h
  have hgauge := (h [.routed (), .happened 0 .abandoned]).gauge ()
  exact absurd hgauge (by decide)

end Gatel.Measured
