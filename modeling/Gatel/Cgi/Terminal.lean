import Gatel.Cgi.Sink

namespace Gatel.Cgi

/-! One CGI exchange: the wait for the head, then the response stream. -/

/-- How the backend's future ends. -/
inductive Outcome where
  | ok
  | err (error : ExchangeError)
  | panic
  | timeout
  deriving DecidableEq

/-- What a backend does in one poll, and how it ends if it does. -/
structure Turn where
  actions : List Sink.Action
  outcome : Option Outcome
  deriving DecidableEq

/-- `checked_transfer` under its deadline: success needs a finished response. -/
def Outcome.result (o : Outcome) (completion : Completion) : Except ExchangeError Unit :=
  match o with
  | .ok => if completion = .finished then .ok () else .error .failed
  | .err error => .error error
  | .panic => .error .failed
  | .timeout => .error .timeout

/-- One poll of the transfer; what it holds is dropped when it ends. -/
def Sink.poll (s : Sink) (t : Turn) : Sink × Option (Except ExchangeError Unit) :=
  let s := Run.run Sink.act s t.actions
  match t.outcome with
  | none => (s, none)
  | some o => (s.drop, some (o.result s.drop.completion))

inductive StreamError where
  | duplicateHead
  | transfer (error : ExchangeError)
  deriving DecidableEq

inductive Answer where
  | item (bytes : List UInt8)
  | failed (error : StreamError)
  | ended
  deriving DecidableEq

@[grind =] def Answer.bytes : Answer → List UInt8
  | .item bytes => bytes
  | .failed _ | .ended => []

inductive Stage where
  /-- The `select!` on the first message and the transfer. -/
  | selecting
  /-- Something other than a head came first. -/
  | refusing
  /-- There can be no body: the transfer is awaited before the answer. -/
  | finishing (head : Head)
  | streaming (head : Head) (running : Bool) (error : Option ExchangeError)
  | refused (status : UInt16)
  deriving DecidableEq

/-- One poll from outside: what the backend does in it, and whether `poll_recv` fails
spuriously, which tokio allows, before and after the end of the transfer. -/
structure Poll where
  turn : Turn
  early : Bool
  late : Bool
  deriving DecidableEq

structure Exchange where
  sink : Sink
  stage : Stage
  /-- For the statements only: how the transfer ended, and what the client's stream yielded. -/
  result : Option (Except ExchangeError Unit)
  answers : List Answer
  deriving DecidableEq

namespace Exchange

def new : Exchange := ⟨.new, .selecting, none, []⟩

/-- `receiver.poll_recv`; nothing to take and a spurious failure are treated alike. -/
def recv (s : Sink) (spurious : Bool) : Option (Message × Sink) :=
  if spurious then none
  else match s.queue with
    | [] => none
    | message :: rest => some (message, { s with queue := rest })

/-- The stream has taken a message. -/
def yieldMessage (x : Exchange) (s : Sink) : Message → Exchange
  | .body bytes => { x with sink := s, answers := x.answers ++ [.item bytes] }
  | .head _ => { x with sink := s, answers := x.answers ++ [.failed .duplicateHead] }

/-- A turn of the loop in `poll_next` after the end of the transfer. -/
def closing (x : Exchange) (head : Head) (error : Option ExchangeError) (late : Bool) : Exchange :=
  match recv x.sink late with
  | some (message, s) => { x with stage := .streaming head false error }.yieldMessage s message
  | none => { x with
      stage := .streaming head false none
      answers := x.answers ++ [(error.map fun e => Answer.failed (.transfer e)).getD .ended] }

def errorOf : Except ExchangeError Unit → Option ExchangeError
  | .ok _ => none
  | .error e => some e

/-- `ResponseStream::poll_next`. -/
def pollNext (x : Exchange) (head : Head) (running : Bool) (error : Option ExchangeError) (p : Poll) : Exchange :=
  if running then
    match recv x.sink p.early with
    | some (message, s) => x.yieldMessage s message
    | none =>
      match x.sink.poll p.turn with
      | (s, none) => { x with sink := s }
      | (s, some result) => { x with sink := s, result := some result }.closing head (errorOf result) p.late
  else x.closing head error p.late

/-- Whether there can be a body at all. -/
def bodyless (headRequest : Bool) (head : Head) : Bool :=
  headRequest || head.contentLength == some 0 || head.status == 204 || head.status == 304

/-- The `select!` of `execute`: the receiver first, then the transfer. -/
def select (x : Exchange) (headRequest : Bool) (p : Poll) : Exchange :=
  match recv x.sink p.early with
  | some (.head head, s) =>
    { x with sink := s, stage := if bodyless headRequest head then .finishing head else .streaming head true none }
  | some (.body _, s) => { x with sink := s, stage := .refusing }
  | none =>
    if p.early = false ∧ x.sink.queue = [] ∧ x.sink.held = false then { x with stage := .refusing }
    else match x.sink.poll p.turn with
      | (s, none) => { x with sink := s }
      | (s, some (.error e)) => { x with sink := s, result := some (.error e), stage := .refused e.status }
      | (s, some (.ok _)) =>
        match recv s false with
        | some (.head head, s) => { x with sink := s, result := some (.ok ()), stage := .streaming head false none }
        | some (.body _, s) => { x with sink := s, result := some (.ok ()), stage := .refused 502 }
        | none => { x with sink := s, result := some (.ok ()), stage := .refused 502 }

/-- `running.await` on the way to an answer without a body or to a refusal. -/
def await (x : Exchange) (p : Poll) (answer : Except ExchangeError Unit → Stage) : Exchange :=
  match x.sink.poll p.turn with
  | (s, none) => { x with sink := s }
  | (s, some result) => { x with sink := s, result := some result, stage := answer result }

def step (headRequest : Bool) (x : Exchange) (p : Poll) : Exchange :=
  match x.stage with
  | .selecting => x.select headRequest p
  | .refusing => x.await p fun
    | .ok _ => .refused 502
    | .error e => .refused e.status
  | .finishing head => x.await p fun
    | .ok _ => .streaming head false none
    | .error e => .refused e.status
  | .streaming head running error => x.pollNext head running error p
  | .refused _ => x

/-- All bytes the client got. -/
def delivered (x : Exchange) : List UInt8 := x.answers.flatMap Answer.bytes

/-- The stream ended, and never failed. -/
def Clean (x : Exchange) : Prop := .ended ∈ x.answers ∧ ∀ e, .failed e ∉ x.answers

/-- `poll_recv` failed spuriously after the end of the transfer with a message in the queue. -/
def Overlooks (x : Exchange) (p : Poll) : Prop :=
  p.late = true ∧ ∃ head running error, x.stage = .streaming head running error ∧
    ((running = false ∧ x.sink.queue ≠ []) ∨
      (running = true ∧ (x.sink.poll p.turn).2.isSome ∧ (x.sink.poll p.turn).1.queue ≠ []))

end Exchange

namespace Sink

theorem run_inv {s : Sink} (h : s.Inv) (actions : List Action) : (Run.run act s actions).Inv :=
  Run.invariant (I := Inv) (fun _ a h => h.act a) h actions

theorem run_sent {s : Sink} {taken : List UInt8} (h : taken ++ s.queue.flatMap Message.bytes = s.sent)
    (actions : List Action) :
    taken ++ (Run.run act s actions).queue.flatMap Message.bytes = (Run.run act s actions).sent :=
  Run.invariant (I := fun s : Sink => taken ++ s.queue.flatMap Message.bytes = s.sent) (fun _ a h => act_sent h a) h actions

/-- What one poll of the transfer keeps; it succeeds only with a finished response. -/
theorem poll_inv {s : Sink} (h : s.Inv) (t : Turn) :
    (s.poll t).1.Inv ∧ ((s.poll t).2 = some (.ok ()) → (s.poll t).1.completion = .finished) := by
  have hi := run_inv h t.actions
  unfold poll
  simp only
  split
  · exact ⟨hi, fun h => (by cases h)⟩
  · rename_i o _
    refine ⟨hi.drop, ?_⟩
    intro hr
    cases o with
    | ok =>
      simp only [Outcome.result] at hr
      split at hr
      · assumption
      · cases hr
    | err error => cases hr
    | panic => cases hr
    | timeout => cases hr

theorem poll_sent {s : Sink} {taken : List UInt8} (h : taken ++ s.queue.flatMap Message.bytes = s.sent) (t : Turn) :
    taken ++ (s.poll t).1.queue.flatMap Message.bytes = (s.poll t).1.sent := by
  have hs := run_sent h t.actions
  unfold poll
  simp only
  split
  · exact hs
  · exact act_sent hs .drop

/-- A finished response was made of completed calls in order. -/
theorem Inv.finished {s : Sink} (h : s.Inv) (hc : s.completion = .finished) :
    s.underway = none ∧ ∃ head bodies, s.calls = wellFormed head bodies ++ [(.finish, .completed)] ∧ s.sent = bodies.flatten := by
  have hu : s.underway = none := by
    cases hu : s.underway with
    | none => rfl
    | some u =>
      have hf := (h.busy u hu).1
      rw [hc] at hf
      cases hf
  refine ⟨hu, ?_⟩
  have hs := h.idle hu (by rw [hc]; decide)
  rw [hc] at hs
  generalize s.calls = calls, s.sent = sent at hs
  cases hs with
  | finished head bodies => exact ⟨head, bodies, rfl, rfl⟩

end Sink

namespace Exchange

/-- The stream is the client's only from the head on. -/
def Streams : Stage → Prop
  | .streaming _ _ _ => True
  | .selecting | .refusing | .finishing _ | .refused _ => False

/-- Everything sent is with the client or in the queue, as long as the exchange may be answered. -/
def Flows (x : Exchange) : Prop := x.delivered ++ x.sink.queue.flatMap Message.bytes = x.sink.sent

structure Inv (x : Exchange) : Prop where
  sink : x.sink.Inv
  flows : x.Flows ∨ x.stage = .refusing ∨ ∃ status, x.stage = .refused status
  quiet : ¬ Streams x.stage → x.answers = []
  running : ∀ head error, x.stage = .streaming head true error → .ended ∉ x.answers
  settled : ∀ head error, x.stage = .streaming head false error →
    (x.result = some (.ok ()) → x.sink.completion = .finished) ∧
    (error = none → x.result = some (.ok ()) ∨ ∃ e, .failed e ∈ x.answers) ∧
    (error ≠ none → .ended ∉ x.answers)
  clean : x.Clean → x.sink.queue = [] ∧ x.result = some (.ok ())

theorem inv_new : new.Inv where
  sink := Sink.inv_new
  flows := Or.inl rfl
  quiet _ := rfl
  running _ _ h := by cases h
  settled _ _ h := by cases h
  clean h := by cases h.1

theorem recv_some {s s' : Sink} {spurious : Bool} {message : Message} (h : recv s spurious = some (message, s')) :
    s.queue = message :: s'.queue ∧ s' = { s with queue := s'.queue } := by
  unfold recv at h
  split at h
  · cases h
  · split at h
    · cases h
    · rename_i hq
      cases h
      exact ⟨hq, rfl⟩

theorem recv_none {s : Sink} {spurious : Bool} (h : recv s spurious = none) : spurious = true ∨ s.queue = [] := by
  unfold recv at h
  split at h
  · exact Or.inl (by assumption)
  · split at h
    · exact Or.inr (by assumption)
    · cases h

theorem inv_queue {s : Sink} (h : s.Inv) (queue : List Message) : Sink.Inv { s with queue := queue } :=
  ⟨h.idle, h.busy, h.part⟩

/-- What the stream hands on comes off the queue. -/
theorem yieldMessage_flows {x : Exchange} (h : x.Flows) {message : Message} {s : Sink}
    (hq : x.sink.queue = message :: s.queue) (hs : s = { x.sink with queue := s.queue }) :
    (x.yieldMessage s message).Flows := by
  have hsent : s.sent = x.sink.sent := by rw [hs]
  unfold Flows delivered at h ⊢
  rw [hq, List.flatMap_cons] at h
  cases message with
  | head head =>
    simp only [yieldMessage, List.flatMap_append, List.flatMap_cons, List.flatMap_nil, Answer.bytes, List.append_nil, hsent]
    exact h
  | body bytes =>
    simp only [yieldMessage, List.flatMap_append, List.flatMap_cons, List.flatMap_nil, Answer.bytes, List.append_nil, hsent,
      List.append_assoc]
    exact h

theorem yieldMessage_answers (x : Exchange) (s : Sink) (message : Message) :
    (x.yieldMessage s message).stage = x.stage ∧ (x.yieldMessage s message).result = x.result ∧
      (x.yieldMessage s message).sink = s ∧ (.ended ∈ (x.yieldMessage s message).answers ↔ .ended ∈ x.answers) ∧
      (∀ e, .failed e ∈ x.answers → .failed e ∈ (x.yieldMessage s message).answers) := by
  cases message <;> refine ⟨rfl, rfl, rfl, ?_, ?_⟩ <;> simp +contextual [yieldMessage]

/-- A turn after the end of the transfer that overlooks nothing. -/
theorem closing_inv {x : Exchange} {head : Head} {error : Option ExchangeError} {late : Bool} (hsink : x.sink.Inv)
    (hflows : x.Flows) (hok : x.result = some (.ok ()) → x.sink.completion = .finished)
    (hnone : error = none → x.result = some (.ok ()) ∨ ∃ e, .failed e ∈ x.answers)
    (hsome : error ≠ none → .ended ∉ x.answers) (hclean : x.Clean → x.sink.queue = [] ∧ x.result = some (.ok ()))
    (hlate : late = true → x.sink.queue = []) : (x.closing head error late).Inv := by
  unfold closing
  split
  · rename_i message s hr
    obtain ⟨hq, hs⟩ := recv_some hr
    obtain ⟨hstage, hresult, hsame, hended, hfailed⟩ :=
      yieldMessage_answers { x with stage := .streaming head false error } s message
    refine ⟨?_, Or.inl (yieldMessage_flows (x := { x with stage := .streaming head false error }) hflows hq hs), ?_, ?_, ?_, ?_⟩
    · rw [hsame, hs]
      exact inv_queue hsink _
    · rw [hstage]
      exact fun hno => absurd trivial hno
    · intro _ _ hst
      rw [hstage] at hst
      cases hst
    · intro _ _ hst
      rw [hstage] at hst
      cases hst
      refine ⟨?_, ?_, ?_⟩
      · rw [hresult, hsame, hs]
        exact hok
      · intro he
        rw [hresult]
        refine (hnone he).imp id fun ⟨e, hm⟩ => ⟨e, hfailed e hm⟩
      · intro he
        rw [hended]
        exact hsome he
    · intro hc
      have hold : x.Clean := ⟨hended.mp hc.1, fun e hm => hc.2 e (hfailed e hm)⟩
      rw [(hclean hold).1] at hq
      cases hq
  · rename_i hr
    have hempty : x.sink.queue = [] := (recv_none hr).elim hlate id
    refine ⟨hsink, Or.inl ?_, fun hno => absurd trivial hno, fun _ _ hst => (by cases hst), ?_, ?_⟩
    · unfold Flows delivered at hflows ⊢
      cases error <;> simpa [Answer.bytes] using hflows
    · intro _ _ hst
      cases hst
      refine ⟨hok, ?_, fun hne => absurd rfl hne⟩
      intro _
      cases error with
      | none => exact (hnone rfl).imp id fun ⟨e, hm⟩ => ⟨e, List.mem_append_left _ hm⟩
      | some e => exact Or.inr ⟨.transfer e, by simp⟩
    · intro hc
      refine ⟨hempty, ?_⟩
      cases error with
      | none =>
        refine (hnone rfl).resolve_right ?_
        rintro ⟨e, hm⟩
        exact hc.2 e (List.mem_append_left _ hm)
      | some e => exact absurd (by simp) (hc.2 (.transfer e))

/-- Before the stream is handed over nothing was answered, so most of the invariant is empty. -/
theorem inv_quiet {x : Exchange} (hsink : x.sink.Inv)
    (hflows : x.Flows ∨ x.stage = .refusing ∨ ∃ status, x.stage = .refused status) (hanswers : x.answers = [])
    (hsettled : ∀ head error, x.stage = .streaming head false error →
      x.result = some (.ok ()) ∧ x.sink.completion = .finished) : x.Inv := by
  refine ⟨hsink, hflows, fun _ => hanswers, ?_, ?_, ?_⟩
  · intro _ _ _
    rw [hanswers]
    exact List.not_mem_nil
  · intro head error hst
    obtain ⟨hr, hc⟩ := hsettled head error hst
    refine ⟨fun _ => hc, fun _ => Or.inl hr, fun _ => ?_⟩
    rw [hanswers]
    exact List.not_mem_nil
  · intro hc
    rw [Clean, hanswers] at hc
    cases hc.1

theorem select_inv {x : Exchange} (h : x.Inv) (hstage : x.stage = .selecting) (headRequest : Bool) (p : Poll) :
    (x.select headRequest p).Inv := by
  have hanswers : x.answers = [] := h.quiet (by rw [hstage]; exact id)
  have hflows : x.Flows := by
    refine h.flows.resolve_right ?_
    rw [hstage]
    rintro (h | ⟨_, h⟩) <;> cases h
  have htaken : ([] : List UInt8) ++ x.sink.queue.flatMap Message.bytes = x.sink.sent := by
    rw [← hflows, delivered, hanswers]
    rfl
  obtain ⟨hpoll, hfinished⟩ := Sink.poll_inv h.sink p.turn
  have hsent := Sink.poll_sent htaken p.turn
  unfold select
  split
  · rename_i head s hr
    obtain ⟨hq, hs⟩ := recv_some hr
    refine inv_quiet (by rw [hs]; exact inv_queue h.sink _) (Or.inl ?_) hanswers ?_
    · rw [Flows, delivered, hanswers, hs]
      rw [hq] at htaken
      exact htaken
    · intro _ _ hst
      simp only at hst
      split at hst <;> cases hst
  · rename_i bytes s hr
    obtain ⟨-, hs⟩ := recv_some hr
    exact inv_quiet (by rw [hs]; exact inv_queue h.sink _) (Or.inr (Or.inl rfl)) hanswers fun _ _ hst => (by cases hst)
  · split
    · exact inv_quiet h.sink (Or.inr (Or.inl rfl)) hanswers fun _ _ hst => (by cases hst)
    · split
      · rename_i s hp
        rw [hp] at hpoll hsent
        refine inv_quiet hpoll (Or.inl ?_) hanswers ?_
        · rw [Flows, delivered, hanswers]
          exact hsent
        · intro _ _ hst
          rw [hstage] at hst
          cases hst
      · rename_i s e hp
        rw [hp] at hpoll
        exact inv_quiet hpoll (Or.inr (Or.inr ⟨_, rfl⟩)) hanswers fun _ _ hst => (by cases hst)
      · rename_i s _ hp
        rw [hp] at hpoll hsent hfinished
        split
        · rename_i head s' hr
          obtain ⟨hq, hs⟩ := recv_some hr
          refine inv_quiet (by rw [hs]; exact inv_queue hpoll _) (Or.inl ?_) hanswers ?_
          · rw [Flows, delivered, hanswers, hs]
            rw [hq] at hsent
            exact hsent
          · intro _ _ _
            refine ⟨rfl, ?_⟩
            rw [hs]
            exact hfinished rfl
        · rename_i bytes s' hr
          obtain ⟨-, hs⟩ := recv_some hr
          exact inv_quiet (by rw [hs]; exact inv_queue hpoll _) (Or.inr (Or.inr ⟨_, rfl⟩)) hanswers
            fun _ _ hst => (by cases hst)
        · exact inv_quiet hpoll (Or.inr (Or.inr ⟨_, rfl⟩)) hanswers fun _ _ hst => (by cases hst)

/-- Awaiting the transfer: a refusal, or a stream whose transfer succeeded. -/
theorem await_inv {x : Exchange} (h : x.Inv) (hstage : ¬ Streams x.stage) (p : Poll) {answer : Except ExchangeError Unit → Stage}
    (hanswer : ∀ r, (∃ status, answer r = .refused status) ∨ (r = .ok () ∧ x.Flows)) : (x.await p answer).Inv := by
  have hanswers : x.answers = [] := h.quiet hstage
  obtain ⟨hpoll, hfinished⟩ := Sink.poll_inv h.sink p.turn
  unfold await
  split
  · rename_i s hp
    rw [hp] at hpoll
    refine inv_quiet hpoll (h.flows.imp (fun hf => ?_) id) hanswers fun _ _ hst => ?_
    · have hsent := Sink.poll_sent hf p.turn
      rw [hp] at hsent
      exact hsent
    · have hst : x.stage = _ := hst
      rw [hst] at hstage
      exact absurd trivial hstage
  · rename_i s result hp
    rw [hp] at hpoll hfinished
    rcases hanswer result with ⟨status, ha⟩ | ⟨rfl, hf⟩
    · refine inv_quiet hpoll (Or.inr (Or.inr ⟨status, ha⟩)) hanswers fun _ _ hst => ?_
      rw [ha] at hst
      cases hst
    · refine inv_quiet hpoll (Or.inl ?_) hanswers fun _ _ _ => ⟨rfl, hfinished rfl⟩
      have hsent := Sink.poll_sent hf p.turn
      rw [hp] at hsent
      exact hsent

theorem pollNext_inv {x : Exchange} (h : x.Inv) {head : Head} {running : Bool} {error : Option ExchangeError}
    (hstage : x.stage = .streaming head running error) {p : Poll} (hlook : ¬ x.Overlooks p) :
    (x.pollNext head running error p).Inv := by
  have hflows : x.Flows := by
    refine h.flows.resolve_right ?_
    rw [hstage]
    rintro (h | ⟨_, h⟩) <;> cases h
  unfold pollNext
  cases running with
  | false =>
    obtain ⟨hok, hnone, hsome⟩ := h.settled head error hstage
    refine closing_inv h.sink hflows hok hnone hsome h.clean ?_
    intro hlate
    by_contra hq
    exact hlook ⟨hlate, head, false, error, hstage, Or.inl ⟨rfl, hq⟩⟩
  | true =>
    have hended := h.running head error hstage
    rw [if_pos rfl]
    split
    · rename_i message s hr
      obtain ⟨hq, hs⟩ := recv_some hr
      obtain ⟨hst, hresult, hsame, hend, hfailed⟩ := yieldMessage_answers x s message
      refine ⟨?_, Or.inl (yieldMessage_flows hflows hq hs), ?_, ?_, ?_, ?_⟩
      · rw [hsame, hs]
        exact inv_queue h.sink _
      · rw [hst, hstage]
        exact fun hno => absurd trivial hno
      · intro _ _ _
        rw [hend]
        exact hended
      · intro _ _ hst'
        rw [hst, hstage] at hst'
        cases hst'
      · intro hc
        exact absurd (hend.mp hc.1) hended
    · obtain ⟨hpoll, hfinished⟩ := Sink.poll_inv h.sink p.turn
      have hsent := Sink.poll_sent hflows p.turn
      split
      · rename_i s hp
        rw [hp] at hpoll hsent
        refine ⟨hpoll, Or.inl hsent, ?_, fun _ _ _ => hended, ?_, fun hc => absurd hc.1 hended⟩
        · rw [hstage]
          exact fun hno => absurd trivial hno
        · intro _ _ hst
          rw [hstage] at hst
          cases hst
      · rename_i s result hp
        have hover : ¬ (p.late = true ∧ s.queue ≠ []) := by
          intro ho
          refine hlook ⟨ho.1, head, true, error, hstage, Or.inr ⟨rfl, ?_, ?_⟩⟩
          · rw [hp]
            rfl
          · rw [hp]
            exact ho.2
        rw [hp] at hpoll hsent hfinished
        refine closing_inv hpoll hsent ?_ ?_ (fun _ => hended) (fun hc => absurd hc.1 hended) ?_
        · intro hr
          exact hfinished hr
        · intro he
          left
          cases result with
          | ok _ => rfl
          | error e => cases he
        · intro hlate
          by_contra hq
          exact hover ⟨hlate, hq⟩

theorem step_inv {x : Exchange} (h : x.Inv) (headRequest : Bool) {p : Poll} (hlook : ¬ x.Overlooks p) :
    (step headRequest x p).Inv := by
  unfold step
  split
  · rename_i hstage
    exact select_inv h hstage headRequest p
  · rename_i hstage
    refine await_inv h (by rw [hstage]; exact id) p fun r => Or.inl ?_
    cases r <;> exact ⟨_, rfl⟩
  · rename_i head hstage
    refine await_inv h (by rw [hstage]; exact id) p fun r => ?_
    cases r with
    | error e => exact Or.inl ⟨_, rfl⟩
    | ok _ =>
      refine Or.inr ⟨rfl, h.flows.resolve_right ?_⟩
      rw [hstage]
      rintro (h | ⟨_, h⟩) <;> cases h
  · rename_i head running error hstage
    exact pollNext_inv h hstage hlook
  · exact h

/-- No poll of the run overlooks a message. -/
def Attentive (headRequest : Bool) (polls : List Poll) : Prop :=
  ∀ before p after, polls = before ++ p :: after → ¬ (Run.run (step headRequest) new before).Overlooks p

theorem run_inv {headRequest : Bool} {polls : List Poll} (h : Attentive headRequest polls) :
    (Run.run (step headRequest) new polls).Inv := by
  induction polls using List.reverseRecOn with
  | nil => exact inv_new
  | append_singleton polls p ih =>
    rw [Run.run_append]
    refine step_inv (ih ?_) headRequest (h polls p [] rfl)
    intro before q after he
    exact h before q (after ++ [p]) (by rw [he, List.append_assoc, List.cons_append])

/-- A response stream that ends without an error carries the whole body of a response whose
calls were a head, bodies and a finish, all completed, in a transfer that returned well; and
what is delivered is at any time a part of the body arguments from the front. -/
theorem never_truncated {headRequest : Bool} {polls : List Poll} (h : Attentive headRequest polls) :
    ((Run.run (step headRequest) new polls).Clean →
      (Run.run (step headRequest) new polls).result = some (.ok ()) ∧
      (Run.run (step headRequest) new polls).sink.underway = none ∧
      ∃ head bodies, (Run.run (step headRequest) new polls).sink.calls =
          Sink.wellFormed head bodies ++ [(.finish, .completed)] ∧
        (Run.run (step headRequest) new polls).delivered = bodies.flatten) ∧
    (Run.run (step headRequest) new polls).delivered <+: (Run.run (step headRequest) new polls).sink.arguments := by
  have hi := run_inv h
  generalize Run.run (step headRequest) new polls = x at hi
  constructor
  · intro hc
    obtain ⟨hq, hr⟩ := hi.clean hc
    have hne : x.answers ≠ [] := List.ne_nil_of_mem hc.1
    cases hst : x.stage with
    | streaming head running error =>
      cases running with
      | true => exact absurd hc.1 (hi.running head error hst)
      | false =>
        obtain ⟨hu, head', bodies, hcalls, hsent⟩ := hi.sink.finished ((hi.settled head error hst).1 hr)
        refine ⟨hr, hu, head', bodies, hcalls, ?_⟩
        have hflows : x.Flows := by
          refine hi.flows.resolve_right ?_
          rw [hst]
          rintro (h | ⟨_, h⟩) <;> cases h
        rw [Flows, hq, List.flatMap_nil, List.append_nil] at hflows
        rw [hflows, hsent]
    | selecting => exact absurd (hi.quiet (by rw [hst]; exact id)) hne
    | refusing => exact absurd (hi.quiet (by rw [hst]; exact id)) hne
    | finishing head => exact absurd (hi.quiet (by rw [hst]; exact id)) hne
    | refused status => exact absurd (hi.quiet (by rw [hst]; exact id)) hne
  · rcases hi.flows with hf | hst
    · exact (hf ▸ List.prefix_append _ _ : x.delivered <+: x.sink.sent).trans hi.sink.part
    · have hquiet : x.answers = [] := by
        apply hi.quiet
        rcases hst with hst | ⟨_, hst⟩ <;> rw [hst] <;> exact id
      rw [delivered, hquiet]
      exact List.nil_prefix

/-- Without spurious failures after the transfer nothing is overlooked. -/
theorem attentive_of_prompt {headRequest : Bool} {polls : List Poll} (h : ∀ p ∈ polls, p.late = false) :
    Attentive headRequest polls := by
  intro before p after he hlook
  have hp := h p (by rw [he]; simp)
  rw [hlook.1] at hp
  cases hp

/-- A response of one byte: the head, then the byte and the finish. -/
def oneByte (late : Bool) : List Poll :=
  [⟨⟨[.start (.head ⟨200, [], none⟩), .advance], none⟩, false, false⟩, ⟨⟨[], none⟩, false, false⟩,
    ⟨⟨[.start (.body [1]), .advance, .start .finish], some .ok⟩, false, late⟩, ⟨⟨[], none⟩, false, false⟩]

theorem never_truncated_oneByte :
    (Run.run (step false) new (oneByte false)).Clean ∧
    (Run.run (step false) new (oneByte false)).delivered = [1] ∧
    (Run.run (step false) new (oneByte false)).result = some (.ok ()) :=
  have hclean : (Run.run (step false) new (oneByte false)).Clean := by
    have ha : (Run.run (step false) new (oneByte false)).answers = [.item [1], .ended] := by decide
    rw [Clean, ha]
    simp
  ⟨hclean, by decide, ((never_truncated (attentive_of_prompt (by decide))).1 hclean).1⟩

/-- The transfer ends in the poll that queued the last byte, and the receiver's next poll fails
spuriously: the stream ends without an error and without the byte. -/
theorem clean_end_before_last_byte :
    (Run.run (step false) new ((oneByte true).take 3)).Clean ∧
    (Run.run (step false) new ((oneByte true).take 3)).delivered = [] ∧
    (Run.run (step false) new ((oneByte true).take 3)).sink.arguments = [1] := by
  refine ⟨?_, by decide, by decide⟩
  have ha : (Run.run (step false) new ((oneByte true).take 3)).answers = [.ended] := by decide
  rw [Clean, ha]
  simp

end Exchange

end Gatel.Cgi
