import Gatel.Lib.Run
import Gatel.Model.Body
import Gatel.Model.Net

namespace Gatel.AccessLog

/-- How a request ended, beyond its status. -/
inductive Outcome where
  | completed
  | failed
  | cancelled
  deriving DecidableEq

/-- Everything one line can say. -/
structure Record where
  client : Option IpAddr
  method : String
  path : String
  version : String
  status : UInt16
  bytes : Nat
  duration : Nat
  outcome : Outcome
  site : String
  route : String
  at' : Nat
  deriving DecidableEq

/-- A record waiting for the body to end. -/
structure Pending where
  started : Instant
  record : Record
  deriving DecidableEq

def Pending.emit (p : Pending) (outcome : Outcome) (bytes : Nat) (now : Instant) : Record :=
  { p.record with outcome := outcome, bytes := bytes, duration := now - p.started }

inductive Version where
  | http09
  | http10
  | http11
  | http2
  | http3
  deriving DecidableEq

@[grind =] def Version.text : Version → String
  | .http09 => "HTTP/0.9"
  | .http10 => "HTTP/1.0"
  | .http11 => "HTTP/1.1"
  | .http2 => "HTTP/2.0"
  | .http3 => "HTTP/3.0"

/-- What the handler reads of a request and, after the rest of the chain, of the response. -/
structure Seen where
  started : Instant
  at' : Nat
  method : String
  version : Version
  path : String
  pathAndQuery : Option String
  client : Option IpAddr
  status : Option UInt16
  site : Option String
  route : Option String
  deriving DecidableEq

def Seen.pending (seen : Seen) (query : Bool) : Pending where
  started := seen.started
  record :=
    { client := seen.client
      method := seen.method
      path := if query then seen.pathAndQuery.getD "/" else seen.path
      version := seen.version.text
      status := seen.status.getD 200
      bytes := 0
      duration := 0
      outcome := .completed
      site := seen.site.getD ""
      route := seen.route.getD ""
      at' := seen.at' }

/-- The kinds of response body: in memory, or streaming. -/
inductive ResBody where
  | none
  | once (bytes : List UInt8)
  | chunks (chunks : List (List UInt8))
  | stream (frames : List Frame) (fate : BodyFate) (sized : Bool)
  deriving DecidableEq

/-- Wraps a response body and reports how it ended. -/
structure ObservedBody where
  inner : Body
  pending : Option Pending
  sent : Nat
  deriving DecidableEq

namespace ObservedBody

def take (b : ObservedBody) (inner : Body) (outcome : Outcome) (now : Instant) : ObservedBody × List Record :=
  ({ b with inner := inner, pending := none }, b.pending.toList.map fun p => p.emit outcome b.sent now)

def pollFrame (b : ObservedBody) (ready : Bool) (now : Instant) : Polled String × ObservedBody × List Record :=
  match b.inner.poll ready with
  | (.frame f, inner) => (.frame f, { b with inner := inner, sent := b.sent + f.dataBytes.length }, [])
  | (.failed error, inner) => (.failed error, b.take inner .failed now)
  | (.ended, inner) => (.ended, b.take inner .completed now)
  | (.pending, inner) => (.pending, { b with inner := inner }, [])

/-- `PinnedDrop`: a body dropped before its end is reported here, and nowhere else. -/
def drop (b : ObservedBody) (now : Instant) : List Record := (b.take b.inner .cancelled now).2

end ObservedBody

/-- A response after the handler: its body, what the sink was given and the data bytes that
were passed on. -/
structure Watched where
  body : ObservedBody
  written : List Record
  passed : Nat
  deriving DecidableEq

namespace Watched

@[grind =] def bytesOf : Polled String → Nat
  | .frame f => f.dataBytes.length
  | .pending | .failed _ | .ended => 0

def step (w : Watched) (p : Bool × Instant) : Watched :=
  let (answer, body, written) := w.body.pollFrame p.1 p.2
  ⟨body, w.written ++ written, w.passed + bytesOf answer⟩

end Watched

/-- What the sink and the consumer have had of one response once it is gone, and what was
left of a streaming body. -/
structure Account where
  written : List Record
  passed : Nat
  rest : Option Body
  deriving DecidableEq

/-- `handle`, then the consumer's polls of a streaming body, then its drop. -/
def account (seen : Seen) (query : Bool) (body : ResBody) (now : Instant) (polls : List (Bool × Instant))
    (dropped : Instant) : Account :=
  let pending := seen.pending query
  match body with
  -- Anything already fully in memory is finished now.
  | .none => ⟨[pending.emit .completed 0 now], 0, none⟩
  | .once bytes => ⟨[pending.emit .completed bytes.length now], bytes.length, none⟩
  | .chunks chunks =>
    ⟨[pending.emit .completed (chunks.map List.length).sum now], (chunks.map List.length).sum, none⟩
  | .stream frames fate sized =>
    let w := Run.run Watched.step ⟨⟨.new frames fate sized, some pending, 0⟩, [], 0⟩ polls
    ⟨w.written ++ w.body.drop dropped, w.passed, some w.body.inner⟩

/-- The error of the inner body was seen. -/
def Account.Failed (a : Account) : Prop := ∃ b ∈ a.rest, b.stopped = true ∧ b.fate ≠ .finished

/-- The inner body ends well and has no data left. -/
def Account.Delivered (a : Account) : Prop :=
  ∀ b ∈ a.rest, b.fate = .finished ∧ ∀ f ∈ b.frames, f.dataBytes = []

/-- What the log should say of a response. -/
def Account.Truthful (a : Account) : Prop :=
  ∃ record, a.written = [record] ∧ record.bytes = a.passed ∧ (record.outcome = .failed ↔ a.Failed) ∧
    (record.outcome = .completed ↔ a.Delivered) ∧ (record.outcome = .cancelled → ¬ a.Delivered)

/-- How the end of an inner body is reported. -/
def Outcome.ofFate : BodyFate → Outcome
  | .finished => .completed
  | .failed _ => .failed

namespace Watched

/-- Before the inner body stops its record is still to be written; afterwards it has been,
and nothing more comes. -/
structure Inv (p : Pending) (w : Watched) : Prop where
  passed : w.passed = w.body.sent
  waiting : w.body.inner.stopped = false → w.body.pending = some p ∧ w.written = []
  reported : w.body.inner.stopped = true → w.body.pending = none ∧ w.body.inner.frames = [] ∧
    ∃ now, w.written = [p.emit (.ofFate w.body.inner.fate) w.passed now]

theorem step_pending (w : Watched) (now : Instant) : w.step (false, now) = w := by
  simp [step, ObservedBody.pollFrame, Body.poll, bytesOf]

theorem step_frame {w : Watched} {f : Frame} {rest : List Frame} (h : w.body.inner.frames = f :: rest) (now : Instant) :
    w.step (true, now) =
      { w with
        body.inner.frames := rest
        body.sent := w.body.sent + f.dataBytes.length
        passed := w.passed + f.dataBytes.length } := by
  simp [step, ObservedBody.pollFrame, Body.poll, bytesOf, h]

/-- The poll that finds the end or the error of the inner body. -/
theorem step_stop {w : Watched} (h : w.body.inner.frames = []) (hs : w.body.inner.stopped = false) (now : Instant) :
    w.step (true, now) =
      { w with
        body.inner.stopped := true
        body.pending := none
        written := w.written ++
          w.body.pending.toList.map fun p => p.emit (.ofFate w.body.inner.fate) w.body.sent now } := by
  cases hf : w.body.inner.fate with
  | finished => simp [step, ObservedBody.pollFrame, Body.poll, ObservedBody.take, bytesOf, Outcome.ofFate, h, hs, hf]
  | failed error => simp [step, ObservedBody.pollFrame, Body.poll, ObservedBody.take, bytesOf, Outcome.ofFate, h, hs, hf]

theorem step_stopped {w : Watched} (h : w.body.inner.frames = []) (hs : w.body.inner.stopped = true)
    (hp : w.body.pending = none) (now : Instant) : w.step (true, now) = w := by
  obtain ⟨⟨inner, pending, sent⟩, written, passed⟩ := w
  cases hp
  simp only at h hs
  simp [step, ObservedBody.pollFrame, Body.poll, ObservedBody.take, bytesOf, h, hs]

theorem step_inner {p : Pending} {w : Watched} (h : w.Inv p) (poll : Bool × Instant) :
    (w.step poll).body.inner = (w.body.inner.poll poll.1).2 := by
  obtain ⟨ready, now⟩ := poll
  rw [Body.poll_snd]
  cases ready with
  | false => rw [step_pending]; simp
  | true =>
    cases hf : w.body.inner.frames with
    | cons f rest => rw [step_frame hf]; simp
    | nil =>
      cases hs : w.body.inner.stopped with
      | false => rw [step_stop hf hs]; simp [hf]
      | true =>
        rw [step_stopped hf hs (h.reported hs).1]
        obtain ⟨⟨⟨frames, fate, sized, stopped⟩, pending, sent⟩, written, passed⟩ := w
        cases hf
        cases hs
        rfl

theorem inv_step {p : Pending} {w : Watched} (h : w.Inv p) (poll : Bool × Instant) : (w.step poll).Inv p := by
  obtain ⟨ready, now⟩ := poll
  cases ready with
  | false => rwa [step_pending]
  | true =>
    cases hf : w.body.inner.frames with
    | cons f rest =>
      rw [step_frame hf]
      refine ⟨by simp [h.passed], h.waiting, ?_⟩
      intro hs
      have hnil := (h.reported hs).2.1
      rw [hf] at hnil
      cases hnil
    | nil =>
      cases hs : w.body.inner.stopped with
      | true => rwa [step_stopped hf hs (h.reported hs).1]
      | false =>
        obtain ⟨hp, hw⟩ := h.waiting hs
        rw [step_stop hf hs]
        refine ⟨h.passed, fun hne => (by cases hne), ?_⟩
        intro _
        exact ⟨rfl, hf, now, by simp [hp, hw, h.passed]⟩

/-- The invariant and the inner body along the consumer's polls. -/
theorem run_spec {p : Pending} {w : Watched} (h : w.Inv p) (polls : List (Bool × Instant)) :
    (Run.run step w polls).Inv p ∧
      (Run.run step w polls).body.inner =
        (polls.map Prod.fst).foldl (fun body ready => (body.poll ready).2) w.body.inner := by
  induction polls generalizing w with
  | nil => exact ⟨h, rfl⟩
  | cons poll polls ih =>
    obtain ⟨hi, he⟩ := ih (inv_step h poll)
    refine ⟨hi, he.trans ?_⟩
    rw [step_inner h poll]
    rfl

end Watched

/-- The consumer polled a streaming body past its last data to its end or its error, or left
while data was still to come. -/
def ResBody.Noticed (polls : List (Bool × Instant)) : ResBody → Prop
  | .none | .once _ | .chunks _ => True
  | .stream frames fate _ =>
    frames.length < polls.countP Prod.fst ∨ fate ≠ .finished ∨
      ∃ f ∈ frames.drop (polls.countP Prod.fst), f.dataBytes ≠ []

theorem Account.truthful_iff {a : Account} {r : Record} (h : a.written = [r]) :
    a.Truthful ↔ r.bytes = a.passed ∧ (r.outcome = .failed ↔ a.Failed) ∧ (r.outcome = .completed ↔ a.Delivered) ∧
      (r.outcome = .cancelled → ¬ a.Delivered) := by
  constructor
  · intro ht
    obtain ⟨r', hw, ht⟩ := ht
    obtain rfl : r = r' := List.cons.inj (h.symm.trans hw) |>.1
    exact ht
  · intro ht
    exact ⟨r, h, ht⟩

/-- A body in memory is passed on whole. -/
theorem Account.truthful_of_memory (p : Pending) (bytes : Nat) (now : Instant) :
    Account.Truthful ⟨[p.emit .completed bytes now], bytes, none⟩ := by
  rw [Account.truthful_iff rfl]
  refine ⟨rfl, ?_, ?_, ?_⟩
  · refine iff_of_false (by simp [Pending.emit]) ?_
    intro hf
    obtain ⟨b, hb, _⟩ := hf
    cases hb
  · refine iff_of_true rfl ?_
    intro b hb
    cases hb
  · intro hc
    cases hc

/-- One record, of what was passed on, for every kind of body and every way of reading it. It
names the right outcome unless a body without data left is dropped before its end was polled. -/
theorem account_truthful_iff (seen : Seen) (query : Bool) (body : ResBody) (now : Instant)
    (polls : List (Bool × Instant)) (dropped : Instant) :
    (account seen query body now polls dropped).Truthful ↔ body.Noticed polls := by
  cases body with
  | none => exact iff_of_true (Account.truthful_of_memory _ _ _) trivial
  | once bytes => exact iff_of_true (Account.truthful_of_memory _ _ _) trivial
  | chunks chunks => exact iff_of_true (Account.truthful_of_memory _ _ _) trivial
  | stream frames fate sized =>
    have h0 : Watched.Inv (seen.pending query) ⟨⟨.new frames fate sized, some (seen.pending query), 0⟩, [], 0⟩ :=
      ⟨rfl, fun _ => ⟨rfl, rfl⟩, fun hs => (by cases hs)⟩
    obtain ⟨hi, hinner⟩ := Watched.run_spec h0 polls
    have hcount : (polls.map Prod.fst).count true = polls.countP Prod.fst := by
      rw [List.count, List.countP_map]
      exact List.countP_congr fun p _ => by simp
    rw [Body.polls_eq, hcount] at hinner
    simp only [account, ResBody.Noticed]
    generalize Run.run Watched.step ⟨⟨.new frames fate sized, some (seen.pending query), 0⟩, [], 0⟩ polls = w at hi hinner ⊢
    generalize polls.countP Prod.fst = k at hinner ⊢
    simp only [Body.new, Bool.false_or] at hinner
    by_cases hk : frames.length < k
    · -- The end or the error was polled, and the record written there.
      obtain ⟨hp, hnil, at', hw⟩ := hi.reported (by simp [hinner, hk])
      rw [Account.truthful_iff (r := (seen.pending query).emit (.ofFate w.body.inner.fate) w.passed at')
        (by simp [hw, ObservedBody.drop, ObservedBody.take, hp])]
      refine iff_of_true ⟨rfl, ?_, ?_, ?_⟩ (Or.inl hk)
      · simp only [Account.Failed, hinner, hk, Pending.emit]
        cases fate <;> simp [Outcome.ofFate]
      · simp only [Account.Delivered, hinner, Pending.emit]
        cases fate <;> simp [Outcome.ofFate, List.drop_eq_nil_of_le hk.le]
      · cases fate <;> simp [Outcome.ofFate, Pending.emit, hinner]
    · obtain ⟨hp, hw⟩ := hi.waiting (by simp [hinner, hk])
      rw [Account.truthful_iff (r := (seen.pending query).emit .cancelled w.body.sent dropped)
        (by simp [hw, ObservedBody.drop, ObservedBody.take, hp])]
      have hfail : ¬ Account.Failed ⟨w.written ++ w.body.drop dropped, w.passed, some w.body.inner⟩ := by
        simp [Account.Failed, hinner, hk]
      have hdel : Account.Delivered ⟨w.written ++ w.body.drop dropped, w.passed, some w.body.inner⟩ ↔
          fate = .finished ∧ ∀ f ∈ frames.drop k, f.dataBytes = [] := by
        simp [Account.Delivered, hinner]
      simp only [hfail, hdel, hk, Pending.emit, ← hi.passed, reduceCtorEq, iff_self, true_and, false_iff, true_implies,
        false_or, and_self, not_and_or, not_forall, exists_prop]

/-- Three bytes of three are passed on; the consumer sees the end by `is_end_stream` and drops
the body, and the log says that the client went away. -/
theorem whole_body_logged_cancelled :
    (account ⟨0, 0, "GET", .http11, "/", none, none, some 200, none, none⟩ false
        (.stream [.data [1, 2, 3]] .finished true) 0 [(true, 1)] 2).rest.all Body.isEndStream = true ∧
      (account ⟨0, 0, "GET", .http11, "/", none, none, some 200, none, none⟩ false
        (.stream [.data [1, 2, 3]] .finished true) 0 [(true, 1)] 2).written.map Record.outcome = [.cancelled] ∧
      ¬ (account ⟨0, 0, "GET", .http11, "/", none, none, some 200, none, none⟩ false
        (.stream [.data [1, 2, 3]] .finished true) 0 [(true, 1)] 2).Truthful := by
  refine ⟨by decide, by decide, ?_⟩
  intro h
  obtain ⟨record, hw, _, _, hcompleted, _⟩ := h
  have hout : record.outcome = .cancelled := by
    cases hw
    rfl
  rw [hout] at hcompleted
  apply absurd (hcompleted.mpr ?_) (by decide)
  intro b hb
  cases hb
  exact ⟨rfl, fun f hf => by cases hf⟩

end Gatel.AccessLog
