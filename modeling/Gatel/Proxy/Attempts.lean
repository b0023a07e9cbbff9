import Gatel.Proxy.Outbound
import Gatel.State.WeightedRobin

namespace Gatel

namespace State

/-! Retries in flight, as a share of the requests in flight with a floor under it. -/

def retryFloor : Nat := 3

/-- `RetryBudget::take`: how many retries are in flight afterwards, if one more may be. -/
def takeRetry (live : Nat) (inFlight : U64) (percent : U32) : Option Nat :=
  if percent = 0 then none
  else if max retryFloor (min (inFlight.val * percent.val) (2 ^ 64 - 1) / 100) < live + 1 then none
  else some (live + 1)

namespace Selector
open Extremum (running_mem)

theorem wrapped_mem (one : Candidate) (rest : List Candidate) (n : Nat) : wrapped one rest n ∈ one :: rest :=
  List.get_mem _ _

theorem weightedRoundRobin_mem {l : List Candidate} {s : Counters} {winner : Candidate}
    (h : (weightedRoundRobin l s).1 = some winner) : winner ∈ l := by
  rcases hc : creditAll l s.credit none with ⟨credit, _ | ⟨first, raised⟩⟩
  · simp [weightedRoundRobin, hc] at h
  · have hfirst : first = winner := by simpa [weightedRoundRobin, hc] using h
    have hbest : (first, raised) ∈ (creditAll l s.credit none).2 := by rw [hc]; rfl
    rw [← hfirst]
    exact ((creditAll_mem s.credit none).2 _ hbest).resolve_right nofun

theorem twoRandomChoices_mem (one : Candidate) (rest : List Candidate) (inFlight : Nat → U64) (s : Counters) :
    (twoRandomChoices one rest inFlight s).1 ∈ one :: rest := by
  rw [twoRandomChoices]
  dsimp only
  split_ifs <;> exact wrapped_mem one rest _

theorem fallback_mem {one : Candidate} {rest : List Candidate} {s : Counters} {chosen : Selection}
    (h : (fallback one rest s).1 = some chosen) : chosen.endpoint ∈ one :: rest := by
  cases h
  exact wrapped_mem one rest s.cursor.val

/-- What is chosen was eligible. -/
theorem select_mem {balance : Balance} {eligible : List Candidate} {inFlight : Nat → U64} {key : RequestKey} {s : Counters}
    {chosen : Selection} (h : (select balance eligible inFlight key s).1 = some chosen) : chosen.endpoint ∈ eligible := by
  match eligible with
  | [] => cases h
  | [only] =>
    cases h
    exact List.mem_cons_self
  | one :: two :: rest =>
    cases balance with
    | roundRobin =>
      cases h
      exact wrapped_mem one (two :: rest) _
    | weightedRoundRobin =>
      obtain ⟨winner, hw, rfl⟩ := Option.map_eq_some_iff.mp h
      exact weightedRoundRobin_mem hw
    | random =>
      cases h
      exact wrapped_mem one (two :: rest) _
    | twoRandomChoices =>
      obtain rfl := Option.some.inj h
      exact twoRandomChoices_mem one (two :: rest) inFlight s
    | leastConn | first | uriHash =>
      cases h
      exact running_mem one (two :: rest)
    | ipHash | headerHash _ | cookieHash _ =>
      simp only [select] at h
      split at h
      · cases h
        exact running_mem one (two :: rest)
      · exact fallback_mem h

end Selector
end State

namespace Proxy
open State (Candidate Counters RequestKey Selector.select Selector.select_mem takeRetry)

/-- Every way a checkout fails; all of them come before a byte was sent. -/
inductive CheckoutError where
  | queueFull (waiting limit : U32)
  | queueTimeout (after : Duration)
  | connectTimeout (after : Duration)
  | connect (message : String)
  | resolve (message : String)
  | handshake (message : String)
  | draining
  deriving DecidableEq

/-- Why a proxied request failed. -/
inductive ProxyError where
  | noEndpoint
  | checkout (error : CheckoutError)
  | timeout (stage : String) (after : Duration)
  | upstream (detail : String)
  | clientBody (detail : String)
  deriving DecidableEq

/-- What became of something that was waited for, and when that was known. -/
inductive Outcome (α ε : Type) where
  | done (value : α) («at» : Instant)
  | failed (error : ε) («at» : Instant)
  | expired («at» : Instant)
  deriving DecidableEq

/-- All that an attempt meets: the retries in flight, who is eligible, what becomes of its
checkout and of what it sends, and what the `http` crate has against the request. -/
structure Turn where
  live : Nat
  inFlight : U64
  eligible : List Candidate
  loads : Nat → U64
  counters : Counters
  checkout : Outcome Unit CheckoutError
  complaint : Option String
  sent : Outcome UInt16 String

/-- What can be seen of the attempts of a request. -/
inductive Event where
  | permit
  | begun («at» : Instant)
  | checkout (id : String)
  | send (out : Outgoing)
  | released
  deriving DecidableEq

/-- What the attempts of a request have in common. -/
structure Sending where
  forward : Forward
  payload : Payload
  balance : Balance
  key : RequestKey
  timeouts : Timeouts
  deadline : Instant
  perTry : Option Duration
  percent : U32
  mayReplay : Bool

/-- What the loop carries from one attempt to the next. Time goes by only while something is
waited for. -/
structure Loop where
  request : Request
  excluded : List String
  last : Option ProxyError
  now : Instant

inductive Ended where
  | retry (s : Loop)
  | answered (status : UInt16)
  | failed (e : ProxyError)

namespace Sending

def outOfTime (p : Sending) (now : Instant) : ProxyError :=
  match p.perTry, decide (p.deadline ≤ now) with
  | some perTry, false => .timeout "per-try" perTry
  | _, _ => .timeout "overall" p.timeouts.overall

/-- One attempt, once it may begin. -/
@[grind =] def attempt (p : Sending) (turn : Turn) (s : Loop) : List Event × Ended :=
  let attemptDeadline := match p.perTry with
    | some perTry => min p.deadline (s.now + perTry.val)
    | none => p.deadline
  let eligible := turn.eligible.filter fun c => !s.excluded.contains c.id
  match (Selector.select p.balance eligible turn.loads p.key turn.counters).1 with
  | none => ([], .failed (s.last.getD .noEndpoint))
  | some selection =>
    let id := selection.endpoint.id
    let next (r : Request) (error : ProxyError) (now : Instant) : Ended := .retry ⟨r, s.excluded ++ [id], some error, now⟩
    match turn.checkout with
    -- nothing was sent, so trying elsewhere cannot duplicate anything
    | .failed error now => ([.checkout id], next s.request (.checkout error) now)
    | .expired now =>
      let error := p.outOfTime now
      ([.checkout id], if p.deadline ≤ now then .failed error else next s.request error now)
    | .done _ now =>
      match buildRequest s.request p.forward p.payload turn.complaint with
      | .error detail => ([.checkout id], .failed (.upstream detail))
      | .ok (out, r) =>
        let headDeadline := min attemptDeadline (now + p.timeouts.responseHead.val)
        ([.checkout id, .send out], match turn.sent with
          | .done status _ => .answered status
          | .failed detail now => if p.mayReplay then next r (.upstream detail) now else .failed (.upstream detail)
          | .expired now =>
            let error := if headDeadline ≤ now ∧ headDeadline < attemptDeadline
              then .timeout "response-head" p.timeouts.responseHead else p.outOfTime now
            if p.mayReplay = false ∨ p.deadline ≤ now then .failed error else next r error now)

/-- What an attempt does, inside its retry permit unless it is the first. -/
def permitted (number : Nat) (events : List Event) : List Event :=
  if number = 1 then events else .permit :: events ++ [.released]

/-- So many attempts more, from the one of a number on. -/
@[grind =] def attempts (p : Sending) (turns : Nat → Turn) : Nat → Nat → Loop → List Event × Except ProxyError Nat
  | 0, _, s => ([], .error (s.last.getD .noEndpoint))
  | left + 1, number, s =>
    let turn := turns number
    if number ≠ 1 ∧ takeRetry turn.live turn.inFlight p.percent = none then ([], .error (s.last.getD .noEndpoint))
    else
      let (events, ended) := p.attempt turn s
      let run := permitted number (.begun s.now :: events)
      match ended with
      | .answered _ => (run, .ok number)
      | .failed e => (run, .error e)
      | .retry s =>
        let (rest, result) := p.attempts turns left (number + 1) s
        (run ++ rest, result)

end Sending

/-- `cookie_value`. -/
def cookieValue (headers : HeaderMap) (name : String) : Option String := do
  let header ← (headers.get "cookie").bind HeaderValue.toStr
  (Text.splitAll ';' header).findSome? fun pair =>
    (Text.splitOnce '=' pair).bind fun (key, value) => if Text.trim key = name then some (Text.trim value) else none

/-- What the balancer is told about a request. -/
@[grind =] def Request.key (r : Request) (balance : Balance) (clientIp : Option IpAddr) : RequestKey where
  clientIp := clientIp
  uri := r.pathAndQuery.getD "/"
  header := match balance with
    | .headerHash header => (r.headers.get (Text.lower header)).bind HeaderValue.toStr
    | _ => none
  cookie := match balance with
    | .cookieHash cookie => cookieValue r.headers cookie
    | _ => none

/-- `payload`: what a request can send; `body` is what reading its body gives, where it is read. -/
def Request.payload (r : Request) (retry : Option Retry) (body : Except String (List UInt8)) :
    Except ProxyError (Payload × Request) :=
  match r.declaredLength with
  | none => .ok (if r.hasBody then .streaming else .empty, r)
  | some length =>
    if length = 0 then .ok (.empty, r)
    else if retry.any fun retry => retry.mode = .replay ∧ length ≤ retry.buffer.val then
      match body with
      | .ok bytes => .ok (.buffered bytes, { r with body := none })
      | .error detail => .error (.clientBody detail)
    else .ok (.streaming, r)

/-- A request on its way in: who sent it, when, and what reading its body gives and by when. -/
structure Arrival where
  request : Request
  clientIp : Option IpAddr
  tls : Bool
  «at» : Instant
  body : Except String (List UInt8)
  bodyAt : Instant

namespace Arrival

/-- An upgrade commits the client to one connection and is never retried. -/
def retry (a : Arrival) (spec : UpstreamBody) : Option Retry :=
  if (requestedProtocol a.request.headers).isNone then spec.retry else none

def attemptsAllowed (a : Arrival) (spec : UpstreamBody) : Nat := ((a.retry spec).map fun retry => max retry.attempts.val 1).getD 1

/-- When there is something to send. -/
def readyAt (a : Arrival) : Payload → Instant
  | .buffered _ => a.bodyAt
  | .empty | .streaming => a.at

def deadline (a : Arrival) (spec : UpstreamBody) : Instant := a.at + spec.timeouts.overall.val

def sending (a : Arrival) (spec : UpstreamBody) (payload : Payload) : Sending where
  forward := ⟨a.request.pathAndQuery.getD "/", a.request.host, a.clientIp, a.tls, requestedProtocol a.request.headers⟩
  payload := payload
  balance := spec.balance
  key := a.request.key spec.balance a.clientIp
  timeouts := spec.timeouts
  deadline := a.deadline spec
  perTry := (a.retry spec).map Retry.perTry
  percent := ((a.retry spec).map Retry.budgetPercent).getD 0
  mayReplay := (a.retry spec).any (fun retry => retry.mode = .replay) && payload.isReproducible

/-- `ProxyTerminal::proxy`: what is seen of it, and how many attempts it took. -/
def proxy (a : Arrival) (spec : UpstreamBody) (turns : Nat → Turn) : List Event × Except ProxyError Nat :=
  if (requestedProtocol a.request.headers).isSome ∧ spec.protocol = .http2 then
    ([], .error (.upstream "the upstream speaks HTTP/2, which does not carry an upgrade"))
  else match a.request.payload (a.retry spec) a.body with
    | .error e => ([], .error e)
    | .ok (payload, r) =>
      (a.sending spec payload).attempts turns (a.attemptsAllowed spec) 1 ⟨r, [], none, a.readyAt payload⟩

end Arrival

/-! What one attempt can do. -/

def checkouts (trace : List Event) : List String :=
  trace.filterMap fun e => match e with
    | .checkout id => some id
    | _ => none

def sends (trace : List Event) : List Outgoing :=
  trace.filterMap fun e => match e with
    | .send out => some out
    | _ => none

def begun (trace : List Event) : List Instant :=
  trace.filterMap fun e => match e with
    | .begun now => some now
    | _ => none

theorem checkouts_append (a b : List Event) : checkouts (a ++ b) = checkouts a ++ checkouts b := List.filterMap_append

theorem sends_append (a b : List Event) : sends (a ++ b) = sends a ++ sends b := List.filterMap_append

theorem begun_append (a b : List Event) : begun (a ++ b) = begun a ++ begun b := List.filterMap_append

/-- Something that was waited for fails before a deadline, if it fails. -/
def Outcome.FailsBy {α ε : Type} (o : Outcome α ε) (deadline : Instant) : Prop :=
  ∀ error now, o = .failed error now → now < deadline

/-- The body that a request is sent with. -/
def Payload.upload (payload : Payload) (r : Request) : Upload :=
  match payload with
  | .empty => .full []
  | .buffered bytes => .full bytes
  | .streaming => .client r.body

theorem buildRequest_ok {r r' : Request} {f : Forward} {payload : Payload} {complaint : Option String} {out : Outgoing}
    (h : buildRequest r f payload complaint = .ok (out, r')) :
    (∃ headers, outgoingHeaders r.headers f = some headers ∧ out = ⟨r.method, f.target, headers, payload.upload r⟩) ∧
      (payload.isReproducible = true → r' = r) := by
  unfold buildRequest at h
  cases hh : outgoingHeaders r.headers f with
  | none => simp [hh] at h
  | some headers =>
    cases complaint with
    | some text => cases payload <;> simp [hh] at h
    | none =>
      cases payload with
      | streaming =>
        simp only [hh] at h
        cases h
        exact ⟨⟨headers, rfl, rfl⟩, nofun⟩
      | empty | buffered _ =>
        simp only [hh] at h
        cases h
        exact ⟨⟨headers, rfl, rfl⟩, fun _ => rfl⟩

namespace Sending

variable {p : Sending} {turn : Turn} {s : Loop} {events rest : List Event} {ended : Ended} {left n : Nat}

/-- What goes on the wire is the request as the attempt found it. -/
def Wire (p : Sending) (r : Request) (out : Outgoing) (r' : Request) : Prop :=
  ∃ complaint, buildRequest r p.forward p.payload complaint = .ok (out, r')

inductive Attempted (p : Sending) (turn : Turn) (s : Loop) : List Event → Ended → Prop where
  | nowhere (e : ProxyError) : Attempted p turn s [] (.failed e)
  | unsent (id : String) (fresh : id ∉ s.excluded) (e : ProxyError) : Attempted p turn s [.checkout id] (.failed e)
  | elsewhere (id : String) (fresh : id ∉ s.excluded) (e : ProxyError) (now : Instant)
      (timely : turn.checkout.FailsBy p.deadline → now < p.deadline) :
      Attempted p turn s [.checkout id] (.retry ⟨s.request, s.excluded ++ [id], some e, now⟩)
  | answered (id : String) (fresh : id ∉ s.excluded) (out : Outgoing) (r : Request) (wire : p.Wire s.request out r)
      (status : UInt16) : Attempted p turn s [.checkout id, .send out] (.answered status)
  | broken (id : String) (fresh : id ∉ s.excluded) (out : Outgoing) (r : Request) (wire : p.Wire s.request out r)
      (e : ProxyError) : Attempted p turn s [.checkout id, .send out] (.failed e)
  | again (id : String) (fresh : id ∉ s.excluded) (out : Outgoing) (r : Request) (wire : p.Wire s.request out r)
      (replay : p.mayReplay = true) (e : ProxyError) (now : Instant)
      (timely : turn.sent.FailsBy p.deadline → now < p.deadline) :
      Attempted p turn s [.checkout id, .send out] (.retry ⟨r, s.excluded ++ [id], some e, now⟩)

theorem attempted (p : Sending) (turn : Turn) (s : Loop) : Attempted p turn s (p.attempt turn s).1 (p.attempt turn s).2 := by
  simp only [attempt]
  split
  · exact .nowhere _
  · rename_i selection hselect
    have hfresh : selection.endpoint.id ∉ s.excluded := by
      have hmem := Selector.select_mem hselect
      simpa using (List.mem_filter.mp hmem).2
    cases hc : turn.checkout with
    | failed error now => exact .elsewhere _ hfresh _ now fun h => h error now hc
    | expired now =>
      dsimp only
      split
      · exact .unsent _ hfresh _
      · rename_i hearly
        exact .elsewhere _ hfresh _ now fun _ => not_le.mp hearly
    | done value now =>
      dsimp only
      cases hb : buildRequest s.request p.forward p.payload turn.complaint with
      | error detail => exact .unsent _ hfresh _
      | ok built =>
        obtain ⟨out, r⟩ := built
        have hwire : p.Wire s.request out r := ⟨turn.complaint, hb⟩
        cases hs : turn.sent with
        | done status now => exact .answered _ hfresh out r hwire status
        | failed detail now =>
          dsimp only
          split
          · rename_i hreplay
            exact .again _ hfresh out r hwire hreplay _ now fun h => h detail now hs
          · exact .broken _ hfresh out r hwire _
        | expired now =>
          dsimp only
          split
          · exact .broken _ hfresh out r hwire _
          · rename_i hagain
            obtain ⟨hreplay, hearly⟩ := not_or.mp hagain
            exact .again _ hfresh out r hwire (Bool.not_eq_false _ ▸ hreplay) _ now fun _ => not_le.mp hearly

/-- The endpoint an attempt goes to, if it goes anywhere: one that was not tried before. -/
theorem Attempted.checkouts (h : Attempted p turn s events ended) :
    checkouts events = [] ∨ ∃ id ∉ s.excluded, checkouts events = [id] := by
  cases h with
  | nowhere e => exact .inl rfl
  | unsent id fresh e | elsewhere id fresh e | answered id fresh | broken id fresh | again id fresh =>
    exact .inr ⟨id, fresh, rfl⟩

/-- What it sends. -/
theorem Attempted.sends (h : Attempted p turn s events ended) :
    sends events = [] ∨ ∃ out r, p.Wire s.request out r ∧ sends events = [out] ∧ (Proxy.checkouts events).length = 1 := by
  cases h with
  | nowhere e | unsent id fresh e | elsewhere id fresh e => exact .inl rfl
  | answered id fresh out r wire | broken id fresh out r wire | again id fresh out r wire =>
    exact .inr ⟨out, r, wire, rfl, rfl⟩

theorem Attempted.begun (h : Attempted p turn s events ended) : begun events = [] := by
  cases h <;> rfl

/-- What it leaves to the next one. -/
theorem Attempted.retry {s' : Loop} (h : Attempted p turn s events (.retry s')) :
    (∃ id, Proxy.checkouts events = [id] ∧ s'.excluded = s.excluded ++ [id]) ∧
      (Proxy.sends events = [] ∧ s'.request = s.request ∨ p.mayReplay = true ∧ ∃ out, p.Wire s.request out s'.request) := by
  cases h with
  | elsewhere id fresh e now timely => exact ⟨⟨id, rfl, rfl⟩, .inl ⟨rfl, rfl⟩⟩
  | again id fresh out r wire replay e now timely => exact ⟨⟨id, rfl, rfl⟩, .inr ⟨replay, out, wire⟩⟩

/-! What all of them can do. -/

@[simp] theorem checkouts_permitted (number : Nat) (now : Instant) (events : List Event) :
    checkouts (permitted number (.begun now :: events)) = checkouts events := by
  unfold permitted
  split <;> simp [checkouts]

@[simp] theorem sends_permitted (number : Nat) (now : Instant) (events : List Event) :
    sends (permitted number (.begun now :: events)) = sends events := by
  unfold permitted
  split <;> simp [sends]

@[simp] theorem begun_permitted (number : Nat) (now : Instant) (events : List Event) :
    begun (permitted number (.begun now :: events)) = now :: begun events := by
  unfold permitted
  split <;> simp [begun]

/-- Watching a trace, with a permit in hand or not and so many attempts begun: after the first,
nothing of an attempt happens without a permit. -/
@[grind =] def Covered : Bool → Nat → List Event → Prop
  | _, _, [] => True
  | _, n, .permit :: trace => Covered true n trace
  | _, n, .released :: trace => Covered false n trace
  | held, n, .begun _ :: trace => (n = 0 ∨ held = true) ∧ Covered held (n + 1) trace
  | held, n, .checkout _ :: trace => (n ≤ 1 ∨ held = true) ∧ Covered held n trace
  | held, n, .send _ :: trace => (n ≤ 1 ∨ held = true) ∧ Covered held n trace

theorem Attempted.covered (h : Attempted p turn s events ended) (hrest : Covered false (n + 1) rest) (now : Instant) :
    Covered false n (permitted (n + 1) (.begun now :: events) ++ rest) := by
  cases n with
  | zero => cases h <;> simp [permitted, Covered, hrest]
  | succ n => cases h <;> simp [permitted, Covered, hrest]

/-- What holds of the events of so many attempts, begun behind n others. -/
structure Ran (p : Sending) (s : Loop) (left n : Nat) (trace : List Event) : Prop where
  covered : Covered false n trace
  fresh : ∀ id ∈ checkouts trace, id ∉ s.excluded
  nodup : (checkouts trace).Nodup
  sent : (sends trace).length ≤ (checkouts trace).length
  bounded : (checkouts trace).length ≤ left
  counted : (begun trace).length ≤ left
  once : p.mayReplay = false → (sends trace).length ≤ 1
  wire : ∀ out ∈ sends trace, ∃ r, p.Wire s.request out r

theorem Ran.nil : Ran p s left n [] where
  covered := trivial
  fresh := nofun
  nodup := List.nodup_nil
  sent := le_rfl
  bounded := Nat.zero_le left
  counted := Nat.zero_le left
  once := fun _ => Nat.zero_le 1
  wire := nofun

/-- An attempt with others behind it, or none. -/
theorem Ran.cons (h : Attempted p turn s events ended) (now : Instant) (hrest : Covered false (n + 1) rest)
    (hfresh : ∀ id ∈ checkouts rest, id ∉ s.excluded ++ checkouts events) (hnodup : (checkouts rest).Nodup)
    (hsent : (sends rest).length ≤ (checkouts rest).length) (hbounded : (checkouts rest).length ≤ left)
    (hcounted : (begun rest).length ≤ left) (honce : p.mayReplay = false → (sends events ++ sends rest).length ≤ 1)
    (hwire : ∀ out ∈ sends rest, ∃ r, p.Wire s.request out r) :
    Ran p s (left + 1) n (permitted (n + 1) (.begun now :: events) ++ rest) := by
  have hc : checkouts (permitted (n + 1) (.begun now :: events) ++ rest) = checkouts events ++ checkouts rest := by
    rw [checkouts_append, checkouts_permitted]
  have hs : sends (permitted (n + 1) (.begun now :: events) ++ rest) = sends events ++ sends rest := by
    rw [sends_append, sends_permitted]
  refine ⟨h.covered hrest now, ?_, ?_, ?_, ?_, ?_, ?_, ?_⟩
  · intro id hid
    rw [hc] at hid
    rcases List.mem_append.mp hid with hid | hid
    · rcases h.checkouts with he | ⟨one, hone, he⟩
      · rw [he] at hid
        cases hid
      · rw [he, List.mem_singleton] at hid
        exact hid ▸ hone
    · exact fun hin => hfresh id hid (List.mem_append_left _ hin)
  · rw [hc, List.nodup_append]
    refine ⟨?_, hnodup, ?_⟩
    · rcases h.checkouts with he | ⟨one, hone, he⟩ <;> rw [he]
      · exact List.nodup_nil
      · exact List.nodup_singleton one
    · rintro a ha b hb rfl
      exact hfresh a hb (List.mem_append_right _ ha)
  · rw [hc, hs, List.length_append, List.length_append]
    refine Nat.add_le_add ?_ hsent
    rcases h.sends with he | ⟨out, r, hout, he, hlen⟩
    · rw [he]
      exact Nat.zero_le _
    · rw [he, hlen]
      exact le_rfl
  · have hlen : (checkouts events).length ≤ 1 := by
      rcases h.checkouts with he | ⟨one, hone, he⟩ <;> rw [he] <;> simp
    rw [hc, List.length_append]
    omega
  · rw [begun_append, begun_permitted, h.begun, List.length_append, List.length_singleton]
    omega
  · rw [hs]
    exact honce
  · intro out hout
    rw [hs] at hout
    rcases List.mem_append.mp hout with hout | hout
    · rcases h.sends with he | ⟨one, r, hone, he, hlen⟩
      · rw [he] at hout
        cases hout
      · rw [he, List.mem_singleton] at hout
        exact ⟨r, hout ▸ hone⟩
    · exact hwire out hout

theorem Ran.alone (h : Attempted p turn s events ended) (now : Instant) :
    Ran p s (left + 1) n (permitted (n + 1) (.begun now :: events)) := by
  rw [← List.append_nil (permitted (n + 1) (.begun now :: events))]
  refine Ran.cons h now trivial nofun List.nodup_nil le_rfl (Nat.zero_le left) (Nat.zero_le left) ?_ nofun
  intro _
  rcases h.sends with he | ⟨out, r, hout, he, hlen⟩
  · rw [he]
    exact Nat.zero_le 1
  · rw [he]
    exact le_rfl

/-- The request is what it was before a replay. -/
theorem Attempted.request {s' : Loop} (h : Attempted p turn s events (.retry s'))
    (hp : p.mayReplay = true → p.payload.isReproducible = true) : s'.request = s.request := by
  rcases h.retry.2 with ⟨-, hr⟩ | ⟨hreplay, out, complaint, hbuild⟩
  · exact hr
  · exact (buildRequest_ok hbuild).2 (hp hreplay)

theorem Ran.onward {s' : Loop} (h : Attempted p turn s events (.retry s')) (now : Instant)
    (hp : p.mayReplay = true → p.payload.isReproducible = true) (hrest : Ran p s' left (n + 1) rest) :
    Ran p s (left + 1) n (permitted (n + 1) (.begun now :: events) ++ rest) := by
  obtain ⟨⟨id, hid, hexcluded⟩, hsends⟩ := h.retry
  refine Ran.cons h now hrest.covered ?_ hrest.nodup hrest.sent hrest.bounded hrest.counted ?_ ?_
  · intro other hother
    rw [hid, ← hexcluded]
    exact hrest.fresh other hother
  · intro hreplay
    rcases hsends with ⟨hnone, -⟩ | ⟨hyes, -⟩
    · rw [hnone]
      exact hrest.once hreplay
    · rw [hreplay] at hyes
      cases hyes
  · rw [← h.request hp]
    exact hrest.wire

theorem attempts_succ (p : Sending) (turns : Nat → Turn) (left number : Nat) (s : Loop) :
    (p.attempts turns (left + 1) number s).1 = [] ∨
    (∃ events ended, Attempted p (turns number) s events ended ∧
      (p.attempts turns (left + 1) number s).1 = permitted number (.begun s.now :: events)) ∨
    ∃ events s', Attempted p (turns number) s events (.retry s') ∧ (p.attempts turns (left + 1) number s).1 =
      permitted number (.begun s.now :: events) ++ (p.attempts turns left (number + 1) s').1 := by
  have h := attempted p (turns number) s
  rw [attempts]
  generalize p.attempt (turns number) s = made at h ⊢
  obtain ⟨events, ended⟩ := made
  dsimp only at h ⊢
  split
  · exact .inl rfl
  · cases ended with
    | answered status => exact .inr (.inl ⟨events, _, h, rfl⟩)
    | failed e => exact .inr (.inl ⟨events, _, h, rfl⟩)
    | retry s' => exact .inr (.inr ⟨events, s', h, rfl⟩)

/-- Whatever the attempts meet. -/
theorem ran (hp : p.mayReplay = true → p.payload.isReproducible = true) (turns : Nat → Turn) (left n : Nat) (s : Loop) :
    Ran p s left n (p.attempts turns left (n + 1) s).1 := by
  induction left generalizing n s with
  | zero => exact .nil
  | succ left ih =>
    rcases attempts_succ p turns left (n + 1) s with he | ⟨events, ended, h, he⟩ | ⟨events, s', h, he⟩
    · rw [he]
      exact .nil
    · rw [he]
      exact .alone h s.now
    · rw [he]
      exact .onward h s.now hp (ih (n + 1) s')

/-- No attempt begins late where nothing that another attempt follows is late. -/
theorem begun_early (turns : Nat → Turn) (left n : Nat) (s : Loop) (hs : s.now < p.deadline)
    (hturns : ∀ m, n < m → m < n + left → (turns m).checkout.FailsBy p.deadline ∧
      (p.mayReplay = true → (turns m).sent.FailsBy p.deadline)) :
    ∀ now ∈ begun (p.attempts turns left (n + 1) s).1, now < p.deadline := by
  induction left generalizing n s with
  | zero => exact nofun
  | succ left ih =>
    have hfirst : ∀ {events ended}, Attempted p (turns (n + 1)) s events ended →
        ∀ now ∈ begun (permitted (n + 1) (.begun s.now :: events)), now < p.deadline := by
      intro events ended h now hnow
      rw [begun_permitted, h.begun, List.mem_singleton] at hnow
      exact hnow ▸ hs
    rcases attempts_succ p turns left (n + 1) s with he | ⟨events, ended, h, he⟩ | ⟨events, s', h, he⟩
    · rw [he]
      exact nofun
    · rw [he]
      exact hfirst h
    · intro now hnow
      rw [he, begun_append] at hnow
      rcases List.mem_append.mp hnow with hnow | hnow
      · exact hfirst h now hnow
      · cases left with
        | zero => cases hnow
        | succ left =>
          obtain ⟨hcheckout, hsent⟩ := hturns (n + 1) (by omega) (by omega)
          have hearly : s'.now < p.deadline := by
            cases h with
            | elsewhere id fresh e now timely => exact timely hcheckout
            | again id fresh out r wire replay e now timely => exact timely (hsent replay)
          exact ih (n + 1) s' hearly (fun m hm hm' => hturns m (by omega) (by omega)) now hnow

end Sending

namespace Arrival
open Sending (Covered Ran begun_early ran)

/-- What a proxied request may do to its upstream. -/
structure RetrySafe (a : Arrival) (spec : UpstreamBody) (trace : List Event) : Prop where
  replayed : 1 < (sends trace).length → (∃ retry, spec.retry = some retry ∧ retry.mode = .replay) ∧
    requestedProtocol a.request.headers = none ∧
      ∃ payload r, a.request.payload (a.retry spec) a.body = .ok (payload, r) ∧ payload ≠ .streaming
  identical : ∀ out ∈ sends trace, ∀ other ∈ sends trace, out = other
  streamed : ∀ r, a.request.payload (a.retry spec) a.body = .ok (.streaming, r) →
    (sends trace).map Outgoing.body = [] ∨ (sends trace).map Outgoing.body = [.client a.request.body]
  upgraded : (requestedProtocol a.request.headers).isSome = true → (begun trace).length ≤ 1
  apart : (checkouts trace).Nodup
  bounded : (sends trace).length ≤ (checkouts trace).length ∧ (checkouts trace).length ≤ a.attemptsAllowed spec
  covered : Covered false 0 trace

/-- The request is ready in time, and whatever fails ahead of another attempt fails in time. -/
structure Timely (a : Arrival) (spec : UpstreamBody) (payload : Payload) (turns : Nat → Turn) : Prop where
  ready : a.readyAt payload < a.deadline spec
  checkouts : ∀ n, 0 < n → n < a.attemptsAllowed spec → (turns n).checkout.FailsBy (a.deadline spec)
  sends : (a.sending spec payload).mayReplay = true →
    ∀ n, 0 < n → n < a.attemptsAllowed spec → (turns n).sent.FailsBy (a.deadline spec)

variable {a : Arrival} {spec : UpstreamBody} {trace : List Event} {payload : Payload} {r : Request}

theorem RetrySafe.nil : RetrySafe a spec [] where
  replayed := nofun
  identical := nofun
  streamed := fun _ _ => .inl rfl
  upgraded := fun _ => Nat.zero_le 1
  apart := List.nodup_nil
  bounded := ⟨le_rfl, Nat.zero_le _⟩
  covered := trivial

theorem attemptsAllowed_upgrade (h : (requestedProtocol a.request.headers).isSome = true) : a.attemptsAllowed spec = 1 := by
  rw [attemptsAllowed, retry, Option.isNone_eq_false_iff.mpr h]
  rfl

theorem mayReplay_cases (h : (a.sending spec payload).mayReplay = true) :
    (∃ retry, spec.retry = some retry ∧ retry.mode = .replay) ∧ requestedProtocol a.request.headers = none ∧
      payload.isReproducible = true := by
  obtain ⟨hretry, hpayload⟩ := (Bool.and_eq_true _ _).mp h
  cases hp : requestedProtocol a.request.headers with
  | some protocol => simp [retry, hp] at hretry
  | none =>
    cases hs : spec.retry with
    | none => simp [retry, hp, hs] at hretry
    | some replay => exact ⟨⟨replay, rfl, by simpa [retry, hp, hs] using hretry⟩, rfl, hpayload⟩

theorem payload_streaming {retry : Option Retry} {body : Except String (List UInt8)} {q : Request}
    (h : q.payload retry body = .ok (.streaming, r)) : r = q := by
  unfold Request.payload at h
  split at h
  · exact (Prod.mk.inj (Except.ok.inj h)).2.symm
  · split at h
    · cases h
    · split at h
      · split at h <;> cases h
      · cases h
        rfl

theorem retrySafe_of_ran (hp : a.request.payload (a.retry spec) a.body = .ok (payload, r)) {now : Instant}
    (h : (a.sending spec payload).Ran ⟨r, [], none, now⟩ (a.attemptsAllowed spec) 0 trace) : RetrySafe a spec trace where
  replayed hmany := by
    have hreplay : (a.sending spec payload).mayReplay = true := by
      by_contra hno
      exact absurd (h.once (Bool.eq_false_iff.mpr hno)) (not_le.mpr hmany)
    obtain ⟨hmode, hplain, hreproducible⟩ := mayReplay_cases hreplay
    refine ⟨hmode, hplain, payload, r, hp, ?_⟩
    rintro rfl
    cases hreproducible
  identical out hout other hother := by
    obtain ⟨r', complaint, hbuild⟩ := h.wire out hout
    obtain ⟨r'', complaint', hbuild'⟩ := h.wire other hother
    obtain ⟨headers, hh, rfl⟩ := (buildRequest_ok hbuild).1
    obtain ⟨headers', hh', rfl⟩ := (buildRequest_ok hbuild').1
    rw [Option.some.inj (hh.symm.trans hh')]
  streamed r' hr' := by
    obtain ⟨rfl, rfl⟩ := Prod.mk.inj (Except.ok.inj (hp.symm.trans hr'))
    have hone := h.once (Bool.and_false _)
    match hsends : sends trace with
    | [] => exact .inl rfl
    | [out] =>
      obtain ⟨r'', complaint, hbuild⟩ := h.wire out (hsends ▸ List.mem_singleton_self out)
      obtain ⟨headers, hh, rfl⟩ := (buildRequest_ok hbuild).1
      right
      rw [← payload_streaming hp]
      rfl
    | _ :: _ :: _ =>
      rw [hsends, List.length_cons, List.length_cons] at hone
      omega
  upgraded hup := by
    have hone : a.attemptsAllowed spec = 1 := attemptsAllowed_upgrade hup
    rw [← hone]
    exact h.counted
  apart := h.nodup
  bounded := ⟨h.sent, h.bounded⟩
  covered := h.covered

/-- The proxy is safe to retry in every run, and begins nothing late in a timely one. -/
theorem retry_safe (a : Arrival) (spec : UpstreamBody) (turns : Nat → Turn) :
    RetrySafe a spec (a.proxy spec turns).1 ∧
      ((∀ payload r, a.request.payload (a.retry spec) a.body = .ok (payload, r) → Timely a spec payload turns) →
        ∀ now ∈ begun (a.proxy spec turns).1, now < a.deadline spec) := by
  rw [proxy]
  split
  · exact ⟨.nil, fun _ => nofun⟩
  · split
    · exact ⟨.nil, fun _ => nofun⟩
    · rename_i payload r hp
      constructor
      · have hreplay : (a.sending spec payload).mayReplay = true → payload.isReproducible = true :=
          fun h => (mayReplay_cases h).2.2
        exact retrySafe_of_ran hp (ran hreplay turns (a.attemptsAllowed spec) 0 _)
      · intro htimely
        obtain ⟨hready, hcheckouts, hsends⟩ := htimely payload r hp
        refine begun_early turns (a.attemptsAllowed spec) 0 _ hready ?_
        intro m hm hm'
        rw [Nat.zero_add] at hm'
        exact ⟨hcheckouts m hm hm', fun h => hsends h m hm hm'⟩

/-- Defaults, and one more attempt for what may be replayed. -/
def twice : UpstreamBody where
  endpoints := []
  balance := .first
  timeouts := .default
  pool := .default
  retry := some ⟨.replay, 2, .fromSecs 5, 1024, 20⟩
  health := none
  passiveHealth := none
  protocol := .http1
  tls := none
  resolve := .default
  origin := ⟨.synthetic "upstream", ""⟩

/-- An upload of five bytes that takes four hundred seconds; the overall deadline is three hundred. -/
def slowUpload : Arrival where
  request := ⟨"POST", some "/", none, [("host", utf8 "a"), ("content-length", utf8 "5")],
    some (Body.new [.data (utf8 "hello")] .finished true)⟩
  clientIp := none
  tls := false
  «at» := 0
  body := .ok (utf8 "hello")
  bodyAt := 400 * 10 ^ 9

/-- A backend that can be had and answers. -/
def answering : Turn where
  live := 0
  inFlight := 1
  eligible := [⟨0, "one", 1, I32.zero⟩]
  loads := fun _ => 0
  counters := ⟨0, 0, fun _ => 0⟩
  checkout := .done () (400 * 10 ^ 9)
  complaint := none
  sent := .done 200 (401 * 10 ^ 9)

/-- The upload is buffered to its end, however long that takes, and only then comes the first attempt. -/
theorem slow_upload_attempted_late : ¬ (RetrySafe slowUpload twice (slowUpload.proxy twice fun _ => answering).1 ∧
    ∀ now ∈ begun (slowUpload.proxy twice fun _ => answering).1, now < slowUpload.deadline twice) := by
  rintro ⟨-, h⟩
  have hbegun : begun (slowUpload.proxy twice fun _ => answering).1 = [400 * 10 ^ 9] := by decide
  rw [hbegun] at h
  exact absurd (h _ List.mem_cons_self) (by decide)

end Arrival

end Proxy
end Gatel
