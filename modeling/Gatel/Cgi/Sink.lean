import Gatel.Cgi.Head
import Gatel.Lib.Run

namespace Gatel.Cgi

/-! What a backend writes into, and the channel of one message behind it. -/

inductive ExchangeError where
  | timeout
  | unavailable
  | failed
  deriving DecidableEq

def ExchangeError.status : ExchangeError → UInt16
  | .timeout => 504
  | .unavailable => 503
  | .failed => 502

inductive Message where
  | head (head : Head)
  | body (bytes : List UInt8)
  deriving DecidableEq

def Message.bytes : Message → List UInt8
  | .head _ => []
  | .body bytes => bytes

/-- How far the response is known to be complete. -/
inductive Completion where
  | expectHead
  | writingBody
  | finished
  | failed
  deriving DecidableEq

inductive Call where
  | head (head : Head)
  | body (bytes : List UInt8)
  | finish
  deriving DecidableEq

def Call.bytes : Call → List UInt8
  | .body bytes => bytes
  | .head _ | .finish => []

/-- The phase a call expects to begin in. -/
def Call.expected : Call → Completion
  | .head _ => .expectHead
  | .body _ | .finish => .writingBody

/-- The phase it leaves behind. -/
def Call.reached : Call → Completion
  | .head _ | .body _ => .writingBody
  | .finish => .finished

inductive Ended where
  | completed
  | failed
  | cancelled
  deriving DecidableEq

def outputChunk : Nat := 8192

def chunksFrom : Nat → List UInt8 → List (List UInt8)
  | 0, _ => []
  | n + 1, bytes => if bytes = [] then [] else bytes.take outputChunk :: chunksFrom n (bytes.drop outputChunk)

/-- `slice::chunks`. -/
def chunks (bytes : List UInt8) : List (List UInt8) := chunksFrom bytes.length bytes

/-- The messages a call sends, one reservation each. -/
def Call.messages : Call → List Message
  | .head h => [Message.head h]
  | .body bytes => (chunks bytes).map Message.body
  | .finish => []

/-- A call that has begun, and what it still has to send. -/
structure Underway where
  call : Call
  rest : List Message
  deriving DecidableEq

structure Sink where
  completion : Completion
  /-- Sent and not received yet; there is room for one. -/
  queue : List Message
  underway : Option Underway
  /-- The backend has not dropped it. -/
  held : Bool
  /-- For the statements only: the calls that are over and all bytes sent. -/
  calls : List (Call × Ended)
  sent : List UInt8
  deriving DecidableEq

namespace Sink

def new : Sink := ⟨.expectHead, [], none, true, [], []⟩

/-- The call underway is over. -/
def conclude (s : Sink) (ended : Ended) : Sink :=
  match s.underway with
  | none => s
  | some u => { s with underway := none, calls := s.calls ++ [(u.call, ended)] }

/-- What a call stores when nothing is left to send. -/
def settle (s : Sink) : Sink :=
  match s.underway with
  | some ⟨call, []⟩ => { s with completion := call.reached }.conclude .completed
  | _ => s

/-- `begin`: poisoned first, so that a cancelled call cannot leave success behind. -/
def start (s : Sink) (call : Call) : Sink :=
  if s.held = false ∨ s.underway.isSome then s
  else if s.completion = call.expected then
    { s with completion := .failed, underway := some ⟨call, call.messages⟩ }.settle
  else { s with completion := .failed, calls := s.calls ++ [(call, .failed)] }

/-- The call underway is polled and finds a slot, if there is one. -/
def advance (s : Sink) : Sink :=
  match s.underway with
  | some ⟨call, message :: rest⟩ =>
    if s.queue = [] then
      { s with queue := [message], sent := s.sent ++ message.bytes, underway := some ⟨call, rest⟩ }.settle
    else s
  | _ => s

def drop (s : Sink) : Sink := { s.conclude .cancelled with held := false }

/-- What a backend does with the sink while it is polled. -/
inductive Action where
  | start (call : Call)
  | advance
  | fail
  | cancel
  | drop
  deriving DecidableEq

def act (s : Sink) : Action → Sink
  | .start call => s.start call
  | .advance => s.advance
  | .fail => s.conclude .failed
  | .cancel => s.conclude .cancelled
  | .drop => s.drop

/-- The body arguments of all calls so far, in order. -/
def arguments (s : Sink) : List UInt8 := s.calls.flatMap (fun c => c.1.bytes) ++ (s.underway.map fun u => u.call.bytes).getD []

end Sink

theorem flatten_chunksFrom {n : Nat} {bytes : List UInt8} (h : bytes.length ≤ n) : (chunksFrom n bytes).flatten = bytes := by
  induction n generalizing bytes with
  | zero =>
    rw [List.length_eq_zero_iff.mp (Nat.le_zero.mp h)]
    rfl
  | succ n ih =>
    unfold chunksFrom
    split
    · rename_i hnil
      rw [hnil]
      rfl
    · rename_i hne
      have hpos := List.length_pos_iff.mpr hne
      rw [List.flatten_cons, ih, List.take_append_drop]
      rw [List.length_drop, outputChunk]
      omega

theorem flatten_chunks (bytes : List UInt8) : (chunks bytes).flatten = bytes := flatten_chunksFrom (le_refl _)

theorem messages_bytes (call : Call) : call.messages.flatMap Message.bytes = call.bytes := by
  cases call with
  | head head => rfl
  | body bytes =>
    rw [Call.messages, List.flatMap_map]
    exact List.flatMap_id.trans (flatten_chunks bytes)
  | finish => rfl

namespace Sink

/-- A head, then bodies, all completed. -/
def wellFormed (head : Head) (bodies : List (List UInt8)) : List (Call × Ended) :=
  (.head head, .completed) :: bodies.map fun bytes => (.body bytes, .completed)

/-- Where a response stands that may still be completed. -/
inductive Stands : Completion → List (Call × Ended) → List UInt8 → Prop where
  | nothing : Stands .expectHead [] []
  | writing (head : Head) (bodies : List (List UInt8)) : Stands .writingBody (wellFormed head bodies) bodies.flatten
  | finished (head : Head) (bodies : List (List UInt8)) :
      Stands .finished (wellFormed head bodies ++ [(.finish, .completed)]) bodies.flatten

/-- A call underway began in the phase it expects and has sent a part of its argument; one that
failed or was cancelled leaves a prefix of the arguments behind, and nothing follows. -/
structure Inv (s : Sink) : Prop where
  idle : s.underway = none → s.completion ≠ .failed → Stands s.completion s.calls s.sent
  busy : ∀ u ∈ s.underway, s.completion = .failed ∧ u.rest ≠ [] ∧
    ∃ before, Stands u.call.expected s.calls before ∧ s.sent ++ u.rest.flatMap Message.bytes = before ++ u.call.bytes
  part : s.sent <+: s.arguments

theorem Stands.arguments {c : Completion} {calls : List (Call × Ended)} {sent : List UInt8} (h : Stands c calls sent) :
    calls.flatMap (fun c => c.1.bytes) = sent := by
  have hbodies (bodies : List (List UInt8)) :
      (bodies.map fun bytes => (Call.body bytes, Ended.completed)).flatMap (fun c => c.1.bytes) = bodies.flatten := by
    rw [List.flatMap_map]
    exact List.flatMap_id
  cases h with
  | nothing => rfl
  | writing head bodies => exact hbodies bodies
  | finished head bodies =>
    rw [wellFormed, List.cons_append, List.flatMap_cons, List.flatMap_append, hbodies]
    simp [Call.bytes]

/-- A call that began where it may, completed. -/
theorem Stands.extend {call : Call} {calls : List (Call × Ended)} {before : List UInt8}
    (h : Stands call.expected calls before) :
    Stands call.reached (calls ++ [(call, .completed)]) (before ++ call.bytes) := by
  cases call with
  | head head =>
    cases h
    exact .writing head []
  | body bytes =>
    cases h with
    | writing head bodies =>
      have hn := Stands.writing head (bodies ++ [bytes])
      rw [List.flatten_append, List.flatten_singleton, wellFormed, List.map_append] at hn
      exact hn
  | finish =>
    cases h with
    | writing head bodies =>
      rw [Call.bytes, List.append_nil]
      exact .finished head bodies

theorem inv_new : new.Inv where
  idle _ _ := .nothing
  busy _ h := by cases h
  part := List.prefix_refl _

/-- A call underway that has sent all there was is completed; else it goes on. -/
theorem settle_inv {s : Sink} {u : Underway} (hu : s.underway = some u) (hf : s.completion = .failed) {before : List UInt8}
    (hb : Stands u.call.expected s.calls before)
    (hs : s.sent ++ u.rest.flatMap Message.bytes = before ++ u.call.bytes) : s.settle.Inv := by
  obtain ⟨call, rest⟩ := u
  cases rest with
  | nil =>
    rw [List.flatMap_nil, List.append_nil] at hs
    have hn : Stands call.reached (s.calls ++ [(call, .completed)]) s.sent := hs ▸ hb.extend
    simp only [settle, hu, conclude]
    refine ⟨fun _ _ => hn, fun u h => (by cases h), ?_⟩
    simp only [arguments, hn.arguments, Option.map_none, Option.getD_none, List.append_nil]
    exact List.prefix_refl _
  | cons message rest =>
    have he : s.settle = s := by simp only [settle, hu]
    rw [he]
    refine ⟨fun h => ?_, ?_, ?_⟩
    · rw [hu] at h
      cases h
    · intro u h
      rw [hu] at h
      cases h
      exact ⟨hf, List.cons_ne_nil _ _, before, hb, hs⟩
    · simp only [arguments, hu, hb.arguments, Option.map_some, Option.getD_some, ← hs]
      exact List.prefix_append _ _

theorem Inv.conclude {s : Sink} (h : s.Inv) (ended : Ended) : (s.conclude ended).Inv := by
  cases hu : s.underway with
  | none => rwa [Sink.conclude, hu]
  | some u =>
    rw [Sink.conclude, hu]
    refine ⟨fun _ hne => absurd (h.busy u hu).1 hne, fun v hv => (by cases hv), ?_⟩
    have hp := h.part
    simp only [arguments, hu, Option.map_some, Option.getD_some] at hp
    simpa [arguments] using hp

theorem Inv.start {s : Sink} (h : s.Inv) (call : Call) : (s.start call).Inv := by
  unfold Sink.start
  split
  · exact h
  · rename_i hfree
    obtain ⟨-, hu⟩ := not_or.mp hfree
    have hu : s.underway = none := by simpa using hu
    split
    · rename_i hc
      have hne : s.completion ≠ .failed := by
        rw [hc]
        cases call <;> simp [Call.expected]
      exact settle_inv (u := ⟨call, call.messages⟩) rfl rfl (hc ▸ h.idle hu hne) (by rw [messages_bytes])
    · refine ⟨fun _ hne => absurd rfl hne, fun u hv => ?_, ?_⟩
      · rw [hu] at hv
        cases hv
      · have hp := h.part
        simp only [arguments, hu, Option.map_none, Option.getD_none, List.append_nil] at hp ⊢
        rw [List.flatMap_append]
        exact hp.trans (List.prefix_append _ _)

theorem Inv.advance {s : Sink} (h : s.Inv) : s.advance.Inv := by
  unfold Sink.advance
  split
  · rename_i call message rest hu
    split
    · obtain ⟨hf, -, before, hb, hs⟩ := h.busy _ hu
      refine settle_inv (u := ⟨call, rest⟩) rfl hf hb ?_
      rw [List.append_assoc]
      exact hs
    · exact h
  · exact h

theorem Inv.drop {s : Sink} (h : s.Inv) : s.drop.Inv := by
  have hc := h.conclude .cancelled
  exact ⟨hc.idle, hc.busy, hc.part⟩

theorem Inv.act {s : Sink} (h : s.Inv) (a : Action) : (s.act a).Inv := by
  cases a with
  | start call => exact h.start call
  | advance => exact h.advance
  | fail => exact h.conclude .failed
  | cancel => exact h.conclude .cancelled
  | drop => exact h.drop

theorem conclude_sent (s : Sink) (ended : Ended) :
    (s.conclude ended).queue = s.queue ∧ (s.conclude ended).sent = s.sent ∧ (s.conclude ended).completion = s.completion := by
  unfold conclude
  split <;> exact ⟨rfl, rfl, rfl⟩

theorem settle_sent (s : Sink) : s.settle.queue = s.queue ∧ s.settle.sent = s.sent := by
  unfold settle
  split
  · obtain ⟨hq, hs, -⟩ := conclude_sent { s with completion := Call.reached (by assumption) } .completed
    exact ⟨hq, hs⟩
  · exact ⟨rfl, rfl⟩

/-- What is sent goes through the queue. -/
theorem act_sent {s : Sink} {taken : List UInt8} (h : taken ++ s.queue.flatMap Message.bytes = s.sent) (a : Action) :
    taken ++ (s.act a).queue.flatMap Message.bytes = (s.act a).sent := by
  cases a with
  | start call =>
    simp only [act, start]
    split
    · exact h
    · split
      · rw [(settle_sent _).1, (settle_sent _).2]
        exact h
      · exact h
  | advance =>
    simp only [act, advance]
    split
    · split
      · rename_i hq
        rw [hq, List.flatMap_nil, List.append_nil] at h
        rw [(settle_sent _).1, (settle_sent _).2]
        simp [h]
      · exact h
    · exact h
  | fail =>
    rw [act, (conclude_sent s .failed).1, (conclude_sent s .failed).2.1]
    exact h
  | cancel =>
    rw [act, (conclude_sent s .cancelled).1, (conclude_sent s .cancelled).2.1]
    exact h
  | drop =>
    simp only [act, drop, (conclude_sent s .cancelled).1, (conclude_sent s .cancelled).2.1]
    exact h

end Sink

end Gatel.Cgi
