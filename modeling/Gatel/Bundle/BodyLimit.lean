import Gatel.Model.Body
import Gatel.Plan.Texts

namespace Gatel.BodyLimit

/-- An error as a walk over its causes sees it: by what it is, and what is inside. -/
inductive Failure where
  | bodyTooLarge (limit : U64)
  | salvoOther (inner : Failure)
  | salvoIo (inner : Failure)
  | io (inner : Failure)
  /-- An `io::Error` of the system. -/
  | os
  /-- Anything else, with its `source`. -/
  | caused (source : Failure)
  | plain
  deriving DecidableEq

namespace Failure

@[grind =] def cause : Failure → Option Failure
  | .bodyTooLarge _ | .os | .plain => none
  | .salvoOther inner | .salvoIo inner | .io inner | .caused inner => some inner

end Failure

namespace BodyTooLarge

@[grind =] def findWithin : Nat → Failure → Option U64
  | 0, _ => none
  | _ + 1, .bodyTooLarge limit => some limit
  | n + 1, error => error.cause.bind (findWithin n)

/-- Inspect typed causes. The bounded walk also protects against a cyclic chain. -/
def find (error : Failure) : Option U64 := findWithin 32 error

end BodyTooLarge

/-- `RequestBodyLimit`, as it stands in the depot. -/
def RequestBodyLimit.install (existing : Option U64) (limit : U64) : Option U64 :=
  some (existing.elim limit fun existing => min existing limit)

/-- How the error of a boxed body comes out of the body type it is boxed in. -/
inductive Adapter where
  | io
  | other
  | otherIo

namespace Adapter

@[grind =] def wrap : Adapter → Failure → Failure
  | .io, error => .io error
  | .other, error => .salvoOther error
  | .otherIo, error => .salvoIo (.io error)

/-- How many causes it puts around. -/
@[grind =] def steps : Adapter → Nat
  | .io | .other => 1
  | .otherIo => 2

end Adapter

/-- What a request body does when it is polled. -/
inductive Event where
  | pending
  | frame (f : Frame)
  | failed (error : Failure)
  deriving DecidableEq

def Event.polled : Event → Polled Failure
  | .pending => .pending
  | .frame f => .frame f
  | .failed error => .failed error

inductive ReqBody where
  | none
  | received (events : List Event)
  /-- A boxed `Limited`. -/
  | limited (inner : ReqBody) (max seen : U64) (done : Bool)
  deriving DecidableEq

namespace ReqBody

/-- `poll_frame`, of the body type and of both `Limited`s in it. -/
@[grind =] def pollFrame (adapter : Adapter) : ReqBody → Polled Failure × ReqBody
  | .none => (.ended, .none)
  | .received [] => (.ended, .received [])
  | .received (event :: rest) => (event.polled, .received rest)
  | .limited inner max seen true => (.ended, .limited inner max seen true)
  | .limited inner max seen false =>
    match inner.pollFrame adapter with
    | (.frame (.data bytes), inner) =>
      if bytes.length > max.val - seen.val then
        (.failed (adapter.wrap (.bodyTooLarge max)), .limited .none max seen true)
      else (.frame (.data bytes), .limited inner max (seen + Fin.ofNat (2 ^ 64) bytes.length) false)
    | (.frame (.trailers fields), inner) => (.frame (.trailers fields), .limited inner max seen false)
    | (.failed error, _) => (.failed (adapter.wrap error), .limited .none max seen true)
    | (.ended, _) => (.ended, .limited .none max seen true)
    | (.pending, inner) => (.pending, .limited inner max seen false)

/-- What so many polls answer, and what is left. -/
def polls (adapter : Adapter) : Nat → ReqBody → List (Polled Failure) × ReqBody
  | 0, body => ([], body)
  | n + 1, body =>
    let (polled, body) := body.pollFrame adapter
    let (rest, body) := body.polls adapter n
    (polled :: rest, body)

/-- What nobody has polled yet. -/
def unread : ReqBody → List Event
  | .none => []
  | .received events => events
  | .limited inner _ _ _ => inner.unread

/-- The limits and counters, the outermost first. -/
def counters : ReqBody → List (U64 × U64)
  | .none | .received _ => []
  | .limited inner max seen _ => (max, seen) :: inner.counters

end ReqBody

/-- A request on its way through the chain. -/
structure Exchange where
  headers : HeaderMap
  body : ReqBody
  installed : Option U64
  generated : Bool
  answer : Option (Nat × String)
  unmatchedRequests : Nat

def declaredLength (headers : HeaderMap) : Option Nat :=
  ((headers.get "content-length").bind HeaderValue.toStr).bind fun text => Text.parseUnsigned (2 ^ 64) (Text.trim text)

namespace Exchange

def tooLarge (x : Exchange) (declared : Nat) (max : U64) : Exchange :=
  { x with
    generated := true
    answer := some (413, "413 request body of " ++ toString declared ++ " bytes is larger than the " ++ toString max.val ++ " byte limit\n") }

def limited (x : Exchange) (max : U64) : Exchange := { x with body := .limited x.body max 0 false }

end Exchange

/-- What a declared length says about a request. -/
inductive Declared where
  | acceptable
  | tooLarge (declared : Nat)

/-- Bound the body of this request. -/
def limit (x : Exchange) (max : U64) : Declared × Exchange :=
  match (declaredLength x.headers).filter (max.val < ·) with
  | some declared => (.tooLarge declared, x)
  | none => (.acceptable, x.limited max)

/-- The part of `Dispatcher::handle` before routing; an error is where the request ends. -/
def Dispatcher.guard (maxBody : U64) (x : Exchange) : Except Exchange Exchange :=
  let x := { x with installed := RequestBodyLimit.install x.installed maxBody }
  match limit x maxBody with
  | (.tooLarge declared, x) => .error ({ x with unmatchedRequests := x.unmatchedRequests + 1 }.tooLarge declared maxBody)
  | (.acceptable, x) => .ok x

def BodyLimitHandler.handle (x : Exchange) (max : U64) : Except Exchange Exchange :=
  let x := { x with installed := RequestBodyLimit.install x.installed max }
  match (declaredLength x.headers).filter (max.val < ·) with
  | some declared => .error (x.tooLarge declared max)
  | none => .ok (x.limited max)

/-- A request through the dispatcher and the `body-limit`s of its chain. -/
def handle (maxBody : U64) (limits : List U64) (x : Exchange) : Except Exchange Exchange :=
  Dispatcher.guard maxBody x >>= fun x => limits.foldlM BodyLimitHandler.handle x

/-! The body a reader gets: every limit around what is received, the last one outermost. -/

@[grind =] def stacked (seen : U64) (events : List Event) : List U64 → ReqBody
  | [] => .received events
  | max :: limits => .limited (stacked seen events limits) max seen false

/-- How many bytes a frame carries. -/
@[grind =] def Event.size : Event → Nat
  | .frame f => f.dataBytes.length
  | .pending | .failed _ => 0

@[grind =] def total (events : List Event) : Nat := (events.map Event.size).sum

section Reading

variable (adapter : Adapter) (limits : List U64)

/-- What is handed on of the events that come, and the error it stops with. -/
inductive Reads : Nat → List Event → List Event → Option Failure → Prop where
  | ended (seen : Nat) : Reads seen [] [] none
  | failed (seen : Nat) (error : Failure) (rest : List Event) :
      Reads seen (.failed error :: rest) [] (some (adapter.wrap^[limits.length] error))
  | refused (seen : Nat) (f : Frame) (rest : List Event) {outer inner : List U64} {max : U64} (hl : limits = outer ++ max :: inner)
      (hinner : ∀ max ∈ inner, seen + f.dataBytes.length ≤ max.val) (hover : max.val < seen + f.dataBytes.length) :
      Reads seen (.frame f :: rest) [] (some (adapter.wrap^[outer.length + 1] (.bodyTooLarge max)))
  | pending {seen : Nat} {rest passed : List Event} {stop : Option Failure} (h : Reads seen rest passed stop) :
      Reads seen (.pending :: rest) (.pending :: passed) stop
  | frame {seen : Nat} {f : Frame} {rest passed : List Event} {stop : Option Failure}
      (hfits : ∀ max ∈ limits, seen + f.dataBytes.length ≤ max.val) (h : Reads (seen + f.dataBytes.length) rest passed stop) :
      Reads seen (.frame f :: rest) (.frame f :: passed) stop

variable {adapter limits}

/-- What a reader does not want is refused where the first limit is passed, from the inside. -/
theorem exists_refusing {limits : List U64} {n : Nat} (h : ∃ max ∈ limits, max.val < n) :
    ∃ outer max inner, limits = outer ++ max :: inner ∧ (∀ max ∈ inner, n ≤ max.val) ∧ max.val < n := by
  induction limits with
  | nil => simp at h
  | cons max limits ih =>
    by_cases hinner : ∃ max ∈ limits, max.val < n
    · obtain ⟨outer, max', inner, rfl, hrest⟩ := ih hinner
      exact ⟨max :: outer, max', inner, rfl, hrest⟩
    · simp only [not_exists, not_and, not_lt] at hinner
      obtain ⟨max', hmem, hover⟩ := h
      rcases List.mem_cons.mp hmem with rfl | hmem
      · exact ⟨[], max', limits, rfl, hinner, hover⟩
      · exact absurd hover (not_lt.mpr (hinner max' hmem))

theorem Reads.exists_reads (adapter : Adapter) (limits : List U64) (seen : Nat) (events : List Event) :
    ∃ passed stop, Reads adapter limits seen events passed stop := by
  induction events generalizing seen with
  | nil => exact ⟨[], none, .ended seen⟩
  | cons event rest ih =>
    cases event with
    | pending =>
      obtain ⟨passed, stop, h⟩ := ih seen
      exact ⟨_, stop, .pending h⟩
    | failed error => exact ⟨[], _, .failed seen error rest⟩
    | frame f =>
      by_cases hover : ∃ max ∈ limits, max.val < seen + f.dataBytes.length
      · obtain ⟨outer, max, inner, hl, hinner, hover⟩ := exists_refusing hover
        exact ⟨[], _, .refused seen f rest hl hinner hover⟩
      · simp only [not_exists, not_and, not_lt] at hover
        obtain ⟨passed, stop, h⟩ := ih (seen + f.dataBytes.length)
        exact ⟨_, stop, .frame hover h⟩

theorem pollFrame_pending (seen : U64) (rest : List Event) :
    (stacked seen (.pending :: rest) limits).pollFrame adapter = (.pending, stacked seen rest limits) := by
  induction limits with
  | nil => rfl
  | cons max limits ih => rw [stacked, ReqBody.pollFrame, ih]; rfl

theorem add_val {seen max : U64} {n : Nat} (h : seen.val + n ≤ max.val) : (seen + Fin.ofNat (2 ^ 64) n).val = seen.val + n := by
  rw [Fin.val_add, Fin.val_ofNat, Nat.add_mod_mod, Nat.mod_eq_of_lt (lt_of_le_of_lt h max.isLt)]

theorem pollFrame_frame {seen : U64} {f : Frame} (rest : List Event) (h : ∀ max ∈ limits, seen.val + f.dataBytes.length ≤ max.val) :
    (stacked seen (.frame f :: rest) limits).pollFrame adapter =
      (.frame f, stacked (seen + Fin.ofNat (2 ^ 64) f.dataBytes.length) rest limits) := by
  induction limits with
  | nil => rfl
  | cons max limits ih =>
    rw [stacked, ReqBody.pollFrame, ih fun max hm => h max (List.mem_cons_of_mem _ hm)]
    cases f with
    | data bytes =>
      have hfit := h max List.mem_cons_self
      have hle : ¬ bytes.length > max.val - seen.val := by
        simp only [Frame.dataBytes] at hfit
        omega
      simp only [if_neg hle, Frame.dataBytes, stacked]
    | trailers fields => simp [Frame.dataBytes, stacked]

theorem pollFrame_around {inner : ReqBody} {max seen : U64} {error : Failure} (h : (inner.pollFrame adapter).1 = .failed error) :
    ((ReqBody.limited inner max seen false).pollFrame adapter).1 = .failed (adapter.wrap error) := by
  rw [ReqBody.pollFrame]
  rcases hp : inner.pollFrame adapter with ⟨polled, body⟩
  rw [hp] at h
  dsimp only at h
  rw [h]

theorem pollFrame_refused {seen : U64} {f : Frame} (rest : List Event) {outer inner : List U64} {max : U64}
    (hinner : ∀ max ∈ inner, seen.val + f.dataBytes.length ≤ max.val) (hseen : seen ≤ max) (hover : max.val < seen.val + f.dataBytes.length) :
    ((stacked seen (.frame f :: rest) (outer ++ max :: inner)).pollFrame adapter).1 =
      .failed (adapter.wrap^[outer.length + 1] (.bodyTooLarge max)) := by
  induction outer with
  | nil =>
    rw [List.nil_append, stacked, ReqBody.pollFrame, pollFrame_frame rest hinner]
    cases f with
    | data bytes =>
      have hlt : bytes.length > max.val - seen.val := by
        simp only [Frame.dataBytes] at hover
        have hle := Fin.le_def.mp hseen
        omega
      simp only [if_pos hlt]
      rfl
    | trailers fields => exact absurd hover (not_lt.mpr (Fin.le_def.mp hseen))
  | cons max' outer ih => exact (pollFrame_around ih).trans (by rw [List.length_cons, Function.iterate_succ_apply' _ (outer.length + 1)])

theorem pollFrame_failed (seen : U64) (error : Failure) (rest : List Event) :
    ((stacked seen (.failed error :: rest) limits).pollFrame adapter).1 = .failed (adapter.wrap^[limits.length] error) := by
  induction limits with
  | nil => rfl
  | cons max limits ih => exact (pollFrame_around ih).trans (by rw [List.length_cons, Function.iterate_succ_apply'])

theorem pollFrame_ended (seen : U64) : ((stacked seen [] limits).pollFrame adapter).1 = .ended := by
  induction limits with
  | nil => rfl
  | cons max limits ih =>
    rw [stacked, ReqBody.pollFrame]
    rcases hp : (stacked seen [] limits).pollFrame adapter with ⟨polled, body⟩
    rw [hp] at ih
    dsimp only at ih
    rw [ih]

/-- A limit that failed or came to the end lets go of what it held. -/
theorem pollFrame_stopped {inner : ReqBody} {max seen : U64} {polled : Polled Failure}
    (h : ((ReqBody.limited inner max seen false).pollFrame adapter).1 = polled) (hstop : polled = .ended ∨ ∃ error, polled = .failed error) :
    (ReqBody.limited inner max seen false).pollFrame adapter = (polled, .limited .none max seen true) := by
  subst h
  rw [ReqBody.pollFrame] at hstop ⊢
  rcases hp : inner.pollFrame adapter with ⟨polled, body⟩
  rw [hp] at hstop
  cases polled with
  | pending => simp at hstop
  | failed error => rfl
  | ended => rfl
  | frame f =>
    cases f with
    | trailers fields => simp at hstop
    | data bytes =>
      dsimp only at hstop ⊢
      split
      · rfl
      · rename_i hfit
        rw [if_neg hfit] at hstop
        simp at hstop

theorem polls_succ (n : Nat) (body : ReqBody) : body.polls adapter (n + 1) =
    ((body.pollFrame adapter).1 :: ((body.pollFrame adapter).2.polls adapter n).1, ((body.pollFrame adapter).2.polls adapter n).2) := rfl

theorem polls_done (n : Nat) (inner : ReqBody) (max seen : U64) :
    (ReqBody.limited inner max seen true).polls adapter n = (List.replicate n .ended, .limited inner max seen true) := by
  induction n with
  | zero => rfl
  | succ n ih => rw [polls_succ, ReqBody.pollFrame, ih, List.replicate_succ]

/-- What a poll hands on in bytes. -/
def handed (results : List (Polled Failure)) : Nat :=
  (results.map fun | .frame f => f.dataBytes.length | .pending | .failed _ | .ended => 0).sum

/-- The counters of a body that handed on so much: no one has more than it may, and none has wrapped. -/
def Counted (body : ReqBody) (bytes : Nat) : Prop := ∀ counter ∈ body.counters, counter.2.val = bytes ∧ counter.2 ≤ counter.1

theorem counted_stacked {seen : U64} (events : List Event) (h : ∀ max ∈ limits, seen ≤ max) : Counted (stacked seen events limits) seen.val := by
  induction limits with
  | nil => exact nofun
  | cons max limits ih =>
    intro counter hc
    rcases List.mem_cons.mp hc with rfl | hc
    · exact ⟨rfl, h max List.mem_cons_self⟩
    · exact ih (fun max hm => h max (List.mem_cons_of_mem _ hm)) counter hc

/-- Past the first error or the end there is nothing but the end. -/
theorem polls_stopped {max seen : U64} {events : List Event} {polled : Polled Failure} {n m : Nat} (hm : n ≤ m) (hseen : seen ≤ max)
    (h : ((stacked seen events (max :: limits)).pollFrame adapter).1 = polled) (hstop : polled = .ended ∨ ∃ error, polled = .failed error) :
    ((stacked seen events (max :: limits)).polls adapter (n + 1)).1 = (polled :: List.replicate m Polled.ended).take (n + 1) ∧
      Counted ((stacked seen events (max :: limits)).polls adapter (n + 1)).2
        (seen.val + handed ((stacked seen events (max :: limits)).polls adapter (n + 1)).1) := by
  have hhanded : handed (polled :: List.replicate n Polled.ended) = 0 := by
    rcases hstop with rfl | ⟨error, rfl⟩ <;> simp [handed]
  rw [polls_succ, stacked, pollFrame_stopped h hstop, polls_done, hhanded, List.take_succ_cons, List.take_replicate, Nat.min_eq_left hm]
  refine ⟨rfl, ?_⟩
  intro counter hc
  obtain rfl := List.mem_singleton.mp hc
  exact ⟨rfl, hseen⟩

theorem Reads.polls {k : Nat} {events passed : List Event} {stop : Option Failure} (h : Reads adapter limits k events passed stop)
    (hne : limits ≠ []) {seen : U64} (hk : seen.val = k) (hseen : ∀ max ∈ limits, seen ≤ max) {n m : Nat} (hm : n ≤ m) :
    ((stacked seen events limits).polls adapter n).1 =
        (passed.map Event.polled ++ stop.toList.map Polled.failed ++ List.replicate m Polled.ended).take n ∧
      Counted ((stacked seen events limits).polls adapter n).2 (seen.val + handed ((stacked seen events limits).polls adapter n).1) := by
  obtain ⟨first, inner, rfl⟩ := List.exists_cons_of_ne_nil hne
  have hfirst : seen ≤ first := hseen first List.mem_cons_self
  induction h generalizing seen n with
  | ended k =>
    cases n with
    | zero => exact ⟨rfl, counted_stacked _ hseen⟩
    | succ n =>
      obtain ⟨m, rfl⟩ := Nat.exists_eq_add_of_lt hm
      exact polls_stopped (by omega) hfirst (pollFrame_ended seen) (.inl rfl)
  | failed k error rest =>
    cases n with
    | zero => exact ⟨rfl, counted_stacked _ hseen⟩
    | succ n => exact polls_stopped (by omega) hfirst (pollFrame_failed seen error rest) (.inr ⟨_, rfl⟩)
  | refused k f rest hl hinner hover =>
    cases n with
    | zero => exact ⟨rfl, counted_stacked _ hseen⟩
    | succ n =>
      subst hk
      refine polls_stopped (by omega) hfirst ?_ (.inr ⟨_, rfl⟩)
      rw [hl] at hseen ⊢
      have hmax := hseen _ (List.mem_append_right _ List.mem_cons_self)
      exact pollFrame_refused rest hinner hmax hover
  | pending _ ih =>
    cases n with
    | zero => exact ⟨rfl, counted_stacked _ hseen⟩
    | succ n =>
      obtain ⟨hlist, hcounted⟩ := @ih seen hk n (by omega) hseen hfirst
      rw [polls_succ, pollFrame_pending]
      refine ⟨?_, ?_⟩
      · rw [hlist]
        rfl
      · simpa [handed] using hcounted
  | frame hfits _ ih =>
    cases n with
    | zero => exact ⟨rfl, counted_stacked _ hseen⟩
    | succ n =>
      subst hk
      have hadd := add_val (hfits first List.mem_cons_self)
      have hseen' : ∀ max ∈ first :: inner, seen + Fin.ofNat (2 ^ 64) _ ≤ max := fun max hmax => Fin.le_def.mpr (hadd ▸ hfits max hmax)
      obtain ⟨hlist, hcounted⟩ := @ih _ hadd n (by omega) hseen' (hseen' first List.mem_cons_self)
      rw [polls_succ, pollFrame_frame _ hfits]
      refine ⟨?_, ?_⟩
      · rw [hlist]
        rfl
      · rw [hadd] at hcounted
        simpa [handed, Nat.add_assoc] using hcounted

end Reading

/-! What the reader is told. -/

def Event.error : Event → Option Failure
  | .failed error => some error
  | .pending | .frame _ => none

/-- What comes before the body fails. -/
def arrived (events : List Event) : List Event := events.takeWhile fun event => event.error.isNone

theorem arrived_cons {event : Event} (h : event.error = none) (rest : List Event) : arrived (event :: rest) = event :: arrived rest :=
  List.takeWhile_cons_of_pos (by simp [h])

theorem total_cons (event : Event) (rest : List Event) : total (event :: rest) = event.size + total rest := by simp [total]

theorem total_append (a b : List Event) : total (a ++ b) = total a + total b := by simp [total]

/-- The reading ends with the body, or at a frame that passes one of the limits. -/
theorem Reads.cases_stop {adapter : Adapter} {limits : List U64} {seen tightest : Nat} {events passed : List Event} {stop : Option Failure}
    (h : Reads adapter limits seen events passed stop) (ht : ∀ n, (∀ max ∈ limits, n ≤ max.val) ↔ n ≤ tightest) (hseen : seen ≤ tightest) :
    seen + total passed ≤ tightest ∧
      ((passed = arrived events ∧ stop = (events.findSome? Event.error).map adapter.wrap^[limits.length]) ∨
        ∃ f rest outer max inner, arrived events = passed ++ .frame f :: rest ∧ limits = outer ++ max :: inner ∧
          max.val < seen + total passed + f.dataBytes.length ∧ stop = some (adapter.wrap^[outer.length + 1] (.bodyTooLarge max))) := by
  induction h with
  | ended seen => exact ⟨hseen, .inl ⟨rfl, rfl⟩⟩
  | failed seen error rest => exact ⟨hseen, .inl ⟨rfl, rfl⟩⟩
  | refused seen f rest hl _ hover =>
    exact ⟨hseen, .inr ⟨f, arrived rest, _, _, _, arrived_cons rfl rest, hl, by simpa [total] using hover, rfl⟩⟩
  | pending _ ih =>
    obtain ⟨hfit, hcase⟩ := ih hseen
    rw [total_cons, arrived_cons rfl]
    refine ⟨by simpa [Event.size] using hfit, hcase.imp ?_ ?_⟩
    · rintro ⟨rfl, rfl⟩
      exact ⟨rfl, rfl⟩
    · rintro ⟨f, rest, outer, max, inner, harr, hl, hover, hstop⟩
      exact ⟨f, rest, outer, max, inner, by rw [harr, List.cons_append], hl, by simpa [Event.size] using hover, hstop⟩
  | @frame seen f rest passed stop hfits _ ih =>
    obtain ⟨hfit, hcase⟩ := ih ((ht _).mp hfits)
    rw [total_cons, arrived_cons rfl]
    refine ⟨by rwa [← Nat.add_assoc], hcase.imp ?_ ?_⟩
    · rintro ⟨rfl, rfl⟩
      exact ⟨rfl, rfl⟩
    · rintro ⟨g, rest, outer, max, inner, harr, hl, hover, hstop⟩
      exact ⟨g, rest, outer, max, inner, by rw [harr, List.cons_append], hl, by rwa [← Nat.add_assoc seen], hstop⟩

theorem findWithin_iterate (adapter : Adapter) (max : U64) (k n : Nat) :
    BodyTooLarge.findWithin n (adapter.wrap^[k] (.bodyTooLarge max)) = if adapter.steps * k < n then some max else none := by
  induction k generalizing n with
  | zero =>
    cases n with
    | zero => rfl
    | succ n => simp [BodyTooLarge.findWithin]
  | succ k ih =>
    rw [Function.iterate_succ_apply']
    cases n with
    | zero => rfl
    | succ n =>
      cases adapter with
      | io | other =>
        rw [Adapter.wrap, BodyTooLarge.findWithin, Failure.cause, Option.bind_some, ih]
        · simp [Adapter.steps]
        · exact nofun
      | otherIo =>
        rw [Adapter.wrap, BodyTooLarge.findWithin, Failure.cause, Option.bind_some]
        · cases n with
          | zero => simp [BodyTooLarge.findWithin, Adapter.steps]
          | succ n =>
            rw [BodyTooLarge.findWithin, Failure.cause, Option.bind_some, ih]
            · simp only [Adapter.steps]
              congr 1
              exact propext (by omega)
            · exact nofun
        · exact nofun

/-- What stands around a body of so many limits, the outermost first. -/
structure Composed (adapter : Adapter) (limits : List U64) (tightest : U64) (events : List Event) (body : ReqBody) (passed : List Event)
    (stop : Option Failure) : Prop where
  reads : ∀ n, (body.polls adapter n).1 =
    (passed.map Event.polled ++ stop.toList.map Polled.failed ++ List.replicate n Polled.ended).take n
  unchanged : passed <+: arrived events
  all : passed = arrived events ↔ total (arrived events) ≤ tightest.val
  longest : total passed ≤ tightest.val ∧ ∀ longer, longer <+: arrived events → total longer ≤ tightest.val → longer <+: passed
  source : passed = arrived events → stop = (events.findSome? Event.error).map adapter.wrap^[limits.length]
  /-- A limit that was passed is found, unless too much stands around its error. -/
  exceeded : passed ≠ arrived events → ∃ outer max inner error, limits = outer ++ max :: inner ∧ max.val < total (arrived events) ∧
    stop = some error ∧ BodyTooLarge.find error = if adapter.steps * (outer.length + 1) < 32 then some max else none
  counted : ∀ n, Counted (body.polls adapter n).2 (handed (body.polls adapter n).1)

theorem composed (adapter : Adapter) {limits : List U64} {tightest : U64} (hne : limits ≠ [])
    (ht : ∀ n, (∀ max ∈ limits, n ≤ max.val) ↔ n ≤ tightest.val) (events : List Event) :
    ∃ passed stop, Composed adapter limits tightest events (stacked 0 events limits) passed stop := by
  obtain ⟨passed, stop, h⟩ := Reads.exists_reads adapter limits 0 events
  obtain ⟨hfit, hcase⟩ := h.cases_stop ht (Nat.zero_le _)
  have hpolls := fun n => h.polls hne rfl (fun max _ => Fin.zero_le max) (le_refl n)
  simp only [Nat.zero_add] at hfit hcase
  have hcounted : ∀ n, Counted ((stacked 0 events limits).polls adapter n).2 (handed ((stacked 0 events limits).polls adapter n).1) :=
    fun n => by simpa using (hpolls n).2
  refine ⟨passed, stop, ?_⟩
  rcases hcase with ⟨harr, hstop⟩ | ⟨f, rest, outer, max, inner, harr, hl, hover, hstop⟩
  · refine ⟨fun n => (hpolls n).1, ?_, ?_, ⟨hfit, ?_⟩, fun _ => hstop, fun hne => absurd harr hne, hcounted⟩
    · rw [harr]
    · exact iff_of_true harr (harr ▸ hfit)
    · intro longer hp _
      rwa [harr]
  · have htight : tightest.val ≤ max.val := (ht tightest.val).mpr (le_refl _) max (hl ▸ List.mem_append_right outer List.mem_cons_self)
    have htotal : total passed + f.dataBytes.length + total rest = total (arrived events) := by
      rw [harr, total_append, total_cons, Event.size, Nat.add_assoc]
    have hne : passed ≠ arrived events := by
      intro he
      have hlen := congrArg List.length (he.trans harr)
      simp at hlen
    refine ⟨fun n => (hpolls n).1, ?_, ?_, ⟨hfit, ?_⟩, fun he => absurd he hne, fun _ => ?_, hcounted⟩
    · rw [harr]
      exact List.prefix_append ..
    · exact iff_of_false hne (by omega)
    · intro longer hp hlonger
      rcases List.prefix_or_prefix_of_prefix hp (harr ▸ List.prefix_append passed _) with hp' | hp'
      · exact hp'
      · -- one frame more would be too much
        obtain ⟨more, rfl⟩ := hp'
        rw [harr] at hp
        cases more with
        | nil => simp
        | cons event more =>
          obtain ⟨rfl, -⟩ := List.cons_prefix_cons.mp ((List.prefix_append_right_inj passed).mp hp)
          rw [total_append, total_cons, Event.size] at hlonger
          omega
    · exact ⟨outer, max, inner, _, hl, by omega, hstop, findWithin_iterate adapter max (outer.length + 1) 32⟩

/-! The chain up to the reader. -/

theorem limits_around (limits : List U64) (events : List Event) (inside : List U64) :
    limits.foldl (fun body max => .limited body max 0 false) (stacked 0 events inside) = stacked 0 events (limits.reverse ++ inside) := by
  induction limits generalizing inside with
  | nil => rfl
  | cons max limits ih =>
    rw [List.foldl_cons, List.reverse_cons, List.append_assoc]
    exact ih (max :: inside)

section Handler

variable {x : Exchange} {max : U64}

theorem handle_pass (h : (declaredLength x.headers).filter (max.val < ·) = none) : BodyLimitHandler.handle x max =
    .ok ({ x with installed := RequestBodyLimit.install x.installed max }.limited max) := by
  unfold BodyLimitHandler.handle
  dsimp only
  rw [h]

theorem handle_refuse {declared : Nat} (h : (declaredLength x.headers).filter (max.val < ·) = some declared) : BodyLimitHandler.handle x max =
    .error ({ x with installed := RequestBodyLimit.install x.installed max }.tooLarge declared max) := by
  unfold BodyLimitHandler.handle
  dsimp only
  rw [h]

/-- The listener's limit is one more handler, whose refusals are counted. -/
theorem guard_eq (x : Exchange) (max : U64) : Dispatcher.guard max x =
    (BodyLimitHandler.handle x max).mapError fun y => { y with unmatchedRequests := y.unmatchedRequests + 1 } := by
  unfold Dispatcher.guard limit
  dsimp only
  rcases hf : (declaredLength x.headers).filter (max.val < ·) with _ | declared
  · rw [handle_pass hf]
    rfl
  · rw [handle_refuse hf]
    rfl

end Handler

theorem installed_foldl (limits : List U64) (max : U64) :
    limits.foldl RequestBodyLimit.install (some max) = some (limits.foldl min max) := by
  induction limits generalizing max with
  | nil => rfl
  | cons limit limits ih => exact ih (min max limit)

/-- Where no limit is below the declared length, every handler lets the request on. -/
theorem handlers_pass {limits : List U64} {x : Exchange}
    (h : ∀ max ∈ limits, ∀ declared, declaredLength x.headers = some declared → declared ≤ max.val) :
    limits.foldlM BodyLimitHandler.handle x = .ok { x with
      installed := limits.foldl RequestBodyLimit.install x.installed
      body := limits.foldl (fun body max => .limited body max 0 false) x.body } := by
  induction limits generalizing x with
  | nil => rfl
  | cons max limits ih =>
    have hpass : (declaredLength x.headers).filter (max.val < ·) = none := by
      rw [Option.filter_eq_none_iff]
      intro declared hd
      simpa using h max List.mem_cons_self declared hd
    rw [List.foldlM_cons, handle_pass hpass]
    exact ih fun max' hm => h max' (List.mem_cons_of_mem _ hm)

/-- The first limit below the declared length answers, and nothing was read. -/
theorem handlers_refuse {limits : List U64} {x : Exchange} {declared : Nat} (hd : declaredLength x.headers = some declared)
    (h : ∃ max ∈ limits, max.val < declared) : ∃ y max, limits.foldlM BodyLimitHandler.handle x = .error y ∧ max ∈ limits ∧
      max.val < declared ∧ y.answer = (x.tooLarge declared max).answer ∧ y.body.unread = x.body.unread := by
  induction limits generalizing x with
  | nil => simp at h
  | cons max limits ih =>
    rw [List.foldlM_cons]
    by_cases hlt : max.val < declared
    · rw [handle_refuse (by rw [hd, Option.filter_some, if_pos (by simpa using hlt)])]
      exact ⟨_, max, rfl, List.mem_cons_self, hlt, rfl, rfl⟩
    · rw [handle_pass (by rw [hd, Option.filter_some, if_neg (by simpa using hlt)])]
      obtain ⟨max', hm, hover⟩ := h
      have hm' : max' ∈ limits := (List.mem_cons.mp hm).resolve_left fun he => hlt (he ▸ hover)
      obtain ⟨y, max'', hy, hmem, hrest⟩ := @ih ({ x with installed := RequestBodyLimit.install x.installed max }.limited max) hd ⟨max', hm', hover⟩
      exact ⟨y, max'', hy, List.mem_cons_of_mem _ hmem, hrest⟩

theorem le_foldl_min (limits : List U64) (maxBody : U64) (n : Nat) :
    (∀ max ∈ limits.reverse ++ [maxBody], n ≤ max.val) ↔ n ≤ (limits.foldl min maxBody).val := by
  induction limits generalizing maxBody with
  | nil => simp
  | cons max limits ih =>
    rw [List.foldl_cons, ← ih]
    have hmin : n ≤ (min maxBody max).val ↔ n ≤ max.val ∧ n ≤ maxBody.val := by
      rcases le_total maxBody max with h | h
      · rw [min_eq_left h]
        exact ⟨fun hn => ⟨hn.trans h, hn⟩, And.right⟩
      · rw [min_eq_right h]
        exact ⟨fun hn => ⟨hn, hn.trans h⟩, And.left⟩
    simp only [List.reverse_cons, List.append_assoc, List.mem_append, List.mem_reverse, List.mem_singleton, or_imp, forall_and, forall_eq, hmin]

/-- A request whose body says what it will be. -/
def received (headers : HeaderMap) (events : List Event) : Exchange := ⟨headers, .received events, none, false, none, 0⟩

/-- Through the listener's limit and any `body-limit`s, a request meets the tightest of them. -/
theorem limits_compose (adapter : Adapter) (maxBody : U64) (limits : List U64) (headers : HeaderMap) (events : List Event) :
    (∀ declared, declaredLength headers = some declared → (limits.foldl min maxBody).val < declared →
      ∃ y max, handle maxBody limits (received headers events) = .error y ∧ max ∈ maxBody :: limits ∧ max.val < declared ∧
        y.answer = ((received headers events).tooLarge declared max).answer ∧ y.body.unread = events) ∧
    ((∀ declared, declaredLength headers = some declared → declared ≤ (limits.foldl min maxBody).val) →
      ∃ y passed stop, handle maxBody limits (received headers events) = .ok y ∧ y.installed = some (limits.foldl min maxBody) ∧
        y.answer = none ∧ Composed adapter (limits.reverse ++ [maxBody]) (limits.foldl min maxBody) events y.body passed stop) := by
  have htight := le_foldl_min limits maxBody
  constructor
  · intro declared hd hlt
    have hover : ∃ max ∈ limits.reverse ++ [maxBody], max.val < declared := by
      by_contra hnone
      simp only [not_exists, not_and, not_lt] at hnone
      exact absurd hlt (not_lt.mpr ((htight declared).mp hnone))
    unfold handle
    rw [guard_eq]
    by_cases hfirst : maxBody.val < declared
    · rw [@handle_refuse _ _ declared (by simp [received, hd, hfirst])]
      exact ⟨_, maxBody, rfl, List.mem_cons_self, hfirst, rfl, rfl⟩
    · rw [handle_pass (by simpa [received, hd] using hfirst)]
      obtain ⟨max, hm, hmax⟩ := hover
      have hm' : max ∈ limits := by
        rcases List.mem_append.mp hm with hm | hm
        · exact List.mem_reverse.mp hm
        · exact absurd (List.mem_singleton.mp hm ▸ hmax) hfirst
      obtain ⟨y, max', hy, hmem, hrest⟩ := @handlers_refuse limits
        ({ received headers events with installed := RequestBodyLimit.install none maxBody }.limited maxBody) declared hd ⟨max, hm', hmax⟩
      exact ⟨y, max', hy, List.mem_cons_of_mem _ hmem, hrest⟩
  · intro h
    have hall : ∀ max ∈ limits.reverse ++ [maxBody], ∀ declared, declaredLength headers = some declared → declared ≤ max.val :=
      fun max hm declared hd => (htight declared).mpr (h declared hd) max hm
    obtain ⟨passed, stop, hc⟩ := composed adapter (by simp) htight events
    refine ⟨{ received headers events with
      installed := some (limits.foldl min maxBody)
      body := stacked 0 events (limits.reverse ++ [maxBody]) }, passed, stop, ?_, rfl, rfl, hc⟩
    have hfirst : (declaredLength headers).filter (maxBody.val < ·) = none := by
      rw [Option.filter_eq_none_iff]
      intro declared hd
      simpa using hall maxBody (by simp) declared hd
    unfold handle
    rw [guard_eq, handle_pass hfirst]
    refine (handlers_pass fun max hm => hall max (by simp [hm])).trans ?_
    have hbody := limits_around limits events [maxBody]
    have hinstalled : limits.foldl RequestBodyLimit.install (RequestBodyLimit.install none maxBody) = some (limits.foldl min maxBody) :=
      installed_foldl limits maxBody
    simp only [stacked] at hbody
    simp only [received, Exchange.limited, hinstalled, hbody]

/-- One limit too many stands around the error of the listener's own, and its type is not found any more. -/
theorem limits_hide : ¬ ∀ (adapter : Adapter) (maxBody : U64) (limits : List U64) (events : List Event) (y : Exchange) (n : Nat) (error : Failure),
    handle maxBody limits (received [] events) = .ok y → events.findSome? Event.error = none →
      .failed error ∈ (y.body.polls adapter n).1 → ∃ max ∈ maxBody :: limits, BodyTooLarge.find error = some max := by
  intro h
  obtain ⟨max, -, hfind⟩ := h .io 1 (List.replicate 31 2) [.frame (.data [0, 0])] _ 1 _ rfl rfl (List.mem_singleton_self _)
  have hnone : BodyTooLarge.find (Adapter.io.wrap^[32] (.bodyTooLarge 1)) = none := findWithin_iterate .io 1 32 32
  exact nomatch hnone.symm.trans hfind

end Gatel.BodyLimit
