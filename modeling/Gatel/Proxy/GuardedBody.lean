import Gatel.Proxy.Outbound
import Gatel.State.EndpointPool

namespace Gatel.Proxy
open State (EndpointPool Progress Holder)

/-! The way of an HTTP/1 connection from a finished `send` back to its pool. -/

/-- `Exclusive`: a checked-out connection. -/
structure Lease where
  ticket : Nat
  address : Option SocketAddr
  opened : Instant
  reusable : Bool
  deriving DecidableEq

namespace Lease

def new (ticket : Nat) (address : Option SocketAddr) (opened : Instant) : Lease := ⟨ticket, address, opened, true⟩

def poison (lease : Lease) : Lease := { lease with reusable := false }

/-- `Drop for Exclusive`; `closed` is what hyper's `is_closed` says at that moment. -/
def drop (lease : Lease) (pool : EndpointPool) (closed : Bool) (now : Instant) : EndpointPool :=
  let expired := pool.config.maxLifetime.val ≤ now - lease.opened
  pool.giveBack lease.ticket lease.address (lease.reusable && !closed && !expired)

end Lease

inductive BodyError where
  | upstream (error : String)
  | stalled (gap : Duration)
  deriving DecidableEq

/-- A response body that holds the lease and gives up on a backend that stops sending. -/
structure GuardedBody where
  inner : Body
  /-- When the sleep fires. -/
  idle : Instant
  gap : Duration
  lease : Lease
  deriving DecidableEq

namespace GuardedBody

def pollFrame (b : GuardedBody) (ready : Bool) (now : Instant) : Polled BodyError × GuardedBody :=
  match b.inner.poll ready with
  | (.frame f, inner) => (.frame f, { b with inner := inner, idle := now + b.gap.val })
  | (.failed error, inner) => (.failed (.upstream error), { b with inner := inner, idle := now + b.gap.val })
  | (.ended, inner) => (.ended, { b with inner := inner })
  | (.pending, inner) =>
    -- The response head is already on its way: all that is left is to stop.
    if b.idle ≤ now then (.failed (.stalled b.gap), { b with inner := inner })
    else (.pending, { b with inner := inner })

/-- The consumer's polls: whether a frame had arrived, and when. -/
def run (b : GuardedBody) (polls : List (Bool × Instant)) : GuardedBody :=
  polls.foldl (fun b p => (b.pollFrame p.1 p.2).2) b

theorem pollFrame_snd (b : GuardedBody) (ready : Bool) (now : Instant) :
    (b.pollFrame ready now).2.inner = (b.inner.poll ready).2 ∧ (b.pollFrame ready now).2.lease = b.lease := by
  unfold pollFrame
  split
  · rename_i heq
    exact ⟨by rw [heq], rfl⟩
  · rename_i heq
    exact ⟨by rw [heq], rfl⟩
  · rename_i heq
    exact ⟨by rw [heq], rfl⟩
  · rename_i heq
    split
    · exact ⟨by rw [heq], rfl⟩
    · exact ⟨by rw [heq], rfl⟩

/-- No poll touches the lease, whatever it was answered. -/
theorem run_lease (b : GuardedBody) (polls : List (Bool × Instant)) : (b.run polls).lease = b.lease := by
  induction polls generalizing b with
  | nil => rfl
  | cons p polls ih => exact (ih _).trans (pollFrame_snd b p.1 p.2).2

/-- The inner body only sees how many of the polls found something. -/
theorem run_inner (b : GuardedBody) (polls : List (Bool × Instant)) :
    (b.run polls).inner = (polls.map Prod.fst).foldl (fun body ready => (body.poll ready).2) b.inner := by
  induction polls generalizing b with
  | nil => rfl
  | cons p polls ih =>
    simp only [List.map_cons, List.foldl_cons, ← (pollFrame_snd b p.1 p.2).1]
    exact ih _

end GuardedBody

/-- How the wait for the response head ends. -/
inductive Sent where
  | answered (status : UInt16) (frames : List Frame) (fate : BodyFate) (sized : Bool)
  | failed
  | timedOut
  /-- The caller went away meanwhile. -/
  | abandoned
  deriving DecidableEq

/-- Who holds the lease once the wait is over. -/
inductive Exchange where
  | attempting (lease : Lease)
  | streaming (b : GuardedBody)
  deriving DecidableEq

namespace Exchange

/-- What `proxy` does with the lease after `send`. -/
def afterSend (lease : Lease) (upgrade : Bool) (gap : Duration) (now : Instant) : Sent → Exchange
  | .abandoned => .attempting lease
  | .failed | .timedOut => .attempting lease.poison
  | .answered status frames fate sized =>
    if status = 101 ∧ upgrade = true then .attempting lease.poison
    else .streaming ⟨.new frames fate sized, now + gap.val, gap, lease⟩

def run (x : Exchange) (polls : List (Bool × Instant)) : Exchange :=
  match x with
  | .attempting lease => .attempting lease
  | .streaming b => .streaming (b.run polls)

def drop (x : Exchange) (pool : EndpointPool) (closed : Bool) (now : Instant) : EndpointPool :=
  match x with
  | .attempting lease => lease.drop pool closed now
  | .streaming b => b.lease.drop pool closed now

/-- The response came in to its end. -/
def Finished : Exchange → Prop
  | .attempting _ => False
  | .streaming b => b.inner.Finished

instance : (x : Exchange) → Decidable x.Finished
  | .attempting _ => inferInstanceAs (Decidable False)
  | .streaming b => inferInstanceAs (Decidable b.inner.Finished)

end Exchange

/-- The polls that found something reach the end of the body: its frames, and one poll more
unless its length is known. -/
def Sent.ReadOut (polls : List (Bool × Instant)) : Sent → Prop
  | .answered _ frames fate sized =>
    fate = .finished ∧ frames.length < polls.countP Prod.fst + sized.toNat
  | .failed | .timedOut | .abandoned => False

/-- The outcomes after which `proxy` gives the connection up. -/
def Sent.Poisons (upgrade : Bool) : Sent → Prop
  | .answered status _ _ _ => status = 101 ∧ upgrade = true
  | .failed | .timedOut => True
  | .abandoned => False

/-- What keeps a pool from parking any connection to this address. -/
def Refuses (pool : EndpointPool) (address : Option SocketAddr) : Prop :=
  pool.config.idleTimeout.val = 0 ∨ pool.config.maxPerEndpoint.val < pool.admission.allocated ∨
    (∃ a ∈ address, ∃ addresses ∈ pool.live, a ∉ addresses) ∨ pool.admission.permits.closed = true ∨
    pool.config.maxIdlePerEndpoint.val ≤ pool.idle.length

theorem parks_iff (pool : EndpointPool) (address : Option SocketAddr) (fit : Bool) :
    pool.parks address fit = true ↔ fit = true ∧ ¬ Refuses pool address := by
  have haddress : (address.all fun a => pool.live.all fun addresses => decide (a ∈ addresses)) = true ↔
      ¬ ∃ a ∈ address, ∃ addresses ∈ pool.live, a ∉ addresses := by
    cases address with
    | none => simp
    | some a => cases pool.live <;> simp
  simp only [EndpointPool.parks, Refuses, Bool.and_eq_true, haddress, Bool.not_eq_true', beq_eq_false_iff_ne,
    decide_eq_true_eq, ne_eq, not_or, Bool.not_eq_true, Nat.not_lt, Nat.not_le]
  tauto

theorem giveBack_idle_iff {pool : EndpointPool} {t : Nat} {address : Option SocketAddr}
    (held : ⟨t, .leased address⟩ ∈ pool.holders) (fit : Bool) :
    (pool.giveBack t address fit).idle = pool.idle ↔ fit = false ∨ Refuses pool address := by
  have hp := parks_iff pool address fit
  unfold EndpointPool.giveBack
  rw [if_pos held]
  split
  · rename_i hparks
    obtain ⟨hfit, hno⟩ := hp.mp hparks
    constructor
    · intro hidle
      simp [EndpointPool.advance] at hidle
    · rintro (hf | hr)
      · rw [hfit] at hf
        cases hf
      · exact absurd hr hno
  · rename_i hparks
    refine iff_of_true rfl ?_
    by_contra hcon
    obtain ⟨hfit, hno⟩ := not_or.mp hcon
    exact hparks (hp.mpr ⟨by simpa using hfit, hno⟩)

theorem drop_idle_iff {pool : EndpointPool} (lease : Lease) (held : ⟨lease.ticket, .leased lease.address⟩ ∈ pool.holders)
    (closed : Bool) (now : Instant) :
    (lease.drop pool closed now).idle = pool.idle ↔
      lease.reusable = false ∨ closed = true ∨ pool.config.maxLifetime.val ≤ now - lease.opened ∨
        Refuses pool lease.address := by
  rw [Lease.drop, giveBack_idle_iff held]
  simp only [Bool.and_eq_false_iff, Bool.not_eq_false', decide_eq_true_eq, or_assoc]

namespace Exchange

theorem run_finished_iff (lease : Lease) (upgrade : Bool) (gap : Duration) (start : Instant) (sent : Sent)
    (polls : List (Bool × Instant)) (hp : ¬ sent.Poisons upgrade) :
    ((afterSend lease upgrade gap start sent).run polls).Finished ↔ sent.ReadOut polls := by
  cases sent with
  | answered status frames fate sized =>
    have hcount : (polls.map Prod.fst).count true = polls.countP Prod.fst := by
      rw [List.count, List.countP_map]
      exact List.countP_congr fun p _ => by simp
    change ¬ (status = 101 ∧ upgrade = true) at hp
    rw [afterSend, if_neg hp, run, Finished, GuardedBody.run_inner, Body.polls_finished_iff, hcount]
    rfl
  | failed => exact absurd trivial hp
  | timedOut => exact absurd trivial hp
  | abandoned => rfl

/-- Only the outcomes that give the connection up ever mark its lease. -/
theorem run_drop (lease : Lease) (upgrade : Bool) (gap : Duration) (start : Instant) (sent : Sent)
    (polls : List (Bool × Instant)) (pool : EndpointPool) (closed : Bool) (now : Instant) :
    (sent.Poisons upgrade →
      ((afterSend lease upgrade gap start sent).run polls).drop pool closed now = lease.poison.drop pool closed now) ∧
    (¬ sent.Poisons upgrade →
      ((afterSend lease upgrade gap start sent).run polls).drop pool closed now = lease.drop pool closed now) := by
  cases sent with
  | answered status frames fate sized =>
    constructor
    · intro hp
      change status = 101 ∧ upgrade = true at hp
      rw [afterSend, if_pos hp]
      rfl
    · intro hp
      change ¬ (status = 101 ∧ upgrade = true) at hp
      rw [afterSend, if_neg hp, run, drop, GuardedBody.run_lease]
  | failed => exact ⟨fun _ => rfl, fun hp => absurd trivial hp⟩
  | timedOut => exact ⟨fun _ => rfl, fun hp => absurd trivial hp⟩
  | abandoned => exact ⟨fun hp => hp.elim, fun _ => rfl⟩

/-- A connection whose response is not finished stays out of the idle queue exactly when its
drop is refused for another reason: nothing that happens to the body marks the lease. -/
theorem unfinished_kept_out_iff (pool : EndpointPool) {t : Nat} {address : Option SocketAddr}
    (held : ⟨t, .leased address⟩ ∈ pool.holders) (opened : Instant) (upgrade : Bool) (gap : Duration)
    (start : Instant) (sent : Sent) (polls : List (Bool × Instant)) (closed : Bool) (now : Instant) :
    (¬ ((afterSend (.new t address opened) upgrade gap start sent).run polls).Finished →
        (((afterSend (.new t address opened) upgrade gap start sent).run polls).drop pool closed now).idle = pool.idle) ↔
      sent.ReadOut polls ∨ sent.Poisons upgrade ∨ closed = true ∨ pool.config.maxLifetime.val ≤ now - opened ∨
        Refuses pool address := by
  obtain ⟨hgiven, hkept⟩ := run_drop (.new t address opened) upgrade gap start sent polls pool closed now
  by_cases hp : sent.Poisons upgrade
  · rw [hgiven hp]
    refine iff_of_true ?_ (Or.inr (Or.inl hp))
    intro _
    exact (drop_idle_iff (Lease.new t address opened).poison held closed now).mpr (Or.inl rfl)
  · rw [hkept hp, run_finished_iff _ _ _ _ _ _ hp, drop_idle_iff (Lease.new t address opened) held closed now]
    simp only [Lease.new, Bool.true_eq_false, false_or, hp]
    exact or_iff_not_imp_left.symm

/-- A pool whose only connection is out with request 0. -/
def onlyLease : EndpointPool :=
  ((EndpointPool.new Pool.default false).run [.checkout 0, .decide 0, .pop 0 true, .dialled 0 none]).getD
    (.new Pool.default false)

/-- Ten bytes were announced and five read when the client went away; hyper has not seen the
connection close yet. It is parked, and the next checkout gets it. -/
theorem half_read_parked :
    ¬ ((afterSend (.new 0 none 0) false (.fromSecs 60) 0
        (.answered 200 [.data [1, 2, 3, 4, 5], .data [6, 7, 8, 9, 10]] .finished true)).run [(true, 1)]).Finished ∧
      ((((afterSend (.new 0 none 0) false (.fromSecs 60) 0
        (.answered 200 [.data [1, 2, 3, 4, 5], .data [6, 7, 8, 9, 10]] .finished true)).run [(true, 1)]).drop
          onlyLease false 2).run [.release 0, .checkout 1, .decide 1, .pop 1 true]).map (fun pool => pool.reused) =
        some 1 := by
  decide

theorem unfinished_kept_out_closed :
    ¬ ((afterSend (.new 0 none 0) false (.fromSecs 60) 0
        (.answered 200 [.data [1, 2, 3]] (.failed "reset") true)).run [(true, 1)]).Finished ∧
      (((afterSend (.new 0 none 0) false (.fromSecs 60) 0
        (.answered 200 [.data [1, 2, 3]] (.failed "reset") true)).run [(true, 1)]).drop
          onlyLease true 3).idle = onlyLease.idle := by
  have hopen : ¬ ((afterSend (.new 0 none 0) false (.fromSecs 60) 0
      (.answered 200 [.data [1, 2, 3]] (.failed "reset") true)).run [(true, 1)]).Finished := by
    decide
  refine ⟨hopen, ?_⟩
  exact (unfinished_kept_out_iff onlyLease (by decide) 0 false (.fromSecs 60) 0
    (.answered 200 [.data [1, 2, 3]] (.failed "reset") true) [(true, 1)] true 3).mpr
    (Or.inr (Or.inr (Or.inl rfl))) hopen

end Exchange

end Gatel.Proxy
