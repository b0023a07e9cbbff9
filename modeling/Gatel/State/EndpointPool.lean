import Gatel.Plan.Upstream
import Gatel.State.Admission

namespace Gatel.State

/-! One endpoint's HTTP/1 connections. A step is what one task does under one lock. -/

/-- A parked connection. Whether it is still usable is observed when it is looked at. -/
structure Idle where
  serial : Nat
  /-- Which address it reached; a Unix socket has none. -/
  address : Option SocketAddr
  deriving DecidableEq

/-- What the owner of a permit is doing. -/
inductive Progress where
  | searching
  | dialling
  | leased (address : Option SocketAddr)
  /-- The connection is parked or closed, the permit is not returned yet. -/
  | returning
  deriving DecidableEq

namespace Progress

def connected : Progress → Bool
  | .dialling | .leased _ => true
  | .searching | .returning => false

end Progress

structure Holder where
  ticket : Nat
  stage : Progress
  deriving DecidableEq

/-- Who holds the pool's own lock, and how far it is with this endpoint. -/
inductive Busy where
  | free
  | resized
  | measured (keep : Nat)
  | retiring (keep : List SocketAddr)
  | draining
  deriving DecidableEq

namespace Busy

/-- `adopt` keeps the admission's lock until it has trimmed the idle queue. -/
def locksPolicy : Busy → Bool
  | .resized | .measured _ => true
  | .free | .retiring _ | .draining => false

end Busy

inductive CheckoutError where
  | draining
  | queueFull (waiting : Nat) (limit : U32)
  deriving DecidableEq

/-- What became of an entry taken from the idle queue. -/
inductive Verdict where
  | leased
  | discarded
  deriving DecidableEq

structure EndpointPool where
  admission : Admission Nat
  config : Pool
  idle : List Idle
  /-- The addresses this endpoint currently has, or none before any update. -/
  live : Option (List SocketAddr)
  draining : Bool
  waiting : List Nat
  holders : List Holder
  busy : Busy
  opened : Nat
  reused : Nat
  discarded : Nat
  /-- Kept for the statements only: entries parked so far, entries taken out by a checkout
  and entries dropped by a reload or a resolver. -/
  parked : Nat
  popped : List (Nat × Verdict)
  trimmed : Nat
  deriving DecidableEq

namespace EndpointPool

def new (config : Pool) (draining : Bool) : EndpointPool where
  admission := .new config.maxPerEndpoint draining
  config := config
  idle := []
  live := none
  draining := draining
  waiting := []
  holders := []
  busy := .free
  opened := 0
  reused := 0
  discarded := 0
  parked := 0
  popped := []
  trimmed := 0

/-- The beginning of `checkout`, up to the wait for a permit. -/
def checkout (s : EndpointPool) (t : Nat) : Except CheckoutError EndpointPool :=
  if s.draining then .error .draining
  else if s.config.maxWaiters.val < s.waiting.length + 1 then
    .error (.queueFull (s.waiting.length + 1) s.config.maxWaiters)
  else .ok { s with admission := s.admission.request t, waiting := s.waiting ++ [t] }

/-- The wait ends without a permit: the queue timeout, a closed admission or a caller that
went away. A request that already left the queue goes on. -/
def giveUp (s : EndpointPool) (t : Nat) : EndpointPool :=
  if t ∈ s.admission.taken then s
  else { s with admission.permits := s.admission.permits.cancel t, waiting := s.waiting.erase t }

def decide (s : EndpointPool) (t : Nat) : Option EndpointPool := do
  let admission ← s.admission.decide t
  if t ∈ s.admission.taken ∧ s.admission.allocated ≤ s.admission.wanted then
    return { s with
      admission := admission, waiting := s.waiting.erase t, holders := s.holders ++ [⟨t, .searching⟩] }
  else return { s with admission := admission }

/-- A permit's owner moves on. -/
def advance (s : EndpointPool) (t : Nat) (before after : Progress) : EndpointPool :=
  { s with holders := s.holders.erase ⟨t, before⟩ ++ [⟨t, after⟩] }

/-- One turn of the loop in `checkout` over idle connections. -/
def pop (s : EndpointPool) (t : Nat) (usable : Bool) : EndpointPool :=
  if ⟨t, .searching⟩ ∈ s.holders then
    match s.idle with
    | [] => s.advance t .searching .dialling
    | entry :: rest =>
      if usable then
        { s with
          idle := rest
          reused := s.reused + 1
          popped := s.popped ++ [(entry.serial, Verdict.leased)] }.advance t .searching (.leased entry.address)
      else
        { s with
          idle := rest
          discarded := s.discarded + 1
          popped := s.popped ++ [(entry.serial, Verdict.discarded)] }
  else s

def dialled (s : EndpointPool) (t : Nat) (address : Option SocketAddr) : EndpointPool :=
  if ⟨t, .dialling⟩ ∈ s.holders then { s with opened := s.opened + 1 }.advance t .dialling (.leased address) else s

def dialFailed (s : EndpointPool) (t : Nat) : EndpointPool :=
  if ⟨t, .dialling⟩ ∈ s.holders then s.advance t .dialling .returning else s

/-- Whether a returned connection may be parked; `fit` is that it is reusable, open and
within its lifetime. -/
def parks (s : EndpointPool) (address : Option SocketAddr) (fit : Bool) : Bool :=
  fit && !(s.config.idleTimeout.val == 0) && s.admission.allocated ≤ s.config.maxPerEndpoint.val &&
    (address.all fun a => s.live.all fun addresses => a ∈ addresses) && !s.admission.permits.closed &&
    s.idle.length < s.config.maxIdlePerEndpoint.val

/-- `Drop for Exclusive`: the permit is released after the connection is parked. -/
def giveBack (s : EndpointPool) (t : Nat) (address : Option SocketAddr) (fit : Bool) : EndpointPool :=
  if ⟨t, .leased address⟩ ∈ s.holders then
    if s.parks address fit then
      { s with idle := s.idle ++ [Idle.mk s.parked address], parked := s.parked + 1 }.advance t (.leased address) .returning
    else s.advance t (.leased address) .returning
  else s

/-- `Drop for Permit`. -/
def release (s : EndpointPool) (t : Nat) : Option EndpointPool :=
  if ⟨t, .returning⟩ ∈ s.holders then do
    let admission ← s.admission.drop t
    return { s with admission := admission, holders := s.holders.erase ⟨t, .returning⟩ }
  else some s

/-- `adopt`, first under the admission's lock. -/
def adopt (s : EndpointPool) (config : Pool) : Option EndpointPool := do
  let admission ← s.admission.resize config.maxPerEndpoint
  return { s with admission := admission, config := config, busy := .resized }

/-- How many parked connections `adopt` keeps beside the active ones. -/
def measure (s : EndpointPool) : EndpointPool :=
  let active := s.admission.allocated - s.admission.permits.available
  let keep := min s.config.maxIdlePerEndpoint.val (s.config.maxPerEndpoint.val - active)
  { s with busy := .measured keep }

def trim (s : EndpointPool) (keep : Nat) (usable : Idle → Bool) : EndpointPool :=
  let idle := (s.idle.filter usable).take keep
  let dropped := s.idle.length - idle.length
  { s with idle := idle, discarded := s.discarded + dropped, trimmed := s.trimmed + dropped, busy := .free }

/-- `retire`, first the addresses and then the queue. -/
def retire (s : EndpointPool) (keep : List SocketAddr) : EndpointPool := { s with live := some keep, busy := .retiring keep }

def retireIdle (s : EndpointPool) (keep : List SocketAddr) : EndpointPool :=
  let idle := s.idle.filter fun e => e.address.all fun a => a ∈ keep
  let dropped := s.idle.length - idle.length
  { s with idle := idle, discarded := s.discarded + dropped, trimmed := s.trimmed + dropped, busy := .free }

/-- `drain`, first the admission and then the queue. -/
def drain (s : EndpointPool) : EndpointPool :=
  { s with draining := true, admission.permits := s.admission.permits.close, busy := .draining }

def drainIdle (s : EndpointPool) : EndpointPool := { s with idle := [], busy := .free }

inductive Event where
  | checkout (t : Nat)
  | poll (t : Nat)
  | decide (t : Nat)
  | giveUp (t : Nat)
  | pop (t : Nat) (usable : Bool)
  | dialled (t : Nat) (address : Option SocketAddr)
  | dialFailed (t : Nat)
  | giveBack (t : Nat) (address : Option SocketAddr) (fit : Bool)
  | release (t : Nat)
  | adopt (config : Pool)
  | measure
  | trim (usable : Idle → Bool)
  | retire (keep : List SocketAddr)
  | retireIdle
  | drain
  | drainIdle

/-- What one task does next; a task that needs a lock someone holds waits. -/
@[grind =] def step (s : EndpointPool) : Event → Option EndpointPool
  | .checkout t => some (if s.busy = .free then ((s.checkout t).toOption.getD s) else s)
  | .poll t => some { s with admission := s.admission.poll t }
  | .decide t => if s.busy.locksPolicy then some s else s.decide t
  | .giveUp t => some (s.giveUp t)
  | .pop t usable => some (s.pop t usable)
  | .dialled t address => some (s.dialled t address)
  | .dialFailed t => some (s.dialFailed t)
  | .giveBack t address fit => some (if s.busy.locksPolicy then s else s.giveBack t address fit)
  | .release t => if s.busy.locksPolicy then some s else s.release t
  | .adopt config => if s.busy = .free then s.adopt config else some s
  | .measure => some (if s.busy = .resized then s.measure else s)
  | .trim usable => match s.busy with
    | .measured keep => some (s.trim keep usable)
    | _ => some s
  | .retire keep => some (if s.busy = .free then s.retire keep else s)
  | .retireIdle => match s.busy with
    | .retiring keep => some (s.retireIdle keep)
    | _ => some s
  | .drain => some (if s.busy = .free then s.drain else s)
  | .drainIdle => some (if s.busy = .draining then s.drainIdle else s)

def run (s : EndpointPool) (events : List Event) : Option EndpointPool := events.foldlM step s

/-- Permit owners with a connection or on the way to one. -/
def connected (s : EndpointPool) : Nat := s.holders.countP fun h => h.stage.connected

/-- Leased, dialling and parked connections. -/
def sockets (s : EndpointPool) : Nat := s.connected + s.idle.length

/-! What the steps keep. -/

/-- An address the endpoint still has; a Unix socket always is. -/
def Within (live : Option (List SocketAddr)) (address : Option SocketAddr) : Prop :=
  ∀ a ∈ address, ∀ addresses ∈ live, a ∈ addresses

structure Inv (s : EndpointPool) : Prop where
  admission : s.admission.Inv
  target : s.admission.wanted = s.config.maxPerEndpoint.val
  held : s.admission.approved.Perm (s.holders.map Holder.ticket)
  /-- Parked connections never add to an excess. -/
  room : s.busy.locksPolicy = false → s.idle = [] ∨ s.sockets ≤ s.admission.wanted
  kept : ∀ keep, s.busy = .measured keep →
    keep ≤ s.config.maxIdlePerEndpoint.val ∧ (keep = 0 ∨ keep + s.admission.approved.length ≤ s.admission.wanted)
  capped : s.busy.locksPolicy = false → s.idle.length ≤ s.config.maxIdlePerEndpoint.val
  retiring : ∀ keep, s.busy = .retiring keep → s.live = some keep
  within : (∀ keep, s.busy ≠ .retiring keep) → ∀ e ∈ s.idle, Within s.live e.address
  closed : s.draining = true → s.admission.permits.closed = true
  drained : s.draining = true → s.busy ≠ .draining → s.idle = []
  flagged : s.busy = .draining → s.draining = true
  serials : (s.idle.map Idle.serial ++ s.popped.map Prod.fst).Nodup
  numbered : ∀ n ∈ s.idle.map Idle.serial ++ s.popped.map Prod.fst, n < s.parked
  leased : s.reused = s.popped.countP fun x => x.2 = .leased
  dropped : s.discarded = s.popped.countP (fun x => x.2 = .discarded) + s.trimmed

theorem inv_new (config : Pool) (draining : Bool) : (new config draining).Inv where
  admission := Admission.inv_new _ _
  target := rfl
  held := .nil
  room _ := Or.inl rfl
  kept _ h := by cases h
  capped _ := Nat.zero_le _
  retiring _ h := by cases h
  within _ _ h := by cases h
  closed h := by
    have hd : draining = true := h
    subst hd
    rfl
  drained _ _ := rfl
  flagged h := by cases h
  serials := List.nodup_nil
  numbered _ h := by cases h
  leased := rfl
  dropped := rfl

/-- An owner that moves on keeps its permit. -/
theorem advance_held (s : EndpointPool) {t : Nat} {before : Progress} (h : ⟨t, before⟩ ∈ s.holders) (after : Progress) :
    (s.holders.map Holder.ticket).Perm ((s.advance t before after).holders.map Holder.ticket) := by
  have hp : s.holders.Perm (⟨t, before⟩ :: s.holders.erase ⟨t, before⟩) := List.perm_cons_erase h
  refine (hp.map Holder.ticket).trans ?_
  simp only [advance, List.map_append, List.map_cons, List.map_nil]
  exact (List.perm_append_singleton _ _).symm

theorem advance_connected (s : EndpointPool) {t : Nat} {before : Progress} (h : ⟨t, before⟩ ∈ s.holders)
    (after : Progress) :
    (s.advance t before after).connected + before.connected.toNat = s.connected + after.connected.toNat := by
  have hp : s.holders.Perm (⟨t, before⟩ :: s.holders.erase ⟨t, before⟩) := List.perm_cons_erase h
  have hc : s.connected = (s.holders.erase ⟨t, before⟩).countP (fun h => h.stage.connected) + before.connected.toNat := by
    rw [connected, hp.countP_eq, List.countP_cons]
    cases before.connected <;> rfl
  have ha : (s.advance t before after).connected =
      (s.holders.erase ⟨t, before⟩).countP (fun h => h.stage.connected) + after.connected.toNat := by
    simp only [advance, connected, List.countP_append, List.countP_cons, List.countP_nil]
    cases after.connected <;> rfl
  omega

/-- No more owners have a connection than there are owners. -/
theorem Inv.connected_le {s : EndpointPool} (h : s.Inv) : s.connected ≤ s.admission.approved.length := by
  rw [h.held.length_eq, List.length_map]
  exact List.countP_le_length

/-- Owners and permits in existence. -/
theorem Inv.approved_le {s : EndpointPool} (h : s.Inv) : s.admission.approved.length ≤ s.admission.allocated := by
  have hsum := h.admission.sum
  omega

/-- A step at the semaphore, without anything being approved or returned. -/
theorem Inv.admits {s : EndpointPool} (h : s.Inv) {admission : Admission Nat} (hi : admission.Inv)
    (hw : admission.wanted = s.admission.wanted) (ha : admission.approved = s.admission.approved)
    (hc : admission.permits.closed = s.admission.permits.closed) (waiting : List Nat) :
    Inv { s with admission := admission, waiting := waiting } where
  admission := hi
  target := hw.trans h.target
  held := ha ▸ h.held
  room hb := hw ▸ h.room hb
  kept keep hb := by
    have hk := h.kept keep hb
    simp only [hw, ha]
    exact hk
  capped := h.capped
  retiring := h.retiring
  within := h.within
  closed hd := hc.trans (h.closed hd)
  drained := h.drained
  flagged := h.flagged
  serials := h.serials
  numbered := h.numbered
  leased := h.leased
  dropped := h.dropped

theorem release_closed (permits : Semaphore Nat) : permits.release.closed = permits.closed := by
  unfold Semaphore.release
  split <;> rfl

theorem Inv.checkout {s : EndpointPool} (h : s.Inv) (t : Nat) : ((s.checkout t).toOption.getD s).Inv := by
  unfold EndpointPool.checkout
  split
  · exact h
  · split
    · exact h
    · obtain ⟨hi, ha, hw⟩ := Admission.inv_request h.admission t
      refine h.admits hi hw ha ?_ _
      simp only [Admission.request, Semaphore.acquire]
      split
      · rfl
      · split <;> rfl

theorem Inv.poll {s : EndpointPool} (h : s.Inv) (t : Nat) : Inv { s with admission := s.admission.poll t } := by
  refine h.admits (Admission.inv_poll h.admission t) rfl rfl ?_ s.waiting
  simp only [Admission.poll, Semaphore.poll]
  split
  · split
    · exact release_closed _
    · rfl
  · rfl

theorem Inv.giveUp {s : EndpointPool} (h : s.Inv) (t : Nat) : (s.giveUp t).Inv := by
  unfold EndpointPool.giveUp
  split
  · exact h
  · obtain ⟨a, ha, hsteps⟩ := Admission.step_spec h.admission (.cancel t)
    cases ha
    refine h.admits hsteps.inv rfl rfl ?_ _
    simp only [Semaphore.cancel]
    split
    · exact release_closed _
    · rfl

theorem not_measured {b : Busy} (h : b.locksPolicy = false) (keep : Nat) : b ≠ .measured keep := by
  intro he
  rw [he] at h
  cases h

theorem request_closed (a : Admission Nat) (t : Nat) : (a.request t).permits.closed = a.permits.closed := by
  simp only [Admission.request, Semaphore.acquire]
  split
  · rfl
  · split <;> rfl

theorem Inv.decide {s : EndpointPool} (h : s.Inv) (hb : s.busy.locksPolicy = false) (t : Nat) :
    ∃ s', s.decide t = some s' ∧ s'.Inv := by
  obtain ⟨a, ha, hsteps⟩ := Admission.decide_spec h.admission t
  have hw : a.wanted = s.admission.wanted := hsteps.target fun _ he => by cases he
  unfold EndpointPool.decide
  rw [ha]
  dsimp only [Option.bind_eq_bind, Option.bind_some]
  unfold Admission.decide at ha
  split
  · rename_i hc
    rw [if_pos hc.1, if_neg (by omega)] at ha
    cases ha
    refine ⟨_, rfl, ⟨hsteps.inv, h.target, ?_, ?_, ?_, h.capped, h.retiring, h.within, h.closed, h.drained, h.flagged,
      h.serials, h.numbered, h.leased, h.dropped⟩⟩
    · simp only [List.map_append, List.map_cons, List.map_nil]
      exact h.held.append_right [t]
    · intro hbusy
      refine (h.room hbusy).imp id ?_
      simp only [sockets, connected, List.countP_append, List.countP_cons, List.countP_nil]
      exact id
    · intro keep hk
      exact absurd hk (not_measured hb keep)
  · rename_i hc
    split at ha
    · rename_i ht
      split at ha
      · rename_i hdebt
        rw [Admission.checkedSub_of_le (by omega)] at ha
        cases ha
        exact ⟨_, rfl, h.admits hsteps.inv hw rfl (request_closed _ t) s.waiting⟩
      · rename_i hdebt
        exact absurd ⟨ht, by omega⟩ hc
    · cases ha
      exact ⟨_, rfl, h⟩

/-- An owner that moves on without gaining a connection. -/
theorem Inv.advance {s : EndpointPool} (h : s.Inv) {t : Nat} {before after : Progress} (hm : ⟨t, before⟩ ∈ s.holders)
    (hc : after.connected.toNat ≤ before.connected.toNat) : (s.advance t before after).Inv where
  admission := h.admission
  target := h.target
  held := h.held.trans (s.advance_held hm after)
  room hb := by
    have hcount := s.advance_connected hm after
    refine (h.room hb).imp id ?_
    simp only [sockets]
    intro hs
    have hidle : (s.advance t before after).idle = s.idle := rfl
    have hwanted : (s.advance t before after).admission = s.admission := rfl
    rw [hidle, hwanted]
    omega
  kept := h.kept
  capped := h.capped
  retiring := h.retiring
  within := h.within
  closed := h.closed
  drained := h.drained
  flagged := h.flagged
  serials := h.serials
  numbered := h.numbered
  leased := h.leased
  dropped := h.dropped

theorem Inv.dialled {s : EndpointPool} (h : s.Inv) (t : Nat) (address : Option SocketAddr) :
    (s.dialled t address).Inv := by
  unfold EndpointPool.dialled
  split
  · rename_i hm
    have ho : Inv { s with opened := s.opened + 1 } := { h with }
    exact ho.advance hm (le_refl _)
  · exact h

theorem Inv.dialFailed {s : EndpointPool} (h : s.Inv) (t : Nat) : (s.dialFailed t).Inv := by
  unfold EndpointPool.dialFailed
  split
  · rename_i hm
    exact h.advance hm (Nat.zero_le _)
  · exact h

/-- The first idle entry leaves the queue for good, with one verdict. -/
theorem Inv.takeFirst {s : EndpointPool} (h : s.Inv) {entry : Idle} {rest : List Idle} (hi : s.idle = entry :: rest)
    (verdict : Verdict) {reused discarded : Nat}
    (hr : reused = s.reused + if verdict = .leased then 1 else 0)
    (hd : discarded = s.discarded + if verdict = .discarded then 1 else 0)
    {holders : List Holder} (hheld : (s.holders.map Holder.ticket).Perm (holders.map Holder.ticket))
    (hcount : holders.countP (fun h => h.stage.connected) ≤ s.connected + 1) :
    Inv { s with
      idle := rest
      reused := reused
      discarded := discarded
      popped := s.popped ++ [(entry.serial, verdict)]
      holders := holders } where
  admission := h.admission
  target := h.target
  held := h.held.trans hheld
  room hb := by
    obtain hnone | hs := h.room hb
    · rw [hi] at hnone
      cases hnone
    · refine Or.inr ?_
      simp only [sockets, connected, hi, List.length_cons] at hs hcount ⊢
      omega
  kept := h.kept
  capped hb := by
    have hc := h.capped hb
    rw [hi, List.length_cons] at hc
    dsimp only
    omega
  retiring := h.retiring
  within hb e he := h.within hb e (hi ▸ List.mem_cons_of_mem entry he)
  closed := h.closed
  drained hd hb := by
    have hnone := h.drained hd hb
    rw [hi] at hnone
    cases hnone
  flagged := h.flagged
  serials := by
    have hn := h.serials
    rw [hi, List.map_cons, List.cons_append] at hn
    refine (List.Perm.nodup_iff ?_).mp hn
    rw [List.map_append, ← List.append_assoc]
    exact (List.perm_append_singleton _ _).symm
  numbered n hn := by
    refine h.numbered n ?_
    rw [hi]
    simp only [List.map_append, List.map_cons, List.map_nil, List.mem_append, List.mem_cons, List.not_mem_nil,
      or_false] at hn ⊢
    obtain hn | hn | hn := hn
    · exact Or.inl (Or.inr hn)
    · exact Or.inr hn
    · exact Or.inl (Or.inl hn)
  leased := by
    dsimp only
    rw [hr, h.leased, List.countP_append]
    cases verdict <;> rfl
  dropped := by
    dsimp only
    rw [hd, h.dropped, List.countP_append]
    cases verdict
    · rfl
    · simp only [List.countP_cons, List.countP_nil, decide_true, if_true]
      omega

theorem Inv.pop {s : EndpointPool} (h : s.Inv) (t : Nat) (usable : Bool) : (s.pop t usable).Inv := by
  unfold EndpointPool.pop
  split
  · rename_i hm
    split
    · -- nothing is parked when the dial starts
      rename_i hi
      have hcount := s.advance_connected hm .dialling
      exact { h.admits h.admission rfl rfl rfl s.waiting with
        held := h.held.trans (s.advance_held hm .dialling)
        room := fun _ => Or.inl hi }
    · rename_i entry rest hi
      have hcount := s.advance_connected hm (.leased entry.address)
      split
      · exact h.takeFirst hi .leased (by simp) (by simp) (s.advance_held hm _) (le_of_eq hcount)
      · exact h.takeFirst hi .discarded (by simp) (by simp) (.refl _) (Nat.le_succ _)
  · exact h

theorem within_of_all {live : Option (List SocketAddr)} {address : Option SocketAddr}
    (h : (address.all fun a => live.all fun addresses => Decidable.decide (a ∈ addresses)) = true) : Within live address := by
  intro a ha addresses hl
  cases ha
  cases hl
  simpa using h

theorem Inv.giveBack {s : EndpointPool} (h : s.Inv) (hb : s.busy.locksPolicy = false) (t : Nat)
    (address : Option SocketAddr) (fit : Bool) : (s.giveBack t address fit).Inv := by
  unfold EndpointPool.giveBack
  split
  · rename_i hm
    split
    · rename_i hp
      simp only [parks, Bool.and_eq_true, decide_eq_true_eq, Bool.not_eq_true'] at hp
      obtain ⟨⟨⟨⟨_, hdebt⟩, hlive⟩, hopen⟩, hroom⟩ := hp
      have hcount := s.advance_connected hm .returning
      have htotal : s.sockets ≤ s.admission.wanted := by
        obtain hnone | hs := h.room hb
        · have hle := h.connected_le
          have hallocated := h.approved_le
          have htarget := h.target
          rw [sockets, hnone, List.length_nil]
          omega
        · exact hs
      have hfresh : s.parked ∉ s.idle.map Idle.serial ++ s.popped.map Prod.fst := fun hin => lt_irrefl _ (h.numbered _ hin)
      have hperm : (s.parked :: (s.idle.map Idle.serial ++ s.popped.map Prod.fst)).Perm
          ((s.idle ++ [Idle.mk s.parked address]).map Idle.serial ++ s.popped.map Prod.fst) := by
        rw [List.map_append, List.append_assoc]
        exact List.perm_middle.symm
      exact {
        admission := h.admission
        target := h.target
        held := h.held.trans (s.advance_held hm .returning)
        room := by
          intro _
          refine Or.inr ?_
          change (s.advance t (.leased address) .returning).connected + (s.idle ++ [Idle.mk s.parked address]).length ≤ _
          simp only [sockets, Progress.connected, Bool.toNat_true, Bool.toNat_false] at htotal hcount
          rw [List.length_append, List.length_singleton]
          change _ ≤ s.admission.wanted
          omega
        kept := fun keep hk => absurd hk (not_measured hb keep)
        capped := by
          intro _
          change (s.idle ++ [Idle.mk s.parked address]).length ≤ _
          rw [List.length_append, List.length_singleton]
          exact hroom
        retiring := h.retiring
        within := by
          intro hbusy e he
          obtain he | he := List.mem_append.mp he
          · exact h.within hbusy e he
          · obtain rfl := List.mem_singleton.mp he
            exact within_of_all hlive
        closed := h.closed
        drained := by
          intro hd
          rw [h.closed hd] at hopen
          cases hopen
        flagged := h.flagged
        serials := (List.Perm.nodup_iff hperm).mp (List.nodup_cons.mpr ⟨hfresh, h.serials⟩)
        numbered := by
          intro n hn
          change n < s.parked + 1
          obtain rfl | hn := List.mem_cons.mp (hperm.mem_iff.mpr hn)
          · exact Nat.lt_succ_self _
          · exact Nat.lt_succ_of_lt (h.numbered n hn)
        leased := h.leased
        dropped := h.dropped }
    · exact h.advance hm (Nat.zero_le _)
  · exact h

theorem Inv.release {s : EndpointPool} (h : s.Inv) (hb : s.busy.locksPolicy = false) (t : Nat) :
    ∃ s', s.release t = some s' ∧ s'.Inv := by
  unfold EndpointPool.release
  split
  · rename_i hm
    obtain ⟨a, ha, hsteps⟩ := Admission.drop_spec h.admission t
    have hperm : (s.holders.map Holder.ticket).Perm (t :: (s.holders.erase ⟨t, .returning⟩).map Holder.ticket) :=
      (List.perm_cons_erase hm).map Holder.ticket
    have ht : t ∈ s.admission.approved := (h.held.trans hperm).mem_iff.mpr List.mem_cons_self
    have hfields : a.wanted = s.admission.wanted ∧ a.approved = s.admission.approved.erase t ∧
        a.permits.closed = s.admission.permits.closed := by
      unfold Admission.drop at ha
      rw [if_pos ht] at ha
      have hsum := h.admission.enough
      split at ha
      · rename_i hdebt
        rw [Admission.checkedSub_of_le (by omega)] at ha
        cases ha
        exact ⟨rfl, rfl, rfl⟩
      · cases ha
        exact ⟨rfl, rfl, release_closed _⟩
    obtain ⟨hw, happroved, hclosed⟩ := hfields
    have hcount : (s.holders.erase ⟨t, .returning⟩).countP (fun h => h.stage.connected) = s.connected := by
      rw [connected, (List.perm_cons_erase hm).countP_eq, List.countP_cons]
      rfl
    rw [ha]
    refine ⟨_, rfl, ⟨hsteps.inv, hw.trans h.target, ?_, ?_, fun keep hk => absurd hk (not_measured hb keep), h.capped,
      h.retiring, h.within, fun hd => hclosed.trans (h.closed hd), h.drained, h.flagged, h.serials, h.numbered,
      h.leased, h.dropped⟩⟩
    · rw [happroved]
      refine ((h.held.trans hperm).erase t).trans ?_
      rw [List.erase_cons_head]
    · intro hbusy
      refine (h.room hbusy).imp id ?_
      simp only [sockets, connected, hcount, hw]
      exact id
  · exact ⟨s, rfl, h⟩

theorem addPermits_closed (permits : Semaphore Nat) (n : Nat) : (permits.addPermits n).closed = permits.closed := by
  induction n generalizing permits with
  | zero => rfl
  | succ n ih => exact (ih permits.release).trans (release_closed permits)

theorem resize_fields {a a' : Admission Nat} {wanted : U32} (hr : a.resize wanted = some a') :
    a'.wanted = wanted.val ∧ a'.approved = a.approved ∧ a'.permits.closed = a.permits.closed := by
  unfold Admission.resize at hr
  split at hr
  · cases hr
    exact ⟨rfl, rfl, addPermits_closed _ _⟩
  · rename_i hshrink
    have hremoved : (a.permits.forgetPermits (a.allocated - wanted.val)).1 ≤ a.allocated - wanted.val := Nat.min_le_left ..
    rw [Admission.checkedSub_of_le (by omega)] at hr
    dsimp only [Option.bind_eq_bind, Option.bind_some] at hr
    rw [Admission.checkedSub_of_le (by omega)] at hr
    cases hr
    exact ⟨rfl, rfl, rfl⟩

theorem Inv.adopt {s : EndpointPool} (h : s.Inv) (hb : s.busy = .free) (config : Pool) :
    ∃ s', s.adopt config = some s' ∧ s'.Inv := by
  obtain ⟨a, ha, hsteps⟩ := Admission.resize_spec h.admission config.maxPerEndpoint
  obtain ⟨hw, happroved, hclosed⟩ := resize_fields ha
  unfold EndpointPool.adopt
  rw [ha]
  refine ⟨_, rfl, ⟨hsteps.inv, hw, happroved ▸ h.held, fun hl => (by cases hl), fun _ hk => (by cases hk),
    fun hl => (by cases hl), fun _ hk => (by cases hk), fun _ => ?_, fun hd => hclosed.trans (h.closed hd), fun hd _ => ?_,
    fun hk => (by cases hk), h.serials, h.numbered, h.leased, h.dropped⟩⟩
  · exact h.within fun keep hk => by rw [hb] at hk; cases hk
  · exact h.drained hd fun hk => by rw [hb] at hk; cases hk

theorem Inv.measure {s : EndpointPool} (h : s.Inv) (hb : s.busy = .resized) : s.measure.Inv := by
  refine ⟨h.admission, h.target, h.held, fun hl => (by cases hl), ?_, fun hl => (by cases hl), fun _ hk => (by cases hk),
    fun _ => ?_, h.closed, fun hd _ => ?_, fun hk => (by cases hk), h.serials, h.numbered, h.leased, h.dropped⟩
  · intro keep hk
    have hsum := h.admission.sum
    have htarget := h.target
    simp only [EndpointPool.measure, Busy.measured.injEq] at hk ⊢
    simp only [Semaphore.unheld] at hsum
    omega
  · exact h.within fun keep hk => by rw [hb] at hk; cases hk
  · exact h.drained hd fun hk => by rw [hb] at hk; cases hk

/-- Some parked connections are dropped and counted, at the end of `adopt` or `retire`. -/
theorem Inv.drops {s : EndpointPool} (h : s.Inv) {idle : List Idle} (hs : idle.Sublist s.idle)
    (hroom : idle = [] ∨ s.connected + idle.length ≤ s.admission.wanted)
    (hcap : idle.length ≤ s.config.maxIdlePerEndpoint.val) (hwithin : ∀ e ∈ idle, Within s.live e.address)
    (hdrained : s.draining = true → idle = []) :
    Inv { s with
      idle := idle
      discarded := s.discarded + (s.idle.length - idle.length)
      trimmed := s.trimmed + (s.idle.length - idle.length)
      busy := .free } where
  admission := h.admission
  target := h.target
  held := h.held
  room _ := hroom
  kept _ hk := by cases hk
  capped _ := hcap
  retiring _ hk := by cases hk
  within _ := hwithin
  closed := h.closed
  drained hd _ := hdrained hd
  flagged hk := by cases hk
  serials := ((hs.map Idle.serial).append (List.Sublist.refl _)).nodup h.serials
  numbered n hn := h.numbered n (((hs.map Idle.serial).append (List.Sublist.refl _)).subset hn)
  leased := h.leased
  dropped := by
    dsimp only
    rw [h.dropped]
    omega

theorem Inv.trim {s : EndpointPool} (h : s.Inv) {keep : Nat} (hb : s.busy = .measured keep) (usable : Idle → Bool) :
    (s.trim keep usable).Inv := by
  obtain ⟨hcap, hk⟩ := h.kept keep hb
  have hsub : ((s.idle.filter usable).take keep).Sublist s.idle :=
    (List.take_sublist _ _).trans List.filter_sublist
  have hlen : ((s.idle.filter usable).take keep).length ≤ keep := List.length_take_le _ _
  have hle := h.connected_le
  refine h.drops hsub ?_ (hlen.trans hcap) ?_ ?_
  · obtain rfl | hk := hk
    · exact Or.inl (List.take_zero ..)
    · exact Or.inr (by omega)
  · intro e he
    exact h.within (fun _ he => by rw [hb] at he; cases he) e (hsub.subset he)
  · intro hd
    have hnone := h.drained hd fun he => by rw [hb] at he; cases he
    rw [hnone]
    exact List.take_nil

theorem Inv.retire {s : EndpointPool} (h : s.Inv) (hb : s.busy = .free) (keep : List SocketAddr) : (s.retire keep).Inv := by
  refine ⟨h.admission, h.target, h.held, fun _ => h.room (by rw [hb]; rfl), fun _ hk => (by cases hk),
    fun _ => h.capped (by rw [hb]; rfl), ?_, fun hk => absurd rfl (hk keep), h.closed, fun hd _ => ?_,
    fun hk => (by cases hk), h.serials, h.numbered, h.leased, h.dropped⟩
  · intro keep' hk
    cases hk
    rfl
  · exact h.drained hd fun hk => by rw [hb] at hk; cases hk

theorem Inv.retireIdle {s : EndpointPool} (h : s.Inv) {keep : List SocketAddr} (hb : s.busy = .retiring keep) :
    (s.retireIdle keep).Inv := by
  have hsub := List.filter_sublist (p := fun e : Idle => e.address.all fun a => Decidable.decide (a ∈ keep)) (l := s.idle)
  have hl : s.busy.locksPolicy = false := by rw [hb]; rfl
  have hlen := hsub.length_le
  refine h.drops hsub ?_ (hlen.trans (h.capped hl)) ?_ ?_
  · obtain hnone | hs := h.room hl
    · left
      rw [hnone]
      rfl
    · right
      rw [sockets] at hs
      omega
  · intro e he
    rw [h.retiring keep hb]
    refine within_of_all ?_
    simpa using List.of_mem_filter he
  · intro hd
    have hnone := h.drained hd fun he => by rw [hb] at he; cases he
    rw [hnone]
    rfl

theorem Inv.drain {s : EndpointPool} (h : s.Inv) (hb : s.busy = .free) : s.drain.Inv := by
  obtain ⟨a, ha, hsteps⟩ := Admission.step_spec h.admission .close
  cases ha
  refine ⟨hsteps.inv, h.target, h.held, fun _ => h.room (by rw [hb]; rfl), fun _ hk => (by cases hk),
    fun _ => h.capped (by rw [hb]; rfl), fun _ hk => (by cases hk), fun _ => ?_, fun _ => rfl,
    fun _ hk => absurd rfl hk, fun _ => rfl, h.serials, h.numbered, h.leased, h.dropped⟩
  exact h.within fun keep hk => by rw [hb] at hk; cases hk

theorem Inv.drainIdle {s : EndpointPool} (h : s.Inv) : s.drainIdle.Inv := by
  have hsub : (s.popped.map Prod.fst).Sublist (s.idle.map Idle.serial ++ s.popped.map Prod.fst) :=
    List.sublist_append_right _ _
  exact ⟨h.admission, h.target, h.held, fun _ => Or.inl rfl, fun _ hk => (by cases hk), fun _ => Nat.zero_le _,
    fun _ hk => (by cases hk), fun _ _ he => (by cases he), h.closed, fun _ _ => rfl, fun hk => (by cases hk),
    hsub.nodup h.serials, fun n hn => h.numbered n (hsub.subset hn), h.leased, h.dropped⟩

/-- Every step succeeds and keeps the invariant. -/
theorem step_inv {s : EndpointPool} (h : s.Inv) (e : Event) : ∃ s', s.step e = some s' ∧ s'.Inv := by
  have hsome : ∀ {s' : EndpointPool}, s'.Inv → ∃ s'', some s' = some s'' ∧ s''.Inv := fun hi => ⟨_, rfl, hi⟩
  cases e with
  | checkout t =>
    refine hsome ?_
    split
    · exact h.checkout t
    · exact h
  | poll t => exact hsome (h.poll t)
  | decide t =>
    simp only [step]
    split
    · exact hsome h
    · rename_i hb
      exact h.decide (Bool.eq_false_iff.mpr hb) t
  | giveUp t => exact hsome (h.giveUp t)
  | pop t usable => exact hsome (h.pop t usable)
  | dialled t address => exact hsome (h.dialled t address)
  | dialFailed t => exact hsome (h.dialFailed t)
  | giveBack t address fit =>
    refine hsome ?_
    split
    · exact h
    · rename_i hb
      exact h.giveBack (Bool.eq_false_iff.mpr hb) t address fit
  | release t =>
    simp only [step]
    split
    · exact hsome h
    · rename_i hb
      exact h.release (Bool.eq_false_iff.mpr hb) t
  | adopt config =>
    simp only [step]
    split
    · rename_i hb
      exact h.adopt hb config
    · exact hsome h
  | measure =>
    refine hsome ?_
    split
    · rename_i hb
      exact h.measure hb
    · exact h
  | trim usable =>
    simp only [step]
    split
    · rename_i keep hb
      exact hsome (h.trim hb usable)
    · exact hsome h
  | retire keep =>
    refine hsome ?_
    split
    · rename_i hb
      exact h.retire hb keep
    · exact h
  | retireIdle =>
    simp only [step]
    split
    · rename_i keep hb
      exact hsome (h.retireIdle hb)
    · exact hsome h
  | drain =>
    refine hsome ?_
    split
    · rename_i hb
      exact h.drain hb
    · exact h
  | drainIdle =>
    refine hsome ?_
    split
    · exact h.drainIdle
    · exact h

theorem run_inv {s : EndpointPool} (h : s.Inv) (events : List Event) : ∃ s', s.run events = some s' ∧ s'.Inv := by
  induction events generalizing s with
  | nil => exact ⟨s, rfl, h⟩
  | cons e events ih =>
    obtain ⟨b, hb, hi⟩ := step_inv h e
    obtain ⟨c, hc, hi⟩ := ih hi
    refine ⟨c, ?_, hi⟩
    rw [run, List.foldlM_cons, hb]
    exact hc

/-- Admitted checkouts beyond the limit: those a shrink found. -/
def excess (s : EndpointPool) : Nat := s.admission.approved.length - s.config.maxPerEndpoint.val

end EndpointPool

end Gatel.State
