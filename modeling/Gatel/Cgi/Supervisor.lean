import Gatel.Lib.Run

namespace Gatel.Cgi
open Run (run run_append run_cons run_nil)

/-! Process supervision: `execute`, the supervisors that share one semaphore, and the jobs they
own. What lies between two steps is a point where other threads may run. -/

inductive SupervisorError (ε : Type) where
  | busy
  | closed
  | cancelled
  | panicked
  | cleanup
  | exchange (e : ε)
  deriving DecidableEq

abbrev SupervisorReply (ε : Type) := Except (SupervisorError ε) UInt64

/-- Where an `execute` and the job it carries are. -/
inductive JobPhase (ε : Type) where
  /-- The flag was read; the permit is next. -/
  | checked
  | permitted
  | queued
  /-- Among the owned jobs, not polled yet. -/
  | held
  | running
  | cleaning (result : SupervisorReply ε)
  | cleaned (result : SupervisorReply ε) (clean : Bool)
  | released (result : SupervisorReply ε) (clean : Bool)
  /-- Its future is complete and to be observed. -/
  | replied (clean : Bool)
  /-- Its future is being dropped, and has closed the semaphore. -/
  | dropping
  | gone

structure SupervisedJob (ε : Type) where
  owner : Nat
  phase : JobPhase ε
  /-- The caller still waits. -/
  awaited : Bool
  result : Option (SupervisorReply ε)
  /-- How often `run` was begun. -/
  runs : Nat
  /-- What a cleanup that came to its end has said. -/
  clean : List Bool
  /-- Dropped by an abort after it had begun. -/
  torn : Bool

inductive SupervisorPhase where
  | idle
  | looping
  /-- Out of the loop. -/
  | broken
  /-- The flag is set. -/
  | closing
  /-- The receiver is closed. -/
  | draining
  /-- `stop` is requested. -/
  | joining
  | returned
  | aborting
  | dropped
  deriving DecidableEq

structure SupervisorState where
  limit : Nat
  queue : List Nat
  phase : SupervisorPhase
  closed : Bool
  requested : Bool
  failed : Bool

structure Supervision (ε : Type) where
  capacity : Nat
  permits : Nat
  /-- The semaphore is closed. -/
  poisoned : Bool
  supervisors : List SupervisorState
  jobs : List (SupervisedJob ε)

variable {ε : Type}

namespace JobPhase

/-- Whether the permit of the job is out. -/
def holds : JobPhase ε → Bool
  | .permitted | .queued | .held | .running | .cleaning _ | .cleaned _ _ | .dropping => true
  | .checked | .released _ _ | .replied _ | .gone => false

/-- Among the owned jobs. -/
def owned : JobPhase ε → Bool
  | .held | .running | .cleaning _ | .cleaned _ _ | .released _ _ | .replied _ | .dropping => true
  | .checked | .permitted | .queued | .gone => false

@[grind =] def isQueued : JobPhase ε → Bool
  | .queued => true
  | _ => false

/-- Its caller has been answered. -/
def settled : JobPhase ε → Bool
  | .replied _ | .gone => true
  | _ => false

/-- In the middle of one poll. -/
def polling : JobPhase ε → Bool
  | .cleaned _ _ | .released _ _ => true
  | _ => false

end JobPhase

namespace SupervisorPhase

/-- `try_send` finds the receiver open. -/
def receives : SupervisorPhase → Bool
  | .idle | .looping | .broken | .closing | .aborting => true
  | .draining | .joining | .returned | .dropped => false

/-- The owned jobs are polled. -/
def polls : SupervisorPhase → Bool
  | .looping | .joining => true
  | _ => false

end SupervisorPhase

/-- It may own jobs. -/
def SupervisorPhase.Owns (p : SupervisorPhase) : Prop := p ≠ .idle ∧ p ≠ .returned ∧ p ≠ .dropped

instance (p : SupervisorPhase) : Decidable p.Owns := inferInstanceAs (Decidable (_ ∧ _ ∧ _))

/-- Its future was dropped. -/
def SupervisorPhase.Aborted (p : SupervisorPhase) : Prop := p = .aborting ∨ p = .dropped

namespace SupervisedJob

/-- Nothing of the job has been done. -/
def Inert (x : SupervisedJob ε) : Prop := x.runs = 0 ∧ x.clean = [] ∧ x.torn = false

/-- Its cleanup has come to its end, with the semaphore closed if it failed. -/
def Cleaned (x : SupervisedJob ε) (poisoned : Bool) (clean : Bool) : Prop :=
  x.runs ≤ 1 ∧ x.clean = [clean] ∧ x.torn = false ∧ (clean = false → poisoned = true)

/-- Dropped by an abort, with the semaphore closed. -/
def Torn (x : SupervisedJob ε) (poisoned : Bool) : Prop :=
  x.runs ≤ 1 ∧ x.clean = [] ∧ x.torn = true ∧ poisoned = true

/-- What the phase of a job says of it, beside the semaphore and the phase of its supervisor. -/
@[grind =] def Ok (x : SupervisedJob ε) (poisoned : Bool) (p : SupervisorPhase) : Prop :=
  match x.phase with
  | .checked | .permitted | .queued => x.Inert ∧ x.result = none
  | .held => x.Inert ∧ x.result = none ∧ p.Owns
  | .running => (x.runs = 1 ∧ x.clean = [] ∧ x.torn = false) ∧ x.result = none ∧ p.Owns
  | .cleaning _ => (x.runs ≤ 1 ∧ x.clean = [] ∧ x.torn = false) ∧ x.result = none ∧ p.Owns
  | .cleaned _ clean | .released _ clean => x.Cleaned poisoned clean ∧ x.result = none ∧ p.Owns
  | .replied clean => x.Cleaned poisoned clean ∧ x.result.isSome ∧ p.Owns
  | .dropping => x.Torn poisoned ∧ x.result = none ∧ p = .aborting
  | .gone => (x.Inert ∨ (∃ clean, x.Cleaned poisoned clean) ∨ (x.Torn poisoned ∧ p.Aborted)) ∧ x.result.isSome

theorem Ok.mono {x : SupervisedJob ε} {b b' : Bool} {p p' : SupervisorPhase} (h : x.Ok b p) (hb : b = true → b' = true)
    (howned : x.phase.owned = true → p.Owns → p'.Owns ∧ (p = .aborting → p' = .aborting)) (hp : p.Aborted → p'.Aborted) :
    x.Ok b' p' := by
  have hcleaned {clean : Bool} (hc : x.Cleaned b clean) : x.Cleaned b' clean :=
    ⟨hc.1, hc.2.1, hc.2.2.1, fun he => hb (hc.2.2.2 he)⟩
  have htorn (ht : x.Torn b) : x.Torn b' := ⟨ht.1, ht.2.1, ht.2.2.1, hb ht.2.2.2⟩
  unfold Ok at h ⊢
  cases hph : x.phase with
  | checked =>
    rw [hph] at h
    exact h
  | permitted =>
    rw [hph] at h
    exact h
  | queued =>
    rw [hph] at h
    exact h
  | held =>
    rw [hph] at h howned
    exact ⟨h.1, h.2.1, (howned rfl h.2.2).1⟩
  | running =>
    rw [hph] at h howned
    exact ⟨h.1, h.2.1, (howned rfl h.2.2).1⟩
  | cleaning r =>
    rw [hph] at h howned
    exact ⟨h.1, h.2.1, (howned rfl h.2.2).1⟩
  | cleaned r c =>
    rw [hph] at h howned
    exact ⟨hcleaned h.1, h.2.1, (howned rfl h.2.2).1⟩
  | released r c =>
    rw [hph] at h howned
    exact ⟨hcleaned h.1, h.2.1, (howned rfl h.2.2).1⟩
  | replied c =>
    rw [hph] at h howned
    exact ⟨hcleaned h.1, h.2.1, (howned rfl h.2.2).1⟩
  | dropping =>
    rw [hph] at h howned
    refine ⟨htorn h.1, h.2.1, (howned rfl ?_).2 h.2.2⟩
    rw [h.2.2]
    decide
  | gone =>
    rw [hph] at h
    refine ⟨?_, h.2⟩
    rcases h.1 with hi | ⟨c, hc⟩ | ⟨ht, ha⟩
    · exact Or.inl hi
    · exact Or.inr (Or.inl ⟨c, hcleaned hc⟩)
    · exact Or.inr (Or.inr ⟨htorn ht, hp ha⟩)

end SupervisedJob

namespace Supervision

def start (capacity : Nat) : Supervision ε := ⟨capacity, capacity, false, [], []⟩

inductive Event (ε : Type) where
  /-- `channel_with_capacity` on the shared semaphore. -/
  | channel (limit : Nat)
  | execute (k : Nat)
  | acquire (j : Nat)
  | send (j : Nat)
  /-- The caller drops the future it waits on. -/
  | abandon (j : Nat)
  | start (k : Nat)
  | request (k : Nat)
  | receive (k : Nat)
  /-- The loop ends: a shutdown was requested, or no client is left. -/
  | «break» (k : Nat)
  | mark (k : Nat)
  | close (k : Nat)
  | drain (k : Nat)
  | stop (k : Nat)
  | «return» (k : Nat)
  | poll (j : Nat)
  | finish (j : Nat) (result : Except (Option ε) UInt64)
  | cancel (j : Nat)
  | cleanup (j : Nat) (clean : Bool)
  | release (j : Nat)
  | reply (j : Nat)
  | observe (j : Nat)
  | abort (k : Nat)
  | discard (j : Nat)
  | drop (k : Nat)

def setJob (s : Supervision ε) (j : Nat) (x : SupervisedJob ε) : Supervision ε := { s with jobs := s.jobs.set j x }

def setSupervisor (s : Supervision ε) (k : Nat) (v : SupervisorState) : Supervision ε :=
  { s with supervisors := s.supervisors.set k v }

def acquire (s : Supervision ε) (j : Nat) (x : SupervisedJob ε) : Supervision ε :=
  if s.poisoned then s.setJob j { x with phase := .gone, result := some (.error .closed) }
  else if s.permits = 0 then s.setJob j { x with phase := .gone, result := some (.error .busy) }
  else { s with permits := s.permits - 1 }.setJob j { x with phase := .permitted }

def send (s : Supervision ε) (j : Nat) (x : SupervisedJob ε) (v : SupervisorState) : Supervision ε :=
  if !v.phase.receives then
    { s with permits := s.permits + 1 }.setJob j { x with phase := .gone, result := some (.error .closed) }
  else if v.queue.length ≥ v.limit then
    { s with permits := s.permits + 1 }.setJob j { x with phase := .gone, result := some (.error .busy) }
  else (s.setJob j { x with phase := .queued }).setSupervisor x.owner { v with queue := v.queue ++ [j] }

/-- A request leaves the queue and is dropped, or answered; its permit comes back. -/
def forget (s : Supervision ε) (k j : Nat) (x : SupervisedJob ε) (v : SupervisorState) (rest : List Nat) : Supervision ε :=
  ({ s with permits := s.permits + 1 }.setJob j { x with phase := .gone, result := some (.error .closed) }).setSupervisor k
    { v with queue := rest }

def receive (s : Supervision ε) (k j : Nat) (x : SupervisedJob ε) (v : SupervisorState) (rest : List Nat) : Supervision ε :=
  if x.awaited then (s.setJob j { x with phase := .held }).setSupervisor k { v with queue := rest }
  else s.forget k j x v rest

/-- Whether the job is to be cancelled: on `stop`, or when its caller is gone. -/
def cancels (x : SupervisedJob ε) (v : SupervisorState) : Bool := v.phase = .joining || !x.awaited

/-- The first poll looks at both before it begins `run`. -/
def poll (s : Supervision ε) (j : Nat) (x : SupervisedJob ε) (v : SupervisorState) : Supervision ε :=
  if cancels x v then s.setJob j { x with phase := .cleaning (.error .cancelled) }
  else s.setJob j { x with phase := .running, runs := x.runs + 1 }

/-- What `run` came to; without an error of its own it has panicked. -/
def outcome : Except (Option ε) UInt64 → SupervisorReply ε
  | .ok n => .ok n
  | .error (some e) => .error (.exchange e)
  | .error none => .error .panicked

def cleanup (s : Supervision ε) (j : Nat) (x : SupervisedJob ε) (result : SupervisorReply ε) (clean : Bool) : Supervision ε :=
  { s with poisoned := s.poisoned || !clean }.setJob j
    { x with phase := .cleaned result clean, clean := x.clean ++ [clean] }

def observe (s : Supervision ε) (j : Nat) (x : SupervisedJob ε) (v : SupervisorState) (clean : Bool) : Supervision ε :=
  (s.setJob j { x with phase := .gone }).setSupervisor x.owner
    (if clean then v
    else { v with failed := true, phase := if v.phase = .looping then .broken else v.phase })

/-- The drop of an owned future; what was never polled has no guard. -/
@[grind =] def discard (s : Supervision ε) (j : Nat) (x : SupervisedJob ε) : Supervision ε :=
  match x.phase with
  | .held => { s with permits := s.permits + 1 }.setJob j { x with phase := .gone, result := some (.error .closed) }
  | .running | .cleaning _ => { s with poisoned := true }.setJob j { x with phase := .dropping, torn := true }
  | .dropping => { s with permits := s.permits + 1 }.setJob j { x with phase := .gone, result := some (.error .closed) }
  | .replied _ => s.setJob j { x with phase := .gone }
  | _ => s

def ownedBy (s : Supervision ε) (k : Nat) : List (SupervisedJob ε) := s.jobs.filter fun x => x.owner == k && x.phase.owned

/-- A step of one job, with the state of its supervisor. -/
@[grind =] def onJob (s : Supervision ε) (j : Nat) (f : SupervisedJob ε → SupervisorState → Supervision ε) : Supervision ε :=
  match s.jobs[j]? with
  | some x => match s.supervisors[x.owner]? with
    | some v => f x v
    | none => s
  | none => s

def onSupervisor (s : Supervision ε) (k : Nat) (f : SupervisorState → Supervision ε) : Supervision ε :=
  match s.supervisors[k]? with
  | some v => f v
  | none => s

/-- The request at the head of a queue. -/
def onQueue (s : Supervision ε) (v : SupervisorState) (f : Nat → SupervisedJob ε → List Nat → Supervision ε) :
    Supervision ε :=
  match v.queue with
  | j :: rest => match s.jobs[j]? with
    | some x => f j x rest
    | none => s
  | [] => s

@[grind =] def step (s : Supervision ε) : Event ε → Supervision ε
  | .channel limit => { s with supervisors := s.supervisors ++ [⟨limit, [], .idle, false, false, false⟩] }
  | .execute k => s.onSupervisor k fun v =>
    { s with jobs := s.jobs ++
      [if v.closed then ⟨k, .gone, true, some (.error .closed), 0, [], false⟩ else ⟨k, .checked, true, none, 0, [], false⟩] }
  | .acquire j => s.onJob j fun x _ => match x.phase with
    | .checked => s.acquire j x
    | _ => s
  | .send j => s.onJob j fun x v => match x.phase with
    | .permitted => s.send j x v
    | _ => s
  | .abandon j => s.onJob j fun x _ => match x.phase with
    | .checked | .permitted => s
    | _ => s.setJob j { x with awaited := false }
  | .start k => s.onSupervisor k fun v => if v.phase = .idle then s.setSupervisor k { v with phase := .looping } else s
  | .request k => s.onSupervisor k fun v => s.setSupervisor k { v with requested := true }
  | .receive k => s.onSupervisor k fun v =>
    if v.phase = .looping ∧ v.requested = false then s.onQueue v fun j x rest => s.receive k j x v rest else s
  | .break k => s.onSupervisor k fun v =>
    if v.phase = .looping ∧ (v.requested = true ∨ v.queue = []) then s.setSupervisor k { v with phase := .broken } else s
  | .mark k => s.onSupervisor k fun v =>
    if v.phase = .broken then s.setSupervisor k { v with phase := .closing, closed := true } else s
  | .close k => s.onSupervisor k fun v => if v.phase = .closing then s.setSupervisor k { v with phase := .draining } else s
  | .drain k => s.onSupervisor k fun v =>
    if v.phase = .draining ∨ v.phase = .dropped then s.onQueue v fun j x rest => s.forget k j x v rest else s
  | .stop k => s.onSupervisor k fun v =>
    if v.phase = .draining ∧ v.queue = [] then s.setSupervisor k { v with phase := .joining } else s
  | .return k => s.onSupervisor k fun v =>
    if v.phase = .joining ∧ (s.ownedBy k).isEmpty then s.setSupervisor k { v with phase := .returned } else s
  | .poll j => s.onJob j fun x v => match x.phase with
    | .held => if v.phase.polls then s.poll j x v else s
    | _ => s
  | .finish j result => s.onJob j fun x v => match x.phase with
    | .running => if v.phase.polls then s.setJob j { x with phase := .cleaning (outcome result) } else s
    | _ => s
  | .cancel j => s.onJob j fun x v => match x.phase with
    | .running => if v.phase.polls && cancels x v then s.setJob j { x with phase := .cleaning (.error .cancelled) } else s
    | _ => s
  | .cleanup j clean => s.onJob j fun x v => match x.phase with
    | .cleaning result => if v.phase.polls then s.cleanup j x result clean else s
    | _ => s
  | .release j => s.onJob j fun x _ => match x.phase with
    | .cleaned result clean => { s with permits := s.permits + 1 }.setJob j { x with phase := .released result clean }
    | _ => s
  | .reply j => s.onJob j fun x _ => match x.phase with
    | .released result clean =>
      s.setJob j { x with phase := .replied clean, result := some (if clean then result else .error .cleanup) }
    | _ => s
  | .observe j => s.onJob j fun x v => match x.phase with
    | .replied clean => if v.phase.polls then s.observe j x v clean else s
    | _ => s
  | .abort k => s.onSupervisor k fun v =>
    if v.phase ≠ .returned ∧ v.phase ≠ .dropped ∧ (s.ownedBy k).all fun x => !x.phase.polling then
      s.setSupervisor k { v with phase := .aborting }
    else s
  | .discard j => s.onJob j fun x v => if v.phase = .aborting then s.discard j x else s
  | .drop k => s.onSupervisor k fun v =>
    if v.phase = .aborting ∧ (s.ownedBy k).isEmpty then s.setSupervisor k { v with phase := .dropped, closed := true } else s

structure Inv (s : Supervision ε) : Prop where
  count : s.permits + s.jobs.countP (fun x => x.phase.holds) = s.capacity
  jobs : ∀ x ∈ s.jobs, ∃ v, s.supervisors[x.owner]? = some v ∧ x.Ok s.poisoned v.phase
  queue : ∀ (k : Nat) v, s.supervisors[k]? = some v → v.queue.Nodup ∧
    ∀ j, j ∈ v.queue ↔ ∃ x, s.jobs[j]? = some x ∧ x.owner = k ∧ x.phase.isQueued = true
  emptied : ∀ v ∈ s.supervisors, v.phase = .joining ∨ v.phase = .returned → v.queue = []

theorem inv_start (capacity : Nat) : (start capacity : Supervision ε).Inv where
  count := rfl
  jobs _ h := by cases h
  queue _ _ h := by cases h
  emptied _ h := by cases h

theorem getElem?_set_cases {α : Type} {l : List α} {c j : Nat} {p q : α} (h : (l.set c p)[j]? = some q) :
    (j = c ∧ q = p) ∨ (j ≠ c ∧ l[j]? = some q) := by
  by_cases hj : j = c
  · subst hj
    have hlt : j < (l.set j p).length := (List.getElem?_eq_some_iff.mp h).1
    rw [List.length_set] at hlt
    rw [List.getElem?_set_self hlt] at h
    exact Or.inl ⟨rfl, (Option.some.inj h).symm⟩
  · rw [List.getElem?_set_ne (Ne.symm hj)] at h
    exact Or.inr ⟨hj, h⟩

theorem set_self {α : Type} {l : List α} {k : Nat} {v : α} (h : l[k]? = some v) : l.set k v = l := by
  refine List.ext_getElem? ?_
  intro i
  by_cases hi : k = i
  · subst hi
    rw [List.getElem?_set_self (List.getElem?_eq_some_iff.mp h).1, h]
  · rw [List.getElem?_set_ne hi]

/-- What a step may change of one job and its supervisor. -/
structure Changes (s : Supervision ε) (j : Nat) (x x' : SupervisedJob ε) (v v' : SupervisorState) (permits : Nat)
    (poisoned : Bool) : Prop where
  owner : x'.owner = x.owner
  ok : x'.Ok poisoned v'.phase
  others : ∀ y ∈ s.jobs, y.owner = x.owner → y.Ok s.poisoned v.phase → y.Ok poisoned v'.phase
  poisons : s.poisoned = true → poisoned = true
  count : permits + x'.phase.holds.toNat = s.permits + x.phase.holds.toNat
  nodup : v'.queue.Nodup
  queue : ∀ i, i ∈ v'.queue ↔ (i = j ∧ x'.phase.isQueued = true) ∨ (i ≠ j ∧ i ∈ v.queue)
  emptied : v'.phase = .joining ∨ v'.phase = .returned → v'.queue = []

theorem Inv.change {s : Supervision ε} (h : s.Inv) {j : Nat} {x x' : SupervisedJob ε} {v v' : SupervisorState} {permits : Nat}
    {poisoned : Bool} (hx : s.jobs[j]? = some x) (hv : s.supervisors[x.owner]? = some v)
    (hc : s.Changes j x x' v v' permits poisoned) :
    Inv { s with permits := permits, poisoned := poisoned, jobs := s.jobs.set j x',
                 supervisors := s.supervisors.set x.owner v' } := by
  have hkin : (s.supervisors.set x.owner v')[x.owner]? = some v' :=
    List.getElem?_set_self (List.getElem?_eq_some_iff.mp hv).1
  obtain ⟨hjlt, hje⟩ := List.getElem?_eq_some_iff.mp hx
  refine ⟨?_, ?_, ?_, ?_⟩
  · have hcount := h.count
    have hset := List.countP_set (p := fun x : SupervisedJob ε => x.phase.holds) (a := x') hjlt
    have hpos : x.phase.holds = true → 0 < s.jobs.countP (fun x => x.phase.holds) := by
      intro hh
      exact List.countP_pos_iff.mpr ⟨x, List.mem_of_getElem? hx, hh⟩
    have hmoved := hc.count
    change permits + (s.jobs.set j x').countP _ = s.capacity
    rw [hset, hje]
    cases hxh : x.phase.holds <;> cases hxh' : x'.phase.holds <;> rw [hxh, hxh'] at hmoved <;> simp at hmoved ⊢
    · omega
    · omega
    · have := hpos hxh
      omega
    · have := hpos hxh
      omega
  · intro y hy
    obtain ⟨i, hi⟩ := List.mem_iff_getElem?.mp hy
    rcases getElem?_set_cases hi with ⟨-, rfl⟩ | ⟨-, hi⟩
    · exact ⟨v', by rw [hc.owner]; exact hkin, hc.ok⟩
    · have hyin := List.mem_of_getElem? hi
      obtain ⟨w, hw, hok⟩ := h.jobs y hyin
      by_cases ho : y.owner = x.owner
      · rw [ho, hv] at hw
        cases hw
        exact ⟨v', by rw [ho]; exact hkin, hc.others y hyin ho hok⟩
      · refine ⟨w, (List.getElem?_set_ne (Ne.symm ho)).trans hw, ?_⟩
        exact hok.mono hc.poisons (fun _ hp => ⟨hp, id⟩) id
  · intro k w hw
    rcases getElem?_set_cases hw with ⟨rfl, rfl⟩ | ⟨hne, hw⟩
    · refine ⟨hc.nodup, ?_⟩
      intro i
      rw [hc.queue i]
      constructor
      · rintro (⟨rfl, hq⟩ | ⟨hne, hq⟩)
        · exact ⟨x', List.getElem?_set_self hjlt, hc.owner, hq⟩
        · obtain ⟨y, hy, hyo, hyq⟩ := ((h.queue _ v hv).2 i).mp hq
          exact ⟨y, (List.getElem?_set_ne (Ne.symm hne)).trans hy, hyo, hyq⟩
      · rintro ⟨y, hy, hyo, hyq⟩
        rcases getElem?_set_cases hy with ⟨rfl, rfl⟩ | ⟨hne, hy⟩
        · exact Or.inl ⟨rfl, hyq⟩
        · exact Or.inr ⟨hne, ((h.queue _ v hv).2 i).mpr ⟨y, hy, hyo, hyq⟩⟩
    · obtain ⟨hnd, hmem⟩ := h.queue k w hw
      refine ⟨hnd, ?_⟩
      intro i
      rw [hmem i]
      constructor
      · rintro ⟨y, hy, hyo, hyq⟩
        by_cases hij : i = j
        · subst hij
          rw [hx] at hy
          cases hy
          exact absurd hyo.symm hne
        · exact ⟨y, (List.getElem?_set_ne (Ne.symm hij)).trans hy, hyo, hyq⟩
      · rintro ⟨y, hy, hyo, hyq⟩
        rcases getElem?_set_cases hy with ⟨-, rfl⟩ | ⟨-, hy⟩
        · exact absurd (hc.owner.symm.trans hyo).symm hne
        · exact ⟨y, hy, hyo, hyq⟩
  · intro w hw hp
    rcases List.mem_or_eq_of_mem_set hw with hw | rfl
    · exact h.emptied w hw hp
    · exact hc.emptied hp

/-- A step of one job that leaves the queue. -/
theorem Inv.changeJob {s : Supervision ε} (h : s.Inv) {j : Nat} {x x' : SupervisedJob ε} {v : SupervisorState} {permits : Nat}
    {poisoned : Bool} (hx : s.jobs[j]? = some x) (hv : s.supervisors[x.owner]? = some v) (howner : x'.owner = x.owner)
    (hok : x'.Ok poisoned v.phase) (hpoisons : s.poisoned = true → poisoned = true)
    (hcount : permits + x'.phase.holds.toNat = s.permits + x.phase.holds.toNat)
    (hqueued : x'.phase.isQueued = x.phase.isQueued) :
    Inv { s with permits := permits, poisoned := poisoned, jobs := s.jobs.set j x' } := by
  have hself : s.supervisors.set x.owner v = s.supervisors := set_self hv
  obtain ⟨hnd, hmem⟩ := h.queue _ v hv
  have hc : s.Changes j x x' v v permits poisoned := by
    refine ⟨howner, hok, ?_, hpoisons, hcount, hnd, ?_, h.emptied v (List.mem_of_getElem? hv)⟩
    · intro y _ _ hy
      exact hy.mono hpoisons (fun _ hp => ⟨hp, id⟩) id
    · intro i
      by_cases hij : i = j
      · subst hij
        simp only [true_and, ne_eq, not_true_eq_false, false_and, or_false, hmem i, hqueued]
        constructor
        · rintro ⟨y, hy, -, hyq⟩
          rw [hx] at hy
          cases hy
          exact hyq
        · intro hq
          exact ⟨x, hx, rfl, hq⟩
      · simp [hij]
  have hall := h.change hx hv hc
  rw [hself] at hall
  exact hall

/-- A supervisor goes on to its next phase. -/
theorem Inv.changeSupervisor {s : Supervision ε} (h : s.Inv) {k : Nat} {v v' : SupervisorState}
    (hv : s.supervisors[k]? = some v) (hqueue : v'.queue = v.queue)
    (howned : (s.ownedBy k).isEmpty = true ∨ (v.phase.Owns → v'.phase.Owns ∧ (v.phase = .aborting → v'.phase = .aborting)))
    (haborted : v.phase.Aborted → v'.phase.Aborted) (hemptied : v'.phase = .joining ∨ v'.phase = .returned → v.queue = []) :
    (s.setSupervisor k v').Inv := by
  have hkin : (s.supervisors.set k v')[k]? = some v' := List.getElem?_set_self (List.getElem?_eq_some_iff.mp hv).1
  refine ⟨h.count, ?_, ?_, ?_⟩
  · intro y hy
    obtain ⟨w, hw, hok⟩ := h.jobs y hy
    by_cases ho : y.owner = k
    · rw [ho, hv] at hw
      cases hw
      refine ⟨v', by rw [ho]; exact hkin, hok.mono id ?_ haborted⟩
      intro hown hp
      rcases howned with hempty | howned
      · have hin : y ∈ s.ownedBy k := List.mem_filter.mpr ⟨hy, by simp [ho, hown]⟩
        rw [List.isEmpty_iff.mp hempty] at hin
        cases hin
      · exact howned hp
    · exact ⟨w, (List.getElem?_set_ne (Ne.symm ho)).trans hw, hok⟩
  · intro i w hw
    rcases getElem?_set_cases hw with ⟨rfl, rfl⟩ | ⟨-, hw⟩
    · rw [hqueue]
      exact h.queue i v hv
    · exact h.queue i w hw
  · intro w hw hp
    rcases List.mem_or_eq_of_mem_set hw with hw | rfl
    · exact h.emptied w hw hp
    · rw [hqueue]
      exact hemptied hp

theorem Inv.jobOk {s : Supervision ε} (h : s.Inv) {j : Nat} {x : SupervisedJob ε} {v : SupervisorState}
    (hx : s.jobs[j]? = some x) (hv : s.supervisors[x.owner]? = some v) : x.Ok s.poisoned v.phase := by
  obtain ⟨w, hw, hok⟩ := h.jobs x (List.mem_of_getElem? hx)
  rw [hv] at hw
  cases hw
  exact hok

/-- A job refused at admission. -/
theorem refused_ok {x : SupervisedJob ε} (hi : x.Inert) (r : SupervisorReply ε) (b : Bool) (p : SupervisorPhase) :
    SupervisedJob.Ok { x with phase := .gone, result := some r } b p := ⟨Or.inl hi, rfl⟩

theorem Inv.acquire {s : Supervision ε} (h : s.Inv) {j : Nat} {x : SupervisedJob ε} {v : SupervisorState}
    (hx : s.jobs[j]? = some x) (hv : s.supervisors[x.owner]? = some v) (hp : x.phase = .checked) : (s.acquire j x).Inv := by
  have hok := h.jobOk hx hv
  rw [SupervisedJob.Ok, hp] at hok
  unfold Supervision.acquire
  split
  · exact h.changeJob hx hv rfl (refused_ok hok.1 _ _ _) id (by rw [hp]; rfl) (by rw [hp]; rfl)
  · split
    · exact h.changeJob hx hv rfl (refused_ok hok.1 _ _ _) id (by rw [hp]; rfl) (by rw [hp]; rfl)
    · rename_i hpos
      refine h.changeJob hx hv rfl hok id ?_ (by rw [hp]; rfl)
      rw [hp]
      exact Nat.sub_add_cancel (Nat.pos_of_ne_zero hpos)

theorem Inv.send {s : Supervision ε} (h : s.Inv) {j : Nat} {x : SupervisedJob ε} {v : SupervisorState}
    (hx : s.jobs[j]? = some x) (hv : s.supervisors[x.owner]? = some v) (hp : x.phase = .permitted) : (s.send j x v).Inv := by
  have hok := h.jobOk hx hv
  rw [SupervisedJob.Ok, hp] at hok
  unfold Supervision.send
  split
  · exact h.changeJob hx hv rfl (refused_ok hok.1 _ _ _) id (by rw [hp]; rfl) (by rw [hp]; rfl)
  · rename_i hopen
    split
    · exact h.changeJob hx hv rfl (refused_ok hok.1 _ _ _) id (by rw [hp]; rfl) (by rw [hp]; rfl)
    · obtain ⟨hnd, hmem⟩ := h.queue _ v hv
      have hout : j ∉ v.queue := by
        intro hj
        obtain ⟨y, hy, -, hyq⟩ := (hmem j).mp hj
        rw [hx] at hy
        cases hy
        rw [hp] at hyq
        cases hyq
      refine h.change hx hv ⟨rfl, hok, ?_, id, by rw [hp]; rfl, ?_, ?_, ?_⟩
      · intro y _ _ hy
        exact hy
      · exact List.nodup_append.mpr ⟨hnd, List.nodup_singleton j, fun a ha b hb hab => hout (by
          rw [← List.mem_singleton.mp hb, ← hab]; exact ha)⟩
      · intro i
        by_cases hij : i = j
        · subst hij
          simp [JobPhase.isQueued]
        · simp [hij]
      · intro hphase
        rcases hphase with hphase | hphase <;> rw [hphase] at hopen <;> exact absurd rfl hopen

/-- The request at the head of the queue leaves it. -/
theorem Inv.unqueue {s : Supervision ε} (h : s.Inv) {k j : Nat} {x x' : SupervisedJob ε} {v : SupervisorState} {permits : Nat}
    {rest : List Nat} (hv : s.supervisors[k]? = some v) (hq : v.queue = j :: rest) (hx : s.jobs[j]? = some x)
    (howner : x'.owner = x.owner) (hok : x.Inert ∧ x.result = none → x'.Ok s.poisoned v.phase)
    (hcount : permits + x'.phase.holds.toNat = s.permits + 1) (hqueued : x'.phase.isQueued = false) :
    Inv { s with permits := permits, jobs := s.jobs.set j x',
                 supervisors := s.supervisors.set k { v with queue := rest } } := by
  obtain ⟨hnd, hmem⟩ := h.queue k v hv
  obtain ⟨y, hy, ho, hyq⟩ := (hmem j).mp (by rw [hq]; exact List.mem_cons_self)
  rw [hx] at hy
  cases hy
  subst ho
  have hp : x.phase = .queued := by
    cases hph : x.phase <;> rw [hph] at hyq <;> first | rfl | cases hyq
  have hokx := h.jobOk hx hv
  rw [SupervisedJob.Ok, hp] at hokx
  rw [hq] at hnd
  obtain ⟨hjrest, hndrest⟩ := List.nodup_cons.mp hnd
  refine h.change hx hv ⟨howner, hok hokx, fun _ _ _ hy => hy, id, by rw [hp]; exact hcount, hndrest, ?_, ?_⟩
  · intro i
    rw [hq]
    by_cases hij : i = j
    · subst hij
      simp [hqueued, hjrest]
    · simp [hij]
  · intro hphase
    have hnil := h.emptied v (List.mem_of_getElem? hv) hphase
    rw [hq] at hnil
    cases hnil

theorem Inv.forget {s : Supervision ε} (h : s.Inv) {k j : Nat} {x : SupervisedJob ε} {v : SupervisorState}
    {rest : List Nat} (hv : s.supervisors[k]? = some v) (hq : v.queue = j :: rest) (hx : s.jobs[j]? = some x) :
    (s.forget k j x v rest).Inv :=
  h.unqueue hv hq hx rfl (fun hi => refused_ok hi.1 _ _ _) rfl rfl

theorem Inv.receive {s : Supervision ε} (h : s.Inv) {k j : Nat} {x : SupervisedJob ε} {v : SupervisorState}
    {rest : List Nat} (hv : s.supervisors[k]? = some v) (hq : v.queue = j :: rest) (hx : s.jobs[j]? = some x)
    (hp : v.phase = .looping) : (s.receive k j x v rest).Inv := by
  unfold Supervision.receive
  split
  · refine h.unqueue hv hq hx rfl ?_ rfl rfl
    intro hi
    refine ⟨hi.1, hi.2, ?_⟩
    rw [hp]
    decide
  · exact h.forget hv hq hx

theorem Inv.discard {s : Supervision ε} (h : s.Inv) {j : Nat} {x : SupervisedJob ε} {v : SupervisorState}
    (hx : s.jobs[j]? = some x) (hv : s.supervisors[x.owner]? = some v) (ha : v.phase = .aborting) : (s.discard j x).Inv := by
  have hok := h.jobOk hx hv
  unfold Supervision.discard
  split
  · rename_i hp
    rw [SupervisedJob.Ok, hp] at hok
    exact h.changeJob hx hv rfl (refused_ok hok.1 _ _ _) id (by rw [hp]; rfl) (by rw [hp]; rfl)
  · rename_i hp
    rw [SupervisedJob.Ok, hp] at hok
    exact h.changeJob hx hv rfl ⟨⟨hok.1.1.le, hok.1.2.1, rfl, rfl⟩, hok.2.1, ha⟩ (fun _ => rfl) (by rw [hp]; rfl)
      (by rw [hp]; rfl)
  · rename_i hp
    rw [SupervisedJob.Ok, hp] at hok
    exact h.changeJob hx hv rfl ⟨⟨hok.1.1, hok.1.2.1, rfl, rfl⟩, hok.2.1, ha⟩ (fun _ => rfl) (by rw [hp]; rfl)
      (by rw [hp]; rfl)
  · rename_i hp
    rw [SupervisedJob.Ok, hp] at hok
    exact h.changeJob hx hv rfl ⟨Or.inr (Or.inr ⟨hok.1, Or.inl ha⟩), rfl⟩ id (by rw [hp]; rfl) (by rw [hp]; rfl)
  · rename_i c hp
    rw [SupervisedJob.Ok, hp] at hok
    exact h.changeJob hx hv rfl ⟨Or.inr (Or.inl ⟨c, hok.1⟩), hok.2.1⟩ id (by rw [hp]; rfl) (by rw [hp]; rfl)
  · exact h

theorem onJob_cases {s : Supervision ε} {P : Supervision ε → Prop} (h : P s) {j : Nat}
    {f : SupervisedJob ε → SupervisorState → Supervision ε}
    (hf : ∀ x v, s.jobs[j]? = some x → s.supervisors[x.owner]? = some v → P (f x v)) : P (s.onJob j f) := by
  unfold onJob
  split
  · rename_i x hx
    split
    · rename_i v hv
      exact hf x v hx hv
    · exact h
  · exact h

theorem onSupervisor_cases {s : Supervision ε} {P : Supervision ε → Prop} (h : P s) {k : Nat}
    {f : SupervisorState → Supervision ε} (hf : ∀ v, s.supervisors[k]? = some v → P (f v)) : P (s.onSupervisor k f) := by
  unfold onSupervisor
  split
  · rename_i v hv
    exact hf v hv
  · exact h

theorem onQueue_cases {s : Supervision ε} {P : Supervision ε → Prop} (h : P s) {v : SupervisorState}
    {f : Nat → SupervisedJob ε → List Nat → Supervision ε}
    (hf : ∀ j x rest, v.queue = j :: rest → s.jobs[j]? = some x → P (f j x rest)) : P (s.onQueue v f) := by
  unfold onQueue
  split
  · rename_i j rest hq
    split
    · rename_i x hx
      exact hf j x rest hq hx
    · exact h
  · exact h

theorem Inv.channel {s : Supervision ε} (h : s.Inv) (limit : Nat) :
    Inv { s with supervisors := s.supervisors ++ [⟨limit, [], .idle, false, false, false⟩] } := by
  have hold {k : Nat} {v : SupervisorState} (hv : s.supervisors[k]? = some v) :
      (s.supervisors ++ [⟨limit, [], .idle, false, false, false⟩])[k]? = some v :=
    (List.getElem?_append_left (List.getElem?_eq_some_iff.mp hv).1).trans hv
  refine ⟨h.count, ?_, ?_, ?_⟩
  · intro x hx
    obtain ⟨v, hv, hok⟩ := h.jobs x hx
    exact ⟨v, hold hv, hok⟩
  · intro k v hv
    by_cases hlt : k < s.supervisors.length
    · rw [List.getElem?_append_left hlt] at hv
      exact h.queue k v hv
    · rw [List.getElem?_append_right (Nat.le_of_not_lt hlt)] at hv
      obtain rfl := List.mem_singleton.mp (List.mem_of_getElem? hv)
      refine ⟨List.nodup_nil, ?_⟩
      intro j
      refine ⟨fun hj => (by cases hj), ?_⟩
      rintro ⟨x, hx, rfl, -⟩
      obtain ⟨w, hw, -⟩ := h.jobs x (List.mem_of_getElem? hx)
      exact absurd (List.getElem?_eq_some_iff.mp hw).1 hlt
  · intro v hv hp
    rcases List.mem_append.mp hv with hv | hv
    · exact h.emptied v hv hp
    · rw [List.mem_singleton.mp hv]

theorem Inv.execute {s : Supervision ε} (h : s.Inv) {x : SupervisedJob ε} {v : SupervisorState}
    (hv : s.supervisors[x.owner]? = some v) (hok : x.Ok s.poisoned v.phase) (hholds : x.phase.holds = false)
    (hqueued : x.phase.isQueued = false) : Inv { s with jobs := s.jobs ++ [x] } := by
  refine ⟨?_, ?_, ?_, h.emptied⟩
  · change s.permits + (s.jobs ++ [x]).countP _ = s.capacity
    rw [List.countP_append, List.countP_singleton, hholds]
    exact h.count
  · intro y hy
    rcases List.mem_append.mp hy with hy | hy
    · exact h.jobs y hy
    · rw [List.mem_singleton.mp hy]
      exact ⟨v, hv, hok⟩
  · intro k w hw
    obtain ⟨hnd, hmem⟩ := h.queue k w hw
    refine ⟨hnd, ?_⟩
    intro j
    rw [hmem j]
    constructor
    · rintro ⟨y, hy, hyo, hyq⟩
      exact ⟨y, (List.getElem?_append_left (List.getElem?_eq_some_iff.mp hy).1).trans hy, hyo, hyq⟩
    · rintro ⟨y, hy, hyo, hyq⟩
      by_cases hlt : j < s.jobs.length
      · rw [List.getElem?_append_left hlt] at hy
        exact ⟨y, hy, hyo, hyq⟩
      · rw [List.getElem?_append_right (Nat.le_of_not_lt hlt)] at hy
        obtain rfl := List.mem_singleton.mp (List.mem_of_getElem? hy)
        rw [hqueued] at hyq
        cases hyq

theorem Inv.observe {s : Supervision ε} (h : s.Inv) {j : Nat} {x : SupervisedJob ε} {v : SupervisorState} {clean : Bool}
    (hx : s.jobs[j]? = some x) (hv : s.supervisors[x.owner]? = some v) (hp : x.phase = .replied clean) :
    (s.observe j x v clean).Inv := by
  have hok := h.jobOk hx hv
  rw [SupervisedJob.Ok, hp] at hok
  obtain ⟨hnd, hmem⟩ := h.queue _ v hv
  have hbroken : SupervisorPhase.Owns .broken := by decide
  have hqueue : ∀ i, i ∈ v.queue ↔ (i = j ∧ JobPhase.isQueued (.gone : JobPhase ε) = true) ∨ (i ≠ j ∧ i ∈ v.queue) := by
    intro i
    by_cases hij : i = j
    · subst hij
      simp only [JobPhase.isQueued, hmem i]
      simp only [Bool.false_eq_true, and_false, ne_eq, not_true_eq_false, false_and, or_false, iff_false]
      rintro ⟨y, hy, -, hyq⟩
      rw [hx] at hy
      cases hy
      rw [hp] at hyq
      cases hyq
    · simp [hij]
  unfold Supervision.observe
  split
  · refine h.change hx hv ⟨rfl, ⟨Or.inr (Or.inl ⟨clean, hok.1⟩), hok.2.1⟩, fun _ _ _ hy => hy, id, by rw [hp]; rfl, hnd, hqueue,
      h.emptied v (List.mem_of_getElem? hv)⟩
  · refine h.change hx hv ⟨rfl, ⟨Or.inr (Or.inl ⟨clean, hok.1⟩), hok.2.1⟩, ?_, id, by rw [hp]; rfl, hnd, hqueue, ?_⟩
    · intro y _ _ hy
      dsimp only
      split
      · rename_i hl
        refine hy.mono id (fun _ _ => ⟨hbroken, fun ha => ?_⟩) ?_
        · rw [hl] at ha
          cases ha
        · intro ha
          rcases ha with ha | ha <;> rw [hl] at ha <;> cases ha
      · exact hy
    · dsimp only
      split
      · intro hphase
        rcases hphase with hphase | hphase <;> cases hphase
      · exact h.emptied v (List.mem_of_getElem? hv)

/-- Phases without owned jobs left out, each phase goes on to one that may own them. -/
theorem owns_next {p p' : SupervisorPhase} (hp : p ≠ .aborting) (hown : p'.Owns) :
    p.Owns → p'.Owns ∧ (p = .aborting → p' = .aborting) := fun _ => ⟨hown, fun ha => absurd ha hp⟩

theorem Inv.step {s : Supervision ε} (h : s.Inv) (e : Event ε) : (s.step e).Inv := by
  have hgo {k : Nat} {v : SupervisorState} {p p' : SupervisorPhase} {c : Bool} (hv : s.supervisors[k]? = some v)
      (hp : v.phase = p) (hne : p ≠ .aborting ∧ p ≠ .dropped) (hown : p'.Owns) (hj : p' = .joining → v.queue = []) :
      (s.setSupervisor k { v with phase := p', closed := c }).Inv := by
    refine h.changeSupervisor hv rfl (Or.inr (owns_next (hp ▸ hne.1) hown)) ?_ ?_
    · intro ha
      rw [hp] at ha
      rcases ha with ha | ha
      · exact absurd ha hne.1
      · exact absurd ha hne.2
    · intro hphase
      rcases hphase with hphase | hphase
      · exact hj hphase
      · exact absurd hphase hown.2.1
  cases e with
  | channel limit => exact h.channel limit
  | execute k =>
    refine onSupervisor_cases h ?_
    intro v hv
    split
    · exact h.execute hv ⟨Or.inl ⟨rfl, rfl, rfl⟩, rfl⟩ rfl rfl
    · exact h.execute hv ⟨⟨rfl, rfl, rfl⟩, rfl⟩ rfl rfl
  | acquire j =>
    refine onJob_cases h ?_
    intro x v hx hv
    split
    · exact h.acquire hx hv ‹_›
    · exact h
  | send j =>
    refine onJob_cases h ?_
    intro x v hx hv
    split
    · exact h.send hx hv ‹_›
    · exact h
  | abandon j =>
    refine onJob_cases h ?_
    intro x v hx hv
    split
    · exact h
    · exact h
    · have hok := h.jobOk hx hv
      exact h.changeJob hx hv rfl hok id rfl rfl
  | start k =>
    refine onSupervisor_cases h ?_
    intro v hv
    split
    · exact hgo hv ‹_› (by decide) (by decide) fun he => (by cases he)
    · exact h
  | request k =>
    refine onSupervisor_cases h ?_
    intro v hv
    exact h.changeSupervisor hv rfl (Or.inr fun hp => ⟨hp, id⟩) id (h.emptied v (List.mem_of_getElem? hv))
  | receive k =>
    refine onSupervisor_cases h ?_
    intro v hv
    split
    · rename_i hl
      refine onQueue_cases h ?_
      intro j x rest hq hx
      exact h.receive hv hq hx hl.1
    · exact h
  | «break» k =>
    refine onSupervisor_cases h ?_
    intro v hv
    split
    · rename_i hl
      exact hgo hv hl.1 (by decide) (by decide) fun he => (by cases he)
    · exact h
  | mark k =>
    refine onSupervisor_cases h ?_
    intro v hv
    split
    · exact hgo hv ‹_› (by decide) (by decide) fun he => (by cases he)
    · exact h
  | close k =>
    refine onSupervisor_cases h ?_
    intro v hv
    split
    · exact hgo hv ‹_› (by decide) (by decide) fun he => (by cases he)
    · exact h
  | drain k =>
    refine onSupervisor_cases h ?_
    intro v hv
    split
    · refine onQueue_cases h ?_
      intro j x rest hq hx
      exact h.forget hv hq hx
    · exact h
  | stop k =>
    refine onSupervisor_cases h ?_
    intro v hv
    split
    · rename_i hl
      exact hgo hv hl.1 (by decide) (by decide) fun _ => hl.2
    · exact h
  | «return» k =>
    refine onSupervisor_cases h ?_
    intro v hv
    split
    · rename_i hl
      refine h.changeSupervisor hv rfl (Or.inl hl.2) ?_ fun _ => h.emptied v (List.mem_of_getElem? hv) (Or.inl hl.1)
      intro ha
      rcases ha with ha | ha <;> rw [hl.1] at ha <;> cases ha
    · exact h
  | poll j =>
    refine onJob_cases h ?_
    intro x v hx hv
    split
    · rename_i hp
      have hok := h.jobOk hx hv
      rw [SupervisedJob.Ok, hp] at hok
      split
      · unfold Supervision.poll
        split
        · exact h.changeJob hx hv rfl ⟨⟨hok.1.1.le.trans (Nat.zero_le 1), hok.1.2⟩, hok.2⟩ id (by rw [hp]; rfl)
            (by rw [hp]; rfl)
        · exact h.changeJob hx hv rfl ⟨⟨congrArg (· + 1) hok.1.1, hok.1.2⟩, hok.2⟩ id (by rw [hp]; rfl) (by rw [hp]; rfl)
      · exact h
    · exact h
  | finish j result =>
    refine onJob_cases h ?_
    intro x v hx hv
    split
    · rename_i hp
      have hok := h.jobOk hx hv
      rw [SupervisedJob.Ok, hp] at hok
      split
      · exact h.changeJob hx hv rfl ⟨⟨hok.1.1.le, hok.1.2⟩, hok.2⟩ id (by rw [hp]; rfl) (by rw [hp]; rfl)
      · exact h
    · exact h
  | cancel j =>
    refine onJob_cases h ?_
    intro x v hx hv
    split
    · rename_i hp
      have hok := h.jobOk hx hv
      rw [SupervisedJob.Ok, hp] at hok
      split
      · exact h.changeJob hx hv rfl ⟨⟨hok.1.1.le, hok.1.2⟩, hok.2⟩ id (by rw [hp]; rfl) (by rw [hp]; rfl)
      · exact h
    · exact h
  | cleanup j clean =>
    refine onJob_cases h ?_
    intro x v hx hv
    split
    · rename_i result hp
      have hok := h.jobOk hx hv
      rw [SupervisedJob.Ok, hp] at hok
      split
      · refine h.changeJob hx hv rfl ⟨⟨hok.1.1, ?_, hok.1.2.2, ?_⟩, hok.2⟩ ?_ (by rw [hp]; rfl) (by rw [hp]; rfl)
        · rw [hok.1.2.1]
          rfl
        · intro hc
          rw [hc, Bool.not_false, Bool.or_true]
        · intro hb
          rw [hb, Bool.true_or]
      · exact h
    · exact h
  | release j =>
    refine onJob_cases h ?_
    intro x v hx hv
    split
    · rename_i result clean hp
      have hok := h.jobOk hx hv
      rw [SupervisedJob.Ok, hp] at hok
      exact h.changeJob hx hv rfl hok id (by rw [hp]; rfl) (by rw [hp]; rfl)
    · exact h
  | reply j =>
    refine onJob_cases h ?_
    intro x v hx hv
    split
    · rename_i result clean hp
      have hok := h.jobOk hx hv
      rw [SupervisedJob.Ok, hp] at hok
      exact h.changeJob hx hv rfl ⟨hok.1, rfl, hok.2.2⟩ id (by rw [hp]; rfl) (by rw [hp]; rfl)
    · exact h
  | observe j =>
    refine onJob_cases h ?_
    intro x v hx hv
    split
    · rename_i clean hp
      split
      · exact h.observe hx hv hp
      · exact h
    · exact h
  | abort k =>
    refine onSupervisor_cases h ?_
    intro v hv
    split
    · refine h.changeSupervisor hv rfl (Or.inr fun _ => ⟨?_, fun _ => rfl⟩) (fun _ => Or.inl rfl) ?_
      · show SupervisorPhase.Owns .aborting
        decide
      intro hphase
      rcases hphase with hphase | hphase <;> cases hphase
    · exact h
  | discard j =>
    refine onJob_cases h ?_
    intro x v hx hv
    split
    · exact h.discard hx hv ‹_›
    · exact h
  | drop k =>
    refine onSupervisor_cases h ?_
    intro v hv
    split
    · rename_i hl
      refine h.changeSupervisor hv rfl (Or.inl hl.2) (fun _ => Or.inr rfl) ?_
      intro hphase
      rcases hphase with hphase | hphase <;> cases hphase
    · exact h

theorem run_inv (capacity : Nat) (es : List (Event ε)) : (run step (start capacity) es).Inv :=
  Run.invariant (fun _ e h => h.step e) (inv_start capacity) es

/-- What one step may make of a job. -/
structure Follows (s : Supervision ε) (x x' : SupervisedJob ε) : Prop where
  runs : x'.runs = x.runs ∨ (x.phase = .held ∧ x'.phase = .running ∧ x'.runs = x.runs + 1)
  result : x.result.isSome = true → x'.result = x.result
  gone : x.phase = .gone → x'.phase = .gone ∧ x'.runs = x.runs
  holds : x'.phase.holds = true → x.phase.holds = true ∨ s.poisoned = false

theorem Follows.refl (s : Supervision ε) (x : SupervisedJob ε) : s.Follows x x :=
  ⟨Or.inl rfl, fun _ => rfl, fun h => ⟨h, rfl⟩, Or.inl⟩

theorem result_none {x : SupervisedJob ε} {b : Bool} {p : SupervisorPhase} (hok : x.Ok b p) (hs : x.phase.settled = false) :
    x.result = none := by
  unfold SupervisedJob.Ok at hok
  cases hp : x.phase <;> rw [hp] at hok hs
  case gone => cases hs
  case replied c => cases hs
  case checked => exact hok.2
  case permitted => exact hok.2
  case queued => exact hok.2
  all_goals exact hok.2.1

/-- A job that is neither over nor begun by the step. -/
theorem follows_of {s : Supervision ε} {x x' : SupervisedJob ε} {b : Bool} {p : SupervisorPhase} (hok : x.Ok b p)
    (hs : x.phase.settled = false) (hruns : x'.runs = x.runs) (hholds : x'.phase.holds = true → x.phase.holds = true) :
    s.Follows x x' := by
  refine ⟨Or.inl hruns, ?_, ?_, fun hh => Or.inl (hholds hh)⟩
  · intro hr
    rw [result_none hok hs] at hr
    cases hr
  · intro hg
    rw [hg] at hs
    cases hs

/-- Every job goes on from where it was, and a closed semaphore stays closed. -/
def Onward (s s' : Supervision ε) : Prop :=
  (s.poisoned = true → s'.poisoned = true) ∧
    ∀ (i : Nat) y, s.jobs[i]? = some y → ∃ y', s'.jobs[i]? = some y' ∧ s.Follows y y'

theorem Onward.refl (s : Supervision ε) : s.Onward s := ⟨id, fun _ y hy => ⟨y, hy, .refl s y⟩⟩

theorem onward_of_eq {s s' : Supervision ε} (hb : s.poisoned = true → s'.poisoned = true) (hjobs : s'.jobs = s.jobs) :
    s.Onward s' := by
  refine ⟨hb, ?_⟩
  intro i y hy
  exact ⟨y, hjobs ▸ hy, .refl s y⟩

theorem onward_set {s s' : Supervision ε} {j : Nat} {x x' : SupervisedJob ε} (hx : s.jobs[j]? = some x)
    (hb : s.poisoned = true → s'.poisoned = true) (hjobs : s'.jobs = s.jobs.set j x') (hf : s.Follows x x') :
    s.Onward s' := by
  refine ⟨hb, ?_⟩
  intro i y hy
  rw [hjobs]
  by_cases hij : i = j
  · subst hij
    rw [hx] at hy
    cases hy
    exact ⟨x', List.getElem?_set_self (List.getElem?_eq_some_iff.mp hx).1, hf⟩
  · exact ⟨y, (List.getElem?_set_ne (Ne.symm hij)).trans hy, .refl s y⟩

theorem Inv.onward_queue {s s' : Supervision ε} (h : s.Inv) {k j : Nat} {x x' : SupervisedJob ε} {v : SupervisorState}
    {rest : List Nat} (hv : s.supervisors[k]? = some v) (hq : v.queue = j :: rest) (hx : s.jobs[j]? = some x)
    (hb : s.poisoned = true → s'.poisoned = true) (hjobs : s'.jobs = s.jobs.set j x') (hruns : x'.runs = x.runs) :
    s.Onward s' := by
  obtain ⟨y, hy, ho, hyq⟩ := ((h.queue k v hv).2 j).mp (by rw [hq]; exact List.mem_cons_self)
  rw [hx] at hy
  cases hy
  subst ho
  have hp : x.phase = .queued := by
    cases hph : x.phase <;> rw [hph] at hyq <;> first | rfl | cases hyq
  exact onward_set hx hb hjobs (follows_of (h.jobOk hx hv) (by rw [hp]; rfl) hruns fun _ => (by rw [hp]; rfl))

/-- A step of a job that is under way. -/
theorem Inv.onward_job {s s' : Supervision ε} (h : s.Inv) {j : Nat} {x x' : SupervisedJob ε} {v : SupervisorState}
    (hx : s.jobs[j]? = some x) (hv : s.supervisors[x.owner]? = some v) (hs : x.phase.settled = false)
    (hb : s.poisoned = true → s'.poisoned = true) (hjobs : s'.jobs = s.jobs.set j x')
    (hruns : x'.runs = x.runs) (hholds : x'.phase.holds = true → x.phase.holds = true) : s.Onward s' :=
  onward_set hx hb hjobs (follows_of (h.jobOk hx hv) hs hruns hholds)

theorem Inv.onward {s : Supervision ε} (h : s.Inv) (e : Event ε) : s.Onward (s.step e) := by
  have hsup {k : Nat} {v : SupervisorState} : s.Onward (s.setSupervisor k v) := onward_of_eq id rfl
  cases e with
  | channel limit => exact onward_of_eq id rfl
  | execute k =>
    refine onSupervisor_cases (.refl s) ?_
    intro v _
    refine ⟨id, ?_⟩
    intro i y hy
    exact ⟨y, (List.getElem?_append_left (List.getElem?_eq_some_iff.mp hy).1).trans hy, .refl s y⟩
  | acquire j =>
    refine onJob_cases (.refl s) ?_
    intro x v hx hv
    split
    · rename_i hp
      unfold Supervision.acquire
      split
      · exact h.onward_job hx hv (by rw [hp]; rfl) id rfl rfl Bool.noConfusion
      · rename_i hopen
        split
        · exact h.onward_job hx hv (by rw [hp]; rfl) id rfl rfl Bool.noConfusion
        · refine onward_set hx id rfl ⟨Or.inl rfl, fun _ => rfl, ?_, fun _ => Or.inr (Bool.eq_false_iff.mpr hopen)⟩
          intro hg
          rw [hp] at hg
          cases hg
    · exact .refl s
  | send j =>
    refine onJob_cases (.refl s) ?_
    intro x v hx hv
    split
    · rename_i hp
      unfold Supervision.send
      split
      · exact h.onward_job hx hv (by rw [hp]; rfl) id rfl rfl Bool.noConfusion
      · split
        · exact h.onward_job hx hv (by rw [hp]; rfl) id rfl rfl Bool.noConfusion
        · exact h.onward_job hx hv (by rw [hp]; rfl) id rfl rfl fun _ => (by rw [hp]; rfl)
    · exact .refl s
  | abandon j =>
    refine onJob_cases (.refl s) ?_
    intro x v hx hv
    split
    · exact .refl s
    · exact .refl s
    · exact onward_set hx id rfl ⟨Or.inl rfl, fun _ => rfl, fun hg => ⟨hg, rfl⟩, Or.inl⟩
  | start k =>
    refine onSupervisor_cases (.refl s) ?_
    intro v _
    split
    · exact hsup
    · exact .refl s
  | request k =>
    refine onSupervisor_cases (.refl s) ?_
    intro v _
    exact hsup
  | receive k =>
    refine onSupervisor_cases (.refl s) ?_
    intro v hv
    split
    · refine onQueue_cases (.refl s) ?_
      intro j x rest hq hx
      unfold Supervision.receive
      split
      · exact h.onward_queue hv hq hx id rfl rfl
      · exact h.onward_queue hv hq hx id rfl rfl
    · exact .refl s
  | «break» k =>
    refine onSupervisor_cases (.refl s) ?_
    intro v _
    split
    · exact hsup
    · exact .refl s
  | mark k =>
    refine onSupervisor_cases (.refl s) ?_
    intro v _
    split
    · exact hsup
    · exact .refl s
  | close k =>
    refine onSupervisor_cases (.refl s) ?_
    intro v _
    split
    · exact hsup
    · exact .refl s
  | drain k =>
    refine onSupervisor_cases (.refl s) ?_
    intro v hv
    split
    · refine onQueue_cases (.refl s) ?_
      intro j x rest hq hx
      exact h.onward_queue hv hq hx id rfl rfl
    · exact .refl s
  | stop k =>
    refine onSupervisor_cases (.refl s) ?_
    intro v _
    split
    · exact hsup
    · exact .refl s
  | «return» k =>
    refine onSupervisor_cases (.refl s) ?_
    intro v _
    split
    · exact hsup
    · exact .refl s
  | poll j =>
    refine onJob_cases (.refl s) ?_
    intro x v hx hv
    split
    · rename_i hp
      split
      · unfold Supervision.poll
        split
        · exact h.onward_job hx hv (by rw [hp]; rfl) id rfl rfl fun _ => (by rw [hp]; rfl)
        · refine onward_set hx id rfl ⟨Or.inr ⟨hp, rfl, rfl⟩, fun _ => rfl, ?_, fun _ => Or.inl (by rw [hp]; rfl)⟩
          intro hg
          rw [hp] at hg
          cases hg
      · exact .refl s
    · exact .refl s
  | finish j result =>
    refine onJob_cases (.refl s) ?_
    intro x v hx hv
    split
    · rename_i hp
      split
      · exact h.onward_job hx hv (by rw [hp]; rfl) id rfl rfl fun _ => (by rw [hp]; rfl)
      · exact .refl s
    · exact .refl s
  | cancel j =>
    refine onJob_cases (.refl s) ?_
    intro x v hx hv
    split
    · rename_i hp
      split
      · exact h.onward_job hx hv (by rw [hp]; rfl) id rfl rfl fun _ => (by rw [hp]; rfl)
      · exact .refl s
    · exact .refl s
  | cleanup j clean =>
    refine onJob_cases (.refl s) ?_
    intro x v hx hv
    split
    · rename_i result hp
      split
      · refine h.onward_job hx hv (by rw [hp]; rfl) ?_ rfl rfl fun _ => (by rw [hp]; rfl)
        intro hb
        change (s.poisoned || !clean) = true
        rw [hb, Bool.true_or]
      · exact .refl s
    · exact .refl s
  | release j =>
    refine onJob_cases (.refl s) ?_
    intro x v hx hv
    split
    · rename_i result clean hp
      exact h.onward_job hx hv (by rw [hp]; rfl) id rfl rfl Bool.noConfusion
    · exact .refl s
  | reply j =>
    refine onJob_cases (.refl s) ?_
    intro x v hx hv
    split
    · rename_i result clean hp
      exact h.onward_job hx hv (by rw [hp]; rfl) id rfl rfl Bool.noConfusion
    · exact .refl s
  | observe j =>
    refine onJob_cases (.refl s) ?_
    intro x v hx hv
    split
    · split
      · exact onward_set hx id rfl ⟨Or.inl rfl, fun _ => rfl, fun _ => ⟨rfl, rfl⟩, Bool.noConfusion⟩
      · exact .refl s
    · exact .refl s
  | abort k =>
    refine onSupervisor_cases (.refl s) ?_
    intro v _
    split
    · exact hsup
    · exact .refl s
  | discard j =>
    refine onJob_cases (.refl s) ?_
    intro x v hx hv
    split
    · unfold Supervision.discard
      split
      · rename_i hp
        exact h.onward_job hx hv (by rw [hp]; rfl) id rfl rfl Bool.noConfusion
      · rename_i hp
        exact h.onward_job hx hv (by rw [hp]; rfl) (fun _ => rfl) rfl rfl fun _ => (by rw [hp]; rfl)
      · rename_i hp
        exact h.onward_job hx hv (by rw [hp]; rfl) (fun _ => rfl) rfl rfl fun _ => (by rw [hp]; rfl)
      · rename_i hp
        exact h.onward_job hx hv (by rw [hp]; rfl) id rfl rfl Bool.noConfusion
      · exact onward_set hx id rfl ⟨Or.inl rfl, fun _ => rfl, fun _ => ⟨rfl, rfl⟩, Bool.noConfusion⟩
      · exact .refl s
    · exact .refl s
  | drop k =>
    refine onSupervisor_cases (.refl s) ?_
    intro v _
    split
    · exact hsup
    · exact .refl s

/-- A job that is over has no more steps. -/
theorem Inv.gone_run {s : Supervision ε} (h : s.Inv) {j : Nat} {x : SupervisedJob ε} (hx : s.jobs[j]? = some x)
    (hg : x.phase = .gone) (es : List (Event ε)) :
    ∃ x', (run Supervision.step s es).jobs[j]? = some x' ∧ x'.runs = x.runs := by
  induction es generalizing s x with
  | nil => exact ⟨x, hx, rfl⟩
  | cons e es ih =>
    obtain ⟨y, hy, hf⟩ := (h.onward e).2 j x hx
    obtain ⟨hyg, hyr⟩ := hf.gone hg
    obtain ⟨z, hz, hzr⟩ := ih (h.step e) hy hyg
    exact ⟨z, hz, hzr.trans hyr⟩

theorem Inv.bounds {s : Supervision ε} (h : s.Inv) {x : SupervisedJob ε} (hx : x ∈ s.jobs) :
    x.runs ≤ 1 ∧ x.clean.length ≤ 1 ∧ (0 < x.runs → x.phase.holds = false → x.clean.length = 1 ∨
      (x.torn = true ∧ ∃ v, s.supervisors[x.owner]? = some v ∧ v.phase.Aborted)) ∧
      (false ∈ x.clean ∨ x.torn = true → s.poisoned = true) := by
  obtain ⟨v, hv, hok⟩ := h.jobs x hx
  have hinert (hi : x.Inert) : x.runs ≤ 1 ∧ x.clean.length ≤ 1 ∧ (0 < x.runs → x.phase.holds = false → x.clean.length = 1 ∨
      (x.torn = true ∧ ∃ v, s.supervisors[x.owner]? = some v ∧ v.phase.Aborted)) ∧
      (false ∈ x.clean ∨ x.torn = true → s.poisoned = true) := by
    obtain ⟨hr, hc, ht⟩ := hi
    rw [hr, hc, ht]
    simp
  have hcleaned {clean : Bool} (hi : x.Cleaned s.poisoned clean) : x.runs ≤ 1 ∧ x.clean.length ≤ 1 ∧
      (0 < x.runs → x.phase.holds = false → x.clean.length = 1 ∨
      (x.torn = true ∧ ∃ v, s.supervisors[x.owner]? = some v ∧ v.phase.Aborted)) ∧
      (false ∈ x.clean ∨ x.torn = true → s.poisoned = true) := by
    obtain ⟨hr, hc, ht, hp⟩ := hi
    rw [hc, ht]
    refine ⟨hr, le_refl _, fun _ _ => Or.inl rfl, ?_⟩
    rintro (hf | hf)
    · exact hp (List.mem_singleton.mp hf).symm
    · cases hf
  have hbegun (hr : x.runs ≤ 1) (hc : x.clean = []) (ht : x.torn = false) (hh : x.phase.holds = true) :
      x.runs ≤ 1 ∧ x.clean.length ≤ 1 ∧ (0 < x.runs → x.phase.holds = false → x.clean.length = 1 ∨
      (x.torn = true ∧ ∃ v, s.supervisors[x.owner]? = some v ∧ v.phase.Aborted)) ∧
      (false ∈ x.clean ∨ x.torn = true → s.poisoned = true) := by
    rw [hc, ht, hh]
    exact ⟨hr, Nat.zero_le 1, fun _ hf => (by cases hf), fun hf => (by simp at hf)⟩
  unfold SupervisedJob.Ok at hok
  cases hp : x.phase with
  | checked =>
    rw [hp] at hok
    exact hp ▸ hinert hok.1
  | permitted =>
    rw [hp] at hok
    exact hp ▸ hinert hok.1
  | queued =>
    rw [hp] at hok
    exact hp ▸ hinert hok.1
  | held =>
    rw [hp] at hok
    exact hp ▸ hinert hok.1
  | running =>
    rw [hp] at hok
    exact hp ▸ hbegun hok.1.1.le hok.1.2.1 hok.1.2.2 (by rw [hp]; rfl)
  | cleaning r =>
    rw [hp] at hok
    exact hp ▸ hbegun hok.1.1 hok.1.2.1 hok.1.2.2 (by rw [hp]; rfl)
  | cleaned r c =>
    rw [hp] at hok
    exact hp ▸ hcleaned hok.1
  | released r c =>
    rw [hp] at hok
    exact hp ▸ hcleaned hok.1
  | replied c =>
    rw [hp] at hok
    exact hp ▸ hcleaned hok.1
  | dropping =>
    rw [hp] at hok
    obtain ⟨⟨hr, hc, -, hb⟩, -, -⟩ := hok
    rw [hc]
    exact ⟨hr, Nat.zero_le 1, fun _ hf => (by cases hf), fun _ => hb⟩
  | gone =>
    rw [hp] at hok
    rcases hok.1 with hi | ⟨c, hi⟩ | ⟨⟨hr, hc, ht, hb⟩, ha⟩
    · exact hp ▸ hinert hi
    · exact hp ▸ hcleaned hi
    · rw [hc]
      exact ⟨hr, Nat.zero_le 1, fun _ _ => Or.inr ⟨ht, v, hv, ha⟩, fun _ => hb⟩

/-- A call without an answer is on its way, queued or owned. -/
theorem Inv.unanswered {s : Supervision ε} (h : s.Inv) {j : Nat} {x : SupervisedJob ε} (hx : s.jobs[j]? = some x)
    (hr : x.result = none) : ∃ v, s.supervisors[x.owner]? = some v ∧
      (x.phase = .checked ∨ x.phase = .permitted ∨ (j ∈ v.queue ∧ v.phase ≠ .joining ∧ v.phase ≠ .returned) ∨
        (x.phase.owned = true ∧ v.phase.Owns)) := by
  obtain ⟨v, hv, hok⟩ := h.jobs x (List.mem_of_getElem? hx)
  refine ⟨v, hv, ?_⟩
  unfold SupervisedJob.Ok at hok
  cases hp : x.phase with
  | checked => exact Or.inl rfl
  | permitted => exact Or.inr (Or.inl rfl)
  | queued =>
    have hin : j ∈ v.queue := ((h.queue _ v hv).2 j).mpr ⟨x, hx, rfl, by rw [hp]; rfl⟩
    have hne : v.queue ≠ [] := List.ne_nil_of_mem hin
    refine Or.inr (Or.inr (Or.inl ⟨hin, ?_, ?_⟩))
    · intro hph
      exact hne (h.emptied v (List.mem_of_getElem? hv) (Or.inl hph))
    · intro hph
      exact hne (h.emptied v (List.mem_of_getElem? hv) (Or.inr hph))
  | gone =>
    rw [hp, hr] at hok
    cases hok.2
  | replied c =>
    rw [hp, hr] at hok
    cases hok.2.1
  | dropping =>
    rw [hp] at hok
    refine Or.inr (Or.inr (Or.inr ⟨rfl, ?_⟩))
    rw [hok.2.2]
    decide
  | held =>
    rw [hp] at hok
    exact Or.inr (Or.inr (Or.inr ⟨rfl, hok.2.2⟩))
  | running =>
    rw [hp] at hok
    exact Or.inr (Or.inr (Or.inr ⟨rfl, hok.2.2⟩))
  | cleaning r =>
    rw [hp] at hok
    exact Or.inr (Or.inr (Or.inr ⟨rfl, hok.2.2⟩))
  | cleaned r c =>
    rw [hp] at hok
    exact Or.inr (Or.inr (Or.inr ⟨rfl, hok.2.2⟩))
  | released r c =>
    rw [hp] at hok
    exact Or.inr (Or.inr (Or.inr ⟨rfl, hok.2.2⟩))

theorem Inv.returned_empty {s : Supervision ε} (h : s.Inv) {k : Nat} {v : SupervisorState} (hv : s.supervisors[k]? = some v)
    (hp : v.phase = .returned) : s.ownedBy k = [] := by
  refine List.eq_nil_iff_forall_not_mem.mpr ?_
  intro x hx
  obtain ⟨hin, hown⟩ := List.mem_filter.mp hx
  obtain ⟨ho, hown⟩ := (Bool.and_eq_true _ _).mp hown
  obtain ⟨w, hw, hok⟩ := h.jobs x hin
  rw [eq_of_beq ho, hv] at hw
  cases hw
  have hnot : ¬ v.phase.Owns := by
    rw [hp]
    decide
  unfold SupervisedJob.Ok at hok
  cases hph : x.phase with
  | checked =>
    rw [hph] at hown
    cases hown
  | permitted =>
    rw [hph] at hown
    cases hown
  | queued =>
    rw [hph] at hown
    cases hown
  | gone =>
    rw [hph] at hown
    cases hown
  | dropping =>
    rw [hph, hp] at hok
    cases hok.2.2
  | _ =>
    rw [hph] at hok
    exact hnot hok.2.2

theorem step_admits {s : Supervision ε} (h : s.Inv) (hb : s.poisoned = true) (e : Event ε) {j : Nat} {x' : SupervisedJob ε}
    (hx' : (s.step e).jobs[j]? = some x') (hh : x'.phase.holds = true) : ∃ x, s.jobs[j]? = some x ∧ x.phase.holds = true := by
  cases hx : s.jobs[j]? with
  | some x =>
    obtain ⟨y, hy, hf⟩ := (h.onward e).2 j x hx
    rw [hx'] at hy
    cases hy
    rcases hf.holds hh with hold | hopen
    · exact ⟨x, rfl, hold⟩
    · rw [hb] at hopen
      cases hopen
  | none =>
    -- Only `execute` adds a call, and it has no permit yet.
    exfalso
    have hlen := List.getElem?_eq_none_iff.mp hx
    have hlt := (List.getElem?_eq_some_iff.mp hx').1
    have hnew : (s.step e).jobs.length ≤ s.jobs.length ∨ ∃ y, (s.step e).jobs = s.jobs ++ [y] ∧ y.phase.holds = false := by
      cases e
      case execute k =>
        refine onSupervisor_cases (P := fun s' => s'.jobs.length ≤ s.jobs.length ∨
          ∃ y, s'.jobs = s.jobs ++ [y] ∧ y.phase.holds = false) (Or.inl (le_refl _)) ?_
        intro v _
        refine Or.inr ⟨_, rfl, ?_⟩
        split <;> rfl
      all_goals
        left
        simp only [step, onSupervisor, onJob, onQueue, acquire, send, receive, forget, poll, cleanup, observe, discard,
          setJob, setSupervisor]
        repeat' split
        all_goals simp
    rcases hnew with hle | ⟨y, he, hy⟩
    · omega
    · rw [he, List.getElem?_append_right hlen] at hx'
      obtain rfl := List.mem_singleton.mp (List.mem_of_getElem? hx')
      rw [hy] at hh
      cases hh

theorem run_step (s : Supervision ε) (es : List (Event ε)) (e : Event ε) : run step s (es ++ [e]) = (run step s es).step e :=
  run_append step s es [e]

theorem processes_accounted (capacity : Nat) (es : List (Event ε)) :
    (∀ x ∈ (run step (start capacity) es).jobs, x.runs ≤ 1 ∧ x.clean.length ≤ 1 ∧
      (0 < x.runs → x.phase.holds = false → x.clean.length = 1 ∨
        (x.torn = true ∧ ∃ v, (run step (start capacity) es).supervisors[x.owner]? = some v ∧ v.phase.Aborted)) ∧
      (false ∈ x.clean ∨ x.torn = true → (run step (start capacity) es).poisoned = true)) ∧
    (∀ e (j : Nat) x x', (run step (start capacity) es).jobs[j]? = some x →
      (run step (start capacity) (es ++ [e])).jobs[j]? = some x' →
      (x.runs < x'.runs → x.runs = 0 ∧ x.phase.holds = true ∧ x'.phase.holds = true) ∧
      (x.result.isSome = true → x'.result = x.result)) ∧
    (run step (start capacity) es).jobs.countP (fun x => x.phase.holds) ≤ capacity ∧
    ((run step (start capacity) es).poisoned = true → ∀ e, (run step (start capacity) (es ++ [e])).poisoned = true ∧
      ∀ (j : Nat) x', (run step (start capacity) (es ++ [e])).jobs[j]? = some x' → x'.phase.holds = true →
        ∃ x, (run step (start capacity) es).jobs[j]? = some x ∧ x.phase.holds = true) ∧
    (∀ e later (j : Nat) x x' x'', (run step (start capacity) es).jobs[j]? = some x → x.phase = .queued →
      (run step (start capacity) (es ++ [e])).jobs[j]? = some x' → x'.phase = .gone →
      (run step (start capacity) (es ++ e :: later)).jobs[j]? = some x'' → x''.runs = 0) ∧
    (∀ (j : Nat) x, (run step (start capacity) es).jobs[j]? = some x →
      (x.phase = .gone → x.result.isSome = true) ∧
      (x.result = none → ∃ v, (run step (start capacity) es).supervisors[x.owner]? = some v ∧
        (x.phase = .checked ∨ x.phase = .permitted ∨ (j ∈ v.queue ∧ v.phase ≠ .joining ∧ v.phase ≠ .returned) ∨
          (x.phase.owned = true ∧ v.phase.Owns)))) ∧
    (∀ (k : Nat) v, (run step (start capacity) es).supervisors[k]? = some v → v.phase = .returned →
      (run step (start capacity) es).ownedBy k = []) := by
  have h := run_inv capacity es
  refine ⟨fun x hx => h.bounds hx, ?_, ?_, ?_, ?_, ?_, fun k v hv hp => h.returned_empty hv hp⟩
  · intro e j x x' hx hx'
    rw [run_step] at hx'
    obtain ⟨y, hy, hf⟩ := (h.onward e).2 j x hx
    rw [hx'] at hy
    cases hy
    refine ⟨?_, hf.result⟩
    intro hlt
    rcases hf.runs with he | ⟨hp, hp', he⟩
    · omega
    · have hle := ((h.step e).bounds (List.mem_of_getElem? hx')).1
      refine ⟨by omega, ?_, ?_⟩
      · rw [hp]
        rfl
      · rw [hp']
        rfl
  · have hcount := h.count
    have hcap : (run step (start capacity) es).capacity = capacity := by
      refine Run.invariant (I := fun s : Supervision ε => s.capacity = capacity) ?_ rfl es
      intro s e hs
      cases e <;> simp only [step, onSupervisor, onJob, onQueue, acquire, send, receive, forget, poll, cleanup, observe,
        discard, setJob, setSupervisor] <;> repeat' split
      all_goals exact hs
    omega
  · intro hb e
    rw [run_step]
    exact ⟨(h.onward e).1 hb, fun j x' hx' hh => step_admits h hb e hx' hh⟩
  · intro e later j x x' x'' hx hq hx' hg hx''
    rw [run_step] at hx'
    rw [run_append, run_cons] at hx''
    obtain ⟨z, hz, hzr⟩ := (h.step e).gone_run hx' hg later
    rw [hx''] at hz
    cases hz
    obtain ⟨y, hy, hf⟩ := (h.onward e).2 j x hx
    rw [hx'] at hy
    cases hy
    obtain ⟨v, -, hok⟩ := h.jobs x (List.mem_of_getElem? hx)
    rw [SupervisedJob.Ok, hq] at hok
    rcases hf.runs with he | ⟨hp, -⟩
    · rw [hzr, he]
      exact hok.1.1
    · rw [hq] at hp
      cases hp
  · intro j x hx
    refine ⟨?_, fun hr => h.unanswered hx hr⟩
    intro hg
    obtain ⟨v, -, hok⟩ := h.jobs x (List.mem_of_getElem? hx)
    rw [SupervisedJob.Ok, hg] at hok
    exact hok.2

/-- A job that its supervisor has taken up but not polled goes with an abort, and leaves the
shared semaphore open to others. -/
theorem unpolled_abort_admits :
    let taken : List (Event Unit) := [.channel 1, .channel 1, .start 0, .execute 0, .acquire 0, .send 0, .receive 0]
    let after : List (Event Unit) := taken ++ [.abort 0, .discard 0, .drop 0, .execute 1, .acquire 1, .send 1]
    ((run step (start 1) taken).jobs.map fun x => (x.phase.owned, x.clean)) = [(true, [])] ∧
      (run step (start 1) after).poisoned = false ∧
      ((run step (start 1) after).jobs.map fun x => (x.phase.owned, x.phase.isQueued, x.clean)) =
        [(false, false, []), (false, true, [])] := by
  decide

end Supervision

end Gatel.Cgi
