import Gatel.Lib.Run

namespace Gatel.App
open Run (run run_append run_cons run_nil)

/-! Reloads, activation and shutdown of one host. A step lies between two awaits; what the code
does there without one is done at once. Waiters come and go without a step: a reload is a task of
its own from the moment it is spawned. -/

/-- What has been done to the world, oldest first. -/
inductive Deed where
  | published (generation : Nat)
  /-- Accept loops, probes and the ACME account brought in line with a generation. -/
  | synced (generation : Nat)
  | reconciled (generation : Nat)
  | ordered (generation : Nat)
  /-- Metrics, state and certificates pruned with a plan, and what was current then. -/
  | pruned (generation : Nat) (current : Option Nat)
  deriving DecidableEq

/-- What a reload's work came to, as far as activation is concerned. -/
inductive WorkOutcome where
  | applied
  | noOp (generation : Nat)
  | other

inductive ReloadPhase where
  /-- It has a slot. -/
  | slotted
  /-- Spawned, with its admission; waits for its turn. -/
  | queued
  | entered
  | working
  /-- Waits for the lifecycle. -/
  | locking
  | reading
  | syncing (generation : Nat)
  | reconciling (generation : Nat)
  | ordering (generation : Nat)
  | checking (generation : Nat)
  /-- In its completion callback. -/
  | finishing
  | over
  deriving DecidableEq

/-- A configuration worker, or a lower-level publication without a slot. -/
inductive WorkerPhase where
  | waiting
  | slotted
  | admitted
  /-- In `attempt_snapshot_if`, with an admission more. -/
  | attempting
  | over
  deriving DecidableEq

structure Worker where
  slot : Bool
  phase : WorkerPhase

inductive ShutdownPhase where
  | begun
  | slotsClosed
  | slotClosed
  | submissionsClosed
  /-- The store is sealed; waits for the lifecycle. -/
  | sealed
  /-- The lifecycle is closed. -/
  | closed
  /-- In `drained`: registered for a wake-up that may have come. -/
  | registered (notified : Bool)
  | draining (notified : Bool)
  | drained
  /-- Stops what runs, with the lifecycle. -/
  | stopping
  | done
  | cancelled
  deriving DecidableEq

/-- A shutdown that has passed the drain. -/
def ShutdownPhase.passed : ShutdownPhase → Bool
  | .drained | .stopping | .done => true
  | _ => false

inductive Holder where
  | reload (i : Nat)
  | shutdown (p : Nat)
  deriving DecidableEq

structure Host where
  slots : Nat
  slotsClosed : Bool
  /-- The one configuration slot is free. -/
  slotFree : Bool
  slotClosed : Bool
  submissionsClosed : Bool
  running : Nat
  /-- Releases of the last admission that have yet to wake the drains. -/
  notifying : Nat
  storeSealed : Bool
  current : Option Nat
  execution : Option Nat
  lifecycle : Option Holder
  lifecycleClosed : Bool
  activated : Nat
  reloads : List ReloadPhase
  workers : List Worker
  shutdowns : List ShutdownPhase
  deeds : List Deed

namespace ReloadPhase

def admitted : ReloadPhase → Bool
  | .slotted | .over => false
  | _ => true

/-- From the start of its work to the end of its completion callback, and the look at the seal. -/
def executes : ReloadPhase → Bool
  | .slotted | .queued | .over => false
  | _ => true

def activates : ReloadPhase → Bool
  | .reading | .syncing _ | .reconciling _ | .ordering _ | .checking _ => true
  | _ => false

end ReloadPhase

def Worker.admissions (w : Worker) : Nat := match w.phase with
  | .admitted => if w.slot then 1 else 0
  | .attempting => if w.slot then 2 else 1
  | _ => 0

namespace Host

def maxReloadTasks : Nat := 8

def start : Host :=
  ⟨maxReloadTasks, false, true, false, false, 0, 0, false, none, none, none, false, 0, [], [], [], []⟩

def setReload (s : Host) (i : Nat) (p : ReloadPhase) : Host := { s with reloads := s.reloads.set i p }

def setWorker (s : Host) (w : Nat) (x : Worker) : Host := { s with workers := s.workers.set w x }

def setShutdown (s : Host) (p : Nat) (x : ShutdownPhase) : Host := { s with shutdowns := s.shutdowns.set p x }

/-- The drop of admissions; the last one is to wake the drains. -/
def release (s : Host) (n : Nat) : Host :=
  if n = 0 then s
  else { s with running := s.running - n, notifying := if s.running = n then s.notifying + 1 else s.notifying }

/-- A reload is over, or has panicked: whatever it has is dropped. -/
def endReload (s : Host) (i : Nat) (p : ReloadPhase) : Host :=
  ({ s with
    slots := s.slots + 1
    execution := if p.executes then none else s.execution
    lifecycle := if p.activates then none else s.lifecycle }.release (if p.admitted then 1 else 0)).setReload i .over

def addDeed (s : Host) (d : Deed) : Host := { s with deeds := s.deeds ++ [d] }

inductive Event where
  /-- `reload_task_finishing` asks for a slot. -/
  | reload
  /-- A reload goes on; what its work comes to is given. -/
  | advance (i : Nat) (outcome : WorkOutcome)
  | panic (i : Nat)
  /-- `configuration_work`, or a lower-level publication. -/
  | submit (slot : Bool)
  | work (w : Nat)
  /-- The transaction of a worker publishes, if it can. -/
  | publish (w : Nat)
  /-- A worker ends. -/
  | leave (w : Nat)
  | shutdown
  | proceed (p : Nat)
  | cancel (p : Nat)
  | notify

def needsActivation (s : Host) : WorkOutcome → Bool
  | .applied => true
  | .noOp generation => s.activated < generation
  | .other => false

/-- The last turn of `activate`: there is no await from the look at what is current to the end. -/
def check (s : Host) (i g : Nat) : Host :=
  if s.current = some g then
    { s.addDeed (.pruned g s.current) with activated := g, lifecycle := none }.setReload i .finishing
  else s.setReload i .reading

@[grind =] def advance (s : Host) (i : Nat) (outcome : WorkOutcome) : ReloadPhase → Host
  | .slotted => if s.submissionsClosed then s.endReload i .slotted
    else { s with running := s.running + 1 }.setReload i .queued
  | .queued => if s.execution = none then { s with execution := some i }.setReload i .entered else s
  | .entered => if s.storeSealed then s.endReload i .entered else s.setReload i .working
  | .working => s.setReload i (if s.needsActivation outcome then .locking else .finishing)
  | .locking =>
    if s.lifecycle = none then
      if s.lifecycleClosed then s.setReload i .finishing else { s with lifecycle := some (.reload i) }.setReload i .reading
    else s
  | .reading => match s.current with
    | some g => s.setReload i (.syncing g)
    | none => { s with lifecycle := none }.setReload i .finishing
  -- `sync` reads what is current by itself.
  | .syncing g => match s.current with
    | some c => (s.addDeed (.synced c)).setReload i (.reconciling g)
    | none => s.setReload i (.reconciling g)
  | .reconciling g => (s.addDeed (.reconciled g)).setReload i (.ordering g)
  | .ordering g => (s.addDeed (.ordered g)).setReload i (.checking g)
  | .checking g => s.check i g
  | .finishing => s.endReload i .finishing
  | .over => s

/-- A worker is over, has panicked or was dropped while it waited. -/
def endWorker (s : Host) (w : Nat) (x : Worker) : Host :=
  ({ s with slotFree := s.slotFree || (x.slot && decide (x.phase ≠ WorkerPhase.waiting)) }.release x.admissions).setWorker w
    { x with phase := .over }

def work (s : Host) (w : Nat) (x : Worker) : Host :=
  match x.phase with
  | .waiting =>
    if x.slot then
      if s.slotClosed then s.setWorker w { x with phase := .over }
      else if s.slotFree then { s with slotFree := false }.setWorker w { x with phase := .slotted } else s
    else s.setWorker w { x with phase := .admitted }
  | .slotted =>
    if s.submissionsClosed || !x.slot then s.endWorker w x
    else { s with running := s.running + 1 }.setWorker w { x with phase := .admitted }
  | .admitted =>
    if s.submissionsClosed then s else { s with running := s.running + 1 }.setWorker w { x with phase := .attempting }
  | .attempting => (s.release 1).setWorker w { x with phase := .admitted }
  | .over => s

def publish (s : Host) (x : Worker) : Host :=
  match x.phase with
  | .attempting =>
    if s.storeSealed then s
    else { s.addDeed (.published (s.current.getD 0 + 1)) with current := some (s.current.getD 0 + 1) }
  | _ => s

@[grind =] def proceed (s : Host) (p : Nat) : ShutdownPhase → Host
  | .begun => { s with slotsClosed := true }.setShutdown p .slotsClosed
  | .slotsClosed => { s with slotClosed := true }.setShutdown p .slotClosed
  | .slotClosed => { s with submissionsClosed := true }.setShutdown p .submissionsClosed
  | .submissionsClosed => { s with storeSealed := true }.setShutdown p .sealed
  | .sealed => if s.lifecycle = none then { s with lifecycleClosed := true }.setShutdown p .closed else s
  | .closed => s.setShutdown p (.registered false)
  | .registered notified => s.setShutdown p (if s.running = 0 then .drained else .draining notified)
  | .draining notified => if notified then s.setShutdown p .closed else s
  | .drained => if s.lifecycle = none then { s with lifecycle := some (.shutdown p) }.setShutdown p .stopping else s
  | .stopping => { s with lifecycle := none }.setShutdown p .done
  | .done | .cancelled => s

def cancel (s : Host) (p : Nat) : ShutdownPhase → Host
  | .sealed | .draining _ | .drained => s.setShutdown p .cancelled
  | .stopping => { s with lifecycle := none }.setShutdown p .cancelled
  | _ => s

/-- `notify_waiters` reaches whoever has registered. -/
@[grind =] def wake : ShutdownPhase → ShutdownPhase
  | .registered _ => .registered true
  | .draining _ => .draining true
  | p => p

@[grind =] def step (s : Host) : Event → Host
  | .reload => if s.slotsClosed || s.slots = 0 then s
    else { s with slots := s.slots - 1, reloads := s.reloads ++ [.slotted] }
  | .advance i outcome => match s.reloads[i]? with
    | some p => s.advance i outcome p
    | none => s
  | .panic i => match s.reloads[i]? with
    | some p => if p = .over then s else s.endReload i p
    | none => s
  | .submit slot => { s with workers := s.workers ++ [⟨slot, .waiting⟩] }
  | .work w => match s.workers[w]? with
    | some x => s.work w x
    | none => s
  | .publish w => match s.workers[w]? with
    | some x => s.publish x
    | none => s
  | .leave w => match s.workers[w]? with
    | some x => if x.phase = .over then s else s.endWorker w x
    | none => s
  | .shutdown => { s with shutdowns := s.shutdowns ++ [.begun] }
  | .proceed p => match s.shutdowns[p]? with
    | some x => s.proceed p x
    | none => s
  | .cancel p => match s.shutdowns[p]? with
    | some x => s.cancel p x
    | none => s
  | .notify => if s.notifying = 0 then s else { s with notifying := s.notifying - 1, shutdowns := s.shutdowns.map wake }

/-- What a turn of `activate` knows of the generation it has read. -/
def Known (s : Host) : ReloadPhase → Prop
  | .syncing g => ∃ c, s.current = some c ∧ g ≤ c
  | .reconciling g => ∃ c, s.current = some c ∧ g ≤ c ∧ (c = g → .synced g ∈ s.deeds)
  | .ordering g => ∃ c, s.current = some c ∧ g ≤ c ∧ (c = g → .synced g ∈ s.deeds ∧ .reconciled g ∈ s.deeds)
  | .checking g =>
    ∃ c, s.current = some c ∧ g ≤ c ∧ (c = g → .synced g ∈ s.deeds ∧ .reconciled g ∈ s.deeds ∧ .ordered g ∈ s.deeds)
  | _ => True

/-- What a shutdown that came so far has closed. -/
def Fences (s : Host) : ShutdownPhase → Prop
  | .begun | .slotsClosed | .slotClosed | .cancelled => True
  | .submissionsClosed => s.submissionsClosed = true
  | .sealed => s.submissionsClosed = true ∧ s.storeSealed = true
  | .closed | .registered _ => s.submissionsClosed = true ∧ s.storeSealed = true ∧ s.lifecycleClosed = true
  | .draining notified => (s.submissionsClosed = true ∧ s.storeSealed = true ∧ s.lifecycleClosed = true) ∧
      (notified = false → 0 < s.running ∨ 0 < s.notifying)
  | .drained | .stopping | .done =>
    (s.submissionsClosed = true ∧ s.storeSealed = true ∧ s.lifecycleClosed = true) ∧ s.running = 0

/-- The admissions that are out. -/
def admissions (s : Host) : Nat := s.reloads.countP ReloadPhase.admitted + (s.workers.map Worker.admissions).sum

structure Inv (s : Host) : Prop where
  count : s.running = s.admissions
  executes : ∀ i p, s.reloads[i]? = some p → p.executes = true → s.execution = some i
  activates : ∀ i p, s.reloads[i]? = some p → p.activates = true → s.lifecycle = some (.reload i) ∧ s.lifecycleClosed = false
  stops : ∀ p, s.shutdowns[p]? = some .stopping → s.lifecycle = some (.shutdown p)
  fences : ∀ p ∈ s.shutdowns, s.Fences p
  known : ∀ p ∈ s.reloads, s.Known p
  activated : s.activated = 0 ∨
    .synced s.activated ∈ s.deeds ∧ .reconciled s.activated ∈ s.deeds ∧ .ordered s.activated ∈ s.deeds
  pruned : ∀ g c, .pruned g c ∈ s.deeds → c = some g

theorem inv_start : start.Inv where
  count := rfl
  executes _ _ h := by cases h
  activates _ _ h := by cases h
  stops _ h := by cases h
  fences _ h := by cases h
  known _ h := by cases h
  activated := Or.inl rfl
  pruned _ _ h := by cases h

/-- The world goes on: nothing that was done or closed is undone, and a release wakes the drains. -/
structure Grows (s s' : Host) : Prop where
  submissions : s.submissionsClosed = true → s'.submissionsClosed = true
  store : s.storeSealed = true → s'.storeSealed = true
  lifecycle : s.lifecycleClosed = true → s'.lifecycleClosed = true
  drained : s.submissionsClosed = true → s.running = 0 → s'.running = 0
  waits : 0 < s.running ∨ 0 < s.notifying → 0 < s'.running ∨ 0 < s'.notifying
  deeds : ∀ d ∈ s.deeds, d ∈ s'.deeds
  current : ∀ c, s.current = some c → ∃ c', s'.current = some c' ∧ c ≤ c'

theorem Grows.fences {s s' : Host} (h : s.Grows s') {p : ShutdownPhase} (hp : s.Fences p) : s'.Fences p := by
  have hall (ha : s.submissionsClosed = true ∧ s.storeSealed = true ∧ s.lifecycleClosed = true) :
      s'.submissionsClosed = true ∧ s'.storeSealed = true ∧ s'.lifecycleClosed = true :=
    ⟨h.submissions ha.1, h.store ha.2.1, h.lifecycle ha.2.2⟩
  cases p with
  | begun => trivial
  | slotsClosed => trivial
  | slotClosed => trivial
  | cancelled => trivial
  | submissionsClosed => exact h.submissions hp
  | sealed => exact ⟨h.submissions hp.1, h.store hp.2⟩
  | closed => exact hall hp
  | registered n => exact hall hp
  | draining n => exact ⟨hall hp.1, fun hn => h.waits (hp.2 hn)⟩
  | drained => exact ⟨hall hp.1, h.drained hp.1.1 hp.2⟩
  | stopping => exact ⟨hall hp.1, h.drained hp.1.1 hp.2⟩
  | done => exact ⟨hall hp.1, h.drained hp.1.1 hp.2⟩

theorem Grows.known {s s' : Host} (h : s.Grows s') {p : ReloadPhase} (hp : s.Known p) : s'.Known p := by
  -- What is current again was current all the while.
  have hsame {g : Nat} {P Q : Prop} (hPQ : P → Q) (hk : ∃ c, s.current = some c ∧ g ≤ c ∧ (c = g → P)) :
      ∃ c, s'.current = some c ∧ g ≤ c ∧ (c = g → Q) := by
    obtain ⟨c, hc, hle, hP⟩ := hk
    obtain ⟨c', hc', hle'⟩ := h.current c hc
    exact ⟨c', hc', hle.trans hle', fun he => hPQ (hP (by omega))⟩
  cases p with
  | syncing g =>
    obtain ⟨c, hc, hle⟩ := hp
    obtain ⟨c', hc', hle'⟩ := h.current c hc
    exact ⟨c', hc', hle.trans hle'⟩
  | reconciling g => exact hsame (h.deeds _) hp
  | ordering g => exact hsame (fun hd => ⟨h.deeds _ hd.1, h.deeds _ hd.2⟩) hp
  | checking g => exact hsame (fun hd => ⟨h.deeds _ hd.1, h.deeds _ hd.2.1, h.deeds _ hd.2.2⟩) hp
  | _ => trivial

theorem getElem?_set_cases {α : Type} {l : List α} {c j : Nat} {p q : α} (h : (l.set c p)[j]? = some q) :
    (j = c ∧ q = p) ∨ (j ≠ c ∧ l[j]? = some q) := by
  by_cases hj : j = c
  · subst hj
    have hlt : j < (l.set j p).length := (List.getElem?_eq_some_iff.mp h).1
    rw [List.length_set] at hlt
    rw [List.getElem?_set_self hlt] at h
    exact Or.inl ⟨rfl, (Option.some.inj h).symm⟩
  · rw [List.getElem?_set_ne (Ne.symm hj)] at h
    exact Or.inr ⟨hj, h⟩

theorem countP_set_add {α : Type} (f : α → Bool) {l : List α} {i : Nat} {p : α} (hp : l[i]? = some p) (p' : α) :
    (l.set i p').countP f + (f p).toNat = l.countP f + (f p').toNat := by
  obtain ⟨hlt, he⟩ := List.getElem?_eq_some_iff.mp hp
  have hpos : f p = true → 0 < l.countP f := fun hf => List.countP_pos_iff.mpr ⟨p, List.mem_of_getElem? hp, hf⟩
  rw [List.countP_set hlt, he]
  by_cases hf : f p = true
  · have hcount := hpos hf
    cases hf' : f p' <;> simp only [hf, if_true, Bool.toNat_true, Bool.toNat_false, Bool.false_eq_true, if_false] <;> omega
  · rw [Bool.not_eq_true] at hf
    cases hf' : f p' <;> simp [hf]

theorem sum_set_add {α : Type} (f : α → Nat) {l : List α} {i : Nat} {p : α} (hp : l[i]? = some p) (p' : α) :
    ((l.set i p').map f).sum + f p = (l.map f).sum + f p' := by
  induction l generalizing i with
  | nil => cases hp
  | cons a l ih =>
    cases i with
    | zero =>
      cases hp
      simp only [List.set_cons_zero, List.map_cons, List.sum_cons]
      omega
    | succ i =>
      have hrest := ih hp
      simp only [List.set_cons_succ, List.map_cons, List.sum_cons]
      omega

theorem Grows.refl (s : Host) : s.Grows s := ⟨id, id, id, fun _ hr => hr, id, fun _ hd => hd, fun c hc => ⟨c, hc, le_refl c⟩⟩

/-- What a step of one reload may change. -/
structure Turns (s : Host) (i : Nat) (p : ReloadPhase) (s' : Host) (p' : ReloadPhase) : Prop where
  grows : s.Grows s'
  reloads : s'.reloads = s.reloads.set i p'
  workers : s'.workers = s.workers
  shutdowns : s'.shutdowns = s.shutdowns
  fence : s'.lifecycleClosed = s.lifecycleClosed
  count : s'.running + p.admitted.toNat = s.running + p'.admitted.toNat
  executes : p'.executes = true → s'.execution = some i
  others : ∀ j, j ≠ i → s.execution = some j → s'.execution = some j
  activates : p'.activates = true → s'.lifecycle = some (.reload i) ∧ s.lifecycleClosed = false
  holds : ∀ x, x ≠ .reload i → s.lifecycle = some x → s'.lifecycle = some x
  known : s'.Known p'
  activated : s'.activated = 0 ∨
    .synced s'.activated ∈ s'.deeds ∧ .reconciled s'.activated ∈ s'.deeds ∧ .ordered s'.activated ∈ s'.deeds
  pruned : ∀ g c, .pruned g c ∈ s'.deeds → c = some g

theorem Inv.turn {s s' : Host} (h : s.Inv) {i : Nat} {p p' : ReloadPhase} (hp : s.reloads[i]? = some p)
    (ht : s.Turns i p s' p') : s'.Inv := by
  refine ⟨?_, ?_, ?_, ?_, ?_, ?_, ht.activated, ht.pruned⟩
  · have hset := countP_set_add ReloadPhase.admitted hp p'
    have hcount := h.count
    have hmoved := ht.count
    unfold admissions at hcount ⊢
    rw [ht.reloads, ht.workers]
    omega
  · intro j q hq hx
    rw [ht.reloads] at hq
    rcases getElem?_set_cases hq with ⟨rfl, rfl⟩ | ⟨hne, hq⟩
    · exact ht.executes hx
    · exact ht.others j hne (h.executes j q hq hx)
  · intro j q hq hx
    rw [ht.reloads] at hq
    rw [ht.fence]
    rcases getElem?_set_cases hq with ⟨rfl, rfl⟩ | ⟨hne, hq⟩
    · exact ht.activates hx
    · obtain ⟨hl, hf⟩ := h.activates j q hq hx
      exact ⟨ht.holds _ (fun he => hne (Holder.reload.inj he)) hl, hf⟩
  · intro q hq
    rw [ht.shutdowns] at hq
    exact ht.holds _ Holder.noConfusion (h.stops q hq)
  · intro q hq
    rw [ht.shutdowns] at hq
    exact ht.grows.fences (h.fences q hq)
  · intro q hq
    rw [ht.reloads] at hq
    rcases List.mem_or_eq_of_mem_set hq with hq | rfl
    · exact ht.grows.known (h.known q hq)
    · exact ht.known

/-- A step that moves the reload and nothing else. -/
theorem Inv.moves {s : Host} (h : s.Inv) {i : Nat} {p p' : ReloadPhase} (hp : s.reloads[i]? = some p)
    (hadm : p'.admitted = p.admitted) (hexec : p'.executes = true → p.executes = true)
    (hact : p'.activates = true → p.activates = true) (hknown : s.Known p') : (s.setReload i p').Inv :=
  h.turn hp ⟨⟨id, id, id, fun _ hr => hr, id, fun _ hd => hd, fun c hc => ⟨c, hc, le_refl c⟩⟩, rfl, rfl, rfl, rfl,
    by rw [hadm]; rfl, fun hx => h.executes i p hp (hexec hx), fun _ _ hj => hj,
    fun hx => h.activates i p hp (hact hx), fun _ _ hx => hx, hknown, h.activated, h.pruned⟩

theorem release_grows (s : Host) {n : Nat} (hn : n ≤ s.running) : s.Grows (s.release n) := by
  unfold release
  split
  · exact .refl s
  · refine ⟨id, id, id, ?_, ?_, fun _ hd => hd, fun c hc => ⟨c, hc, le_refl c⟩⟩
    · intro _ hr
      change s.running - n = 0
      omega
    · intro hw
      dsimp only
      split
      · exact Or.inr (Nat.succ_pos _)
      · rcases hw with hw | hw
        · left
          omega
        · exact Or.inr hw

theorem release_running (s : Host) (n : Nat) : (s.release n).running = s.running - n := by
  unfold release
  split
  · rename_i hn
    rw [hn, Nat.sub_zero]
  · rfl

theorem Inv.admitted_pos {s : Host} (h : s.Inv) {i : Nat} {p : ReloadPhase} (hp : s.reloads[i]? = some p)
    (ha : p.admitted = true) : 0 < s.running := by
  have hcount := h.count
  have hpos : 0 < s.reloads.countP ReloadPhase.admitted := List.countP_pos_iff.mpr ⟨p, List.mem_of_getElem? hp, ha⟩
  unfold admissions at hcount
  omega

theorem Inv.endReload {s : Host} (h : s.Inv) {i : Nat} {p : ReloadPhase} (hp : s.reloads[i]? = some p) :
    (s.endReload i p).Inv := by
  have hle : (if p.admitted then 1 else 0) ≤ s.running := by
    split
    · rename_i ha
      exact h.admitted_pos hp ha
    · exact Nat.zero_le _
  have hgrow := release_grows { s with
    slots := s.slots + 1
    execution := if p.executes then none else s.execution
    lifecycle := if p.activates then none else s.lifecycle } (n := if p.admitted then 1 else 0) hle
  have hfields (t : Host) (n : Nat) : (t.release n).reloads = t.reloads ∧ (t.release n).workers = t.workers ∧
      (t.release n).shutdowns = t.shutdowns ∧ (t.release n).lifecycleClosed = t.lifecycleClosed ∧
      (t.release n).execution = t.execution ∧ (t.release n).lifecycle = t.lifecycle ∧
      (t.release n).activated = t.activated ∧ (t.release n).deeds = t.deeds := by
    unfold release
    split <;> exact ⟨rfl, rfl, rfl, rfl, rfl, rfl, rfl, rfl⟩
  obtain ⟨hr, hw, hs, hf, he, hl, ha, hd⟩ := hfields { s with
    slots := s.slots + 1
    execution := if p.executes then none else s.execution
    lifecycle := if p.activates then none else s.lifecycle } (if p.admitted then 1 else 0)
  refine @Inv.turn _ _ h _ _ .over hp ⟨?_, ?_, hw, hs, hf, ?_, fun hx => (by cases hx), ?_, fun hx => (by cases hx), ?_, trivial, ?_, ?_⟩
  · exact ⟨hgrow.submissions, hgrow.store, hgrow.lifecycle, hgrow.drained, hgrow.waits, hgrow.deeds, hgrow.current⟩
  · unfold Host.endReload setReload
    rw [hr]
  · unfold Host.endReload setReload
    dsimp only
    rw [release_running]
    cases hadm : p.admitted <;> rw [hadm] at hle <;> simp at hle ⊢
    · rfl
    · change s.running - 1 + 1 = s.running
      omega
  · intro j hne hj
    refine he.trans ?_
    dsimp only
    split
    · rename_i hx
      rw [h.executes i p hp hx] at hj
      exact absurd (Option.some.inj hj).symm hne
    · exact hj
  · intro x hne hx
    refine hl.trans ?_
    dsimp only
    split
    · rename_i ha
      rw [(h.activates i p hp ha).1] at hx
      exact absurd (Option.some.inj hx).symm hne
    · exact hx
  · have hact := h.activated
    unfold Host.endReload setReload
    dsimp only
    rw [ha, hd]
    exact hact
  · intro g c hc
    unfold Host.endReload setReload at hc
    dsimp only at hc
    rw [hd] at hc
    exact h.pruned g c hc

theorem Inv.check {s : Host} (h : s.Inv) {i g : Nat} (hp : s.reloads[i]? = some (.checking g)) : (s.check i g).Inv := by
  obtain ⟨hlife, hopen⟩ := h.activates i _ hp rfl
  unfold Host.check
  split
  · rename_i hc
    obtain ⟨c, hcur, -, hdone⟩ := h.known _ (List.mem_of_getElem? hp)
    rw [hc] at hcur
    cases hcur
    obtain ⟨hs, hr, ho⟩ := hdone rfl
    have hkeep : ∀ d ∈ s.deeds, d ∈ s.deeds ++ [Deed.pruned g s.current] := fun _ hd => List.mem_append_left _ hd
    refine @Inv.turn _ _ h _ _ .finishing hp ⟨⟨id, id, id, fun _ hr => hr, id, hkeep, fun c hc => ⟨c, hc, le_refl c⟩⟩, rfl, rfl,
      rfl, rfl, rfl, fun _ => h.executes i _ hp rfl, fun _ _ hj => hj, fun hx => (by cases hx), ?_, trivial, ?_, ?_⟩
    · intro x hne hx
      rw [hlife] at hx
      exact absurd (Option.some.inj hx).symm hne
    · exact Or.inr ⟨hkeep _ hs, hkeep _ hr, hkeep _ ho⟩
    · intro g' c' hd
      rcases List.mem_append.mp hd with hd | hd
      · exact h.pruned g' c' hd
      · cases List.mem_singleton.mp hd
        exact hc
  · exact h.moves hp rfl id id trivial

/-- A turn of `activate` that does something to the world. -/
theorem Inv.deed {s : Host} (h : s.Inv) {i : Nat} {p p' : ReloadPhase} (hp : s.reloads[i]? = some p) {d : Deed}
    (hd : ∀ g c, d ≠ .pruned g c) (hadm : p'.admitted = p.admitted) (hexec : p'.executes = true → p.executes = true)
    (hact : p'.activates = true → p.activates = true) (hknown : (s.addDeed d).Known p') :
    ((s.addDeed d).setReload i p').Inv := by
  have hkeep : ∀ x ∈ s.deeds, x ∈ s.deeds ++ [d] := fun _ hx => List.mem_append_left _ hx
  refine h.turn hp ⟨⟨id, id, id, fun _ hr => hr, id, hkeep, fun c hc => ⟨c, hc, le_refl c⟩⟩, rfl, rfl, rfl, rfl,
    by rw [hadm]; rfl, fun hx => h.executes i p hp (hexec hx), fun _ _ hj => hj, fun hx => h.activates i p hp (hact hx),
    fun _ _ hx => hx, hknown, ?_, ?_⟩
  · rcases h.activated with ha | ⟨hs, hr, ho⟩
    · exact Or.inl ha
    · exact Or.inr ⟨hkeep _ hs, hkeep _ hr, hkeep _ ho⟩
  · intro g c hin
    rcases List.mem_append.mp hin with hin | hin
    · exact h.pruned g c hin
    · exact absurd (List.mem_singleton.mp hin).symm (hd g c)

theorem Inv.advance {s : Host} (h : s.Inv) {i : Nat} {p : ReloadPhase} (hp : s.reloads[i]? = some p) (outcome : WorkOutcome) :
    (s.advance i outcome p).Inv := by
  have hsame : ∀ c, s.current = some c → ∃ c', s.current = some c' ∧ c ≤ c' := fun c hc => ⟨c, hc, le_refl c⟩
  have hknown := h.known p (List.mem_of_getElem? hp)
  cases p with
  | slotted =>
    rw [Host.advance]
    split
    · exact h.endReload hp
    · rename_i hopen
      refine @Inv.turn _ _ h _ _ .queued hp ⟨⟨id, id, id, ?_, ?_, fun _ hd => hd, hsame⟩, rfl, rfl, rfl, rfl, rfl,
        fun hx => (by cases hx), fun _ _ hj => hj, fun hx => (by cases hx), fun _ _ hx => hx, trivial, h.activated, h.pruned⟩
      · intro hc
        exact absurd hc hopen
      · intro _
        exact Or.inl (Nat.succ_pos _)
  | queued =>
    rw [Host.advance]
    split
    · rename_i hfree
      refine @Inv.turn _ _ h _ _ .entered hp ⟨⟨id, id, id, fun _ hr => hr, id, fun _ hd => hd, hsame⟩, rfl, rfl, rfl, rfl, rfl,
        fun _ => rfl, ?_, fun hx => (by cases hx), fun _ _ hx => hx, trivial, h.activated, h.pruned⟩
      intro j _ hj
      rw [hfree] at hj
      cases hj
    · exact h
  | entered =>
    rw [Host.advance]
    split
    · exact h.endReload hp
    · exact h.moves hp rfl (fun _ => rfl) (fun hx => hx) trivial
  | working =>
    rw [Host.advance]
    split
    · exact h.moves hp rfl (fun _ => rfl) (fun hx => hx) trivial
    · exact h.moves hp rfl (fun _ => rfl) (fun hx => hx) trivial
  | locking =>
    rw [Host.advance]
    split
    · rename_i hfree
      split
      · exact h.moves hp rfl (fun _ => rfl) (fun hx => hx) trivial
      · rename_i hopen
        refine @Inv.turn _ _ h _ _ .reading hp ⟨⟨id, id, id, fun _ hr => hr, id, fun _ hd => hd, hsame⟩, rfl, rfl, rfl, rfl, rfl,
          fun _ => h.executes i _ hp rfl, fun _ _ hj => hj, fun _ => ⟨rfl, Bool.eq_false_iff.mpr hopen⟩, ?_, trivial, h.activated,
          h.pruned⟩
        intro x _ hx
        rw [hfree] at hx
        cases hx
    · exact h
  | reading =>
    rw [Host.advance]
    split
    · rename_i g hg
      exact h.moves hp rfl (fun _ => rfl) (fun _ => rfl) ⟨g, hg, le_refl g⟩
    · refine @Inv.turn _ _ h _ _ .finishing hp ⟨⟨id, id, id, fun _ hr => hr, id, fun _ hd => hd, hsame⟩, rfl, rfl, rfl, rfl, rfl,
        fun _ => h.executes i _ hp rfl, fun _ _ hj => hj, fun hx => (by cases hx), ?_, trivial, h.activated, h.pruned⟩
      intro x hne hx
      rw [(h.activates i _ hp rfl).1] at hx
      exact absurd (Option.some.inj hx).symm hne
  | syncing g =>
    obtain ⟨c, hc, hle⟩ := hknown
    have hadv : s.advance i outcome (.syncing g) = (s.addDeed (.synced c)).setReload i (.reconciling g) := by
      rw [Host.advance, hc]
    rw [hadv]
    refine h.deed hp (fun _ _ => Deed.noConfusion) rfl (fun _ => rfl) (fun _ => rfl) ⟨c, hc, hle, ?_⟩
    rintro rfl
    exact List.mem_append_right _ (List.mem_singleton_self _)
  | reconciling g =>
    obtain ⟨c, hc, hle, hdone⟩ := hknown
    refine h.deed hp (fun _ _ => Deed.noConfusion) rfl (fun _ => rfl) (fun _ => rfl) ⟨c, hc, hle, ?_⟩
    intro he
    exact ⟨List.mem_append_left _ (hdone he), List.mem_append_right _ (List.mem_singleton_self _)⟩
  | ordering g =>
    obtain ⟨c, hc, hle, hdone⟩ := hknown
    refine h.deed hp (fun _ _ => Deed.noConfusion) rfl (fun _ => rfl) (fun _ => rfl) ⟨c, hc, hle, ?_⟩
    intro he
    exact ⟨List.mem_append_left _ (hdone he).1, List.mem_append_left _ (hdone he).2,
      List.mem_append_right _ (List.mem_singleton_self _)⟩
  | checking g => exact h.check hp
  | finishing => exact h.endReload hp
  | _ => exact h

/-- What a step of one worker may change. -/
theorem Inv.turnWorker {s s' : Host} (h : s.Inv) {w : Nat} {x x' : Worker} (hx : s.workers[w]? = some x) (hgrow : s.Grows s')
    (hworkers : s'.workers = s.workers.set w x') (hreloads : s'.reloads = s.reloads) (hshut : s'.shutdowns = s.shutdowns)
    (hcount : s'.running + x.admissions = s.running + x'.admissions) (hexec : s'.execution = s.execution)
    (hlife : s'.lifecycle = s.lifecycle ∧ s'.lifecycleClosed = s.lifecycleClosed) (hact : s'.activated = s.activated)
    (hdeeds : s'.deeds = s.deeds) : s'.Inv := by
  refine ⟨?_, ?_, ?_, ?_, ?_, ?_, ?_, ?_⟩
  · have hset := sum_set_add Worker.admissions hx x'
    have hc := h.count
    unfold admissions at hc ⊢
    rw [hreloads, hworkers]
    omega
  · intro i p hp hx
    rw [hreloads] at hp
    rw [hexec]
    exact h.executes i p hp hx
  · intro i p hp hx
    rw [hreloads] at hp
    rw [hlife.1, hlife.2]
    exact h.activates i p hp hx
  · intro p hp
    rw [hshut] at hp
    rw [hlife.1]
    exact h.stops p hp
  · intro p hp
    rw [hshut] at hp
    exact hgrow.fences (h.fences p hp)
  · intro p hp
    rw [hreloads] at hp
    exact hgrow.known (h.known p hp)
  · rw [hact, hdeeds]
    exact h.activated
  · rw [hdeeds]
    exact h.pruned

theorem Inv.admissions_le {s : Host} (h : s.Inv) {w : Nat} {x : Worker} (hx : s.workers[w]? = some x) :
    x.admissions ≤ s.running := by
  have hset := sum_set_add Worker.admissions hx ⟨false, .over⟩
  have hc := h.count
  have hzero : Worker.admissions ⟨false, .over⟩ = 0 := rfl
  unfold admissions at hc
  omega

theorem release_fields (t : Host) (n : Nat) : (t.release n).reloads = t.reloads ∧ (t.release n).workers = t.workers ∧
    (t.release n).shutdowns = t.shutdowns ∧ (t.release n).lifecycleClosed = t.lifecycleClosed ∧
    (t.release n).execution = t.execution ∧ (t.release n).lifecycle = t.lifecycle ∧
    (t.release n).activated = t.activated ∧ (t.release n).deeds = t.deeds := by
  unfold release
  split <;> exact ⟨rfl, rfl, rfl, rfl, rfl, rfl, rfl, rfl⟩

/-- Admissions of a worker are dropped. -/
theorem Inv.releaseWorker {s : Host} (h : s.Inv) {w : Nat} {x x' : Worker} (hx : s.workers[w]? = some x) {n : Nat} {b : Bool}
    (hn : x.admissions = n + x'.admissions) :
    (({ s with slotFree := b }.release n).setWorker w x').Inv := by
  have hle := h.admissions_le hx
  have hgrow := release_grows { s with slotFree := b } (n := n) (by change n ≤ s.running; omega)
  obtain ⟨hr, hw, hs, hf, he, hl, ha, hd⟩ := release_fields { s with slotFree := b } n
  refine @Inv.turnWorker _ _ h _ _ x' hx ?_ ?_ hr hs ?_ he ⟨hl, hf⟩ ha hd
  · exact ⟨hgrow.submissions, hgrow.store, hgrow.lifecycle, hgrow.drained, hgrow.waits, hgrow.deeds, hgrow.current⟩
  · unfold setWorker
    rw [hw]
  · unfold setWorker
    dsimp only
    rw [release_running]
    change s.running - n + x.admissions = s.running + x'.admissions
    omega

theorem Inv.endWorker {s : Host} (h : s.Inv) {w : Nat} {x : Worker} (hx : s.workers[w]? = some x) : (s.endWorker w x).Inv :=
  h.releaseWorker hx rfl

/-- A worker that takes an admission. -/
theorem Inv.admitWorker {s : Host} (h : s.Inv) {w : Nat} {x x' : Worker} (hx : s.workers[w]? = some x)
    (hopen : ¬ s.submissionsClosed = true) (hn : x'.admissions = x.admissions + 1) :
    ({ s with running := s.running + 1 }.setWorker w x').Inv := by
  refine h.turnWorker hx ⟨id, id, id, fun hc => absurd hc hopen, fun _ => Or.inl (Nat.succ_pos _), fun _ hd => hd,
    fun c hc => ⟨c, hc, le_refl c⟩⟩ rfl rfl rfl ?_ rfl ⟨rfl, rfl⟩ rfl rfl
  change s.running + 1 + x.admissions = s.running + x'.admissions
  omega

theorem Inv.moveWorker {s : Host} (h : s.Inv) {w : Nat} {x x' : Worker} (hx : s.workers[w]? = some x) {b : Bool}
    (hn : x'.admissions = x.admissions) : ({ s with slotFree := b }.setWorker w x').Inv :=
  h.turnWorker hx ⟨id, id, id, fun _ hr => hr, id, fun _ hd => hd, fun c hc => ⟨c, hc, le_refl c⟩⟩ rfl rfl rfl
    (by rw [hn]; rfl) rfl ⟨rfl, rfl⟩ rfl rfl

theorem Inv.work {s : Host} (h : s.Inv) {w : Nat} {x : Worker} (hx : s.workers[w]? = some x) : (s.work w x).Inv := by
  obtain ⟨slot, phase⟩ := x
  cases phase with
  | waiting =>
    cases slot with
    | true =>
      rw [Host.work]
      dsimp only
      rw [if_pos rfl]
      split
      · exact h.moveWorker hx rfl
      · split
        · exact h.moveWorker hx rfl
        · exact h
    | false => exact h.moveWorker hx rfl
  | slotted =>
    rw [Host.work]
    dsimp only
    split
    · exact h.endWorker hx
    · rename_i hopen
      rw [Bool.or_eq_true, not_or] at hopen
      cases slot with
      | true => exact h.admitWorker hx hopen.1 rfl
      | false => exact absurd rfl hopen.2
  | admitted =>
    rw [Host.work]
    dsimp only
    split
    · exact h
    · rename_i hopen
      cases slot <;> exact h.admitWorker hx hopen rfl
  | attempting => cases slot <;> exact h.releaseWorker hx rfl
  | _ => exact h

theorem Inv.publish {s : Host} (h : s.Inv) (x : Worker) : (s.publish x).Inv := by
  unfold Host.publish
  split
  · split
    · exact h
    · have hkeep : ∀ d ∈ s.deeds, d ∈ s.deeds ++ [Deed.published (s.current.getD 0 + 1)] :=
        fun _ hd => List.mem_append_left _ hd
      have hgrow : s.Grows { s.addDeed (.published (s.current.getD 0 + 1)) with
          current := some (s.current.getD 0 + 1) } := by
        refine ⟨id, id, id, fun _ hr => hr, id, hkeep, ?_⟩
        intro c hc
        refine ⟨_, rfl, ?_⟩
        rw [hc]
        exact Nat.le_succ c
      refine ⟨h.count, h.executes, h.activates, h.stops, fun p hp => hgrow.fences (h.fences p hp),
        fun p hp => hgrow.known (h.known p hp), ?_, ?_⟩
      · rcases h.activated with ha | ⟨hs, hr, ho⟩
        · exact Or.inl ha
        · exact Or.inr ⟨hkeep _ hs, hkeep _ hr, hkeep _ ho⟩
      · intro g c hd
        rcases List.mem_append.mp hd with hd | hd
        · exact h.pruned g c hd
        · cases List.mem_singleton.mp hd
  · exact h

/-- What a step of one shutdown may change. -/
theorem Inv.turnShutdown {s s' : Host} (h : s.Inv) {q : Nat} {x : ShutdownPhase} (hgrow : s.Grows s')
    (hshut : s'.shutdowns = s.shutdowns.set q x) (hreloads : s'.reloads = s.reloads) (hworkers : s'.workers = s.workers)
    (hrun : s'.running = s.running) (hexec : s'.execution = s.execution)
    (hlife : ∀ i, s.lifecycle = some (.reload i) → s'.lifecycle = some (.reload i) ∧ s'.lifecycleClosed = s.lifecycleClosed)
    (hstops : x = .stopping → s'.lifecycle = some (.shutdown q))
    (hothers : ∀ j, j ≠ q → s.lifecycle = some (.shutdown j) → s'.lifecycle = some (.shutdown j))
    (hx : s'.Fences x) (hact : s'.activated = s.activated) (hdeeds : s'.deeds = s.deeds) : s'.Inv := by
  refine ⟨?_, ?_, ?_, ?_, ?_, ?_, ?_, ?_⟩
  · have hc := h.count
    unfold admissions at hc ⊢
    rw [hreloads, hworkers, hrun]
    exact hc
  · intro i p hp hx
    rw [hreloads] at hp
    rw [hexec]
    exact h.executes i p hp hx
  · intro i p hp hx
    rw [hreloads] at hp
    obtain ⟨hl, hopen⟩ := h.activates i p hp hx
    obtain ⟨hl', hf⟩ := hlife i hl
    exact ⟨hl', hf.trans hopen⟩
  · intro p hp
    rw [hshut] at hp
    rcases getElem?_set_cases hp with ⟨rfl, he⟩ | ⟨hne, hp⟩
    · exact hstops he.symm
    · exact hothers p hne (h.stops p hp)
  · intro p hp
    rw [hshut] at hp
    rcases List.mem_or_eq_of_mem_set hp with hp | rfl
    · exact hgrow.fences (h.fences p hp)
    · exact hx
  · intro p hp
    rw [hreloads] at hp
    exact hgrow.known (h.known p hp)
  · rw [hact, hdeeds]
    exact h.activated
  · rw [hdeeds]
    exact h.pruned

theorem Inv.proceed {s : Host} (h : s.Inv) {q : Nat} {x : ShutdownPhase} (hq : s.shutdowns[q]? = some x) :
    (s.proceed q x).Inv := by
  have hsame : ∀ c, s.current = some c → ∃ c', s.current = some c' ∧ c ≤ c' := fun c hc => ⟨c, hc, le_refl c⟩
  have hfence := h.fences x (List.mem_of_getElem? hq)
  have hkeep : ∀ i, s.lifecycle = some (.reload i) →
      s.lifecycle = some (.reload i) ∧ s.lifecycleClosed = s.lifecycleClosed := fun i hl => ⟨hl, rfl⟩
  cases x with
  | begun =>
    exact h.turnShutdown ⟨id, id, id, fun _ hr => hr, id, fun _ hd => hd, hsame⟩ rfl rfl rfl rfl rfl hkeep (fun he => (by cases he))
      (fun _ _ hj => hj) trivial rfl rfl
  | slotsClosed =>
    exact h.turnShutdown ⟨id, id, id, fun _ hr => hr, id, fun _ hd => hd, hsame⟩ rfl rfl rfl rfl rfl hkeep (fun he => (by cases he))
      (fun _ _ hj => hj) trivial rfl rfl
  | slotClosed =>
    exact h.turnShutdown ⟨fun _ => rfl, id, id, fun _ hr => hr, id, fun _ hd => hd, hsame⟩ rfl rfl rfl rfl rfl hkeep
      (fun he => (by cases he)) (fun _ _ hj => hj) rfl rfl rfl
  | submissionsClosed =>
    exact h.turnShutdown ⟨id, fun _ => rfl, id, fun _ hr => hr, id, fun _ hd => hd, hsame⟩ rfl rfl rfl rfl rfl hkeep
      (fun he => (by cases he)) (fun _ _ hj => hj) ⟨hfence, rfl⟩ rfl rfl
  | sealed =>
    rw [Host.proceed]
    split
    · rename_i hfree
      refine h.turnShutdown ⟨id, id, fun _ => rfl, fun _ hr => hr, id, fun _ hd => hd, hsame⟩ rfl rfl rfl rfl rfl ?_
        (fun he => (by cases he)) (fun _ _ hj => hj) ⟨hfence.1, hfence.2, rfl⟩ rfl rfl
      intro i hl
      rw [hfree] at hl
      cases hl
    · exact h
  | closed =>
    exact h.turnShutdown ⟨id, id, id, fun _ hr => hr, id, fun _ hd => hd, hsame⟩ rfl rfl rfl rfl rfl hkeep (fun he => (by cases he))
      (fun _ _ hj => hj) hfence rfl rfl
  | registered n =>
    rw [Host.proceed]
    split
    · rename_i hzero
      exact h.turnShutdown ⟨id, id, id, fun _ hr => hr, id, fun _ hd => hd, hsame⟩ rfl rfl rfl rfl rfl hkeep
        (fun he => (by cases he)) (fun _ _ hj => hj) ⟨hfence, hzero⟩ rfl rfl
    · rename_i hpos
      exact h.turnShutdown ⟨id, id, id, fun _ hr => hr, id, fun _ hd => hd, hsame⟩ rfl rfl rfl rfl rfl hkeep
        (fun he => (by cases he)) (fun _ _ hj => hj) ⟨hfence, fun _ => Or.inl (Nat.pos_of_ne_zero hpos)⟩ rfl rfl
  | draining n =>
    rw [Host.proceed]
    split
    · exact h.turnShutdown ⟨id, id, id, fun _ hr => hr, id, fun _ hd => hd, hsame⟩ rfl rfl rfl rfl rfl hkeep
        (fun he => (by cases he)) (fun _ _ hj => hj) hfence.1 rfl rfl
    · exact h
  | drained =>
    rw [Host.proceed]
    split
    · rename_i hfree
      refine h.turnShutdown ⟨id, id, id, fun _ hr => hr, id, fun _ hd => hd, hsame⟩ rfl rfl rfl rfl rfl ?_ (fun _ => rfl) ?_ hfence
        rfl rfl
      · intro i hl
        rw [hfree] at hl
        cases hl
      · intro j _ hj
        rw [hfree] at hj
        cases hj
    · exact h
  | stopping =>
    have hown := h.stops q hq
    refine h.turnShutdown ⟨id, id, id, fun _ hr => hr, id, fun _ hd => hd, hsame⟩ rfl rfl rfl rfl rfl ?_ (fun he => (by cases he)) ?_
      hfence rfl rfl
    · intro i hl
      rw [hown] at hl
      cases hl
    · intro j hne hj
      rw [hown] at hj
      exact absurd (Holder.shutdown.inj (Option.some.inj hj)).symm hne
  | done => exact h
  | cancelled => exact h

theorem Inv.cancel {s : Host} (h : s.Inv) {q : Nat} {x : ShutdownPhase} (hq : s.shutdowns[q]? = some x) :
    (s.cancel q x).Inv := by
  have hsame : ∀ c, s.current = some c → ∃ c', s.current = some c' ∧ c ≤ c' := fun c hc => ⟨c, hc, le_refl c⟩
  have hdrop : (s.setShutdown q .cancelled).Inv :=
    h.turnShutdown ⟨id, id, id, fun _ hr => hr, id, fun _ hd => hd, hsame⟩ rfl rfl rfl rfl rfl (fun i hl => ⟨hl, rfl⟩)
      (fun he => (by cases he)) (fun _ _ hj => hj) trivial rfl rfl
  cases x with
  | sealed => exact hdrop
  | draining n => exact hdrop
  | drained => exact hdrop
  | stopping =>
    have hown := h.stops q hq
    refine h.turnShutdown ⟨id, id, id, fun _ hr => hr, id, fun _ hd => hd, hsame⟩ rfl rfl rfl rfl rfl ?_ (fun he => (by cases he)) ?_
      trivial rfl rfl
    · intro i hl
      rw [hown] at hl
      cases hl
    · intro j hne hj
      rw [hown] at hj
      exact absurd (Holder.shutdown.inj (Option.some.inj hj)).symm hne
  | _ => exact h

theorem wake_fences {s : Host} {p : ShutdownPhase} (h : s.Fences p) : s.Fences (wake p) := by
  cases p with
  | draining n => exact ⟨h.1, fun hn => (by cases hn)⟩
  | _ => exact h

theorem wake_draining {p : ShutdownPhase} : wake p ≠ .draining false := by
  cases p <;> simp [wake]

theorem Inv.notify {s : Host} (h : s.Inv) : (s.step .notify).Inv := by
  rw [step]
  split
  · exact h
  · have hkeep {t : Host} (ht : t.submissionsClosed = s.submissionsClosed ∧ t.storeSealed = s.storeSealed ∧
        t.lifecycleClosed = s.lifecycleClosed ∧ t.running = s.running) {p : ShutdownPhase} (hp : s.Fences p)
        (hd : p ≠ .draining false) : t.Fences p := by
      obtain ⟨hs, hst, hl, hr⟩ := ht
      cases p with
      | draining n =>
        refine ⟨by rw [hs, hst, hl]; exact hp.1, ?_⟩
        rintro rfl
        exact absurd rfl hd
      | begun => trivial
      | slotsClosed => trivial
      | slotClosed => trivial
      | cancelled => trivial
      | submissionsClosed => exact hs.trans hp
      | sealed => exact ⟨hs.trans hp.1, hst.trans hp.2⟩
      | closed => exact ⟨hs.trans hp.1, hst.trans hp.2.1, hl.trans hp.2.2⟩
      | registered n => exact ⟨hs.trans hp.1, hst.trans hp.2.1, hl.trans hp.2.2⟩
      | drained => exact ⟨⟨hs.trans hp.1.1, hst.trans hp.1.2.1, hl.trans hp.1.2.2⟩, hr.trans hp.2⟩
      | stopping => exact ⟨⟨hs.trans hp.1.1, hst.trans hp.1.2.1, hl.trans hp.1.2.2⟩, hr.trans hp.2⟩
      | done => exact ⟨⟨hs.trans hp.1.1, hst.trans hp.1.2.1, hl.trans hp.1.2.2⟩, hr.trans hp.2⟩
    refine ⟨h.count, h.executes, h.activates, ?_, ?_, h.known, h.activated, h.pruned⟩
    · intro p hp
      rw [List.getElem?_map] at hp
      obtain ⟨x, hx, he⟩ := Option.map_eq_some_iff.mp hp
      cases x with
      | stopping => exact h.stops p hx
      | _ => cases he
    · intro p hp
      obtain ⟨x, hx, rfl⟩ := List.mem_map.mp hp
      refine hkeep ?_ (wake_fences (h.fences x hx)) wake_draining
      exact ⟨rfl, rfl, rfl, rfl⟩

theorem Inv.reload {s : Host} (h : s.Inv) : (s.step .reload).Inv := by
  rw [step]
  split
  · exact h
  · refine ⟨?_, ?_, ?_, h.stops, h.fences, ?_, h.activated, h.pruned⟩
    · have hc := h.count
      unfold admissions at hc ⊢
      rw [List.countP_append]
      exact hc
    · intro i p hp hx
      by_cases hlt : i < s.reloads.length
      · rw [List.getElem?_append_left hlt] at hp
        exact h.executes i p hp hx
      · rw [List.getElem?_append_right (Nat.le_of_not_lt hlt)] at hp
        obtain rfl := List.mem_singleton.mp (List.mem_of_getElem? hp)
        cases hx
    · intro i p hp hx
      by_cases hlt : i < s.reloads.length
      · rw [List.getElem?_append_left hlt] at hp
        exact h.activates i p hp hx
      · rw [List.getElem?_append_right (Nat.le_of_not_lt hlt)] at hp
        obtain rfl := List.mem_singleton.mp (List.mem_of_getElem? hp)
        cases hx
    · intro p hp
      rcases List.mem_append.mp hp with hp | hp
      · exact h.known p hp
      · rw [List.mem_singleton.mp hp]
        trivial

theorem Inv.step {s : Host} (h : s.Inv) (e : Event) : (s.step e).Inv := by
  cases e with
  | reload => exact h.reload
  | advance i outcome =>
    rw [Host.step]
    split
    · rename_i p hp
      exact h.advance hp outcome
    · exact h
  | panic i =>
    rw [Host.step]
    split
    · rename_i p hp
      split
      · exact h
      · exact h.endReload hp
    · exact h
  | submit slot =>
    refine ⟨?_, h.executes, h.activates, h.stops, h.fences, h.known, h.activated, h.pruned⟩
    have hc := h.count
    unfold admissions at hc ⊢
    rw [Host.step, List.map_append, List.sum_append]
    exact hc
  | work w =>
    rw [Host.step]
    split
    · rename_i x hx
      exact h.work hx
    · exact h
  | publish w =>
    rw [Host.step]
    split
    · exact h.publish _
    · exact h
  | leave w =>
    rw [Host.step]
    split
    · rename_i x hx
      split
      · exact h
      · exact h.endWorker hx
    · exact h
  | shutdown =>
    refine ⟨h.count, h.executes, h.activates, ?_, ?_, h.known, h.activated, h.pruned⟩
    · intro p hp
      by_cases hlt : p < s.shutdowns.length
      · rw [Host.step, List.getElem?_append_left hlt] at hp
        exact h.stops p hp
      · rw [Host.step, List.getElem?_append_right (Nat.le_of_not_lt hlt)] at hp
        cases List.mem_singleton.mp (List.mem_of_getElem? hp)
    · intro p hp
      rcases List.mem_append.mp hp with hp | hp
      · exact h.fences p hp
      · rw [List.mem_singleton.mp hp]
        trivial
  | proceed p =>
    rw [Host.step]
    split
    · rename_i x hx
      exact h.proceed hx
    · exact h
  | cancel p =>
    rw [Host.step]
    split
    · rename_i x hx
      exact h.cancel hx
    · exact h
  | notify => exact h.notify

theorem run_inv (es : List Event) : (run step start es).Inv := Run.invariant (fun _ e h => h.step e) inv_start es

/-- Every gate is closed and every admission is back. -/
def Drained (s : Host) : Prop :=
  (s.submissionsClosed = true ∧ s.storeSealed = true ∧ s.lifecycleClosed = true) ∧ s.running = 0

/-- What a step leaves of a drained host. -/
def Rests (s s' : Host) : Prop := s'.Drained ∧ s'.deeds = s.deeds ∧ s'.current = s.current

theorem rests_of {s s' : Host} (hd : s.Drained) (hs : s'.submissionsClosed = s.submissionsClosed)
    (hst : s'.storeSealed = s.storeSealed) (hl : s'.lifecycleClosed = s.lifecycleClosed) (hr : s'.running = s.running)
    (hdeeds : s'.deeds = s.deeds) (hc : s'.current = s.current) : s.Rests s' :=
  ⟨⟨⟨hs.trans hd.1.1, hst.trans hd.1.2.1, hl.trans hd.1.2.2⟩, hr.trans hd.2⟩, hdeeds, hc⟩

theorem release_zero (s : Host) : s.release 0 = s := by
  rw [release, if_pos rfl]

theorem Drained.rests {s : Host} (h : s.Inv) (hd : s.Drained) (e : Event) : s.Rests (s.step e) := by
  have hself : s.Rests s := ⟨hd, rfl, rfl⟩
  have hidle {i : Nat} {p : ReloadPhase} (hp : s.reloads[i]? = some p) : p.admitted = false := by
    by_contra ha
    rw [Bool.not_eq_false] at ha
    have hpos := h.admitted_pos hp ha
    rw [hd.2] at hpos
    exact absurd hpos (Nat.lt_irrefl 0)
  have hnone {w : Nat} {x : Worker} (hx : s.workers[w]? = some x) : x.admissions = 0 := by
    have hle := h.admissions_le hx
    rw [hd.2] at hle
    exact Nat.le_zero.mp hle
  have hend {i : Nat} {p : ReloadPhase} (hp : s.reloads[i]? = some p) : s.Rests (s.endReload i p) := by
    unfold endReload
    rw [hidle hp]
    simp only [Bool.false_eq_true, if_false, release_zero]
    exact rests_of hd rfl rfl rfl rfl rfl rfl
  have hleave {w : Nat} {x : Worker} (hx : s.workers[w]? = some x) : s.Rests (s.endWorker w x) := by
    unfold endWorker
    rw [hnone hx, release_zero]
    exact rests_of hd rfl rfl rfl rfl rfl rfl
  cases e with
  | reload =>
    rw [step]
    split
    · exact hself
    · exact rests_of hd rfl rfl rfl rfl rfl rfl
  | advance i outcome =>
    rw [step]
    split
    · rename_i p hp
      have hadm := hidle hp
      cases p with
      | slotted =>
        rw [advance, if_pos hd.1.1]
        exact hend hp
      | _ => first | exact hself | cases hadm
    · exact hself
  | panic i =>
    rw [step]
    split
    · rename_i p hp
      split
      · exact hself
      · exact hend hp
    · exact hself
  | submit slot => exact rests_of hd rfl rfl rfl rfl rfl rfl
  | work w =>
    rw [step]
    split
    · rename_i x hx
      unfold work
      split
      · split
        · split
          · exact rests_of hd rfl rfl rfl rfl rfl rfl
          · split
            · exact rests_of hd rfl rfl rfl rfl rfl rfl
            · exact hself
        · exact rests_of hd rfl rfl rfl rfl rfl rfl
      · rw [if_pos (by rw [hd.1.1]; rfl)]
        exact hleave hx
      · rw [if_pos hd.1.1]
        exact hself
      · rename_i hp
        have hzero := hnone hx
        unfold Worker.admissions at hzero
        rw [hp] at hzero
        dsimp only at hzero
        split at hzero <;> cases hzero
      · exact hself
    · exact hself
  | publish w =>
    rw [step]
    split
    · unfold publish
      split
      · rw [if_pos hd.1.2.1]
        exact hself
      · exact hself
    · exact hself
  | leave w =>
    rw [step]
    split
    · rename_i x hx
      split
      · exact hself
      · exact hleave hx
    · exact hself
  | shutdown => exact rests_of hd rfl rfl rfl rfl rfl rfl
  | proceed p =>
    rw [step]
    split
    · rename_i x hx
      cases x with
      | slotClosed => exact ⟨⟨⟨rfl, hd.1.2⟩, hd.2⟩, rfl, rfl⟩
      | submissionsClosed => exact ⟨⟨⟨hd.1.1, rfl, hd.1.2.2⟩, hd.2⟩, rfl, rfl⟩
      | sealed =>
        rw [proceed]
        split
        · exact ⟨⟨⟨hd.1.1, hd.1.2.1, rfl⟩, hd.2⟩, rfl, rfl⟩
        · exact hself
      | draining n =>
        rw [proceed]
        split
        · exact rests_of hd rfl rfl rfl rfl rfl rfl
        · exact hself
      | drained =>
        rw [proceed]
        split
        · exact rests_of hd rfl rfl rfl rfl rfl rfl
        · exact hself
      | done => exact hself
      | cancelled => exact hself
      | _ => exact rests_of hd rfl rfl rfl rfl rfl rfl
    · exact hself
  | cancel p =>
    rw [step]
    split
    · unfold cancel
      split
      all_goals exact hself
    · exact hself
  | notify =>
    rw [step]
    split
    · exact hself
    · exact rests_of hd rfl rfl rfl rfl rfl rfl

theorem Inv.drained_run {s : Host} (h : s.Inv) (hd : s.Drained) (es : List Event) :
    (run Host.step s es).deeds = s.deeds ∧ (run Host.step s es).current = s.current := by
  induction es generalizing s with
  | nil => exact ⟨rfl, rfl⟩
  | cons e es ih =>
    obtain ⟨hnext, hdeeds, hc⟩ := hd.rests h e
    obtain ⟨hdeeds', hc'⟩ := ih (h.step e) hnext
    exact ⟨hdeeds'.trans hdeeds, hc'.trans hc⟩

theorem Inv.passed {s : Host} (h : s.Inv) {p : ShutdownPhase} (hp : p ∈ s.shutdowns) (hpassed : p.passed = true) :
    s.Drained := by
  have hf := h.fences p hp
  cases p with
  | drained => exact hf
  | stopping => exact hf
  | done => exact hf
  | _ => cases hpassed

theorem host_lifecycle (es : List Event) :
    (∀ (i j : Nat) p q, (run step start es).reloads[i]? = some p → (run step start es).reloads[j]? = some q →
      p.executes = true → q.executes = true → i = j) ∧
    (∀ g c, .pruned g c ∈ (run step start es).deeds → c = some g) ∧
    ((run step start es).activated = 0 ∨ .synced (run step start es).activated ∈ (run step start es).deeds ∧
      .reconciled (run step start es).activated ∈ (run step start es).deeds ∧
      .ordered (run step start es).activated ∈ (run step start es).deeds) ∧
    (∀ p ∈ (run step start es).shutdowns, p.passed = true →
      (∀ r ∈ (run step start es).reloads, r.admitted = false) ∧
      (∀ w ∈ (run step start es).workers, w.admissions = 0) ∧
      ∀ later, (run step start (es ++ later)).deeds = (run step start es).deeds ∧
        (run step start (es ++ later)).current = (run step start es).current) ∧
    ((run step start es).running = (run step start es).admissions ∧
      (∀ r ∈ (run step start es).reloads, r.admitted = true → 0 < (run step start es).running) ∧
      ∀ w ∈ (run step start es).workers, w.admissions ≤ (run step start es).running) ∧
    ((.draining false ∈ (run step start es).shutdowns →
        0 < (run step start es).running ∨ 0 < (run step start es).notifying) ∧
      (0 < (run step start es).notifying → .draining false ∉ (run step start (es ++ [.notify])).shutdowns)) := by
  have h := run_inv es
  refine ⟨?_, h.pruned, h.activated, ?_, ⟨h.count, ?_, ?_⟩, ?_, ?_⟩
  · intro i j p q hp hq hx hy
    have hi := h.executes i p hp hx
    rw [h.executes j q hq hy] at hi
    exact (Option.some.inj hi).symm
  · intro p hp hpassed
    have hd := h.passed hp hpassed
    refine ⟨?_, ?_, ?_⟩
    · intro r hr
      obtain ⟨i, hi⟩ := List.mem_iff_getElem?.mp hr
      by_contra ha
      rw [Bool.not_eq_false] at ha
      have hpos := h.admitted_pos hi ha
      rw [hd.2] at hpos
      exact absurd hpos (Nat.lt_irrefl 0)
    · intro w hw
      obtain ⟨i, hi⟩ := List.mem_iff_getElem?.mp hw
      have hle := h.admissions_le hi
      rw [hd.2] at hle
      exact Nat.le_zero.mp hle
    · intro later
      rw [run_append]
      exact h.drained_run hd later
  · intro r hr ha
    obtain ⟨i, hi⟩ := List.mem_iff_getElem?.mp hr
    exact h.admitted_pos hi ha
  · intro w hw
    obtain ⟨i, hi⟩ := List.mem_iff_getElem?.mp hw
    exact h.admissions_le hi
  · intro hd
    exact (h.fences _ hd).2 rfl
  · intro hpos hin
    have hstep : run step start (es ++ [.notify]) = (run step start es).step .notify := run_append step start es [.notify]
    rw [hstep, step, if_neg (Nat.ne_of_gt hpos)] at hin
    obtain ⟨p, -, he⟩ := List.mem_map.mp hin
    exact wake_draining he

/-- A publication overtakes an activation, which catches up; a shutdown then waits for it. -/
example :
    let other := Event.advance 0 .other
    let proceed := Event.proceed 0
    let s := run step start ([Event.reload, other, other, other, .submit true, .work 0, .work 0, .work 0, .publish 0,
      .advance 0 .applied, other, other, .publish 0, .work 0, .leave 0] ++ List.replicate 4 other ++
      [Event.shutdown, proceed, proceed, proceed, proceed] ++ List.replicate 6 other ++ [proceed, proceed, proceed])
    s.deeds = [.published 1, .published 2, .synced 2, .reconciled 1, .ordered 1, .synced 2, .reconciled 2, .ordered 2,
      .pruned 2 (some 2)] ∧ s.activated = 2 ∧ s.shutdowns = [.drained] := by
  decide

end Host

end Gatel.App
