import Gatel.Lib.Holdings
import Gatel.Model.Http

namespace Gatel.Blocking

structure Limits where
  jobs : Nat
  memoryBytes : U64
  deriving DecidableEq

def Limits.validate (l : Limits) : Except String Limits :=
  if ¬ (1 ≤ l.jobs ∧ l.jobs ≤ 1024) ∨ l.memoryBytes = 0 then .error "blocking limits require 1..1024 jobs and nonzero memory bytes"
  else .ok l

/-- Saturating lifetime counters. -/
structure Counters where
  admitted : Nat
  rejectedJobs : Nat
  rejectedMemory : Nat
  rejectedClosed : Nat
  completed : Nat
  panicked : Nat
  abandoned : Nat

structure Snapshot where
  limits : Limits
  jobs : Nat
  memoryBytes : Nat
  closed : Bool
  running : Nat
  counters : Counters

inductive Error where
  | saturated
  | closed
  deriving DecidableEq

/-- `+=` and `-=` of a 64-bit counter; none where it would not fit. -/
def plus? (a b : Nat) : Option Nat := if a + b < 2 ^ 64 then some (a + b) else none

def minus? (a b : Nat) : Option Nat := if b ≤ a then some (a - b) else none

inductive Phase where
  | queued
  | running
  | completed
  deriving DecidableEq

structure Reservation where
  memoryBytes : U64
  phase : Phase
  deriving DecidableEq

def Reservation.started (r : Reservation) : Bool := r.phase ≠ .queued

namespace Snapshot

/-- `Executor::reserve`: closed, jobs, then memory. -/
def reserve (s : Snapshot) (memoryBytes : U64) : Option (Snapshot × Except Error Reservation) :=
  if s.closed then
    some ({ s with counters.rejectedClosed := saturatingAdd s.counters.rejectedClosed 1 }, .error .closed)
  else if s.limits.jobs ≤ s.jobs then
    some ({ s with counters.rejectedJobs := saturatingAdd s.counters.rejectedJobs 1 }, .error .saturated)
  else
    match (plus? s.memoryBytes memoryBytes.val).filter (· ≤ s.limits.memoryBytes.val) with
    | none => some ({ s with counters.rejectedMemory := saturatingAdd s.counters.rejectedMemory 1 }, .error .saturated)
    | some memory => (plus? s.jobs 1).map fun jobs =>
      ({ s with jobs := jobs, memoryBytes := memory, counters.admitted := saturatingAdd s.counters.admitted 1 },
        .ok ⟨memoryBytes, .queued⟩)

/-- `Reservation::start`. -/
def start (s : Snapshot) : Option Snapshot := (plus? s.running 1).map fun running => { s with running := running }

/-- `Drop for Reservation`. -/
def drop (s : Snapshot) (r : Reservation) : Option Snapshot := do
  let jobs ← minus? s.jobs 1
  let memory ← minus? s.memoryBytes r.memoryBytes.val
  let s := { s with jobs := jobs, memoryBytes := memory }
  match r.phase with
  | .queued => some { s with counters.abandoned := saturatingAdd s.counters.abandoned 1 }
  | .running => (minus? s.running 1).map fun running =>
    { s with running := running, counters.panicked := saturatingAdd s.counters.panicked 1 }
  | .completed => (minus? s.running 1).map fun running =>
    { s with running := running, counters.completed := saturatingAdd s.counters.completed 1 }

end Snapshot

/-- A budget with everything that refers to it. -/
structure Budget where
  snapshot : Snapshot
  /-- Every reservation there was, while it lives. -/
  reservations : List (Option Reservation)
  prepared : List Limits
  /-- The limits a publication in progress has replaced; it holds the lock. -/
  previous : Option Limits
  /-- How many jobs were ever admitted. -/
  granted : Nat

inductive Event where
  | reserve (memoryBytes : U64)
  | start (reservation : Nat)
  /-- The work returned; its reservation is dropped next. -/
  | returned (reservation : Nat)
  /-- A reservation is dropped: with its queued closure, by a panic, or after the work. -/
  | drop (reservation : Nat)
  | reconfigure (limits : Limits)
  | close
  | prepare (limits : Limits)
  | beginPublication (change : Nat)
  | publish
  | abandon

namespace Budget

def new (limits : Limits) : Except String Budget :=
  limits.validate.map fun limits => ⟨⟨limits, 0, 0, false, 0, ⟨0, 0, 0, 0, 0, 0, 0⟩⟩, [], [], none, 0⟩

/-- Who waits for the lock does nothing meanwhile. -/
@[grind =] def locked (b : Budget) (act : Budget → Option Budget) : Option Budget := if b.previous.isSome then some b else act b

@[grind =] def step (b : Budget) : Event → Option Budget
  | .reserve memoryBytes => b.locked fun b => (b.snapshot.reserve memoryBytes).map fun
    | (s, .ok r) => { b with snapshot := s, reservations := b.reservations ++ [some r], granted := b.granted + 1 }
    | (s, .error _) => { b with snapshot := s }
  | .start i => b.locked fun b => match b.reservations[i]? with
    | some (some ⟨memoryBytes, .queued⟩) => b.snapshot.start.map fun s =>
      { b with snapshot := s, reservations := b.reservations.set i (some ⟨memoryBytes, .running⟩) }
    | _ => some b
  | .returned i => match b.reservations[i]? with
    | some (some ⟨memoryBytes, .running⟩) => some { b with reservations := b.reservations.set i (some ⟨memoryBytes, .completed⟩) }
    | _ => some b
  | .drop i => b.locked fun b => match b.reservations[i]? with
    | some (some r) => (b.snapshot.drop r).map fun s => { b with snapshot := s, reservations := b.reservations.set i none }
    | _ => some b
  | .reconfigure limits => b.locked fun b => match limits.validate with
    | .ok limits => some { b with snapshot := { b.snapshot with limits := limits } }
    | .error _ => some b
  | .close => b.locked fun b => some { b with snapshot := { b.snapshot with closed := true } }
  | .prepare limits => match limits.validate with
    | .ok limits => some { b with prepared := b.prepared ++ [limits] }
    | .error _ => some b
  | .beginPublication k => b.locked fun b => match b.prepared[k]? with
    | some limits => some { b with snapshot := { b.snapshot with limits := limits }, previous := some b.snapshot.limits }
    | none => some b
  | .publish => some { b with previous := none }
  | .abandon => match b.previous with
    | some previous => some { b with snapshot := { b.snapshot with limits := previous }, previous := none }
    | none => some b

/-- Events one after another; none where arithmetic failed. -/
def run (b : Budget) (events : List Event) : Option Budget := events.foldlM step b

/-- The reservations that live. -/
def live (b : Budget) : List Reservation := Holdings.all id b.reservations

end Budget

def Limits.Valid (l : Limits) : Prop := 1 ≤ l.jobs ∧ l.jobs ≤ 1024

theorem Limits.valid_of_validate {l l' : Limits} (h : l.validate = .ok l') : l'.Valid := by
  unfold Limits.validate at h
  split at h
  · cases h
  · rename_i hok
    cases h
    exact not_not.mp (not_or.mp hok).1

def declared (l : List Reservation) : Nat := (l.map (·.memoryBytes.val)).sum

/-- The lifetime counters, before they saturate. -/
structure Tally where
  completed : Nat
  panicked : Nat
  abandoned : Nat

def Tally.total (t : Tally) : Nat := t.completed + t.panicked + t.abandoned

@[grind =] def Tally.ended (t : Tally) : Phase → Tally
  | .queued => { t with abandoned := t.abandoned + 1 }
  | .running => { t with panicked := t.panicked + 1 }
  | .completed => { t with completed := t.completed + 1 }

theorem Tally.total_ended (t : Tally) (p : Phase) : (t.ended p).total = t.total + 1 := by
  cases p <;> simp only [Tally.ended, Tally.total] <;> omega

/-- What the counters show of a tally. -/
def Counters.Shows (c : Counters) (t : Tally) : Prop :=
  c.completed = min t.completed (2 ^ 64 - 1) ∧ c.panicked = min t.panicked (2 ^ 64 - 1) ∧
    c.abandoned = min t.abandoned (2 ^ 64 - 1)

/-- The snapshot counts exactly the reservations that live. -/
structure Snapshot.Counts (s : Snapshot) (live : List Reservation) : Prop where
  jobs : s.jobs = live.length
  memory : s.memoryBytes = declared live
  running : s.running = live.countP Reservation.started
  jobs_le : s.jobs ≤ 1024
  memory_lt : s.memoryBytes < 2 ^ 64

theorem Snapshot.Counts.perm {s : Snapshot} {live live' : List Reservation} (h : s.Counts live)
    (hp : live.Perm live') : s.Counts live' :=
  ⟨h.jobs.trans hp.length_eq, h.memory.trans (hp.map _).sum_eq, h.running.trans (hp.countP_eq _),
    h.jobs_le, h.memory_lt⟩

namespace Snapshot

variable {s : Snapshot} {live : List Reservation}

theorem saturating_min (n : Nat) : saturatingAdd (min n (2 ^ 64 - 1)) 1 = min (n + 1) (2 ^ 64 - 1) := by
  unfold saturatingAdd
  omega

/-- Both limits hold with the job included, and the budget is open. -/
def Room (s : Snapshot) (memoryBytes : U64) : Prop :=
  s.closed = false ∧ s.jobs + 1 ≤ s.limits.jobs ∧ s.memoryBytes + memoryBytes.val ≤ s.limits.memoryBytes.val

def taken (s : Snapshot) (memoryBytes : U64) : Snapshot :=
  { s with jobs := s.jobs + 1, memoryBytes := s.memoryBytes + memoryBytes.val,
           counters.admitted := saturatingAdd s.counters.admitted 1 }

/-- A reservation is made exactly where there is room; else one refusal is counted. -/
theorem reserve_cases (s : Snapshot) (m : U64) (hc : s.Counts live) :
    (s.Room m ∧ s.reserve m = some (s.taken m, .ok ⟨m, .queued⟩)) ∨
    (¬ s.Room m ∧ ∃ e j r c, s.reserve m = some
      ({ s with counters := { s.counters with rejectedJobs := j, rejectedMemory := r, rejectedClosed := c } }, .error e)) := by
  have hlimit := s.limits.memoryBytes.isLt
  have hjobs := hc.jobs_le
  rcases hclosed : s.closed with _ | _
  · by_cases hj : s.limits.jobs ≤ s.jobs
    · right
      refine ⟨fun h => absurd h.2.1 (by omega), .saturated, saturatingAdd s.counters.rejectedJobs 1,
        s.counters.rejectedMemory, s.counters.rejectedClosed, ?_⟩
      simp only [reserve, hclosed, Bool.false_eq_true, if_false, if_pos hj]
    · by_cases hm : s.memoryBytes + m.val ≤ s.limits.memoryBytes.val
      · left
        refine ⟨⟨hclosed, by omega, hm⟩, ?_⟩
        have hplus : (plus? s.memoryBytes m.val).filter (· ≤ s.limits.memoryBytes.val) = some (s.memoryBytes + m.val) := by
          rw [plus?, if_pos (by omega)]
          simpa [Option.filter] using hm
        have hone : plus? s.jobs 1 = some (s.jobs + 1) := if_pos (by omega)
        simp only [reserve, hclosed, Bool.false_eq_true, if_false, if_neg hj, hplus, hone, Option.map_some, taken]
      · right
        refine ⟨fun h => hm h.2.2, .saturated, s.counters.rejectedJobs,
          saturatingAdd s.counters.rejectedMemory 1, s.counters.rejectedClosed, ?_⟩
        have hnone : (plus? s.memoryBytes m.val).filter (· ≤ s.limits.memoryBytes.val) = none := by
          unfold plus?
          split
          · simpa [Option.filter] using hm
          · rfl
        simp only [reserve, hclosed, Bool.false_eq_true, if_false, if_neg hj, hnone]
  · right
    refine ⟨fun h => by rw [Room, hclosed] at h; exact absurd h.1 (by simp), .closed,
      s.counters.rejectedJobs, s.counters.rejectedMemory, saturatingAdd s.counters.rejectedClosed 1, ?_⟩
    simp only [reserve, hclosed, if_true]

theorem Counts.taken (hc : s.Counts live) {m : U64} (hr : s.Room m) (hv : s.limits.Valid) :
    (s.taken m).Counts (live ++ [⟨m, .queued⟩]) := by
  refine ⟨?_, ?_, ?_, ?_, ?_⟩
  · simp [Snapshot.taken, hc.jobs]
  · simp [Snapshot.taken, hc.memory, declared]
  · have hqueued : Reservation.started ⟨m, .queued⟩ = false := rfl
    simp [Snapshot.taken, hc.running, List.countP_append, hqueued]
  · exact hr.2.1.trans hv.2
  · exact lt_of_le_of_lt hr.2.2 s.limits.memoryBytes.isLt

/-- The work of one queued job starts. -/
theorem Counts.start {m : U64} {rest : List Reservation} (hc : s.Counts (⟨m, .queued⟩ :: rest)) :
    s.start = some { s with running := s.running + 1 } ∧
      Counts { s with running := s.running + 1 } (⟨m, .running⟩ :: rest) := by
  have hle : rest.countP Reservation.started ≤ rest.length := List.countP_le_length
  have hjobs := hc.jobs
  have hrunning := hc.running
  have hqueued : Reservation.started ⟨m, .queued⟩ = false := rfl
  have hstarted : Reservation.started ⟨m, .running⟩ = true := rfl
  simp only [List.countP_cons, hqueued, List.length_cons, Bool.false_eq_true, if_false, Nat.add_zero] at hjobs hrunning
  have hmost := hc.jobs_le
  refine ⟨?_, ⟨hc.jobs, hc.memory, ?_, hc.jobs_le, hc.memory_lt⟩⟩
  · have hone : plus? s.running 1 = some (s.running + 1) := if_pos (by omega)
    simp only [Snapshot.start, hone, Option.map_some]
  · simp only [List.countP_cons, hstarted, if_true, hrunning]

/-- One reservation ends: its own job, bytes and phase are taken off. -/
theorem Counts.drop {r : Reservation} {rest : List Reservation} (hc : s.Counts (r :: rest)) {t : Tally}
    (ht : s.counters.Shows t) :
    ∃ s', s.drop r = some s' ∧ s'.Counts rest ∧ s'.counters.Shows (t.ended r.phase) ∧
      s'.counters.admitted = s.counters.admitted ∧ s'.limits = s.limits ∧ s'.closed = s.closed := by
  obtain ⟨hcompleted, hpanicked, habandoned⟩ := ht
  obtain ⟨hjobs, hmemory, hrunning, hmost, hfits⟩ := hc
  have hsum : declared (r :: rest) = r.memoryBytes.val + declared rest := rfl
  rw [List.length_cons] at hjobs
  rw [hsum] at hmemory
  rw [List.countP_cons] at hrunning
  have hj : minus? s.jobs 1 = some (s.jobs - 1) := if_pos (by omega)
  have hm : minus? s.memoryBytes r.memoryBytes.val = some (s.memoryBytes - r.memoryBytes.val) := if_pos (by omega)
  rcases hp : r.phase with _ | _ | _
  · have hstarted : r.started = false := by simp [Reservation.started, hp]
    simp only [hstarted, Bool.false_eq_true, if_false, Nat.add_zero] at hrunning
    have hdrop : s.drop r = some { s with
        jobs := s.jobs - 1, memoryBytes := s.memoryBytes - r.memoryBytes.val, running := s.running,
        counters := { s.counters with abandoned := saturatingAdd s.counters.abandoned 1 } } := by
      simp only [Snapshot.drop, hj, hm, hp, Option.bind_eq_bind, Option.bind_some]
    refine ⟨_, hdrop, ⟨?_, ?_, ?_, ?_, ?_⟩, ⟨hcompleted, hpanicked, ?_⟩, rfl, rfl, rfl⟩
    · simp only [hjobs, Nat.add_sub_cancel]
    · simp only [hmemory, Nat.add_sub_cancel_left]
    · simp only [hrunning]
    · exact (Nat.sub_le _ _).trans hmost
    · exact (Nat.sub_le _ _).trans_lt hfits
    · simp only [habandoned, saturating_min, Tally.ended]
  · have hstarted : r.started = true := by simp [Reservation.started, hp]
    simp only [hstarted, if_true] at hrunning
    have hr : minus? s.running 1 = some (s.running - 1) := if_pos (by omega)
    have hdrop : s.drop r = some { s with
        jobs := s.jobs - 1, memoryBytes := s.memoryBytes - r.memoryBytes.val, running := s.running - 1,
        counters := { s.counters with panicked := saturatingAdd s.counters.panicked 1 } } := by
      simp only [Snapshot.drop, hj, hm, hp, hr, Option.bind_eq_bind, Option.bind_some, Option.map_some]
    refine ⟨_, hdrop, ⟨?_, ?_, ?_, ?_, ?_⟩, ⟨hcompleted, ?_, habandoned⟩, rfl, rfl, rfl⟩
    · simp only [hjobs, Nat.add_sub_cancel]
    · simp only [hmemory, Nat.add_sub_cancel_left]
    · simp only [hrunning, Nat.add_sub_cancel]
    · exact (Nat.sub_le _ _).trans hmost
    · exact (Nat.sub_le _ _).trans_lt hfits
    · simp only [hpanicked, saturating_min, Tally.ended]
  · have hstarted : r.started = true := by simp [Reservation.started, hp]
    simp only [hstarted, if_true] at hrunning
    have hr : minus? s.running 1 = some (s.running - 1) := if_pos (by omega)
    have hdrop : s.drop r = some { s with
        jobs := s.jobs - 1, memoryBytes := s.memoryBytes - r.memoryBytes.val, running := s.running - 1,
        counters := { s.counters with completed := saturatingAdd s.counters.completed 1 } } := by
      simp only [Snapshot.drop, hj, hm, hp, hr, Option.bind_eq_bind, Option.bind_some, Option.map_some]
    refine ⟨_, hdrop, ⟨?_, ?_, ?_, ?_, ?_⟩, ⟨?_, hpanicked, habandoned⟩, rfl, rfl, rfl⟩
    · simp only [hjobs, Nat.add_sub_cancel]
    · simp only [hmemory, Nat.add_sub_cancel_left]
    · simp only [hrunning, Nat.add_sub_cancel]
    · exact (Nat.sub_le _ _).trans hmost
    · exact (Nat.sub_le _ _).trans_lt hfits
    · simp only [hcompleted, saturating_min, Tally.ended]

end Snapshot

namespace Budget

variable {b : Budget}

/-- What no interleaving breaks. -/
structure Accounted (b : Budget) : Prop where
  counts : b.snapshot.Counts b.live
  limits : b.snapshot.limits.Valid
  prepared : ∀ l ∈ b.prepared, l.Valid
  previous : ∀ l ∈ b.previous, l.Valid
  admitted : b.snapshot.counters.admitted = min b.granted (2 ^ 64 - 1)
  tally : ∃ t : Tally, b.snapshot.counters.Shows t ∧ b.granted = t.total + b.live.length

theorem Accounted.new {l : Limits} (h : Budget.new l = .ok b) : b.Accounted := by
  unfold Budget.new at h
  rcases hv : l.validate with _ | l'
  · rw [hv] at h
    cases h
  · rw [hv] at h
    cases h
    exact ⟨⟨rfl, rfl, rfl, Nat.zero_le _, Nat.two_pow_pos 64⟩, Limits.valid_of_validate hv,
      fun _ h => absurd h List.not_mem_nil, fun _ h => absurd h (Option.not_mem_none _), rfl, ⟨0, 0, 0⟩, ⟨rfl, rfl, rfl⟩, rfl⟩

theorem Accounted.locked {act : Budget → Option Budget} (h : b.Accounted)
    (hact : ∃ b', act b = some b' ∧ b'.Accounted) : ∃ b', b.locked act = some b' ∧ b'.Accounted := by
  unfold Budget.locked
  split
  · exact ⟨b, rfl, h⟩
  · exact hact

theorem Accounted.withLimits (h : b.Accounted) {l : Limits} (hl : l.Valid) {q : Option Limits} (hq : ∀ l ∈ q, l.Valid) :
    Accounted { b with snapshot := { b.snapshot with limits := l }, previous := q } :=
  ⟨⟨h.counts.jobs, h.counts.memory, h.counts.running, h.counts.jobs_le, h.counts.memory_lt⟩, hl, h.prepared, hq,
    h.admitted, h.tally⟩

theorem step_reserve (h : b.Accounted) (m : U64) (hp : b.previous = none) :
    (b.snapshot.Room m ∧ b.step (.reserve m) = some { b with
      snapshot := b.snapshot.taken m, reservations := b.reservations ++ [some ⟨m, .queued⟩], granted := b.granted + 1 }) ∨
    (¬ b.snapshot.Room m ∧ ∃ j r c, b.step (.reserve m) = some { b with snapshot := { b.snapshot with
      counters := { b.snapshot.counters with rejectedJobs := j, rejectedMemory := r, rejectedClosed := c } } }) := by
  have hfree : b.previous.isSome = false := by rw [hp, Option.isSome_none]
  rcases b.snapshot.reserve_cases m h.counts with ⟨hroom, hr⟩ | ⟨hfull, e, j, r, c, hr⟩
  · exact .inl ⟨hroom, by simp only [step, Budget.locked, hfree, Bool.false_eq_true, if_false, hr, Option.map_some]⟩
  · exact .inr ⟨hfull, j, r, c, by
      simp only [step, Budget.locked, hfree, Bool.false_eq_true, if_false, hr, Option.map_some]⟩

theorem Accounted.reserve (h : b.Accounted) (m : U64) : ∃ b', b.step (.reserve m) = some b' ∧ b'.Accounted := by
  rcases hp : b.previous with _ | q
  · obtain ⟨t, hshows, htotal⟩ := h.tally
    rcases step_reserve h m hp with ⟨hroom, hs⟩ | ⟨-, j, r, c, hs⟩
    · have hlive : live { b with
          snapshot := b.snapshot.taken m, reservations := b.reservations ++ [some ⟨m, .queued⟩], granted := b.granted + 1 } =
          b.live ++ [⟨m, .queued⟩] := Holdings.all_append b.reservations (some ⟨m, .queued⟩)
      refine ⟨_, hs, ⟨?_, h.limits, h.prepared, h.previous, ?_, t, hshows, ?_⟩⟩
      · rw [hlive]
        exact h.counts.taken hroom h.limits
      · simp only [Snapshot.taken, h.admitted, Snapshot.saturating_min]
      · rw [hlive, List.length_append, List.length_singleton]
        simp only [htotal]
        omega
    · refine ⟨_, hs, ⟨?_, h.limits, h.prepared, h.previous, h.admitted, t, hshows, htotal⟩⟩
      exact ⟨h.counts.jobs, h.counts.memory, h.counts.running, h.counts.jobs_le, h.counts.memory_lt⟩
  · refine ⟨b, ?_, h⟩
    simp only [step, Budget.locked, hp, Option.isSome_some, if_true]

/-- One live reservation, apart from the rest. -/
theorem live_apart {i : Nat} {r : Reservation} (hi : b.reservations[i]? = some (some r)) :
    ∃ rest, b.live.Perm (r :: rest) ∧ ∀ o, (Holdings.all id (b.reservations.set i o)).Perm (o.toList ++ rest) := by
  refine ⟨Holdings.all id (b.reservations.set i none), (@Holdings.all_release _ _ id _ _ _ none _ hi rfl rfl).symm, ?_⟩
  intro o
  have hlt := (List.getElem?_eq_some_iff.mp hi).1
  have hset := @Holdings.all_set _ _ id (b.reservations.set i o) i o none (List.getElem?_set_self hlt)
  rw [List.set_set] at hset
  exact hset.symm

/-- One live reservation changes or goes, and the snapshot with it. -/
theorem Accounted.replaced (h : b.Accounted) {i : Nat} {r : Reservation} (hi : b.reservations[i]? = some (some r))
    {t t' : Tally} (htotal : b.granted = t.total + b.live.length) {s : Snapshot} {o : Option Reservation}
    (hc : ∀ rest, b.snapshot.Counts (r :: rest) → s.Counts (o.toList ++ rest)) (hl : s.limits = b.snapshot.limits)
    (ha : s.counters.admitted = b.snapshot.counters.admitted) (hs : s.counters.Shows t')
    (ht : t'.total + o.toList.length = t.total + 1) :
    Accounted { b with snapshot := s, reservations := b.reservations.set i o } := by
  obtain ⟨rest, hlive, hset⟩ := live_apart hi
  refine ⟨(hc rest (h.counts.perm hlive)).perm (hset o).symm, hl ▸ h.limits, h.prepared, h.previous, ha.trans h.admitted,
    t', hs, ?_⟩
  have hlen := hlive.length_eq
  have hlen' := (hset o).length_eq
  simp only [live, List.length_cons, List.length_append] at htotal hlen hlen' ⊢
  omega

theorem Accounted.start (h : b.Accounted) (i : Nat) : ∃ b', b.step (.start i) = some b' ∧ b'.Accounted := by
  unfold step
  refine h.locked ?_
  rcases hi : b.reservations[i]? with _ | _ | ⟨bytes, _ | _ | _⟩
  case some.some.queued =>
    obtain ⟨t, hshows, htotal⟩ := h.tally
    obtain ⟨rest, hlive, -⟩ := live_apart hi
    obtain ⟨hstart, -⟩ := (h.counts.perm hlive).start
    have hnext := h.replaced (s := { b.snapshot with running := b.snapshot.running + 1 }) (o := some ⟨bytes, .running⟩)
      hi htotal (fun rest hc => hc.start.2) rfl rfl hshows rfl
    exact ⟨_, by simp only [hstart, Option.map_some], hnext⟩
  all_goals exact ⟨b, rfl, h⟩

theorem Accounted.returned (h : b.Accounted) (i : Nat) : ∃ b', b.step (.returned i) = some b' ∧ b'.Accounted := by
  rcases hi : b.reservations[i]? with _ | _ | ⟨bytes, _ | _ | _⟩
  case some.some.running =>
    obtain ⟨t, hshows, htotal⟩ := h.tally
    have hnext := h.replaced (s := b.snapshot) (o := some ⟨bytes, .completed⟩) hi htotal
      (fun rest hc => ⟨hc.jobs, hc.memory, hc.running, hc.jobs_le, hc.memory_lt⟩) rfl rfl hshows rfl
    exact ⟨_, by simp only [Budget.step, hi], hnext⟩
  all_goals exact ⟨b, by simp only [Budget.step, hi], h⟩

theorem Accounted.drop (h : b.Accounted) (i : Nat) : ∃ b', b.step (.drop i) = some b' ∧ b'.Accounted := by
  unfold step
  refine h.locked ?_
  rcases hi : b.reservations[i]? with _ | _ | r
  case some.some =>
    obtain ⟨t, hshows, htotal⟩ := h.tally
    obtain ⟨rest, hlive, -⟩ := live_apart hi
    obtain ⟨s', hdrop, -, hshows', hadmitted, hlimits, -⟩ := (h.counts.perm hlive).drop hshows
    have hcounts : ∀ rest, b.snapshot.Counts (r :: rest) → s'.Counts ((none : Option Reservation).toList ++ rest) := by
      intro rest hc
      obtain ⟨s'', hdrop', hcounts, -⟩ := hc.drop hshows
      rw [hdrop] at hdrop'
      cases hdrop'
      exact hcounts
    have hnext := h.replaced hi htotal hcounts hlimits hadmitted hshows' (t.total_ended _)
    exact ⟨_, by simp only [hdrop, Option.map_some], hnext⟩
  all_goals exact ⟨b, rfl, h⟩

/-- No event finds arithmetic that fails, and each keeps the accounts. -/
theorem Accounted.step (h : b.Accounted) (e : Event) : ∃ b', b.step e = some b' ∧ b'.Accounted := by
  cases e with
  | reserve m => exact h.reserve m
  | start i => exact h.start i
  | returned i => exact h.returned i
  | drop i => exact h.drop i
  | reconfigure l =>
    unfold Budget.step
    refine h.locked ?_
    rcases hv : l.validate with _ | l'
    · exact ⟨b, rfl, h⟩
    · exact ⟨_, rfl, h.withLimits (Limits.valid_of_validate hv) h.previous⟩
  | close =>
    have hcounts : Snapshot.Counts { b.snapshot with closed := true } b.live :=
      ⟨h.counts.jobs, h.counts.memory, h.counts.running, h.counts.jobs_le, h.counts.memory_lt⟩
    have hnext : Accounted { b with snapshot := { b.snapshot with closed := true } } :=
      ⟨hcounts, h.limits, h.prepared, h.previous, h.admitted, h.tally⟩
    unfold Budget.step
    exact h.locked ⟨_, rfl, hnext⟩
  | prepare l =>
    rcases hv : l.validate with _ | l'
    · exact ⟨b, by simp only [Budget.step, hv], h⟩
    · have hprepared : ∀ k ∈ b.prepared ++ [l'], k.Valid := by
        intro k hk
        rcases List.mem_append.mp hk with hk | hk
        · exact h.prepared k hk
        · rw [List.mem_singleton.mp hk]
          exact Limits.valid_of_validate hv
      have hnext : Accounted { b with prepared := b.prepared ++ [l'] } :=
        ⟨h.counts, h.limits, hprepared, h.previous, h.admitted, h.tally⟩
      exact ⟨_, by simp only [Budget.step, hv], hnext⟩
  | beginPublication k =>
    unfold Budget.step
    refine h.locked ?_
    rcases hk : b.prepared[k]? with _ | l
    · exact ⟨b, rfl, h⟩
    · refine ⟨_, rfl, h.withLimits (h.prepared l (List.mem_of_getElem? hk)) ?_⟩
      rintro _ ⟨⟩
      exact h.limits
  | publish => exact ⟨_, rfl, h.withLimits h.limits fun _ hq => absurd hq (Option.not_mem_none _)⟩
  | abandon =>
    rcases hq : b.previous with _ | q
    · exact ⟨b, by simp only [Budget.step, hq], h⟩
    · have hnext := h.withLimits (h.previous q hq) (q := none) fun _ hq => absurd hq (Option.not_mem_none _)
      exact ⟨_, by simp only [Budget.step, hq], hnext⟩

/-- What each event keeps, a run of such events keeps. -/
theorem run_keeps {P : Budget → Prop} {A : Event → Prop} (hs : ∀ b e, A e → P b → ∃ b', Budget.step b e = some b' ∧ P b')
    (h : P b) {events : List Event} (ha : ∀ e ∈ events, A e) : ∃ b', b.run events = some b' ∧ P b' := by
  induction events generalizing b with
  | nil => exact ⟨b, rfl, h⟩
  | cons e events ih =>
    obtain ⟨b₁, hstep, h₁⟩ := hs b e (ha e List.mem_cons_self) h
    obtain ⟨b', hr, h'⟩ := ih h₁ fun e he => ha e (List.mem_cons_of_mem _ he)
    refine ⟨b', ?_, h'⟩
    rw [Budget.run, List.foldlM_cons, hstep]
    exact hr

theorem Accounted.run (h : b.Accounted) (events : List Event) : ∃ b', b.run events = some b' ∧ b'.Accounted :=
  run_keeps (A := fun _ => True) (fun _ e _ h => h.step e) h fun _ _ => trivial

/-- Closed, with no job admitted since. -/
structure Shut (granted : Nat) (b : Budget) : Prop where
  accounted : b.Accounted
  closed : b.snapshot.closed = true
  granted : b.granted = granted

theorem Shut.step {n : Nat} (h : Shut n b) (e : Event) : ∃ b', b.step e = some b' ∧ Shut n b' := by
  obtain ⟨b', hs, hacc⟩ := h.accounted.step e
  suffices hkeep : b'.snapshot.closed = true ∧ b'.granted = b.granted from
    ⟨b', hs, hacc, hkeep.1, hkeep.2.trans h.granted⟩
  have hclosed := h.closed
  rcases hp : b.previous with _ | q
  · have hfree : b.previous.isSome = false := by rw [hp, Option.isSome_none]
    cases e with
    | reserve m =>
      rcases step_reserve h.accounted m hp with ⟨hroom, -⟩ | ⟨-, j, r, c, hstep⟩
      · rw [Snapshot.Room, hclosed] at hroom
        cases hroom.1
      · rw [hstep] at hs
        cases hs
        exact ⟨hclosed, rfl⟩
    | start i =>
      simp only [Budget.step, Budget.locked, hfree, Bool.false_eq_true, if_false, Snapshot.start] at hs
      split at hs
      · obtain ⟨s, hstart, rfl⟩ := Option.map_eq_some_iff.mp hs
        obtain ⟨running, -, rfl⟩ := Option.map_eq_some_iff.mp hstart
        exact ⟨hclosed, rfl⟩
      · cases hs
        exact ⟨hclosed, rfl⟩
    | drop i =>
      simp only [Budget.step, Budget.locked, hfree, Bool.false_eq_true, if_false] at hs
      rcases hi : b.reservations[i]? with _ | _ | r <;> simp only [hi] at hs
      · cases hs
        exact ⟨hclosed, rfl⟩
      · cases hs
        exact ⟨hclosed, rfl⟩
      · obtain ⟨t, hshows, -⟩ := h.accounted.tally
        obtain ⟨rest, hlive, -⟩ := live_apart hi
        obtain ⟨s', hdrop, -, -, -, -, hsame⟩ := (h.accounted.counts.perm hlive).drop hshows
        rw [hdrop] at hs
        cases hs
        exact ⟨hsame.trans hclosed, rfl⟩
    | _ =>
      simp only [Budget.step, Budget.locked, hfree, Bool.false_eq_true, if_false] at hs
      first
      | (cases hs; exact ⟨rfl, rfl⟩)
      | (cases hs; exact ⟨hclosed, rfl⟩)
      | (split at hs <;> cases hs <;> exact ⟨hclosed, rfl⟩)
  · have hheld : b.previous.isSome = true := by rw [hp, Option.isSome_some]
    cases e with
    | _ =>
      simp only [Budget.step, Budget.locked, hheld, if_true] at hs
      first
      | (cases hs; exact ⟨hclosed, rfl⟩)
      | (split at hs <;> cases hs <;> exact ⟨hclosed, rfl⟩)

/-- A publication in progress over the limits it replaced. -/
structure Held (q : Limits) (b : Budget) : Prop where
  accounted : b.Accounted
  previous : b.previous = some q

theorem Held.step {q : Limits} (h : Held q b) {e : Event} (hp : e ≠ .publish) (ha : e ≠ .abandon) :
    ∃ b', b.step e = some b' ∧ Held q b' := by
  obtain ⟨b', hs, hacc⟩ := h.accounted.step e
  refine ⟨b', hs, hacc, ?_⟩
  have hheld : b.previous.isSome = true := by rw [h.previous, Option.isSome_some]
  cases e with
  | publish => exact absurd rfl hp
  | abandon => exact absurd rfl ha
  | _ =>
    simp only [Budget.step, Budget.locked, hheld, if_true] at hs
    first
    | (cases hs; exact h.previous)
    | (split at hs <;> cases hs <;> exact h.previous)

/-- The counts, and what a saturated counter stops telling. -/
structure Conserved (b : Budget) : Prop where
  jobs : b.snapshot.jobs = b.live.length
  memory : b.snapshot.memoryBytes = (b.live.map (·.memoryBytes.val)).sum
  running : b.snapshot.running = b.live.countP Reservation.started
  lifetime : b.snapshot.counters.admitted < 2 ^ 64 - 1 → b.snapshot.counters.admitted =
    b.snapshot.counters.completed + b.snapshot.counters.panicked + b.snapshot.counters.abandoned + b.snapshot.jobs

theorem Accounted.conserved (h : b.Accounted) : b.Conserved := by
  refine ⟨h.counts.jobs, h.counts.memory, h.counts.running, ?_⟩
  intro hunsaturated
  obtain ⟨t, ⟨hc, hp, ha⟩, htotal⟩ := h.tally
  have hjobs := h.counts.jobs
  rw [h.admitted] at hunsaturated ⊢
  rw [hc, hp, ha, hjobs]
  unfold Tally.total at htotal
  omega

/-- A reservation asked for while the lock is free is made exactly where the budget is open and
both limits hold with it. -/
def AdmitsExactly (b : Budget) : Prop :=
  ∀ m, b.previous = none → ∃ b', b.step (.reserve m) = some b' ∧
    (b.snapshot.Room m ∧ b'.live = b.live ++ [⟨m, .queued⟩] ∧ b'.granted = b.granted + 1 ∨
      ¬ b.snapshot.Room m ∧ b'.live = b.live ∧ b'.granted = b.granted)

theorem Accounted.admitsExactly (h : b.Accounted) : b.AdmitsExactly := by
  intro m hp
  rcases step_reserve h m hp with ⟨hroom, hs⟩ | ⟨hfull, j, r, c, hs⟩
  · exact ⟨_, hs, .inl ⟨hroom, Holdings.all_append b.reservations (some ⟨m, .queued⟩), rfl⟩⟩
  · exact ⟨_, hs, .inr ⟨hfull, rfl, rfl⟩⟩

/-- A change begun takes force; if it is dropped unpublished, the limits it replaced are back. -/
def RestoresDropped (b : Budget) : Prop :=
  ∀ k limits between, b.previous = none → b.prepared[k]? = some limits → (∀ e ∈ between, e ≠ .publish ∧ e ≠ .abandon) →
    ∃ b₁ b₂, b.step (.beginPublication k) = some b₁ ∧ b₁.snapshot.limits = limits ∧
      b₁.run (between ++ [.abandon]) = some b₂ ∧ b₂.snapshot.limits = b.snapshot.limits ∧ b₂.previous = none

theorem Accounted.restoresDropped (h : b.Accounted) : b.RestoresDropped := by
  intro k limits between hp hk hbetween
  have hfree : b.previous.isSome = false := by rw [hp, Option.isSome_none]
  obtain ⟨b₁, hs, hacc⟩ := h.step (.beginPublication k)
  have hbegun : b₁.snapshot.limits = limits ∧ b₁.previous = some b.snapshot.limits := by
    simp only [Budget.step, Budget.locked, hfree, Bool.false_eq_true, if_false, hk] at hs
    cases hs
    exact ⟨rfl, rfl⟩
  obtain ⟨b₂, hrun, -, hheld⟩ := run_keeps (P := Held b.snapshot.limits) (A := fun e => e ≠ .publish ∧ e ≠ .abandon)
    (fun _ e hA hH => hH.step hA.1 hA.2) ⟨hacc, hbegun.2⟩ hbetween
  refine ⟨b₁, { b₂ with snapshot := { b₂.snapshot with limits := b.snapshot.limits }, previous := none }, hs, hbegun.1,
    ?_, rfl, rfl⟩
  have hstep : b₂.step .abandon =
      some { b₂ with snapshot := { b₂.snapshot with limits := b.snapshot.limits }, previous := none } := by
    simp only [Budget.step, hheld]
  rw [Budget.run] at hrun ⊢
  rw [List.foldlM_append, hrun, Option.bind_eq_bind, Option.bind_some, List.foldlM_cons, hstep]
  rfl

/-- Once closed, closed for good. -/
def StaysClosed (b : Budget) : Prop :=
  ∀ after, b.previous = none →
    ∃ b', b.run (.close :: after) = some b' ∧ b'.snapshot.closed = true ∧ b'.granted = b.granted

theorem Accounted.staysClosed (h : b.Accounted) : b.StaysClosed := by
  intro after hp
  have hfree : b.previous.isSome = false := by rw [hp, Option.isSome_none]
  obtain ⟨b₁, hs, hacc⟩ := h.step .close
  have hshut : b₁.snapshot.closed = true ∧ b₁.granted = b.granted := by
    simp only [Budget.step, Budget.locked, hfree, Bool.false_eq_true, if_false] at hs
    cases hs
    exact ⟨rfl, rfl⟩
  obtain ⟨b', hrun, hend⟩ := run_keeps (P := Shut b.granted) (A := fun _ => True) (fun _ e _ hS => hS.step e)
    ⟨hacc, hshut.1, hshut.2⟩ (fun e (_ : e ∈ after) => trivial)
  refine ⟨b', ?_, hend.closed, hend.granted⟩
  rw [Budget.run, List.foldlM_cons, hs]
  exact hrun

/-- Over every interleaving nothing underflows or overflows, and the accounts stand. -/
theorem accounts_stand {limits : Limits} {b : Budget} (h : Budget.new limits = .ok b) (events : List Event) :
    ∃ b', b.run events = some b' ∧ b'.Conserved ∧ b'.AdmitsExactly ∧ b'.RestoresDropped ∧ b'.StaysClosed := by
  obtain ⟨b', hrun, hacc⟩ := (Accounted.new h).run events
  exact ⟨b', hrun, hacc.conserved, hacc.admitsExactly, hacc.restoresDropped, hacc.staysClosed⟩

/-- A budget shrunk below its usage, swapped back and closed. -/
theorem accounts_stand_shrunk : ∃ b b', Budget.new ⟨2, 64⟩ = .ok b ∧
    b.run [.reserve 24, .start 0, .reserve 40, .prepare ⟨1, 8⟩, .beginPublication 0, .abandon, .returned 0, .drop 0, .close] = some b' ∧
    b'.Conserved ∧ b'.AdmitsExactly ∧ b'.RestoresDropped ∧ b'.StaysClosed := by
  have h : Budget.new ⟨2, 64⟩ = .ok ⟨⟨⟨2, 64⟩, 0, 0, false, 0, ⟨0, 0, 0, 0, 0, 0, 0⟩⟩, [], [], none, 0⟩ := by rfl
  obtain ⟨b', hrun, hend⟩ := accounts_stand h
    [.reserve 24, .start 0, .reserve 40, .prepare ⟨1, 8⟩, .beginPublication 0, .abandon, .returned 0, .drop 0, .close]
  exact ⟨_, b', h, hrun, hend⟩

end Budget

end Gatel.Blocking
