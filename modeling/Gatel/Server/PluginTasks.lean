import Gatel.Lib.Run

namespace Gatel.Http
open Run (run run_append run_cons run_nil)

/-! The background tasks of one generation: prepared, activated once, signalled, aborted and
joined. Every lock and every await is a point where others may run. -/

inductive TaskOutcome where
  | pending | running | completed | failed | panicked | cancelled
  deriving DecidableEq

/-- Where the future of a task is. -/
inductive Life where
  | unborn
  | spawned
  | polled
  /-- Its outcome is reported; it is about to be gone. -/
  | leaving
  | ended
  deriving DecidableEq

/-- How the body of a task ends when it is not aborted. -/
inductive Verdict where
  | ok | error | panic

def Verdict.outcome : Verdict → TaskOutcome
  | .ok => .completed
  | .error => .failed
  | .panic => .panicked

structure Task where
  cooperative : Bool
  outcome : TaskOutcome
  life : Life
  /-- Calls of its factory. -/
  runs : Nat
  aborted : Bool
  joined : Bool

namespace Task

def new (cooperative : Bool) : Task := ⟨cooperative, .pending, .unborn, 0, false, false⟩

def spawn (t : Task) : Task := { t with outcome := .running, life := .spawned }

def poll (t : Task) : Task :=
  if t.life = .spawned ∧ t.aborted = false then { t with life := .polled, runs := t.runs + 1 } else t

def finish (t : Task) (v : Verdict) : Task :=
  if t.life = .polled then { t with outcome := v.outcome, life := .leaving } else t

/-- The drop of `Completion`. -/
def complete (t : Task) : Task := if t.outcome = .running then { t with outcome := .cancelled } else t

/-- The future is gone: it came to its end, or an abort took it. -/
def leave (t : Task) : Task :=
  if t.life = .leaving ∨ t.aborted = true ∧ (t.life = .spawned ∨ t.life = .polled) then { t.complete with life := .ended }
  else t

/-- What `shutdown` reports of a task that never ran. -/
def mark (t : Task) : Task := if t.outcome = .pending then { t with outcome := .cancelled } else t

def abort (t : Task) : Task := { t with aborted := true }

def join (t : Task) : Task := { t with joined := true }

end Task

/-- `State`, with a flag for each task whose handle is still there. -/
inductive ScopeState where
  | pending
  /-- `activate` holds the lock and has spawned so many. -/
  | activating (n : Nat)
  | running (handles : List Bool)
  | stopping (handles : List Bool)
  | stopped

/-- Where a call of `shutdown` is. -/
inductive ShutdownPhase where
  /-- For the lock on shutdowns. -/
  | waiting
  | locked
  | marking (i : Nat) (handles : Option (List Bool))
  | grace (i : Nat) (handles : List Bool)
  | joining (i : Nat) (handles : List Bool)
  | done
  | cancelled
  deriving DecidableEq

structure TaskScope where
  tasks : List Task
  state : ScopeState
  /-- The call that holds the lock on shutdowns. -/
  lock : Option Nat
  calls : List ShutdownPhase
  /-- Its `PluginTasks` is there. -/
  owned : Bool

namespace TaskScope

def limit : Nat := 64

def new (cooperative : List Bool) : TaskScope := ⟨cooperative.map Task.new, .pending, none, [], true⟩

def isPending (s : TaskScope) : Bool := match s.state with
  | .pending => true
  | _ => false

/-- Not while a shutdown is under way, whatever the state then is. -/
def isStopped (s : TaskScope) : Bool := s.lock.isNone && match s.state with
  | .stopped => true
  | _ => false

def setPhase (s : TaskScope) (c : Nat) (p : ShutdownPhase) : TaskScope := { s with calls := s.calls.set c p }

/-- Aborts the tasks with a handle among those picked. -/
def abort (s : TaskScope) (handles : List Bool) (pick : Task → Bool) : TaskScope :=
  { s with tasks := s.tasks.mapIdx fun i t => if handles[i]? = some true ∧ pick t then t.abort else t }

def ended (s : TaskScope) (i : Nat) : Bool := match s.tasks[i]? with
  | some t => t.life = .ended
  | none => false

inductive Event where
  | activate
  /-- The next turn of the loop in `activate`. -/
  | spawn
  | poll (i : Nat)
  | finish (i : Nat) (v : Verdict)
  | leave (i : Nat)
  /-- Somebody calls `shutdown`. -/
  | shutdown
  | advance (c : Nat)
  /-- The grace period of a call is over. -/
  | expire (c : Nat)
  /-- The future of a call is dropped. -/
  | cancel (c : Nat)
  /-- The `PluginTasks` is dropped. -/
  | disown

def spawnNext (s : TaskScope) (n : Nat) : TaskScope :=
  if n < s.tasks.length then { s with tasks := s.tasks.modify n Task.spawn, state := .activating (n + 1) }
  else { s with state := .running (List.replicate s.tasks.length true) }

/-- Takes the state, with the handles in it. -/
def swap (s : TaskScope) (c : Nat) : TaskScope :=
  match s.state with
  | .activating _ => s
  | .pending | .stopped => { s with state := .stopped }.setPhase c (.marking 0 none)
  | .running handles | .stopping handles => { s with state := .stopped }.setPhase c (.marking 0 (some handles))

/-- A turn of a loop that joins; it waits for a task that has not ended. -/
def joinNext (s : TaskScope) (c i : Nat) (handles : List Bool) (next : Nat → List Bool → ShutdownPhase) : TaskScope :=
  if handles[i]? = some true then
    if s.ended i then { s with tasks := s.tasks.modify i Task.join }.setPhase c (next (i + 1) (handles.set i false)) else s
  else s.setPhase c (next (i + 1) handles)

@[grind =] def advance (s : TaskScope) (c : Nat) : ShutdownPhase → TaskScope
  | .waiting => if s.lock = none then { s with lock := some c }.setPhase c .locked else s
  | .locked => s.swap c
  | .marking i handles =>
    if i < s.tasks.length then { s with tasks := s.tasks.modify i Task.mark }.setPhase c (.marking (i + 1) handles)
    else match handles with
      | none => { s with lock := none }.setPhase c .done
      | some handles => (s.abort handles fun t => !t.cooperative).setPhase c (.grace 0 handles)
  | .grace i handles =>
    if i < s.tasks.length then s.joinNext c i handles .grace
    else (s.abort handles fun _ => true).setPhase c (.joining 0 handles)
  | .joining i handles =>
    if i < s.tasks.length then s.joinNext c i handles .joining else { s with lock := none }.setPhase c .done
  | .done | .cancelled => s

/-- The drop of `ShutdownWork`, and then of the lock. -/
def keep (s : TaskScope) (c : Nat) (handles : List Bool) : TaskScope :=
  { s.abort handles fun _ => true with state := .stopping handles, lock := none }.setPhase c .cancelled

def cancel (s : TaskScope) (c : Nat) : ShutdownPhase → TaskScope
  | .waiting => s.setPhase c .cancelled
  | .grace _ handles | .joining _ handles => s.keep c handles
  -- There is no await in the other phases.
  | .locked | .marking _ _ | .done | .cancelled => s

@[grind =] def step (s : TaskScope) : Event → TaskScope
  | .activate => if s.owned && s.isPending then { s with state := .activating 0 } else s
  | .spawn => match s.state with
    | .activating n => s.spawnNext n
    | _ => s
  | .poll i => { s with tasks := s.tasks.modify i Task.poll }
  | .finish i v => { s with tasks := s.tasks.modify i fun t => t.finish v }
  | .leave i => { s with tasks := s.tasks.modify i Task.leave }
  | .shutdown => { s with calls := s.calls ++ [.waiting] }
  | .advance c => match s.calls[c]? with
    | some p => s.advance c p
    | none => s
  | .expire c => match s.calls[c]? with
    | some (.grace i handles) =>
      if handles[i]? = some true then (s.abort handles fun _ => true).setPhase c (.joining 0 handles) else s
    | _ => s
  | .cancel c => match s.calls[c]? with
    | some p => s.cancel c p
    | none => s
  -- `activate` borrows it.
  | .disown => match s.state with
    | .activating _ => s
    | _ => { s with owned := false }

end TaskScope

/-- What the steps a task has made say of its outcome and of the calls of its factory. -/
def Task.Ok (t : Task) : Prop :=
  match t.life with
  | .unborn => t.runs = 0 ∧ t.joined = false ∧ (t.outcome = .pending ∨ t.outcome = .cancelled)
  | .spawned => t.runs = 0 ∧ t.joined = false ∧ t.outcome = .running
  | .polled => t.runs = 1 ∧ t.joined = false ∧ t.outcome = .running
  | .leaving => t.runs = 1 ∧ t.joined = false ∧ t.outcome ≠ .pending ∧ t.outcome ≠ .running
  | .ended => t.runs ≤ 1 ∧ t.outcome ≠ .pending ∧ t.outcome ≠ .running

/-- The moves an outcome may make. -/
inductive TaskOutcome.Moves : TaskOutcome → TaskOutcome → Prop
  | started : Moves .pending .running
  | discarded : Moves .pending .cancelled
  | final {o : TaskOutcome} : o ≠ .pending → o ≠ .running → Moves .running o

/-- What one step may do to a task. -/
structure Task.Follows (t t' : Task) : Prop where
  ok : t.Ok → t'.Ok
  still : t.life = .unborn ∨ t.life = .ended → t'.life = t.life ∧ t'.runs = t.runs
  joined : t.joined = true → t'.joined = true
  outcome : t.Ok → t'.outcome = t.outcome ∨ t.outcome.Moves t'.outcome

namespace Task

theorem Follows.refl (t : Task) : t.Follows t := ⟨id, fun _ => ⟨rfl, rfl⟩, id, fun _ => Or.inl rfl⟩

theorem Follows.born {t t' : Task} (h : t.Follows t') (hl : t'.life ≠ .unborn) : t.life ≠ .unborn := by
  intro hu
  have he := (h.still (Or.inl hu)).1
  rw [hu] at he
  exact hl he

theorem runs_of_ok {t : Task} (h : t.Ok) : t.runs ≤ 1 ∧ (t.life = .unborn → t.runs = 0) := by
  unfold Ok at h
  cases hl : t.life <;> rw [hl] at h <;> simp only at h
  · exact ⟨by omega, fun _ => h.1⟩
  · exact ⟨by omega, Life.noConfusion⟩
  · exact ⟨by omega, Life.noConfusion⟩
  · exact ⟨by omega, Life.noConfusion⟩
  · exact ⟨h.1, Life.noConfusion⟩

theorem verdict_final (v : Verdict) : v.outcome ≠ .pending ∧ v.outcome ≠ .running := by
  cases v <;> exact ⟨TaskOutcome.noConfusion, TaskOutcome.noConfusion⟩

theorem poll_follows (t : Task) : t.Follows t.poll := by
  unfold poll
  split
  · rename_i hl
    refine ⟨?_, ?_, id, fun _ => Or.inl rfl⟩
    · intro ho
      rw [Ok, hl.1] at ho
      exact ⟨by rw [ho.1], ho.2.1, ho.2.2⟩
    · intro hu
      rw [hl.1] at hu
      rcases hu with hu | hu <;> cases hu
  · exact .refl t

theorem finish_follows (t : Task) (v : Verdict) : t.Follows (t.finish v) := by
  unfold finish
  split
  · rename_i hl
    refine ⟨?_, ?_, id, ?_⟩
    · intro ho
      rw [Ok, hl] at ho
      exact ⟨ho.1, ho.2.1, verdict_final v⟩
    · intro hu
      rw [hl] at hu
      rcases hu with hu | hu <;> cases hu
    · intro ho
      rw [Ok, hl] at ho
      rw [ho.2.2]
      exact Or.inr (.final (verdict_final v).1 (verdict_final v).2)
  · exact .refl t

theorem leave_follows (t : Task) : t.Follows t.leave := by
  unfold leave
  split
  · rename_i hl
    have hmoving {q : Prop} (hu : t.life = .unborn ∨ t.life = .ended) : q := by
      rcases hu with hu | hu <;> rw [hu] at hl <;> rcases hl with hl | ⟨-, hl | hl⟩ <;> cases hl
    have hcases : t.Ok → t.runs ≤ 1 ∧ t.outcome ≠ .pending := by
      intro ho
      rcases hl with hl | ⟨-, hl | hl⟩ <;> rw [Ok, hl] at ho
      · exact ⟨ho.1.le, ho.2.2.1⟩
      · exact ⟨by omega, by rw [ho.2.2]; exact TaskOutcome.noConfusion⟩
      · exact ⟨ho.1.le, by rw [ho.2.2]; exact TaskOutcome.noConfusion⟩
    unfold complete
    split
    · rename_i hr
      refine ⟨?_, hmoving, id, ?_⟩
      · intro ho
        exact ⟨(hcases ho).1, TaskOutcome.noConfusion, TaskOutcome.noConfusion⟩
      · intro _
        rw [hr]
        exact Or.inr (.final TaskOutcome.noConfusion TaskOutcome.noConfusion)
    · rename_i hr
      refine ⟨?_, hmoving, id, fun _ => Or.inl rfl⟩
      intro ho
      exact ⟨(hcases ho).1, (hcases ho).2, hr⟩
  · exact .refl t

theorem mark_follows (t : Task) : t.Follows t.mark := by
  unfold mark
  split
  · rename_i hp
    refine ⟨?_, fun _ => ⟨rfl, rfl⟩, id, ?_⟩
    · intro ho
      unfold Ok at ho ⊢
      cases hl : t.life <;> rw [hl] at ho <;> simp only at ho ⊢
      · exact ⟨ho.1, ho.2.1, Or.inr trivial⟩
      · rw [hp] at ho
        cases ho.2.2
      · rw [hp] at ho
        cases ho.2.2
      · exact absurd hp ho.2.2.1
      · exact absurd hp ho.2.1
    · intro _
      rw [hp]
      exact Or.inr .discarded
  · exact .refl t

theorem abort_follows (t : Task) : t.Follows t.abort := ⟨id, fun _ => ⟨rfl, rfl⟩, id, fun _ => Or.inl rfl⟩

theorem join_follows {t : Task} (hl : t.life = .ended) : t.Follows t.join := by
  refine ⟨?_, fun _ => ⟨rfl, rfl⟩, fun _ => rfl, fun _ => Or.inl rfl⟩
  intro ho
  unfold Ok at ho ⊢
  rw [join, hl]
  rw [hl] at ho
  exact ho

end Task

namespace ShutdownPhase

/-- The handles a call has with it. -/
def handles : ShutdownPhase → Option (List Bool)
  | .marking _ handles => handles
  | .grace _ handles | .joining _ handles => some handles
  | .waiting | .locked | .done | .cancelled => none

def Holds (p : ShutdownPhase) (i : Nat) : Prop := ∃ handles, p.handles = some handles ∧ handles[i]? = some true

/-- It has taken the state. -/
def Swapped : ShutdownPhase → Prop
  | .marking _ _ | .grace _ _ | .joining _ _ => True
  | .waiting | .locked | .done | .cancelled => False

def Locks (p : ShutdownPhase) : Prop := p = .locked ∨ p.Swapped

/-- The last loop leaves no handle behind it. -/
def Passed : ShutdownPhase → Prop
  | .joining i handles => ∀ j, j < i → handles[j]? ≠ some true
  | _ => True

theorem swapped_of_handles {p : ShutdownPhase} {handles : List Bool} (h : p.handles = some handles) : p.Swapped := by
  cases p with
  | marking i hs => trivial
  | grace i hs => trivial
  | joining i hs => trivial
  | _ => cases h

end ShutdownPhase

namespace ScopeState

def Holds : ScopeState → Nat → Prop
  | .running handles, i | .stopping handles, i => handles[i]? = some true
  | .activating n, i => i < n
  | .pending, _ | .stopped, _ => False

/-- The task has not been spawned yet, and may be. -/
def Unborn : ScopeState → Nat → Prop
  | .pending, _ => True
  | .activating n, i => n ≤ i
  | _, _ => False

end ScopeState

namespace TaskScope

/-- Stopped, and no call brings anything back. -/
def Spent (s : TaskScope) : Prop := s.state = .stopped ∧ ∀ p ∈ s.calls, p.handles = none

def Held (s : TaskScope) (i : Nat) : Prop := s.state.Holds i ∨ ∃ p ∈ s.calls, p.Holds i

structure Inv (s : TaskScope) : Prop where
  ok : ∀ t ∈ s.tasks, t.Ok
  fresh : ∀ i t, s.tasks[i]? = some t → s.state.Unborn i → t.life = .unborn ∧ t.outcome = .pending
  locked : ∀ c p, s.calls[c]? = some p → p.Locks → s.lock = some c
  swapped : ∀ p ∈ s.calls, p.Swapped → s.state = .stopped
  passed : ∀ p ∈ s.calls, p.Passed
  held : ∀ i t, s.tasks[i]? = some t → t.life ≠ .unborn → t.joined = true ∨ s.Held i
  finished : .done ∈ s.calls → s.Spent

theorem inv_new (cooperative : List Bool) : (new cooperative).Inv where
  ok t ht := by
    obtain ⟨b, -, rfl⟩ := List.mem_map.mp ht
    exact ⟨rfl, rfl, Or.inl rfl⟩
  fresh i t ht _ := by
    obtain ⟨b, -, rfl⟩ := List.mem_map.mp (List.mem_of_getElem? ht)
    exact ⟨rfl, rfl⟩
  locked _ _ h := by cases h
  swapped _ h := by cases h
  passed _ h := by cases h
  held i t ht hl := by
    obtain ⟨b, -, rfl⟩ := List.mem_map.mp (List.mem_of_getElem? ht)
    exact absurd rfl hl
  finished h := by cases h

/-- Each task of the second list comes from the one at its place in the first. -/
def Follow (ts ts' : List Task) : Prop :=
  ts'.length = ts.length ∧ ∀ (i : Nat) t', ts'[i]? = some t' → ∃ t : Task, ts[i]? = some t ∧ t.Follows t'

theorem Follow.refl (ts : List Task) : Follow ts ts := ⟨rfl, fun _ t ht => ⟨t, ht, .refl t⟩⟩

theorem follow_modify {ts : List Task} {i : Nat} {f : Task → Task} (hf : ∀ t, ts[i]? = some t → t.Follows (f t)) :
    Follow ts (ts.modify i f) := by
  refine ⟨List.length_modify _ _ _, ?_⟩
  intro j t' ht'
  rw [List.getElem?_modify] at ht'
  obtain ⟨t, ht, he⟩ := Option.map_eq_some_iff.mp ht'
  refine ⟨t, ht, ?_⟩
  by_cases hij : i = j
  · subst hij
    rw [if_pos rfl] at he
    exact he ▸ hf t ht
  · rw [if_neg hij] at he
    exact he ▸ .refl t

theorem follow_abort (s : TaskScope) (handles : List Bool) (pick : Task → Bool) :
    Follow s.tasks (s.abort handles pick).tasks := by
  refine ⟨List.length_mapIdx, ?_⟩
  intro i t' ht'
  rw [abort, List.getElem?_mapIdx] at ht'
  obtain ⟨t, ht, he⟩ := Option.map_eq_some_iff.mp ht'
  refine ⟨t, ht, ?_⟩
  split at he
  · exact he ▸ t.abort_follows
  · exact he ▸ .refl t

theorem Follow.ok {ts ts' : List Task} (h : Follow ts ts') (hok : ∀ t ∈ ts, t.Ok) : ∀ t ∈ ts', t.Ok := by
  intro t' ht'
  obtain ⟨i, hi⟩ := List.mem_iff_getElem?.mp ht'
  obtain ⟨t, ht, hf⟩ := h.2 i t' hi
  exact hf.ok (hok t (List.mem_of_getElem? ht))

/-- Tasks go on by themselves. -/
theorem Inv.ofTasks {s : TaskScope} (h : s.Inv) {ts : List Task} (hts : Follow s.tasks ts)
    (hfresh : ∀ (i : Nat) (t t' : Task), s.tasks[i]? = some t → ts[i]? = some t' → t.life = .unborn → t' = t) :
    Inv { s with tasks := ts } := by
  refine ⟨hts.ok h.ok, ?_, h.locked, h.swapped, h.passed, ?_, h.finished⟩
  · intro i t' ht' hu
    obtain ⟨t, ht, -⟩ := hts.2 i t' ht'
    have hf := h.fresh i t ht hu
    rw [hfresh i t t' ht ht' hf.1]
    exact hf
  · intro i t' ht' hl
    obtain ⟨t, ht, hf⟩ := hts.2 i t' ht'
    rcases h.held i t ht (hf.born hl) with hj | hheld
    · exact Or.inl (hf.joined hj)
    · exact Or.inr hheld

theorem Inv.goes {s : TaskScope} (h : s.Inv) {i : Nat} {f : Task → Task} (hf : ∀ t : Task, t.Follows (f t))
    (hu : ∀ t, t.life = .unborn → f t = t) : Inv { s with tasks := s.tasks.modify i f } := by
  refine h.ofTasks (follow_modify fun t _ => hf t) ?_
  intro j t t' ht ht' hl
  rw [List.getElem?_modify, ht] at ht'
  have he : (if i = j then f t else t) = t' := Option.some.inj ht'
  rw [hu t hl, ite_self] at he
  exact he.symm

/-- What a call of `shutdown` may change, and go on. -/
structure Moves (s : TaskScope) (c : Nat) (p : ShutdownPhase) (tasks : List Task) (state : ScopeState) (lock : Option Nat)
    (p' : ShutdownPhase) : Prop where
  follow : Follow s.tasks tasks
  fresh : ∀ i, state.Unborn i → s.state.Unborn i ∧ tasks = s.tasks
  locks : p'.Locks → lock = some c
  unlocks : ∀ j, j ≠ c → s.lock = some j → lock = some j
  swapped : p'.Swapped → state = .stopped
  others : ∀ j q, j ≠ c → s.calls[j]? = some q → q.Swapped → state = .stopped
  passed : p'.Passed
  held : ∀ i, s.state.Holds i ∨ p.Holds i → state.Holds i ∨ p'.Holds i ∨ ∀ t : Task, tasks[i]? = some t → t.joined = true
  spent : s.Spent → state = .stopped ∧ p'.handles = none
  finished : p' = .done → state = .stopped ∧ ∀ j q, j ≠ c → s.calls[j]? = some q → q.handles = none

theorem getElem?_set_cases {α : Type} {l : List α} {c j : Nat} {p q : α} (h : (l.set c p)[j]? = some q) :
    (j = c ∧ q = p) ∨ (j ≠ c ∧ l[j]? = some q) := by
  by_cases hj : j = c
  · subst hj
    rw [List.getElem?_set] at h
    split at h
    · split at h
      · exact Or.inl ⟨rfl, (Option.some.inj h).symm⟩
      · cases h
    · exact absurd rfl ‹_›
  · rw [List.getElem?_set_ne (Ne.symm hj)] at h
    exact Or.inr ⟨hj, h⟩

theorem Inv.move {s : TaskScope} (h : s.Inv) {c : Nat} {p : ShutdownPhase} (hc : s.calls[c]? = some p) {tasks : List Task}
    {state : ScopeState} {lock : Option Nat} {p' : ShutdownPhase} (hm : s.Moves c p tasks state lock p') :
    Inv { tasks := tasks, state := state, lock := lock, calls := s.calls.set c p', owned := s.owned } := by
  have hmem : ∀ q ∈ s.calls.set c p', q = p' ∨ ∃ j, j ≠ c ∧ s.calls[j]? = some q := by
    intro q hq
    obtain ⟨j, hj⟩ := List.mem_iff_getElem?.mp hq
    rcases getElem?_set_cases hj with ⟨-, rfl⟩ | ⟨hne, hq⟩
    · exact Or.inl rfl
    · exact Or.inr ⟨j, hne, hq⟩
  have hself : p' ∈ s.calls.set c p' := List.mem_set (List.getElem?_eq_some_iff.mp hc).1 _
  have hkeep : ∀ j q, j ≠ c → s.calls[j]? = some q → q ∈ s.calls.set c p' := by
    intro j q hne hq
    refine List.mem_of_getElem? (i := j) ?_
    rw [List.getElem?_set_ne (Ne.symm hne)]
    exact hq
  refine ⟨hm.follow.ok h.ok, ?_, ?_, ?_, ?_, ?_, ?_⟩
  · intro i t ht hu
    obtain ⟨hu, he⟩ := hm.fresh i hu
    exact h.fresh i t (he ▸ ht) hu
  · intro j q hq hl
    rcases getElem?_set_cases hq with ⟨rfl, rfl⟩ | ⟨hne, hq⟩
    · exact hm.locks hl
    · exact hm.unlocks j hne (h.locked j q hq hl)
  · intro q hq hs
    rcases hmem q hq with rfl | ⟨j, hne, hq⟩
    · exact hm.swapped hs
    · exact hm.others j q hne hq hs
  · intro q hq
    rcases hmem q hq with rfl | ⟨j, -, hq⟩
    · exact hm.passed
    · exact h.passed q (List.mem_of_getElem? hq)
  · intro i t' ht' hl
    obtain ⟨t, ht, hf⟩ := hm.follow.2 i t' ht'
    have hmoved : s.state.Holds i ∨ p.Holds i → t'.joined = true ∨
        Held { tasks := tasks, state := state, lock := lock, calls := s.calls.set c p', owned := s.owned } i := by
      intro hi
      rcases hm.held i hi with hstate | hphase | hj
      · exact Or.inr (Or.inl hstate)
      · exact Or.inr (Or.inr ⟨p', hself, hphase⟩)
      · exact Or.inl (hj t' ht')
    rcases h.held i t ht (hf.born hl) with hj | hstate | ⟨q, hq, hi⟩
    · exact Or.inl (hf.joined hj)
    · exact hmoved (Or.inl hstate)
    · obtain ⟨j, hj⟩ := List.mem_iff_getElem?.mp hq
      by_cases hne : j = c
      · subst hne
        rw [hc] at hj
        cases hj
        exact hmoved (Or.inr hi)
      · exact Or.inr (Or.inr ⟨q, hkeep j q hne hj, hi⟩)
  · intro hd
    rcases hmem _ hd with rfl | ⟨j, hne, hq⟩
    · obtain ⟨hstate, hothers⟩ := hm.finished rfl
      refine ⟨hstate, ?_⟩
      intro q hq
      rcases hmem q hq with rfl | ⟨j, hne, hq⟩
      · rfl
      · exact hothers j q hne hq
    · have hspent := h.finished (List.mem_of_getElem? hq)
      obtain ⟨hstate, hnone⟩ := hm.spent hspent
      refine ⟨hstate, ?_⟩
      intro q hq
      rcases hmem q hq with rfl | ⟨j, -, hq⟩
      · exact hnone
      · exact hspent.2 q (List.mem_of_getElem? hq)

theorem Inv.lock_of {s : TaskScope} (h : s.Inv) {c : Nat} {p : ShutdownPhase} (hc : s.calls[c]? = some p) (hp : p.Swapped) :
    s.lock = some c := h.locked c p hc (Or.inr hp)

theorem Inv.stopped_of {s : TaskScope} (h : s.Inv) {c : Nat} {p : ShutdownPhase} (hc : s.calls[c]? = some p) (hp : p.Swapped) :
    s.state = .stopped := h.swapped p (List.mem_of_getElem? hc) hp

/-- The others have no handle while a call has the lock. -/
theorem Inv.others_of {s : TaskScope} (h : s.Inv) {c : Nat} (hlock : s.lock = some c) {j : Nat} {q : ShutdownPhase}
    (hne : j ≠ c) (hq : s.calls[j]? = some q) : ¬ q.Locks := by
  intro hl
  have hj := h.locked j q hq hl
  rw [hlock] at hj
  exact hne (Option.some.inj hj).symm

theorem Inv.proceeds {s : TaskScope} (h : s.Inv) {c : Nat} {p p' : ShutdownPhase} (hc : s.calls[c]? = some p)
    (hp : p.Swapped) (hp' : p'.Swapped) {ts : List Task} (hts : Follow s.tasks ts) (hpassed : p'.Passed)
    (hheld : ∀ i, p.Holds i → p'.Holds i ∨ ∀ t : Task, ts[i]? = some t → t.joined = true)
    (hnone : p.handles = none → p'.handles = none) : s.Moves c p ts s.state s.lock p' := by
  have hlock := h.lock_of hc hp
  have hstate := h.stopped_of hc hp
  refine ⟨hts, ?_, fun _ => hlock, fun _ _ hj => hj, fun _ => hstate, ?_, hpassed, ?_, ?_, ?_⟩
  · intro i hu
    rw [hstate] at hu
    exact hu.elim
  · intro j q _ hq hs
    exact h.swapped q (List.mem_of_getElem? hq) hs
  · intro i hi
    rcases hi with hi | hi
    · exact Or.inl hi
    · exact Or.inr (hheld i hi)
  · intro hspent
    exact ⟨hspent.1, hnone (hspent.2 p (List.mem_of_getElem? hc))⟩
  · rintro rfl
    exact hp'.elim

theorem Inv.finishes {s : TaskScope} (h : s.Inv) {c : Nat} {p : ShutdownPhase} (hc : s.calls[c]? = some p) (hp : p.Swapped)
    (hheld : ∀ i, i < s.tasks.length → ¬ p.Holds i) : s.Moves c p s.tasks s.state none .done := by
  have hlock := h.lock_of hc hp
  have hstate := h.stopped_of hc hp
  refine ⟨.refl _, ?_, ?_, ?_, fun hs => hs.elim, ?_, trivial, ?_, fun hspent => ⟨hspent.1, rfl⟩, ?_⟩
  · intro i hu
    rw [hstate] at hu
    exact hu.elim
  · intro hl
    rcases hl with hl | hl
    · cases hl
    · exact hl.elim
  · intro j hne hj
    rw [hlock] at hj
    exact absurd (Option.some.inj hj).symm hne
  · intro j q _ hq hs
    exact h.swapped q (List.mem_of_getElem? hq) hs
  · intro i hi
    rcases hi with hi | hi
    · exact Or.inl hi
    · refine Or.inr (Or.inr ?_)
      intro t ht
      exact absurd hi (hheld i (List.getElem?_eq_some_iff.mp ht).1)
  · intro _
    refine ⟨hstate, ?_⟩
    intro j q hne hq
    cases hh : q.handles with
    | none => rfl
    | some hs => exact absurd (Or.inr (ShutdownPhase.swapped_of_handles hh)) (h.others_of hlock hne hq)

/-- A call that is dropped gives its handles back. -/
theorem Inv.keeps {s : TaskScope} (h : s.Inv) {c : Nat} {p : ShutdownPhase} (hc : s.calls[c]? = some p) {handles : List Bool}
    (hp : p.handles = some handles) {ts : List Task} (hts : Follow s.tasks ts) :
    s.Moves c p ts (.stopping handles) none .cancelled := by
  have hswapped := ShutdownPhase.swapped_of_handles hp
  have hlock := h.lock_of hc hswapped
  have hstate := h.stopped_of hc hswapped
  refine ⟨hts, fun _ hu => hu.elim, ?_, ?_, fun hs => hs.elim, ?_, trivial, ?_, ?_, fun he => (by cases he)⟩
  · intro hl
    rcases hl with hl | hl
    · cases hl
    · exact hl.elim
  · intro j hne hj
    rw [hlock] at hj
    exact absurd (Option.some.inj hj).symm hne
  · intro j q hne hq hs
    exact absurd (Or.inr hs) (h.others_of hlock hne hq)
  · intro i hi
    rcases hi with hi | ⟨hs, hh, hi⟩
    · rw [hstate] at hi
      exact hi.elim
    · rw [hp] at hh
      cases hh
      exact Or.inl hi
  · intro hspent
    have hnone := hspent.2 p (List.mem_of_getElem? hc)
    rw [hp] at hnone
    cases hnone

/-- The state is taken with all that it holds. -/
theorem Inv.swaps {s : TaskScope} (h : s.Inv) {c : Nat} (hc : s.calls[c]? = some .locked) {handles : Option (List Bool)}
    (hheld : ∀ i, s.state.Holds i → ∃ hs, handles = some hs ∧ hs[i]? = some true)
    (hnone : s.state = .stopped → handles = none) : s.Moves c .locked s.tasks .stopped s.lock (.marking 0 handles) := by
  have hlock := h.locked c _ hc (Or.inl rfl)
  refine ⟨.refl _, fun _ hu => hu.elim, fun _ => hlock, fun _ _ hj => hj, fun _ => rfl, fun _ _ _ _ _ => rfl, trivial, ?_, ?_,
    fun he => (by cases he)⟩
  · intro i hi
    rcases hi with hi | ⟨hs, hh, -⟩
    · exact Or.inr (Or.inl (hheld i hi))
    · cases hh
  · intro hspent
    exact ⟨rfl, hnone hspent.1⟩

theorem holds_set {handles : List Bool} {i j : Nat} (hj : handles[j]? = some true) (hne : j ≠ i) :
    (handles.set i false)[j]? = some true := by
  rw [List.getElem?_set_ne (Ne.symm hne)]
  exact hj

theorem Inv.joins {s : TaskScope} (h : s.Inv) {c i : Nat} {handles : List Bool} {next : Nat → List Bool → ShutdownPhase}
    (hc : s.calls[c]? = some (next i handles)) (hnext : ∀ i hs, (next i hs).Swapped ∧ (next i hs).handles = some hs)
    (hpassed : (handles[i]? = some true → (next (i + 1) (handles.set i false)).Passed) ∧
      (handles[i]? ≠ some true → (next (i + 1) handles).Passed)) : (s.joinNext c i handles next).Inv := by
  unfold joinNext
  split
  · rename_i hi
    split
    · rename_i hended
      refine h.move hc (h.proceeds hc (hnext _ _).1 (hnext _ _).1 (follow_modify ?_) (hpassed.1 hi) ?_ ?_)
      · intro t ht
        refine Task.join_follows ?_
        unfold ended at hended
        rw [ht] at hended
        exact of_decide_eq_true hended
      · intro j hj
        obtain ⟨hs, hh, hj⟩ := hj
        rw [(hnext _ _).2] at hh
        cases hh
        by_cases hji : j = i
        · right
          subst hji
          intro t ht
          rw [List.getElem?_modify] at ht
          obtain ⟨t', -, rfl⟩ := Option.map_eq_some_iff.mp ht
          rw [if_pos rfl]
          rfl
        · exact Or.inl ⟨_, (hnext _ _).2, holds_set hj hji⟩
      · intro hn
        rw [(hnext _ _).2] at hn
        cases hn
    · exact h
  · rename_i hi
    refine h.move hc (h.proceeds hc (hnext _ _).1 (hnext _ _).1 (.refl _) (hpassed.2 hi) ?_ ?_)
    · intro j hj
      obtain ⟨hs, hh, hj⟩ := hj
      rw [(hnext _ _).2] at hh
      cases hh
      exact Or.inl ⟨_, (hnext _ _).2, hj⟩
    · intro hn
      rw [(hnext _ _).2] at hn
      cases hn

/-- From one phase with handles to another with the same ones, with an abort. -/
theorem Inv.aborts {s : TaskScope} (h : s.Inv) {c : Nat} {p p' : ShutdownPhase} (hc : s.calls[c]? = some p)
    {handles : List Bool} (hp : p.handles = some handles) (hp' : p'.handles = some handles) (hpassed : p'.Passed)
    (pick : Task → Bool) : ((s.abort handles pick).setPhase c p').Inv := by
  refine h.move hc (h.proceeds hc (ShutdownPhase.swapped_of_handles hp) (ShutdownPhase.swapped_of_handles hp')
    (follow_abort s handles pick) hpassed ?_ ?_)
  · intro i hi
    obtain ⟨hs, hh, hi⟩ := hi
    rw [hp] at hh
    cases hh
    exact Or.inl ⟨_, hp', hi⟩
  · intro hn
    rw [hp] at hn
    cases hn

theorem Inv.advance {s : TaskScope} (h : s.Inv) {c : Nat} {p : ShutdownPhase} (hc : s.calls[c]? = some p) :
    (s.advance c p).Inv := by
  cases p with
  | waiting =>
    rw [TaskScope.advance]
    split
    · rename_i hfree
      refine h.move hc ⟨.refl _, fun i hu => ⟨hu, rfl⟩, fun _ => rfl, ?_, fun hs => hs.elim, ?_, trivial, ?_,
        fun hspent => ⟨hspent.1, rfl⟩, fun he => (by cases he)⟩
      · intro j _ hj
        rw [hfree] at hj
        cases hj
      · intro j q _ hq hs
        exact h.swapped q (List.mem_of_getElem? hq) hs
      · intro i hi
        rcases hi with hi | ⟨_, hh, -⟩
        · exact Or.inl hi
        · cases hh
    · exact h
  | locked =>
    rw [TaskScope.advance]
    unfold swap
    cases hs : s.state with
    | activating n => exact h
    | pending => exact h.move hc (h.swaps hc (fun i hi => (by rw [hs] at hi; exact hi.elim)) fun _ => rfl)
    | stopped => exact h.move hc (h.swaps hc (fun i hi => (by rw [hs] at hi; exact hi.elim)) fun _ => rfl)
    | running handles =>
      refine h.move hc (h.swaps hc (fun i hi => ⟨handles, rfl, ?_⟩) fun he => ?_)
      · rw [hs] at hi
        exact hi
      · rw [hs] at he
        cases he
    | stopping handles =>
      refine h.move hc (h.swaps hc (fun i hi => ⟨handles, rfl, ?_⟩) fun he => ?_)
      · rw [hs] at hi
        exact hi
      · rw [hs] at he
        cases he
  | marking i handles =>
    have hmark : Inv ({ s with tasks := s.tasks.modify i Task.mark }.setPhase c (.marking (i + 1) handles)) := by
      refine h.move hc (h.proceeds hc trivial ?_ (follow_modify fun t _ => t.mark_follows) ?_ (fun _ hi => Or.inl hi)
        fun hn => hn)
      · trivial
      · trivial
    cases handles with
    | none =>
      rw [TaskScope.advance]
      split
      · exact hmark
      · refine h.move hc (h.finishes hc trivial ?_)
        rintro j _ ⟨hs, hh, -⟩
        cases hh
    | some handles =>
      rw [TaskScope.advance]
      split
      · exact hmark
      · refine h.aborts hc rfl rfl ?_ _
        trivial
  | grace i handles =>
    rw [TaskScope.advance]
    split
    · exact h.joins hc (fun _ _ => ⟨trivial, rfl⟩) ⟨fun _ => trivial, fun _ => trivial⟩
    · refine h.aborts hc rfl rfl ?_ _
      intro j hj
      exact absurd hj (Nat.not_lt_zero j)
  | joining i handles =>
    have hpassed : ∀ j, j < i → handles[j]? ≠ some true := h.passed _ (List.mem_of_getElem? hc)
    rw [TaskScope.advance]
    split
    · refine h.joins hc (fun _ _ => ⟨trivial, rfl⟩) ⟨?_, ?_⟩
      · intro _ j hj
        rcases Nat.lt_succ_iff_lt_or_eq.mp hj with hj | rfl
        · rw [List.getElem?_set_ne (Nat.ne_of_gt hj)]
          exact hpassed j hj
        · rw [List.getElem?_set_self']
          cases handles[j]? <;> simp
      · intro hi j hj
        rcases Nat.lt_succ_iff_lt_or_eq.mp hj with hj | rfl
        · exact hpassed j hj
        · exact hi
    · rename_i hlen
      refine h.move hc (h.finishes hc trivial ?_)
      rintro j hj ⟨hs, hh, hi⟩
      cases hh
      exact hpassed j (Nat.lt_of_lt_of_le hj (Nat.le_of_not_lt hlen)) hi
  | done => exact h
  | cancelled => exact h

theorem Inv.cancel {s : TaskScope} (h : s.Inv) {c : Nat} {p : ShutdownPhase} (hc : s.calls[c]? = some p) :
    (s.cancel c p).Inv := by
  cases p with
  | waiting =>
    refine h.move hc ⟨.refl _, fun i hu => ⟨hu, rfl⟩, ?_, fun _ _ hj => hj, fun hs => hs.elim, ?_, trivial, ?_,
      fun hspent => ⟨hspent.1, rfl⟩, fun he => (by cases he)⟩
    · intro hl
      rcases hl with hl | hl
      · cases hl
      · exact hl.elim
    · intro j q _ hq hs
      exact h.swapped q (List.mem_of_getElem? hq) hs
    · intro i hi
      rcases hi with hi | ⟨_, hh, -⟩
      · exact Or.inl hi
      · cases hh
  | grace i handles => exact h.move hc (h.keeps hc rfl (follow_abort s handles _))
  | joining i handles => exact h.move hc (h.keeps hc rfl (follow_abort s handles _))
  | locked => exact h
  | marking i handles => exact h
  | done => exact h
  | cancelled => exact h

theorem Inv.activate {s : TaskScope} (h : s.Inv) (hs : s.state = .pending) : Inv { s with state := .activating 0 } := by
  have hnone : ∀ p ∈ s.calls, ¬ p.Swapped := by
    intro p hp hswapped
    have hstopped := h.swapped p hp hswapped
    rw [hs] at hstopped
    cases hstopped
  refine ⟨h.ok, ?_, h.locked, fun p hp hsw => absurd hsw (hnone p hp), h.passed, ?_, ?_⟩
  · intro i t ht _
    exact h.fresh i t ht (by rw [hs]; trivial)
  · intro i t ht hl
    exact absurd (h.fresh i t ht (by rw [hs]; trivial)).1 hl
  · intro hd
    have hstopped := (h.finished hd).1
    rw [hs] at hstopped
    cases hstopped

theorem Inv.spawnNext {s : TaskScope} (h : s.Inv) {n : Nat} (hs : s.state = .activating n) : (s.spawnNext n).Inv := by
  have hstate {p : Prop} (he : s.state = .stopped) : p := by
    rw [hs] at he
    cases he
  unfold TaskScope.spawnNext
  split
  · have hcases : ∀ i t', (s.tasks.modify n Task.spawn)[i]? = some t' →
        (i = n ∧ ∃ t, s.tasks[n]? = some t ∧ t' = t.spawn) ∨ (i ≠ n ∧ s.tasks[i]? = some t') := by
      intro i t' ht'
      rw [List.getElem?_modify] at ht'
      obtain ⟨t, ht, he⟩ := Option.map_eq_some_iff.mp ht'
      by_cases hin : n = i
      · subst hin
        rw [if_pos rfl] at he
        exact Or.inl ⟨rfl, t, ht, he.symm⟩
      · rw [if_neg hin] at he
        exact Or.inr ⟨Ne.symm hin, ht.trans (congrArg some he)⟩
    refine ⟨?_, ?_, h.locked, fun p hp hsw => hstate (h.swapped p hp hsw), h.passed, ?_, fun hd => hstate (h.finished hd).1⟩
    · intro t' ht'
      obtain ⟨i, hi⟩ := List.mem_iff_getElem?.mp ht'
      rcases hcases i t' hi with ⟨-, t, ht, rfl⟩ | ⟨-, ht⟩
      · have hok := h.ok t (List.mem_of_getElem? ht)
        have hfresh := h.fresh n t ht (by rw [hs]; exact le_refl n)
        rw [Task.Ok, hfresh.1] at hok
        exact ⟨hok.1, hok.2.1, rfl⟩
      · exact h.ok t' (List.mem_of_getElem? ht)
    · intro i t' ht' hu
      have hlt : n < i := hu
      rcases hcases i t' ht' with ⟨rfl, -⟩ | ⟨-, ht⟩
      · exact absurd hlt (Nat.lt_irrefl i)
      · exact h.fresh i t' ht (by rw [hs]; exact hlt.le)
    · intro i t' ht' hl
      rcases hcases i t' ht' with ⟨rfl, -⟩ | ⟨-, ht⟩
      · exact Or.inr (Or.inl (Nat.lt_succ_self i))
      · rcases h.held i t' ht hl with hj | hi | hi
        · exact Or.inl hj
        · rw [hs] at hi
          exact Or.inr (Or.inl (Nat.lt_succ_of_lt hi))
        · exact Or.inr (Or.inr hi)
  · refine ⟨h.ok, fun _ _ _ hu => hu.elim, h.locked, fun p hp hsw => hstate (h.swapped p hp hsw), h.passed, ?_,
      fun hd => hstate (h.finished hd).1⟩
    intro i t ht _
    have hlt := (List.getElem?_eq_some_iff.mp ht).1
    exact Or.inr (Or.inl (by rw [ScopeState.Holds, List.getElem?_replicate, if_pos hlt]))

theorem Inv.shutdown {s : TaskScope} (h : s.Inv) : Inv { s with calls := s.calls ++ [.waiting] } := by
  have hmem : ∀ p ∈ s.calls ++ [ShutdownPhase.waiting], p ∈ s.calls ∨ p = .waiting := by
    intro p hp
    rcases List.mem_append.mp hp with hp | hp
    · exact Or.inl hp
    · exact Or.inr (List.mem_singleton.mp hp)
  refine ⟨h.ok, h.fresh, ?_, ?_, ?_, ?_, ?_⟩
  · intro c p hc hl
    by_cases hlt : c < s.calls.length
    · rw [List.getElem?_append_left hlt] at hc
      exact h.locked c p hc hl
    · rw [List.getElem?_append_right (Nat.le_of_not_lt hlt)] at hc
      obtain rfl := List.mem_singleton.mp (List.mem_of_getElem? hc)
      rcases hl with hl | hl
      · cases hl
      · exact hl.elim
  · intro p hp hs
    rcases hmem p hp with hp | rfl
    · exact h.swapped p hp hs
    · exact hs.elim
  · intro p hp
    rcases hmem p hp with hp | rfl
    · exact h.passed p hp
    · trivial
  · intro i t ht hl
    rcases h.held i t ht hl with hj | hi | ⟨p, hp, hi⟩
    · exact Or.inl hj
    · exact Or.inr (Or.inl hi)
    · exact Or.inr (Or.inr ⟨p, List.mem_append_left _ hp, hi⟩)
  · intro hd
    rcases hmem _ hd with hd | hd
    · obtain ⟨hstate, hnone⟩ := h.finished hd
      refine ⟨hstate, ?_⟩
      intro p hp
      rcases hmem p hp with hp | rfl
      · exact hnone p hp
      · rfl
    · cases hd

theorem isPending_iff {s : TaskScope} : s.isPending = true ↔ s.state = .pending := by
  unfold isPending
  cases s.state <;> simp

theorem isStopped_iff {s : TaskScope} : s.isStopped = true ↔ s.lock = none ∧ s.state = .stopped := by
  unfold isStopped
  cases s.state <;> simp

theorem Inv.step {s : TaskScope} (h : s.Inv) (e : Event) : (s.step e).Inv := by
  cases e with
  | activate =>
    rw [TaskScope.step]
    split
    · rename_i ha
      exact h.activate (isPending_iff.1 ((Bool.and_eq_true _ _).mp ha).2)
    · exact h
  | spawn =>
    rw [TaskScope.step]
    split
    · rename_i n hs
      exact h.spawnNext hs
    · exact h
  | poll i =>
    refine h.goes Task.poll_follows ?_
    intro t hl
    rw [Task.poll, if_neg]
    rw [hl]
    exact fun hp => (by cases hp.1)
  | finish i v =>
    refine h.goes (fun t => t.finish_follows v) ?_
    intro t hl
    rw [Task.finish, if_neg]
    rw [hl]
    exact fun hp => (by cases hp)
  | leave i =>
    refine h.goes Task.leave_follows ?_
    intro t hl
    rw [Task.leave, if_neg]
    rw [hl]
    rintro (hp | ⟨-, hp | hp⟩) <;> cases hp
  | shutdown => exact h.shutdown
  | advance c =>
    rw [TaskScope.step]
    split
    · rename_i p hc
      exact h.advance hc
    · exact h
  | expire c =>
    rw [TaskScope.step]
    split
    · rename_i i handles hc
      split
      · refine h.aborts hc rfl rfl ?_ _
        intro j hj
        exact absurd hj (Nat.not_lt_zero j)
      · exact h
    · exact h
  | cancel c =>
    rw [TaskScope.step]
    split
    · rename_i p hc
      exact h.cancel hc
    · exact h
  | disown =>
    rw [TaskScope.step]
    split
    · exact h
    · exact ⟨h.ok, h.fresh, h.locked, h.swapped, h.passed, h.held, h.finished⟩

theorem joinNext_follow (s : TaskScope) (c i : Nat) (handles : List Bool) (next : Nat → List Bool → ShutdownPhase) :
    Follow s.tasks (s.joinNext c i handles next).tasks := by
  unfold joinNext
  split
  · split
    · rename_i hended
      refine follow_modify ?_
      intro t ht
      refine Task.join_follows ?_
      unfold ended at hended
      rw [ht] at hended
      exact of_decide_eq_true hended
    · exact .refl _
  · exact .refl _

theorem advance_follow (s : TaskScope) (c : Nat) (p : ShutdownPhase) : Follow s.tasks (s.advance c p).tasks := by
  unfold advance
  split
  · split <;> exact .refl _
  · unfold swap
    split <;> exact .refl _
  · split
    · exact follow_modify fun t _ => t.mark_follows
    · split
      · exact .refl _
      · exact follow_abort s _ _
  · split
    · exact joinNext_follow s c _ _ _
    · exact follow_abort s _ _
  · split
    · exact joinNext_follow s c _ _ _
    · exact .refl _
  · exact .refl _
  · exact .refl _

/-- Only `activate` brings a task to life. -/
theorem step_follow (s : TaskScope) (e : Event) : Follow s.tasks (s.step e).tasks ∨
    ∃ n, s.state = .activating n ∧ (s.step e).tasks = s.tasks.modify n Task.spawn := by
  cases e with
  | activate =>
    left
    rw [step]
    split <;> exact .refl _
  | spawn =>
    rw [step]
    split
    · rename_i n hs
      unfold spawnNext
      split
      · exact Or.inr ⟨n, hs, rfl⟩
      · exact Or.inl (.refl _)
    · exact Or.inl (.refl _)
  | poll i => exact Or.inl (follow_modify fun t _ => t.poll_follows)
  | finish i v => exact Or.inl (follow_modify fun t _ => t.finish_follows v)
  | leave i => exact Or.inl (follow_modify fun t _ => t.leave_follows)
  | shutdown => exact Or.inl (.refl _)
  | advance c =>
    left
    rw [step]
    split
    · exact advance_follow s c _
    · exact .refl _
  | expire c =>
    left
    rw [step]
    split
    · split
      · exact follow_abort s _ _
      · exact .refl _
    · exact .refl _
  | cancel c =>
    left
    rw [step]
    split
    · unfold cancel
      split
      · exact .refl _
      · exact follow_abort s _ _
      · exact follow_abort s _ _
      all_goals exact .refl _
    · exact .refl _
  | disown =>
    left
    rw [step]
    split <;> exact .refl _

/-- One step changes one outcome at most, and that the right way. -/
theorem step_outcome {s : TaskScope} (h : s.Inv) (e : Event) {i : Nat} {t' : Task} (ht' : (s.step e).tasks[i]? = some t') :
    ∃ t, s.tasks[i]? = some t ∧ (t'.outcome = t.outcome ∨ t.outcome.Moves t'.outcome) := by
  rcases step_follow s e with hf | ⟨n, hs, he⟩
  · obtain ⟨t, ht, hfollow⟩ := hf.2 i t' ht'
    exact ⟨t, ht, hfollow.outcome (h.ok t (List.mem_of_getElem? ht))⟩
  · rw [he, List.getElem?_modify] at ht'
    obtain ⟨t, ht, he⟩ := Option.map_eq_some_iff.mp ht'
    refine ⟨t, ht, ?_⟩
    by_cases hin : n = i
    · subst hin
      rw [if_pos rfl] at he
      rw [← he, (h.fresh n t ht (by rw [hs]; exact le_refl n)).2]
      exact Or.inr .started
    · rw [if_neg hin] at he
      exact Or.inl (congrArg Task.outcome he.symm)

/-- Shut down or discarded before anything was started. -/
def Barred (s : TaskScope) : Prop :=
  (∀ t ∈ s.tasks, t.life = .unborn) ∧ (∀ n, s.state ≠ .activating n) ∧ (s.state = .pending → s.owned = false)

/-- What a step does to the state, as far as starting goes. -/
theorem step_state (s : TaskScope) (e : Event) :
    (s.step e).state = s.state ∨ (e = .activate ∧ s.owned = true ∧ s.state = .pending) ∨
      (∃ n, s.state = .activating n) ∨ ((∀ n, (s.step e).state ≠ .activating n) ∧ (s.step e).state ≠ .pending) := by
  have hstopping {s' : TaskScope} (handles : List Bool) (hs : s'.state = .stopping handles) :
      (∀ n, s'.state ≠ .activating n) ∧ s'.state ≠ .pending := by
    rw [hs]
    exact ⟨fun _ => ScopeState.noConfusion, ScopeState.noConfusion⟩
  have hstopped {s' : TaskScope} (hs : s'.state = .stopped) : (∀ n, s'.state ≠ .activating n) ∧ s'.state ≠ .pending := by
    rw [hs]
    exact ⟨fun _ => ScopeState.noConfusion, ScopeState.noConfusion⟩
  cases e with
  | activate =>
    rw [step]
    split
    · rename_i ha
      obtain ⟨ho, hp⟩ := (Bool.and_eq_true _ _).mp ha
      exact Or.inr (Or.inl ⟨rfl, ho, isPending_iff.1 hp⟩)
    · exact Or.inl rfl
  | spawn =>
    rw [step]
    split
    · rename_i n hs
      exact Or.inr (Or.inr (Or.inl ⟨n, hs⟩))
    · exact Or.inl rfl
  | poll i => exact Or.inl rfl
  | finish i v => exact Or.inl rfl
  | leave i => exact Or.inl rfl
  | shutdown => exact Or.inl rfl
  | advance c =>
    rw [step]
    split
    · rename_i p hc
      unfold advance
      split
      · split <;> exact Or.inl rfl
      · unfold swap
        split
        · exact Or.inl rfl
        all_goals exact Or.inr (Or.inr (Or.inr (hstopped rfl)))
      · split
        · exact Or.inl rfl
        · split <;> exact Or.inl rfl
      · split
        · unfold joinNext
          split
          · split <;> exact Or.inl rfl
          · exact Or.inl rfl
        · exact Or.inl rfl
      · split
        · unfold joinNext
          split
          · split <;> exact Or.inl rfl
          · exact Or.inl rfl
        · exact Or.inl rfl
      · exact Or.inl rfl
      · exact Or.inl rfl
    · exact Or.inl rfl
  | expire c =>
    rw [step]
    split
    · split <;> exact Or.inl rfl
    · exact Or.inl rfl
  | cancel c =>
    rw [step]
    split
    · unfold cancel
      split
      · exact Or.inl rfl
      · exact Or.inr (Or.inr (Or.inr (hstopping _ rfl)))
      · exact Or.inr (Or.inr (Or.inr (hstopping _ rfl)))
      all_goals exact Or.inl rfl
    · exact Or.inl rfl
  | disown =>
    rw [step]
    split <;> exact Or.inl rfl

theorem step_owned {s : TaskScope} {e : Event} (h : (s.step e).owned = true) : s.owned = true := by
  cases e with
  | activate =>
    rw [step] at h
    split at h <;> exact h
  | spawn =>
    rw [step] at h
    split at h
    · unfold spawnNext at h
      split at h <;> exact h
    · exact h
  | poll i => exact h
  | finish i v => exact h
  | leave i => exact h
  | shutdown => exact h
  | advance c =>
    rw [step] at h
    split at h
    · unfold advance swap joinNext at h
      repeat' split at h
      all_goals exact h
    · exact h
  | expire c =>
    rw [step] at h
    split at h
    · split at h <;> exact h
    · exact h
  | cancel c =>
    rw [step] at h
    split at h
    · unfold cancel at h
      split at h <;> exact h
    · exact h
  | disown =>
    rw [step] at h
    split at h
    · exact h
    · cases h

/-- Without a task that has been spawned. -/
def Unbegun (s : TaskScope) : Prop := (∀ t ∈ s.tasks, t.life = .unborn) ∧ ∀ n, s.state ≠ .activating n

theorem Unbegun.step {s : TaskScope} (h : s.Unbegun) (e : Event) :
    (s.step e).Unbegun ∨ (e = .activate ∧ s.owned = true ∧ s.state = .pending) := by
  have htasks : ∀ t ∈ (s.step e).tasks, t.life = .unborn := by
    intro t' ht'
    rcases step_follow s e with hf | ⟨n, hs, -⟩
    · obtain ⟨i, hi⟩ := List.mem_iff_getElem?.mp ht'
      obtain ⟨t, ht, hfollow⟩ := hf.2 i t' hi
      have hl := h.1 t (List.mem_of_getElem? ht)
      exact (hfollow.still (Or.inl hl)).1.trans hl
    · exact absurd hs (h.2 n)
  rcases step_state s e with he | ha | ⟨n, hs⟩ | ⟨hn, -⟩
  · exact Or.inl ⟨htasks, fun n => he ▸ h.2 n⟩
  · exact Or.inr ha
  · exact absurd hs (h.2 n)
  · exact Or.inl ⟨htasks, hn⟩

theorem Barred.unbegun {s : TaskScope} (h : s.Barred) : s.Unbegun := ⟨h.1, h.2.1⟩

theorem Barred.step {s : TaskScope} (h : s.Barred) (e : Event) : (s.step e).Barred := by
  rcases h.unbegun.step e with hu | ⟨-, ho, hp⟩
  · refine ⟨hu.1, hu.2, ?_⟩
    intro hpending
    cases ho : (s.step e).owned with
    | false => rfl
    | true =>
      rcases step_state s e with he | ⟨-, hown, hp⟩ | ⟨n, hs⟩ | ⟨-, hn⟩
      · rw [← h.2.2 (he ▸ hpending)]
        exact (step_owned ho).symm
      · rw [h.2.2 hp] at hown
        cases hown
      · exact absurd hs (h.2.1 n)
      · exact absurd hpending hn
  · rw [h.2.2 hp] at ho
    cases ho

theorem Spent.set {s : TaskScope} (h : s.Spent) {c : Nat} {p : ShutdownPhase} (hp : p.handles = none) {tasks : List Task}
    {lock : Option Nat} : Spent { s with tasks := tasks, lock := lock, calls := s.calls.set c p } := by
  refine ⟨h.1, ?_⟩
  intro q hq
  rcases List.mem_or_eq_of_mem_set hq with hq | rfl
  · exact h.2 q hq
  · exact hp

theorem Spent.advance {s : TaskScope} (h : s.Spent) {c : Nat} {p : ShutdownPhase} (hc : s.calls[c]? = some p) :
    (s.advance c p).Spent := by
  have hnone := h.2 p (List.mem_of_getElem? hc)
  cases p with
  | waiting =>
    rw [TaskScope.advance]
    split
    · exact h.set rfl
    · exact h
  | locked =>
    rw [TaskScope.advance]
    unfold swap
    rw [h.1]
    exact ⟨rfl, (@Spent.set s h c _ rfl s.tasks s.lock).2⟩
  | marking i handles =>
    obtain rfl : handles = none := hnone
    rw [TaskScope.advance]
    split <;> exact h.set rfl
  | grace i handles => cases hnone
  | joining i handles => cases hnone
  | done => exact h
  | cancelled => exact h

theorem Spent.step {s : TaskScope} (h : s.Spent) (e : Event) : (s.step e).Spent := by
  cases e with
  | activate =>
    rw [TaskScope.step]
    split
    · rename_i ha
      have hp := isPending_iff.1 ((Bool.and_eq_true _ _).mp ha).2
      rw [h.1] at hp
      cases hp
    · exact h
  | spawn =>
    rw [TaskScope.step]
    split
    · rename_i n hs
      rw [h.1] at hs
      cases hs
    · exact h
  | poll i => exact h
  | finish i v => exact h
  | leave i => exact h
  | shutdown =>
    refine ⟨h.1, ?_⟩
    intro p hp
    rcases List.mem_append.mp hp with hp | hp
    · exact h.2 p hp
    · rw [List.mem_singleton.mp hp]
      rfl
  | advance c =>
    rw [TaskScope.step]
    split
    · rename_i p hc
      exact h.advance hc
    · exact h
  | expire c =>
    rw [TaskScope.step]
    split
    · rename_i i handles hc
      cases h.2 _ (List.mem_of_getElem? hc)
    · exact h
  | cancel c =>
    rw [TaskScope.step]
    split
    · rename_i p hc
      have hnone := h.2 p (List.mem_of_getElem? hc)
      cases p with
      | waiting => exact h.set rfl
      | grace i handles => cases hnone
      | joining i handles => cases hnone
      | _ => exact h
    · exact h
  | disown =>
    rw [TaskScope.step]
    split <;> exact h

/-- Whatever was started has been joined, and nothing more will be. -/
def Quiet (s : TaskScope) : Prop := s.Spent ∨ s.Barred

theorem Quiet.step {s : TaskScope} (h : s.Quiet) (e : Event) : (s.step e).Quiet := by
  rcases h with h | h
  · exact Or.inl (h.step e)
  · exact Or.inr (h.step e)

theorem Inv.quiet_of_stopped {s : TaskScope} (h : s.Inv) (hs : s.isStopped = true) : s.Quiet := by
  obtain ⟨hlock, hstate⟩ := isStopped_iff.1 hs
  refine Or.inl ⟨hstate, ?_⟩
  intro p hp
  cases hh : p.handles with
  | none => rfl
  | some handles =>
    obtain ⟨c, hc⟩ := List.mem_iff_getElem?.mp hp
    have hheld := h.lock_of hc (ShutdownPhase.swapped_of_handles hh)
    rw [hlock] at hheld
    cases hheld

theorem Inv.quiet_of_discarded {s : TaskScope} (h : s.Inv) (hs : s.state = .pending) (ho : s.owned = false) : s.Quiet := by
  refine Or.inr ⟨?_, ?_, fun _ => ho⟩
  · intro t ht
    obtain ⟨i, hi⟩ := List.mem_iff_getElem?.mp ht
    exact (h.fresh i t hi (by rw [hs]; trivial)).1
  · intro n hn
    rw [hs] at hn
    cases hn

theorem Inv.joined_of_quiet {s : TaskScope} (h : s.Inv) (hq : s.Quiet) {t : Task} (ht : t ∈ s.tasks) :
    t.life = .unborn ∨ (t.life = .ended ∧ t.joined = true) := by
  by_cases hl : t.life = .unborn
  · exact Or.inl hl
  · right
    rcases hq with hq | hq
    · obtain ⟨i, hi⟩ := List.mem_iff_getElem?.mp ht
      have hj : t.joined = true := by
        rcases h.held i t hi hl with hj | hheld | ⟨p, hp, hs, hh, -⟩
        · exact hj
        · rw [hq.1] at hheld
          exact hheld.elim
        · rw [hq.2 p hp] at hh
          cases hh
      refine ⟨?_, hj⟩
      have hok := h.ok t ht
      unfold Task.Ok at hok
      cases he : t.life with
      | ended => rfl
      | unborn => exact absurd he hl
      | spawned =>
        rw [he, hj] at hok
        cases hok.2.1
      | polled =>
        rw [he, hj] at hok
        cases hok.2.1
      | leaving =>
        rw [he, hj] at hok
        cases hok.2.1
    · exact absurd (hq.1 t ht) hl

/-- In a scope at rest, tasks stay as they are. -/
theorem Inv.still_of_quiet {s : TaskScope} (h : s.Inv) (hq : s.Quiet) (e : Event) :
    (s.step e).tasks.map (fun t => (t.life, t.runs)) = s.tasks.map fun t => (t.life, t.runs) := by
  rcases step_follow s e with hf | ⟨n, hs, -⟩
  · refine List.ext_getElem? ?_
    intro i
    rw [List.getElem?_map, List.getElem?_map]
    cases ht' : (s.step e).tasks[i]? with
    | none =>
      have hlen := List.getElem?_eq_none_iff.mp ht'
      rw [hf.1] at hlen
      rw [List.getElem?_eq_none_iff.mpr hlen]
    | some t' =>
      obtain ⟨t, ht, hfollow⟩ := hf.2 i t' ht'
      have hrest : t.life = .unborn ∨ t.life = .ended := by
        rcases h.joined_of_quiet hq (List.mem_of_getElem? ht) with hl | hl
        · exact Or.inl hl
        · exact Or.inr hl.1
      obtain ⟨hl, hr⟩ := hfollow.still hrest
      rw [ht, Option.map_some, Option.map_some, hl, hr]
  · rcases hq with hq | hq
    · rw [hq.1] at hs
      cases hs
    · exact absurd hs (hq.2.1 n)

/-- A call that is dropped leaves behind a handle of every task that is not joined. -/
theorem Inv.cancelled_keeps {s : TaskScope} (h : s.Inv) {c : Nat} {p : ShutdownPhase} (hc : s.calls[c]? = some p)
    {handles : List Bool} (hp : p.handles = some handles) (he : (s.step (.cancel c)).calls[c]? = some .cancelled) :
    (s.step (.cancel c)).state = .stopping handles ∧ (s.step (.cancel c)).lock = none ∧
      ∀ (i : Nat) (t : Task), (s.step (.cancel c)).tasks[i]? = some t → t.life ≠ .unborn → t.joined = false → handles[i]? = some true := by
  have hlock := h.lock_of hc (ShutdownPhase.swapped_of_handles hp)
  have hinv := h.step (.cancel c)
  have hkeep : s.step (.cancel c) = s.keep c handles := by
    rw [TaskScope.step, hc] at he ⊢
    cases p with
    | grace i hs =>
      cases hp
      rfl
    | joining i hs =>
      cases hp
      rfl
    | marking i hs =>
      change s.calls[c]? = some .cancelled at he
      rw [hc] at he
      cases he
    | _ => cases hp
  refine ⟨by rw [hkeep]; rfl, by rw [hkeep]; rfl, ?_⟩
  intro i t ht hl hj
  rcases hinv.held i t ht hl with hjoined | hheld | ⟨q, hq, hs, hh, -⟩
  · rw [hj] at hjoined
    cases hjoined
  · rw [hkeep] at hheld
    exact hheld
  · rw [hkeep] at hq
    obtain ⟨j, hj⟩ := List.mem_iff_getElem?.mp hq
    rcases getElem?_set_cases hj with ⟨-, rfl⟩ | ⟨hne, hj⟩
    · cases hh
    · exact absurd (Or.inr (ShutdownPhase.swapped_of_handles hh)) (h.others_of hlock hne hj)

end TaskScope

end Gatel.Http
