import Gatel.Generation.Invariant

namespace Gatel
open RevVector (Le)

variable {P : Pipeline} {c : StoreConfig}

/-- What the transaction promises of every state it can reach. -/
structure TransactionSafe (w : World P c) : Prop where
  head : w.state.head = w.state.intent.revs
  unpublished : w.state.current = none ↔ w.state.generation = Generation.none
  number : ∀ committed, w.state.current = some committed → committed.number = w.state.generation
  consecutive : w.log.map (·.committed.number.val) = List.range' 1 w.log.length
  latest : w.state.current = w.log.getLast?.map (·.committed)
  /-- A step that replaces the current generation is a publication, logged with the head
  it found; no other step touches generation or runtime. -/
  publishes : ∀ a,
    ((w.act a).log = w.log ∧ (w.act a).state.generation = w.state.generation ∧
      (w.act a).state.current = w.state.current) ∨
    ∃ p, (w.act a).log = w.log ++ [p] ∧ p.head = w.state.head ∧
      (w.act a).state.head = w.state.head ∧ (w.act a).state.current = some p.committed
  monotone : ∀ more, Le w.state.head (w.run more).state.head
  ordered : w.log.Pairwise (fun p q => Le p.committed.revs q.committed.revs)
  atHead : ∀ p ∈ w.log, p.call.recovers = false → p.committed.revs = p.head

theorem World.Sound.unpublished {w : World P c} (h : w.Sound) :
    w.state.current = none ↔ w.state.generation = Generation.none := by
  have hg : w.state.generation = Generation.none ↔ w.log = [] := by
    rw [Fin.ext_iff, h.log.count, ← List.length_eq_zero_iff]
    rfl
  rw [hg, h.log.last, Option.map_eq_none_iff, List.getLast?_eq_none_iff]

theorem World.Sound.number {w : World P c} (h : w.Sound) {committed : Committed P}
    (hc : w.state.current = some committed) : committed.number = w.state.generation := by
  rw [h.log.last, Option.map_eq_some_iff] at hc
  obtain ⟨p, hp, rfl⟩ := hc
  obtain ⟨front, hf⟩ := List.getLast?_eq_some_iff.mp hp
  have hn := h.log.numbered
  rw [hf, List.map_append, List.length_append, List.map_singleton, List.length_singleton,
    List.range'_1_concat] at hn
  have hlast := (List.append_inj' hn rfl).2
  rw [List.singleton_inj] at hlast
  rw [Fin.ext_iff, hlast, h.log.count, hf, List.length_append, List.length_singleton]
  exact Nat.add_comm _ _

theorem World.act_publishes (w : World P c) (a : Action P c) :
    ((w.act a).log = w.log ∧ (w.act a).state.generation = w.state.generation ∧
      (w.act a).state.current = w.state.current) ∨
    ∃ p, (w.act a).log = w.log ++ [p] ∧ p.head = w.state.head ∧
      (w.act a).state.head = w.state.head ∧ (w.act a).state.current = some p.committed := by
  rcases w.act_cases a with ⟨hs, hl, -⟩ | ⟨i, prepared, t, s', task, -, -, htr, heq⟩
  · exact .inl ⟨hl, by rw [hs], by rw [hs]⟩
  · rw [heq]
    rcases htr.published_or i with ⟨hn, hg, hc⟩ | ⟨r, base, plan, next, runtime, o, -, -, -, -, rfl, hp⟩
    · exact .inl ⟨by simp [hn], hg, hc⟩
    · exact .inr ⟨_, by rw [hp]; rfl, rfl, rfl, rfl⟩

theorem World.Sound.head_le {w : World P c} (h : w.Sound) (more : List (Action P c)) :
    Le w.state.head (w.run more).state.head := by
  rw [h.state.head, (World.run_sound h more).state.head]
  exact (World.run_extends h more).follows.revs_le

/-- Every state of every interleaving is safe. -/
theorem World.transaction_safe (boot : BootId) (actions : List (Action P c)) :
    TransactionSafe ((World.start boot : World P c).run actions) := by
  have h := World.run_sound (World.start_sound (c := c) boot) actions
  exact {
    head := h.state.head
    unpublished := h.unpublished
    number := fun _ hc => h.number hc
    consecutive := h.log.numbered
    latest := h.log.last
    publishes := World.act_publishes _
    monotone := h.head_le
    ordered := h.log.ordered
    atHead := h.log.atHead }

/-- The results of a call that put nothing live. -/
def Result.quiet : Result P → Bool
  | .outcome o => !o.publishes
  | _ => true

/-- A call that has published returns a publishing outcome, and nothing else does. -/
@[grind =] def Task.live : Task P → Bool
  | .done r => !r.quiet
  | _ => false

theorem Transition.live_of_change {s s' : State P} {t : Thread P c} {task : Task P}
    (h : Transition s t s' task) (hl : task.live = false) :
    s'.generation = s.generation ∧ s'.current = s.current := by
  rcases h.published_or 0 with ⟨-, hg, hc⟩ | ⟨r, base, plan, next, runtime, o, -, -, ho, rfl, -, -⟩
  · exact ⟨hg, hc⟩
  · simp [Task.live, Result.quiet, ho] at hl

/-- One caller across one action: it stays where it is, or takes its own next section. -/
theorem World.act_thread (w : World P c) (a : Action P c) {k : Nat} {t : Thread P c}
    (hk : w.threads[k]? = some t) :
    (w.act a).threads[k]? = some t ∨
    ∃ s' task, Transition w.state t s' task ∧ (w.act a).threads[k]? = some ⟨t.call, task⟩ := by
  have hlt := (List.getElem?_eq_some_iff.mp hk).1
  cases a with
  | call call => exact .inl (by simp [World.act, List.getElem?_append_left hlt, hk])
  | step i prepared =>
    by_cases hik : i = k
    · subst hik
      cases hstep : t.step prepared w.state with
      | none => exact .inl (by simp [World.act, hk, hstep])
      | some pair =>
        refine .inr ⟨pair.1, pair.2, Thread.step_transition hstep, ?_⟩
        simp [World.act, hk, hstep, List.getElem?_set_self hlt]
    · left
      simp only [World.act]
      split
      · exact hk
      · split
        · exact hk
        · simp [List.getElem?_set_ne hik, hk]

/-- What a caller's own sections keep, it keeps through any run. -/
theorem World.run_thread {Q : Thread P c → Prop}
    (hQ : ∀ {s t s' task}, Transition s t s' task → Q t → Q ⟨t.call, task⟩)
    {w : World P c} {k : Nat} {t : Thread P c} (hk : w.threads[k]? = some t) (hq : Q t)
    (actions : List (Action P c)) : ∃ u, (w.run actions).threads[k]? = some u ∧ Q u := by
  refine Run.invariant (I := fun w : World P c => ∃ u, w.threads[k]? = some u ∧ Q u) ?_
    ⟨t, hk, hq⟩ actions
  rintro w a ⟨u, hu, hqu⟩
  rcases w.act_thread a hu with h | ⟨s', task, htr, h⟩
  · exact ⟨u, h, hqu⟩
  · exact ⟨_, h, hQ htr hqu⟩

theorem Transition.not_done {s s' : State P} {t : Thread P c} {task : Task P} {r : Result P}
    (h : Transition s t s' task) : t.task ≠ .done r := by
  intro ht
  cases h with
  | stale hc => simp [ht, Task.candidate?] at hc
  | failed hc => simp [ht, Task.candidate?] at hc
  | _ => cases ht

/-- Once a call has returned, nothing of it changes any more. -/
theorem World.run_done {w : World P c} {k : Nat} {t : Thread P c} {r : Result P}
    (hk : w.threads[k]? = some t) (ht : t.task = .done r) (actions : List (Action P c)) :
    (w.run actions).threads[k]? = some t := by
  have hQ : ∀ {s u s' task}, Transition s u s' task → u = t → (⟨u.call, task⟩ : Thread P c) = t := by
    rintro s u s' task htr rfl
    exact absurd ht htr.not_done
  obtain ⟨u, hu, rfl⟩ := World.run_thread hQ hk rfl actions
  exact hu

/-- Once the store is sealed no section changes anything. -/
theorem Transition.of_sealed {s s' : State P} {t : Thread P c} {task : Task P}
    (h : Transition s t s' task) (hs : s.sealed = true) : s' = s := by
  have closed : s.sealed ≠ false := by simp [hs]
  cases h with
  | rejectRecorded ho => exact absurd ho closed
  | sealed => simp [State.sealStore, ← hs]
  | overtaken ha => exact absurd ha.opened closed
  | admitted ha => exact absurd ha.opened closed
  | failed hc ha => exact absurd ha.opened closed
  | noOp ha => exact absurd ha.opened closed
  | published ha => exact absurd ha.opened closed
  | restored ho => exact absurd ho closed
  | recovered ho => exact absurd ho closed
  | _ => rfl

theorem World.run_sealed {w : World P c} (hs : w.state.sealed = true)
    (actions : List (Action P c)) : (w.run actions).state = w.state := by
  refine Run.invariant (I := fun u : World P c => u.state = w.state) ?_ rfl actions
  intro u a hu
  rcases u.act_cases a with ⟨he, -, -⟩ | ⟨i, prepared, t, s', task, -, -, htr, heq⟩
  · exact he.trans hu
  · rw [heq]
    exact (htr.of_sealed (hu ▸ hs)).trans hu

/-- The failure record is written by the newest candidate or by the rejection of an
observation made at the store's exact version. -/
theorem Transition.lastFailure_cases {s s' : State P} {t : Thread P c} {task : Task P}
    (h : Transition s t s' task) (hf : s'.lastFailure ≠ s.lastFailure) :
    (∃ r base, t.task.candidate? = some (r, base) ∧ base.expectedHead = s.head ∧
      base.baseGeneration = s.generation) ∨
    ∃ v diagnostics, t = ⟨.rejectObservationIf v diagnostics, .starting⟩ ∧ v = s.version := by
  cases h with
  | @rejectRecorded expected diagnostics f ho hv => exact .inr ⟨_, _, rfl, hv.symm⟩
  | @failed _ r base f o hc ha ho => exact .inl ⟨r, base, hc, ha.head.symm, ha.generation.symm⟩
  | @noOp call r base ha => exact .inl ⟨r, base, rfl, ha.head.symm, ha.generation.symm⟩
  | @published call r base plan next runtime o ha ho =>
    exact .inl ⟨r, base, rfl, ha.head.symm, ha.generation.symm⟩
  | _ => exact absurd rfl hf

/-- A candidate found stale on its way to the lock leaves everything alone. -/
theorem Transition.of_stale {s s' : State P} {t : Thread P c} {r : Request P}
    {base : CandidateBase P} {reason : String} (hc : t.task.candidate? = some (r, base))
    (h : Transition s t s' (.done (.outcome (.stale reason)))) : s' = s := by
  cases h with
  | rejectSealed => cases hc
  | overtaken => cases hc
  | stale => rfl
  | failed hc ha ho => cases ho
  | published ha ho => cases ho

theorem World.act_step_some {w : World P c} {k : Nat} {prepared : Except String P.Runtime}
    {t : Thread P c} {pair : State P × Task P} (hk : w.threads[k]? = some t)
    (hstep : t.step prepared w.state = some pair) :
    (w.act (.step k prepared)).state = pair.1 ∧
      (w.act (.step k prepared)).threads[k]? = some ⟨t.call, pair.2⟩ := by
  have hlt := (List.getElem?_eq_some_iff.mp hk).1
  simp [World.act, hk, hstep, List.getElem?_set_self hlt]

/-- What one action does, seen from the caller it schedules. -/
theorem World.act_step_cases (w : World P c) (k : Nat) (prepared : Except String P.Runtime) :
    w.act (.step k prepared) = w ∨
    ∃ t s' task, w.threads[k]? = some t ∧ Transition w.state t s' task ∧
      (w.act (.step k prepared)).state = s' ∧
      (w.act (.step k prepared)).threads[k]? = some ⟨t.call, task⟩ := by
  cases hk : w.threads[k]? with
  | none => exact .inl (by simp [World.act, hk])
  | some t =>
    cases hstep : t.step prepared w.state with
    | none => exact .inl (by simp [World.act, hk, hstep])
    | some pair =>
      obtain ⟨hs, ht⟩ := World.act_step_some hk hstep
      exact .inr ⟨t, pair.1, pair.2, rfl, Thread.step_transition hstep, hs, ht⟩

/-- A call that puts nothing live never touches what serves, at none of its steps. -/
theorem World.quiet_call {w : World P c} {k : Nat} {prepared : Except String P.Runtime}
    (post : List (Action P c)) {t : Thread P c} {r : Result P}
    (hk : ((w.act (.step k prepared)).run post).threads[k]? = some t) (ht : t.task = .done r)
    (hq : r.quiet = true) :
    (w.act (.step k prepared)).state.generation = w.state.generation ∧
      (w.act (.step k prepared)).state.current = w.state.current := by
  rcases w.act_step_cases k prepared with
    he | ⟨u, s', task, -, htr, rfl, hk'⟩
  · rw [he]; exact ⟨rfl, rfl⟩
  · apply htr.live_of_change
    cases task with
    | done r' =>
      have hsame := World.run_done hk' rfl post
      rw [hk, Option.some.injEq] at hsame
      rw [hsame] at ht
      cases ht
      simp [Task.live, hq]
    | _ => rfl

/-- Failed and overtaken candidates never disturb what serves, the failure record belongs
to the newest candidate, and a sealed store never changes again. -/
theorem World.serving_undisturbed (boot : BootId) (actions : List (Action P c)) :
    let w := (World.start boot : World P c).run actions
    (∀ pre k prepared post t r, actions = pre ++ .step k prepared :: post →
      w.threads[k]? = some t → t.task = .done r → r.quiet = true →
      let before := (World.start boot : World P c).run pre
      (before.act (.step k prepared)).state.generation = before.state.generation ∧
        (before.act (.step k prepared)).state.current = before.state.current) ∧
    (∀ k prepared t t' r base reason, w.threads[k]? = some t →
      t.task.candidate? = some (r, base) →
      (w.act (.step k prepared)).threads[k]? = some t' →
      t'.task = .done (.outcome (.stale reason)) →
      (w.act (.step k prepared)).state = w.state) ∧
    (∀ a, (w.act a).state.lastFailure ≠ w.state.lastFailure →
      ∃ k prepared t, a = .step k prepared ∧ w.threads[k]? = some t ∧
        ((∃ r base, t.task.candidate? = some (r, base) ∧ base.expectedHead = w.state.head ∧
            base.baseGeneration = w.state.generation) ∨
          ∃ v diagnostics, t = ⟨.rejectObservationIf v diagnostics, .starting⟩ ∧
            v = w.state.version)) ∧
    (w.state.sealed = true → ∀ more, (w.run more).state = w.state) := by
  intro w
  refine ⟨?_, ?_, ?_, fun hs more => World.run_sealed hs more⟩
  · rintro pre k prepared post t r rfl hk ht hq before
    refine World.quiet_call post ?_ ht hq
    have hw : w = (before.act (.step k prepared)).run post := Run.run_append _ _ _ _
    rw [← hw]
    exact hk
  · intro k prepared t t' r base reason hk hc hk' ht'
    rcases w.act_step_cases k prepared with
      he | ⟨u, s', task, hu, htr, hs', hk''⟩
    · rw [he]
    · rw [hk, Option.some.injEq] at hu
      subst hu
      rw [hk', Option.some.injEq] at hk''
      subst hk''
      obtain rfl : task = .done (.outcome (.stale reason)) := ht'
      rw [hs']
      exact htr.of_stale hc
  · intro a hf
    rcases w.act_cases a with ⟨hs, -, -⟩ | ⟨k, prepared, t, s', task, rfl, hk, htr, heq⟩
    · exact absurd (by rw [hs]) hf
    · rw [heq] at hf
      exact ⟨k, prepared, t, rfl, hk, htr.lastFailure_cases hf⟩

end Gatel
