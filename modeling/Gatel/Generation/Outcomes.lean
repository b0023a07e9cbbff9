import Gatel.Generation.Safety

namespace Gatel

variable {P : Pipeline} {c : StoreConfig}

/-- The generation a successful outcome reports. -/
def Outcome.generation? : Outcome P → Option Generation
  | .started g => some g
  | .reloaded g _ => some g
  | .noOp g => some g
  | _ => none

/-- The sources of a request compile to this plan. -/
def Request.Compiles (r : Request P) (plan : P.Plan) : Prop :=
  ∃ spec, P.normalize r.snapshot r.registry = .ok spec ∧ P.compile spec r.registry = plan

/-- A generation stands behind a successful outcome: published by this very call from its own
sources, or found to have the plan they compile to. -/
def Outcome.Backed (o : Outcome P) (log : List (Publication P c)) (k : Nat) (r : Request P) : Prop :=
  ∀ g, o.generation? = some g → ∃ p ∈ log, p.committed.number = g ∧ ∃ plan, r.Compiles plan ∧
    P.planHash p.committed.plan = P.planHash plan ∧
    (o.publishes = true → p.thread = k ∧ p.expected = r.expected ∧ p.committed.sources = r.snapshot)

/-- What a candidate was compared with is a generation of the log. -/
def CandidateBase.Logged (base : CandidateBase P) (log : List (Publication P c)) : Prop :=
  ∀ committed, base.previous = some committed →
    committed.number = base.baseGeneration ∧ ∃ p ∈ log, p.committed = committed

/-- A call that goes straight to admission, on its way and at its end. -/
def Thread.Backed (log : List (Publication P c)) (k : Nat) (t : Thread P c) : Prop :=
  ∀ r₀, t.call.request? = some r₀ → match t.task with
    | .starting => True
    | .admitting r _ => r = r₀
    | .finishing r base => r = r₀ ∧ base.Logged log
    | .preparing r _ plan _ => r = r₀ ∧ r.Compiles plan
    | .done (.outcome o) => o.Backed log k r₀
    | .done _ => True
    | _ => False

theorem Outcome.Backed.of_none {o : Outcome P} {log : List (Publication P c)} {k : Nat} {r : Request P}
    (h : o.generation? = none) : o.Backed log k r := by
  intro g hg
  rw [h] at hg
  cases hg

theorem Outcome.generation?_of_isFailure {o : Outcome P} (h : o.isFailure = true) : o.generation? = none := by
  cases o with
  | rejected diagnostics => rfl
  | prepareFailed message => rfl
  | _ => cases h

theorem Outcome.Backed.mono {o : Outcome P} {log more : List (Publication P c)} {k : Nat} {r : Request P}
    (h : o.Backed log k r) : o.Backed (log ++ more) k r := by
  intro g hg
  obtain ⟨p, hp, hrest⟩ := h g hg
  exact ⟨p, List.mem_append_left _ hp, hrest⟩

theorem CandidateBase.Logged.mono {base : CandidateBase P} {log more : List (Publication P c)}
    (h : base.Logged log) : base.Logged (log ++ more) := by
  intro committed hc
  obtain ⟨hn, p, hp, he⟩ := h committed hc
  exact ⟨hn, p, List.mem_append_left _ hp, he⟩

theorem Thread.Backed.mono {log more : List (Publication P c)} {k : Nat} {t : Thread P c}
    (h : t.Backed log k) : t.Backed (log ++ more) k := by
  obtain ⟨call, task⟩ := t
  intro r₀ hr
  have ht := h r₀ hr
  cases task with
  | finishing r base => exact ⟨ht.1, ht.2.mono⟩
  | done result =>
    cases result with
    | outcome o => exact Outcome.Backed.mono ht
    | _ => trivial
  | _ => exact ht

/-- A store's own generation is the last of its log. -/
theorem World.Sound.logged {w : World P c} (h : w.Sound) (revs : RevVector) (refresh : Bool) :
    CandidateBase.Logged ⟨revs, w.state.generation, w.state.current, refresh⟩ w.log := by
  intro committed hc
  refine ⟨h.number hc, ?_⟩
  have hl : w.state.current = some committed := hc
  rw [h.log.last, Option.map_eq_some_iff] at hl
  obtain ⟨p, hp, he⟩ := hl
  exact ⟨p, List.mem_of_getLast? hp, he⟩

section
variable {w : World P c} {k : Nat} {t : Thread P c}

/-- The failing candidate: its own outcome, or that it was overtaken. -/
theorem State.fail_backed (s : State P) (base : CandidateBase P) (stage summary : String) {o : Outcome P}
    (ho : o.isFailure = true) (log : List (Publication P c)) (k : Nat) (r : Request P) :
    (s.fail base stage summary o).2.Backed log k r := by
  apply Outcome.Backed.of_none
  unfold State.fail State.recordFailure
  rcases s.validateCandidate_cases base with ⟨hv, -⟩ | ⟨reason, hv⟩
  · rw [hv]
    exact Outcome.generation?_of_isFailure ho
  · rw [hv]
    rfl

theorem Request.finish_backed {r : Request P} {base : CandidateBase P} (s : State P)
    {log : List (Publication P c)} (hl : base.Logged log) :
    match (r.finish base s).2 with
    | .preparing r' _ plan _ => r' = r ∧ r.Compiles plan
    | .done (.outcome o) => o.Backed log k r
    | _ => False := by
  unfold Request.finish
  cases hn : P.normalize r.snapshot r.registry with
  | error diagnostics => exact s.fail_backed base _ _ rfl log k r
  | ok spec =>
    dsimp only
    by_cases hsame : base.previous.any (fun committed =>
        P.planHash committed.plan = P.planHash (P.compile spec r.registry)) = true ∧ base.refresh = false
    · -- nothing to do only under the hash of a plan that serves
      rw [if_pos hsame]
      obtain ⟨committed, hp, hh⟩ := Option.any_eq_true _ _ |>.mp hsame.1
      obtain ⟨hnum, p, hpl, rfl⟩ := hl committed hp
      unfold State.finishNoOp
      rcases s.validateCandidate_cases base with ⟨hv, ha⟩ | ⟨reason, hv⟩
      · rw [hv]
        intro g hg
        cases hg
        exact ⟨p, hpl, hnum.trans ha.generation.symm, _, ⟨spec, hn, rfl⟩, of_decide_eq_true hh, by simp [Outcome.publishes]⟩
      · rw [hv]
        exact Outcome.Backed.of_none rfl
    · rw [if_neg hsame]
      cases hnext : base.baseGeneration.next with
      | none => exact s.fail_backed base _ _ rfl log k r
      | some next => exact ⟨rfl, spec, hn, rfl⟩

theorem Request.publish_backed {r : Request P} {base : CandidateBase P} {plan : P.Plan} {next : Generation}
    (call : Call P c) (prepared : Except String P.Runtime) (s : State P) (log : List (Publication P c)) (k : Nat)
    (hp : r.Compiles plan) :
    let pair := r.publish base plan next prepared s
    pair.2.Backed (log ++ (Thread.publication k ⟨call, .preparing r base plan next⟩ s pair.1
      (.done (.outcome pair.2))).toList) k r := by
  cases prepared with
  | error message => exact s.fail_backed base _ _ rfl _ k r
  | ok runtime =>
    unfold Request.publish State.commit
    rcases s.validateCandidate_cases base with ⟨hv, ha⟩ | ⟨reason, hv⟩
    · rw [hv]
      dsimp only
      have hpub : ∀ o : Outcome P, o.publishes = true → o.generation? = some next →
          o.Backed (log ++ (Thread.publication k ⟨call, .preparing r base plan next⟩ s
            { s with
              generation := next
              current := some ⟨next, s.bootId, plan, runtime, r.snapshot.revs, r.snapshot⟩
              lastFailure := none } (.done (.outcome o))).toList) k r := by
        intro o ho hg g hg'
        rw [hg] at hg'
        cases hg'
        refine ⟨⟨k, call, r.expected, ⟨next, s.bootId, plan, runtime, r.snapshot.revs, r.snapshot⟩, s.head⟩,
          List.mem_append_right _ ?_, rfl, plan, hp, rfl, fun _ => ⟨rfl, rfl, rfl⟩⟩
        simp [Thread.publication, ho]
      split
      · exact hpub _ rfl rfl
      · exact hpub _ rfl rfl
    · rw [hv]
      exact Outcome.Backed.of_none rfl

theorem Thread.step_backed (hw : w.Sound) (ht : t.Backed w.log k) {prepared : Except String P.Runtime}
    {s' : State P} {task : Task P} (hstep : t.step prepared w.state = some (s', task)) :
    Thread.Backed (w.log ++ (t.publication k w.state s' task).toList) k ⟨t.call, task⟩ := by
  obtain ⟨call, now⟩ := t
  intro r₀ hr
  have ht := ht r₀ hr
  cases now with
  | starting =>
    have hstart : call.start w.state = (w.state, r₀.observe w.state) := by
      cases call with
      | attempt => cases hr; rfl
      | refresh => cases hr; rfl
      | attemptIf => cases hr; rfl
      | refreshIf => cases hr; rfl
      | _ => cases hr
    have he : call.start w.state = (s', task) := Option.some.inj hstep
    rw [hstart] at he
    cases he
    rfl
  | writing => exact ht.elim
  | observing r => exact ht.elim
  | restoring expected snapshot serving => exact ht.elim
  | done result => cases hstep
  | admitting r observed =>
    obtain rfl : r = r₀ := ht
    cases Thread.step_transition hstep with
    | admitConflict => trivial
    | refused => trivial
    | overtaken ha => exact Outcome.Backed.of_none rfl
    | admitted ha hh => exact ⟨rfl, (hw.logged _ _).mono⟩
    | stale hc => cases hc
    | failed hc ha ho => cases hc
  | finishing r base =>
    obtain ⟨rfl, hl⟩ : r = r₀ ∧ base.Logged w.log := ht
    have he : r.finish base w.state = (s', task) := Option.some.inj hstep
    have hf := Request.finish_backed (k := k) (r := r) w.state hl
    rw [he] at hf
    cases task with
    | preparing r' base' plan next =>
      obtain ⟨rfl, hp⟩ := hf
      exact ⟨rfl, hp⟩
    | done result =>
      cases result with
      | outcome o => exact Outcome.Backed.mono hf
      | _ => exact hf.elim
    | _ => exact hf.elim
  | preparing r base plan next =>
    obtain ⟨rfl, hp⟩ : r = r₀ ∧ r.Compiles plan := ht
    have he : ((r.publish base plan next prepared w.state).1,
        Task.done (.outcome (r.publish base plan next prepared w.state).2)) = (s', task) :=
      Option.some.inj hstep
    cases he
    exact Request.publish_backed call prepared w.state w.log k hp

end

/-- Every successful answer of every interleaving has a generation behind it. -/
theorem World.run_backed (boot : BootId) (actions : List (Action P c)) :
    let w := (World.start boot : World P c).run actions
    ∀ (k : Nat) (t : Thread P c), w.threads[k]? = some t → t.Backed w.log k := by
  refine (Run.invariant (I := fun w : World P c => w.Sound ∧
    ∀ (k : Nat) (t : Thread P c), w.threads[k]? = some t → t.Backed w.log k) ?_
    ⟨World.start_sound boot, by simp [World.start]⟩ actions).2
  rintro w a ⟨hw, hb⟩
  refine ⟨(World.act_sound hw a).1, ?_⟩
  intro k t hk
  cases a with
  | call call =>
    simp only [World.act] at hk ⊢
    rcases Nat.lt_or_ge k w.threads.length with hlt | hge
    · exact hb k t (by rwa [List.getElem?_append_left hlt] at hk)
    · rw [List.getElem?_append_right hge] at hk
      rw [List.mem_singleton.mp (List.mem_of_getElem? hk)]
      exact fun _ _ => trivial
  | step i prepared =>
    cases hi : w.threads[i]? with
    | none =>
      have he : w.act (.step i prepared) = w := by simp [World.act, hi]
      rw [he] at hk ⊢
      exact hb k t hk
    | some u =>
      cases hstep : u.step prepared w.state with
      | none =>
        have he : w.act (.step i prepared) = w := by simp [World.act, hi, hstep]
        rw [he] at hk ⊢
        exact hb k t hk
      | some pair =>
        have he : w.act (.step i prepared) = ⟨pair.1, w.threads.set i ⟨u.call, pair.2⟩,
            w.log ++ (u.publication i w.state pair.1 pair.2).toList⟩ := by
          simp [World.act, hi, hstep]
        rw [he] at hk ⊢
        by_cases hik : i = k
        · subst hik
          rw [List.getElem?_set_self (List.getElem?_eq_some_iff.mp hi).1, Option.some.injEq] at hk
          subst hk
          exact Thread.step_backed hw (hb i u hi) hstep
        · rw [List.getElem?_set_ne hik] at hk
          exact (hb k t hk).mono

/-- A rejected observation goes nowhere near a publication. -/
def Thread.Rejects (t : Thread P c) : Prop :=
  ∀ v diagnostics, t.call = .rejectObservationIf v diagnostics →
    t.task = .starting ∨ ∃ r, t.task = .done r ∧ ∀ o, r = .outcome o → o.generation? = none

theorem Transition.rejects {s s' : State P} {t : Thread P c} {task : Task P} (h : Transition s t s' task)
    (ht : t.Rejects) : Thread.Rejects ⟨t.call, task⟩ := by
  intro v diagnostics hc
  rcases ht v diagnostics hc with hstart | ⟨r, hdone, -⟩
  · cases h with
    | begun hr => obtain rfl := hc; cases hr
    | rejectSealed => exact .inr ⟨_, rfl, by rintro o ⟨⟩; rfl⟩
    | rejectConflict => exact .inr ⟨_, rfl, by rintro o ⟨⟩⟩
    | rejectRecorded => exact .inr ⟨_, rfl, by rintro o ⟨⟩; rfl⟩
    | restoreRefused => exact .inr ⟨_, rfl, by rintro o ⟨⟩⟩
    | stale hcand => rw [hstart] at hcand; cases hcand
    | failed hcand => rw [hstart] at hcand; cases hcand
    | etagConflict => cases hc
    | etagMatched => cases hc
    | sourceConflict => cases hc
    | sourceComposed => cases hc
    | writerUnavailable => cases hc
    | writerOpen => cases hc
    | restoreValidated => cases hc
    | recoverValidated => cases hc
    | sealed => cases hc
    | _ => cases hstart
  · exact absurd hdone h.not_done

/-- A publication is logged under the call that made it. -/
structure World.Authored (w : World P c) : Prop where
  rejects : ∀ t ∈ w.threads, t.Rejects
  log : ∀ p ∈ w.log, ∃ t : Thread P c, w.threads[p.thread]? = some t ∧ t.call = p.call ∧
    ∀ v diagnostics, p.call ≠ .rejectObservationIf v diagnostics

theorem World.act_authored {w : World P c} (hw : w.Authored) (a : Action P c) : (w.act a).Authored := by
  have kept : ∀ p ∈ w.log, ∃ t : Thread P c, (w.act a).threads[p.thread]? = some t ∧ t.call = p.call ∧
      ∀ v diagnostics, p.call ≠ .rejectObservationIf v diagnostics := by
    intro p hp
    obtain ⟨t, ht, hc⟩ := hw.log p hp
    rcases w.act_thread a ht with hs | ⟨s', task, -, hs⟩
    · exact ⟨t, hs, hc⟩
    · exact ⟨_, hs, hc⟩
  rcases w.act_cases a with ⟨-, hl, ht⟩ | ⟨i, prepared, t, s', task, rfl, hi, htr, heq⟩
  · refine ⟨?_, ?_⟩
    · intro t hm v diagnostics hc
      rcases ht t hm with hm | hst
      · exact hw.rejects t hm v diagnostics hc
      · exact .inl hst
    · rw [hl]
      exact kept
  · rw [heq] at kept ⊢
    refine ⟨?_, ?_⟩
    · intro u hu
      rcases List.mem_or_eq_of_mem_set hu with hu | rfl
      · exact hw.rejects u hu
      · exact htr.rejects (hw.rejects t (List.mem_of_getElem? hi))
    · intro p hp
      rcases List.mem_append.mp hp with hp | hp
      · exact kept p hp
      · rcases htr.published_or i with ⟨hn, -, -⟩ | ⟨r, base, plan, next, runtime, o, ht, -, -, -, -, he⟩
        · simp [hn] at hp
        · rw [he, Option.toList_some, List.mem_singleton] at hp
          subst hp
          refine ⟨_, List.getElem?_set_self (List.getElem?_eq_some_iff.mp hi).1, rfl, ?_⟩
          intro v diagnostics hc
          rcases hw.rejects t (List.mem_of_getElem? hi) v diagnostics hc with hst | ⟨r', hd, -⟩
          · rw [ht] at hst; cases hst
          · rw [ht] at hd; cases hd

theorem World.run_authored (boot : BootId) (actions : List (Action P c)) :
    ((World.start boot : World P c).run actions).Authored :=
  Run.invariant (I := World.Authored) (fun _ a hw => World.act_authored hw a)
    ⟨by simp [World.start], by simp [World.start]⟩ actions

end Gatel
