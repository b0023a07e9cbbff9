import Gatel.Generation.Steps

namespace Gatel
open Snapshot (Successor)

variable {P : Pipeline} {c : StoreConfig}

/-- The candidate built on this head and generation is still the newest. -/
structure State.Accepts (s : State P) (base : CandidateBase P) : Prop where
  opened : s.sealed = false
  head : s.head = base.expectedHead
  generation : s.generation = base.baseGeneration

theorem State.validateCandidate_cases (s : State P) (base : CandidateBase P) :
    (s.validateCandidate base.expectedHead base.baseGeneration = .ok () ∧ s.Accepts base) ∨
    ∃ reason, s.validateCandidate base.expectedHead base.baseGeneration =
      .error (.stale reason) := by
  unfold State.validateCandidate
  split
  · exact .inr ⟨_, rfl⟩
  · rename_i hs
    split
    · exact .inr ⟨_, rfl⟩
    · rename_i hh
      split
      · exact .inr ⟨_, rfl⟩
      · rename_i hg
        exact .inl ⟨rfl, by simpa using hs, not_not.mp hh, not_not.mp hg⟩

/-- The admission checks have all passed. -/
structure State.Admits (c : StoreConfig) (s : State P) (r : Request P) : Prop where
  opened : s.sealed = false
  expected : ∀ v, r.expected = some v → v = s.version
  registered : c.foreign r.snapshot = false
  capacity : s.intent.sources.length +
    (r.snapshot.sources.filter (fun x => s.head[x.source]?.isNone)).length ≤ c.sourceLimit
  fresh : ∀ x ∈ r.snapshot.sources, s.head[x.source]? = some x.rev →
    (s.intent.get x.source).map (·.content) = some x.content

/-- The four calls that go straight to admission. -/
def Call.request? : Call P c → Option (Request P)
  | .attempt snapshot registry => some ⟨snapshot, registry, none, false⟩
  | .refresh snapshot registry => some ⟨snapshot, registry, none, true⟩
  | .attemptIf expected snapshot registry => some ⟨snapshot, registry, some expected, false⟩
  | .refreshIf expected snapshot registry => some ⟨snapshot, registry, some expected, true⟩
  | _ => none

/-- A call past admission, with the candidate it carries. -/
def Task.candidate? : Task P → Option (Request P × CandidateBase P)
  | .finishing r base => some (r, base)
  | .preparing r base _ _ => some (r, base)
  | _ => none

/-- Everything one lock section can do, guards included. -/
inductive Transition : State P → Thread P c → State P → Task P → Prop
  | begun {s call r} (hr : call.request? = some r) :
      Transition s ⟨call, .starting⟩ s (r.observe s)
  | etagConflict {s tag snapshot registry} :
      Transition s ⟨.attemptIfEtag tag snapshot registry, .starting⟩ s (.done (.conflict s.version))
  | etagMatched {s tag snapshot registry} (ht : tag = s.version.etag P.blake3) :
      Transition s ⟨.attemptIfEtag tag snapshot registry, .starting⟩ s
        (.observing ⟨snapshot, registry, some s.version, false⟩)
  | sourceConflict {s expected x registry} :
      Transition s ⟨.attemptSourceIf expected x registry, .starting⟩ s (.done (.conflict s.version))
  | sourceComposed {s expected x registry} (hv : s.version = expected) :
      Transition s ⟨.attemptSourceIf expected x registry, .starting⟩ s
        (.observing ⟨s.intent.insert x, registry, some expected, false⟩)
  | writerUnavailable {s writer expected content nodes} :
      Transition s ⟨.writerAttemptIf writer expected content nodes, .starting⟩ s (.done .unavailable)
  | writerOpen {s writer expected content nodes} :
      Transition s ⟨.writerAttemptIf writer expected content nodes, .starting⟩ s .writing
  | writerConflict {s writer expected content nodes} :
      Transition s ⟨.writerAttemptIf writer expected content nodes, .writing⟩ s
        (.done (.conflict s.version))
  | writerRejected {s writer expected content nodes e} :
      Transition s ⟨.writerAttemptIf writer expected content nodes, .writing⟩ s
        (.done (.observation e))
  | writerComposed {s writer expected content nodes x} (hv : s.version = expected)
      (hx : SourceSnapshot.observe writer.source content nodes (s.intent.get writer.source) = .ok x) :
      Transition s ⟨.writerAttemptIf writer expected content nodes, .writing⟩ s
        (.observing ⟨s.intent.insert x, writer.registry, some expected, false⟩)
  | restoreRefused {s call e} :
      Transition s ⟨call, .starting⟩ s (.done (.restoreError e))
  | restoreValidated {s expected snapshot} (hv : s.version = expected)
      (hs : Successor s.intent snapshot) :
      Transition s ⟨.restoreIntentIf expected snapshot, .starting⟩ s
        (.restoring expected snapshot none)
  | recoverValidated {s expected serving observed registry}
      (hg : expected.generation = Generation.none) (ho : Successor serving observed)
      (hv : s.version = expected) (hs : Successor s.intent observed) :
      Transition s ⟨.recoverIf expected serving observed registry, .starting⟩ s
        (.restoring expected observed (some (serving, registry)))
  | rejectSealed {s expected diagnostics} :
      Transition s ⟨.rejectObservationIf expected diagnostics, .starting⟩ s
        (.done (.outcome (.stale sealedReason)))
  | rejectConflict {s expected diagnostics} :
      Transition s ⟨.rejectObservationIf expected diagnostics, .starting⟩ s
        (.done (.conflict s.version))
  | rejectRecorded {s expected diagnostics f} (ho : s.sealed = false) (hv : s.version = expected) :
      Transition s ⟨.rejectObservationIf expected diagnostics, .starting⟩
        { s with lastFailure := some f } (.done (.outcome (.rejected diagnostics)))
  | sealed {s} : Transition s ⟨.sealStore, .starting⟩ s.sealStore (.done .sealed)
  | observed {s call r} : Transition s ⟨call, .observing r⟩ s (r.observe s)
  | admitConflict {s call r observed} :
      Transition s ⟨call, .admitting r observed⟩ s (.done (.conflict s.version))
  | refused {s call r observed why} :
      Transition s ⟨call, .admitting r observed⟩ s (.done (.refused why))
  | overtaken {s call r observed reason} (ha : s.Admits c r) :
      Transition s ⟨call, .admitting r observed⟩ (s.observe r.snapshot observed)
        (.done (.outcome (.stale reason)))
  | admitted {s call r observed} (ha : s.Admits c r)
      (hh : (s.observe r.snapshot observed).head = r.snapshot.revs) :
      Transition s ⟨call, .admitting r observed⟩ (s.observe r.snapshot observed)
        (.finishing r ⟨r.snapshot.revs, s.generation, s.current, r.refresh⟩)
  | stale {s t r base reason} (hc : t.task.candidate? = some (r, base)) :
      Transition s t s (.done (.outcome (.stale reason)))
  | failed {s t r base f o} (hc : t.task.candidate? = some (r, base)) (ha : s.Accepts base)
      (ho : o.isFailure = true) :
      Transition s t { s with lastFailure := some f } (.done (.outcome o))
  | noOp {s call r base} (ha : s.Accepts base) :
      Transition s ⟨call, .finishing r base⟩ { s with lastFailure := none }
        (.done (.outcome (.noOp s.generation)))
  | compiled {s call r base plan next} (hn : base.baseGeneration.next = some next) :
      Transition s ⟨call, .finishing r base⟩ s (.preparing r base plan next)
  | published {s call r base plan next runtime o} (ha : s.Accepts base) (ho : o.publishes = true) :
      Transition s ⟨call, .preparing r base plan next⟩
        { s with
          generation := next
          current := some ⟨next, s.bootId, plan, runtime, r.snapshot.revs, r.snapshot⟩
          lastFailure := none }
        (.done (.outcome o))
  | restoreFailed {s call expected snapshot serving e} :
      Transition s ⟨call, .restoring expected snapshot serving⟩ s (.done (.restoreError e))
  | restored {s call expected snapshot v} (ho : s.sealed = false) (hv : s.version = expected) :
      Transition s ⟨call, .restoring expected snapshot none⟩
        { s with intent := snapshot, head := snapshot.revs } (.done (.restored v))
  | recovered {s call expected snapshot serving registry} (ho : s.sealed = false)
      (hv : s.version = expected) :
      Transition s ⟨call, .restoring expected snapshot (some (serving, registry))⟩
        { s with intent := snapshot, head := snapshot.revs }
        (.finishing ⟨serving, registry, some expected, false⟩
          ⟨snapshot.revs, s.generation, none, false⟩)

theorem State.fail_cases (s : State P) (base : CandidateBase P) (stage summary : String)
    (o : Outcome P) :
    (∃ reason, s.fail base stage summary o = (s, .stale reason)) ∨
    (s.Accepts base ∧ ∃ f, s.fail base stage summary o = ({ s with lastFailure := some f }, o)) := by
  unfold State.fail State.recordFailure
  rcases s.validateCandidate_cases base with ⟨hok, ha⟩ | ⟨reason, he⟩
  · exact .inr ⟨ha, _, by rw [hok]⟩
  · exact .inl ⟨reason, by rw [he]⟩

theorem StoreConfig.validateRestoredSources_ok {previous snapshot : Snapshot}
    (h : c.validateRestoredSources previous snapshot = .ok ()) : Successor previous snapshot := by
  unfold StoreConfig.validateRestoredSources at h
  split at h
  · cases h
  · cases hv : previous.validateSuccessor snapshot with
    | ok u => exact Snapshot.validateSuccessor_ok.mp hv
    | error e => rw [hv] at h; cases h

theorem State.observedSnapshot_eq (s : State P) : s.observedSnapshot = (s.version, s.intent) := by
  simp [State.observedSnapshot]

theorem beginRestore_cases (expected : Version) (snapshot : Snapshot)
    (serving : Option (Snapshot × P.Registry)) (s : State P) :
    (∃ e, beginRestore c expected snapshot serving s = .done (.restoreError e)) ∨
    (s.version = expected ∧ Successor s.intent snapshot ∧
      beginRestore c expected snapshot serving s = .restoring expected snapshot serving) := by
  unfold beginRestore
  rw [State.observedSnapshot_eq]
  dsimp only
  split
  · exact .inl ⟨_, rfl⟩
  · rename_i hv
    cases h : c.validateRestoredSources s.intent snapshot with
    | error e => exact .inl ⟨e, rfl⟩
    | ok u => exact .inr ⟨not_not.mp hv, StoreConfig.validateRestoredSources_ok h, rfl⟩

theorem State.reusesRevision_eq_false {s : State P} {snapshot : Snapshot}
    (h : ¬ s.reusesRevision snapshot = true) : ∀ x ∈ snapshot.sources,
      s.head[x.source]? = some x.rev →
      (s.intent.get x.source).map (·.content) = some x.content := by
  intro x hx hr
  unfold State.reusesRevision at h
  simp only [List.any_eq_true, decide_eq_true_eq, not_exists, not_and, not_not] at h
  exact h x hx hr

theorem Request.admission_transition (call : Call P c) (r : Request P) (observed : List SourceSnapshot)
    (s : State P) :
    Transition s ⟨call, .admitting r observed⟩ (r.admission c observed s).1 (r.admission c observed s).2 := by
  unfold Request.admission State.admission
  split_ifs with hs he hf hl hr hh
  · exact .refused
  · exact .admitConflict
  · exact .refused
  · exact .refused
  · exact .refused
  all_goals
    have ha : s.Admits c r := by
      refine ⟨by simpa using hs, ?_, by simpa using hf, by omega, State.reusesRevision_eq_false hr⟩
      intro v hv
      simpa [hv] using he
  · exact .overtaken ha
  · exact .admitted ha (not_not.mp hh)

theorem Request.finish_transition (call : Call P c) (r : Request P) (base : CandidateBase P)
    (s : State P) :
    Transition s ⟨call, .finishing r base⟩ (r.finish base s).1 (r.finish base s).2 := by
  have hc : (Task.finishing r base).candidate? = some (r, base) := rfl
  unfold Request.finish
  cases P.normalize r.snapshot r.registry with
  | error diagnostics =>
    dsimp only
    rcases s.fail_cases base "normalize" s!"{P.errorCount diagnostics} problems"
      (.rejected diagnostics) with ⟨reason, h⟩ | ⟨ha, f, h⟩
    · rw [h]; exact .stale hc
    · rw [h]; exact .failed hc ha rfl
  | ok spec =>
    dsimp only
    split
    · unfold State.finishNoOp
      rcases s.validateCandidate_cases base with ⟨hok, ha⟩ | ⟨reason, he⟩
      · rw [hok]; exact .noOp ha
      · rw [he]; exact .stale hc
    · cases hn : base.baseGeneration.next with
      | none =>
        dsimp only
        rcases s.fail_cases base "prepare" "generation counter exhausted"
          (.prepareFailed "generation counter exhausted") with ⟨reason, h⟩ | ⟨ha, f, h⟩
        · rw [h]; exact .stale hc
        · rw [h]; exact .failed hc ha rfl
      | some next => exact .compiled hn

theorem Request.publish_transition (call : Call P c) (r : Request P) (base : CandidateBase P)
    (plan : P.Plan) (next : Generation) (prepared : Except String P.Runtime) (s : State P) :
    Transition s ⟨call, .preparing r base plan next⟩ (r.publish base plan next prepared s).1
      (.done (.outcome (r.publish base plan next prepared s).2)) := by
  have hc : (Task.preparing r base plan next).candidate? = some (r, base) := rfl
  unfold Request.publish
  cases prepared with
  | error message =>
    dsimp only
    rcases s.fail_cases base "prepare" message (.prepareFailed message)
      with ⟨reason, h⟩ | ⟨ha, f, h⟩
    · rw [h]; exact .stale hc
    · rw [h]; exact .failed hc ha rfl
  | ok runtime =>
    simp only [State.commit]
    rcases s.validateCandidate_cases base with ⟨hok, ha⟩ | ⟨reason, he⟩
    · simp only [hok]
      refine .published ha ?_
      split
      · rfl
      · rfl
    · simp only [he]
      exact .stale hc

theorem finishRestore_transition (call : Call P c) (expected : Version) (snapshot : Snapshot)
    (serving : Option (Snapshot × P.Registry)) (s : State P) :
    Transition s ⟨call, .restoring expected snapshot serving⟩
      (finishRestore expected snapshot serving s).1
      (finishRestore expected snapshot serving s).2 := by
  unfold finishRestore State.commitRestoredIntent
  split_ifs with hs hv
  · exact .restoreFailed
  · exact .restoreFailed
  · simp only [Snapshot.ofSources_sources]
    have ho : s.sealed = false := by simpa using hs
    cases serving with
    | none => exact .restored ho (not_not.mp hv)
    | some pair => exact .recovered ho (not_not.mp hv)

theorem SourceWriter.compose_transition (writer : SourceWriter P c) (expected : Version)
    (content : Fingerprint) (nodes : List Node) (s : State P) :
    Transition s ⟨.writerAttemptIf writer expected content nodes, .writing⟩ s
      (writer.compose expected content nodes s) := by
  unfold SourceWriter.compose
  rw [State.observedSnapshot_eq]
  dsimp only
  split
  · exact .writerConflict
  · rename_i hv
    cases hx : SourceSnapshot.observe writer.source content nodes (s.intent.get writer.source) with
    | error e => exact .writerRejected
    | ok x => exact .writerComposed (not_not.mp hv) hx

theorem Call.start_transition (call : Call P c) (s : State P) :
    Transition s ⟨call, .starting⟩ (call.start s).1 (call.start s).2 := by
  cases call with
  | attempt snapshot registry => exact .begun rfl
  | refresh snapshot registry => exact .begun rfl
  | attemptIf expected snapshot registry => exact .begun rfl
  | refreshIf expected snapshot registry => exact .begun rfl
  | attemptIfEtag expected snapshot registry =>
    simp only [Call.start]
    split
    · exact .etagConflict
    · rename_i ht; exact .etagMatched (not_not.mp ht)
  | attemptSourceIf expected source registry =>
    simp only [Call.start, composeSource, State.observedSnapshot_eq]
    split
    · exact .sourceConflict
    · rename_i hv; exact .sourceComposed (not_not.mp hv)
  | writerAttemptIf writer expected content nodes =>
    simp only [Call.start]
    split
    · exact .writerUnavailable
    · exact .writerOpen
  | restoreIntentIf expected snapshot =>
    simp only [Call.start]
    rcases beginRestore_cases (c := c) expected snapshot none s with ⟨e, h⟩ | ⟨hv, hs, h⟩
    · rw [h]; exact .restoreRefused
    · rw [h]; exact .restoreValidated hv hs
  | recoverIf expected serving observed registry =>
    simp only [Call.start, beginRecover]
    split
    · exact .restoreRefused
    · rename_i hg
      cases c.validateRestoredSources .empty serving with
      | error e => exact .restoreRefused
      | ok u =>
        cases ho : c.validateRestoredSources serving observed with
        | error e => exact .restoreRefused
        | ok u' =>
          dsimp only
          rcases beginRestore_cases (c := c) expected observed (some (serving, registry)) s
            with ⟨e, h⟩ | ⟨hv, hs, h⟩
          · rw [h]; exact .restoreRefused
          · rw [h]
            exact .recoverValidated (not_not.mp hg) (StoreConfig.validateRestoredSources_ok ho) hv hs
  | rejectObservationIf expected diagnostics =>
    simp only [Call.start, State.rejectObservationIf]
    split_ifs with hs hv
    · exact .rejectSealed
    · exact .rejectConflict
    · exact .rejectRecorded (by simpa using hs) (not_not.mp hv)
  | sealStore => exact .sealed

/-- The lock sections do nothing that the relation does not list. -/
theorem Thread.step_transition {t : Thread P c} {prepared : Except String P.Runtime}
    {s s' : State P} {task : Task P} (h : t.step prepared s = some (s', task)) :
    Transition s t s' task := by
  obtain ⟨call, pc⟩ := t
  cases pc with
  | starting =>
    simp only [Thread.step, Option.some.injEq] at h
    have ht := call.start_transition s
    rw [h] at ht
    exact ht
  | writing =>
    cases call <;> simp only [Thread.step, Option.some.injEq, reduceCtorEq, Prod.mk.injEq] at h
    obtain ⟨rfl, rfl⟩ := h
    exact SourceWriter.compose_transition _ _ _ _ _
  | observing r =>
    simp only [Thread.step, Option.some.injEq, Prod.mk.injEq] at h
    obtain ⟨rfl, rfl⟩ := h
    exact .observed
  | admitting r observed =>
    simp only [Thread.step, Option.some.injEq] at h
    have ht := r.admission_transition call observed s
    rw [h] at ht
    exact ht
  | finishing r base =>
    simp only [Thread.step, Option.some.injEq] at h
    have ht := r.finish_transition call base s
    rw [h] at ht
    exact ht
  | preparing r base plan next =>
    simp only [Thread.step, Option.some.injEq, Prod.mk.injEq] at h
    obtain ⟨rfl, rfl⟩ := h
    exact r.publish_transition call base plan next prepared s
  | restoring expected snapshot serving =>
    simp only [Thread.step, Option.some.injEq] at h
    have ht := finishRestore_transition call expected snapshot serving s
    rw [h] at ht
    exact ht
  | done result => simp [Thread.step] at h

end Gatel
