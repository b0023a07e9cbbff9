import Gatel.Generation.Writers

namespace Gatel
open Snapshot (Successor Follows)

variable {P : Pipeline} {c : StoreConfig}

/-- One atomic observation of what is published and what is intended. -/
structure ConfigurationCapture (P : Pipeline) where
  version : Version
  committed : Option (Committed P)
  observed : Snapshot
  sealed : Bool

/-- `capture_configuration`: one read section, the trees copied after it. -/
def State.captureConfiguration (s : State P) : ConfigurationCapture P :=
  ⟨s.version, s.current, Snapshot.ofSources s.intent.sources, s.sealed⟩

/-- A contribution as a frontend states it: where from, under which identity, what tree. -/
structure Tree where
  source : SourceId
  content : Fingerprint
  nodes : List Node

def SourceSnapshot.tree (x : SourceSnapshot) : Tree := ⟨x.source, x.content, x.nodes⟩

/-- The contributions a caller hands over with revisions of its own. -/
@[grind =] def Call.submitted : Call P c → List SourceSnapshot
  | .attempt snapshot _ => snapshot.sources
  | .refresh snapshot _ => snapshot.sources
  | .attemptIf _ snapshot _ => snapshot.sources
  | .refreshIf _ snapshot _ => snapshot.sources
  | .attemptIfEtag _ snapshot _ => snapshot.sources
  | .attemptSourceIf _ source _ => [source]
  | .restoreIntentIf _ snapshot => snapshot.sources
  | .recoverIf _ serving observed _ => serving.sources ++ observed.sources
  | _ => []

/-- Every tree a caller hands over, the source writers' included. -/
@[grind =] def Call.trees (call : Call P c) : List Tree :=
  match call with
  | .writerAttemptIf writer _ content nodes => [⟨writer.source, content, nodes⟩]
  | call => call.submitted.map SourceSnapshot.tree

/-- What a frontend promises: revisions count from one, and the content identity of a
source determines its tree. -/
structure Honest (actions : List (Action P c)) : Prop where
  positive : ∀ call, .call call ∈ actions → ∀ x ∈ call.submitted, 1 ≤ x.rev
  identified : ∀ call call', .call call ∈ actions → .call call' ∈ actions →
    ∀ x ∈ call.trees, ∀ y ∈ call'.trees, x.source = y.source → x.content = y.content →
      x.nodes = y.nodes

section
variable (T : Tree → Prop)

/-- A contribution some caller did hand over, under a real revision. -/
structure SourceSnapshot.Known (x : SourceSnapshot) : Prop where
  positive : x.rev ≠ 0
  tree : T x.tree

def Snapshot.Known (s : Snapshot) : Prop := ∀ x ∈ s.sources, x.Known T

structure Call.Known (call : Call P c) : Prop where
  submitted : ∀ x ∈ call.submitted, x.Known T
  trees : ∀ x ∈ call.trees, T x

/-- The contributions a call in flight carries. -/
def Task.Known : Task P → Prop
  | .observing r => r.snapshot.Known T
  | .admitting r observed => r.snapshot.Known T ∧ ∀ x ∈ observed, x.Known T
  | .finishing r _ => r.snapshot.Known T
  | .preparing r _ _ _ => r.snapshot.Known T
  | .restoring _ snapshot serving =>
    snapshot.Known T ∧ ∀ pair, serving = some pair → pair.1.Known T
  | _ => True

structure State.Known (s : State P) : Prop where
  intent : s.intent.Known T
  current : ∀ committed, s.current = some committed → committed.sources.Known T

end

variable {T : Tree → Prop}

theorem Snapshot.Known.insert {s : Snapshot} {x : SourceSnapshot} (hs : s.Known T)
    (hx : x.Known T) : (s.insert x).Known T := by
  intro y hy
  rw [Snapshot.mem_sources, Snapshot.get_insert] at hy
  split at hy
  · cases hy; exact hx
  · exact hs y (Snapshot.mem_sources.mpr hy)

theorem State.retain_known {s : State P} {observed : List SourceSnapshot} (hs : s.intent.Known T)
    (ho : ∀ x ∈ observed, x.Known T) : (s.retain observed).Known T := by
  unfold State.retain
  generalize s.intent = intent at hs
  induction observed generalizing intent with
  | nil => exact hs
  | cons x l ih =>
    rw [List.foldl_cons]
    refine ih (fun y hy => ho y (List.mem_cons_of_mem _ hy)) _ ?_
    split
    · exact hs.insert (ho x List.mem_cons_self)
    · exact hs

theorem SourceSnapshot.observe_known {source : SourceId} {content : Fingerprint}
    {nodes : List Node} {intent : Snapshot} {x : SourceSnapshot} (hi : intent.Known T)
    (ht : T ⟨source, content, nodes⟩)
    (h : SourceSnapshot.observe source content nodes (intent.get source) = .ok x) : x.Known T := by
  obtain ⟨hs, hc, hn, hr⟩ := SourceSnapshot.observe_fields h
  refine ⟨?_, ?_⟩
  · rcases hr with ⟨old, hold, hr | hr⟩ | hr
    · rw [hr]
      exact (hi old (Snapshot.get_mem_sources hold)).positive
    · intro hz
      have hv := U64.next_eq_some.mp hr
      rw [hz] at hv
      simp at hv
    · rw [hr]
      decide
  · rw [SourceSnapshot.tree, hs, hc, hn]
    exact ht

theorem Call.request?_known {call : Call P c} {r : Request P} (hk : call.Known T)
    (hr : call.request? = some r) : r.snapshot.Known T := by
  cases call with
  | attempt => cases hr; exact hk.submitted
  | refresh => cases hr; exact hk.submitted
  | attemptIf => cases hr; exact hk.submitted
  | refreshIf => cases hr; exact hk.submitted
  | _ => cases hr

theorem Transition.known {s s' : State P} {t : Thread P c} {task : Task P}
    (h : Transition s t s' task) (hs : s.Known T) (hc : t.call.Known T) (ht : t.task.Known T) :
    s'.Known T ∧ task.Known T := by
  have seen : ∀ {snapshot : Snapshot}, snapshot.Known T →
      ∀ x ∈ s.newIntent snapshot, x.Known T :=
    fun hk x hx => hk x (List.mem_of_mem_filter hx)
  cases h with
  | begun hr =>
    have hk := Call.request?_known hc hr
    exact ⟨hs, hk, seen hk⟩
  | etagMatched => exact ⟨hs, hc.submitted⟩
  | sourceComposed =>
    exact ⟨hs, hs.intent.insert (hc.submitted _ (List.mem_singleton.mpr rfl))⟩
  | writerComposed hv hx =>
    exact ⟨hs, hs.intent.insert
      (SourceSnapshot.observe_known hs.intent (hc.trees _ (List.mem_singleton.mpr rfl)) hx)⟩
  | restoreValidated => exact ⟨hs, hc.submitted, by simp⟩
  | recoverValidated =>
    refine ⟨hs, fun x hx => hc.submitted x (List.mem_append_right _ hx), ?_⟩
    rintro pair ⟨⟩
    exact fun x hx => hc.submitted x (List.mem_append_left _ hx)
  | rejectRecorded => exact ⟨⟨hs.intent, hs.current⟩, trivial⟩
  | sealed => exact ⟨⟨hs.intent, hs.current⟩, trivial⟩
  | observed => exact ⟨hs, ht, seen ht⟩
  | overtaken => exact ⟨⟨State.retain_known hs.intent ht.2, hs.current⟩, trivial⟩
  | admitted => exact ⟨⟨State.retain_known hs.intent ht.2, hs.current⟩, ht.1⟩
  | failed => exact ⟨⟨hs.intent, hs.current⟩, trivial⟩
  | noOp => exact ⟨⟨hs.intent, hs.current⟩, trivial⟩
  | compiled => exact ⟨hs, ht⟩
  | published =>
    refine ⟨⟨hs.intent, ?_⟩, trivial⟩
    rintro committed ⟨⟩
    exact ht
  | restored => exact ⟨⟨ht.1, hs.current⟩, trivial⟩
  | recovered => exact ⟨⟨ht.1, hs.current⟩, ht.2 _ rfl⟩
  | _ => exact ⟨hs, trivial⟩

/-- Only what callers handed over is ever retained or published. -/
structure World.Known (T : Tree → Prop) (w : World P c) : Prop where
  state : w.state.Known T
  threads : ∀ t ∈ w.threads, t.call.Known T ∧ t.task.Known T

theorem World.act_known {w : World P c} (hw : w.Known T) {a : Action P c}
    (ha : ∀ call, a = .call call → call.Known T) : (w.act a).Known T := by
  cases a with
  | call call =>
    refine ⟨hw.state, ?_⟩
    intro t ht
    rcases List.mem_append.mp ht with ht | ht
    · exact hw.threads t ht
    · rw [List.mem_singleton] at ht
      subst ht
      exact ⟨ha call rfl, trivial⟩
  | step k prepared =>
    simp only [World.act]
    split
    · exact hw
    · rename_i t hk
      split
      · exact hw
      · rename_i s' task hstep
        obtain ⟨hc, ht⟩ := hw.threads t (List.mem_of_getElem? hk)
        obtain ⟨hs', htask⟩ := (Thread.step_transition hstep).known hw.state hc ht
        refine ⟨hs', ?_⟩
        intro u hu
        rcases List.mem_or_eq_of_mem_set hu with hu | rfl
        · exact hw.threads u hu
        · exact ⟨hc, htask⟩

/-- The trees handed over in a run. -/
def Handed (actions : List (Action P c)) (x : Tree) : Prop :=
  ∃ call, .call call ∈ actions ∧ x ∈ call.trees

theorem Call.tree_mem_trees {call : Call P c} {x : SourceSnapshot} (hx : x ∈ call.submitted) :
    x.tree ∈ call.trees := by
  cases call with
  | writerAttemptIf => cases hx
  | _ => exact List.mem_map_of_mem hx

theorem World.run_known (boot : BootId) {actions : List (Action P c)} (h : Honest actions) :
    ((World.start boot : World P c).run actions).Known (Handed actions) := by
  refine Run.invariant_of_forall (I := World.Known (Handed actions)) (A := fun a => a ∈ actions)
    ?_ ?_ (fun a ha => ha)
  · intro w a ha hw
    refine World.act_known hw ?_
    rintro call rfl
    refine ⟨fun x hx => ⟨?_, call, ha, Call.tree_mem_trees hx⟩, fun x hx => ⟨call, ha, hx⟩⟩
    have hp := h.positive call ha x hx
    rintro hz
    rw [hz] at hp
    exact absurd hp (by decide)
  · refine ⟨⟨?_, ?_⟩, ?_⟩
    · intro x hx
      rw [Snapshot.mem_sources] at hx
      simp [World.start, State.fresh] at hx
    · simp [World.start, State.fresh]
    · simp [World.start]

/-- What is published is checkpointable history of what is intended. -/
theorem World.capture_successor (boot : BootId) {actions : List (Action P c)} (h : Honest actions)
    {committed : Committed P}
    (hc : ((World.start boot : World P c).run actions).state.captureConfiguration.committed =
      some committed) :
    Successor committed.sources
      ((World.start boot : World P c).run actions).state.captureConfiguration.observed := by
  have hw := World.run_sound (World.start_sound (c := c) boot) actions
  have hk := (World.run_known boot h).state
  generalize (World.start boot : World P c).run actions = w at hc hw hk
  change w.state.current = some committed at hc
  rw [State.captureConfiguration, Snapshot.ofSources_sources]
  have hcs := hk.current committed hc
  refine ⟨fun x hx => (hcs x hx).positive, fun x hx => (hk.intent x hx).positive, ?_⟩
  intro x hx
  obtain ⟨y, hy, hle, heq⟩ := hw.state.serving committed hc x hx
  refine ⟨y, hy, hle, ?_⟩
  intro hr
  refine ⟨heq hr, ?_⟩
  obtain ⟨call, hm, hxt⟩ := (hcs x hx).tree
  obtain ⟨call', hm', hyt⟩ := (hk.intent y (Snapshot.get_mem_sources hy)).tree
  exact h.identified call' call hm' hm _ hyt _ hxt (Snapshot.get_source hy) (heq hr)

end Gatel
