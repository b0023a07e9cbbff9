import Gatel.Generation.Transition

namespace Gatel
open Snapshot (Successor Extends Follows)
open RevVector (Le)

variable {P : Pipeline} {c : StoreConfig}

/-- The state between two lock sections: the head is the revisions of the intent, and
what serves traffic is part of the intent's past. -/
structure State.Sound (s : State P) : Prop where
  head : s.head = s.intent.revs
  revs : ∀ committed, s.current = some committed → committed.revs = committed.sources.revs
  serving : ∀ committed, s.current = some committed → Follows committed.sources s.intent

/-- Copied contributions, and why the rest needed no copy. -/
structure Seen (head : RevVector) (snapshot : Snapshot) (observed : List SourceSnapshot) : Prop where
  sublist : observed.Sublist snapshot.sources
  rest : ∀ x ∈ snapshot.sources, x ∉ observed → ∃ rev, head[x.source]? = some rev ∧ x.rev ≤ rev

theorem Seen.mono {head head' : RevVector} {snapshot : Snapshot} {observed : List SourceSnapshot}
    (h : Seen head snapshot observed) (hle : Le head head') : Seen head' snapshot observed := by
  refine ⟨h.sublist, ?_⟩
  intro x hx hn
  obtain ⟨rev, hr, hxr⟩ := h.rest x hx hn
  obtain ⟨rev', hr', hle'⟩ := hle x.source rev hr
  exact ⟨rev', hr', hxr.trans hle'⟩

theorem State.newIntent_seen (s : State P) (snapshot : Snapshot) :
    Seen s.head snapshot (s.newIntent snapshot) := by
  refine ⟨List.filter_sublist, ?_⟩
  intro x hx hn
  have hnew : State.isNewer s.head x = false := by
    simpa [State.newIntent, hx] using hn
  unfold State.isNewer at hnew
  cases hr : s.head[x.source]? with
  | none => simp [hr] at hnew
  | some rev => exact ⟨rev, rfl, by simpa [hr] using hnew⟩

theorem retain_local (head : RevVector) :
    KeyedFold.Local SourceSnapshot.source Snapshot.get
      (fun x old => if State.isNewer head x then some x else old)
      (fun intent x => if State.isNewer head x then intent.insert x else intent) := by
  intro intent x id
  cases hn : State.isNewer head x with
  | true => simp [hn, Snapshot.get_insert]
  | false => simp [hn]

section
variable {s : State P} {snapshot : Snapshot} {observed : List SourceSnapshot}

theorem Seen.distinct (h : Seen s.head snapshot observed) :
    observed.Pairwise (fun a b => a.source ≠ b.source) :=
  snapshot.sources_distinct.sublist h.sublist

theorem get_retain_of_mem (h : Seen s.head snapshot observed) {x : SourceSnapshot}
    (hx : x ∈ observed) : (s.retain observed).get x.source =
      if State.isNewer s.head x then some x else s.intent.get x.source :=
  KeyedFold.read_foldl_present (retain_local s.head) observed h.distinct s.intent hx

theorem get_retain_of_absent {id : SourceId} (ha : ∀ x ∈ observed, x.source ≠ id) :
    (s.retain observed).get id = s.intent.get id :=
  KeyedFold.read_foldl_absent (retain_local s.head) observed s.intent id ha

/-- The two ways a contribution of the observation ends up in the intent: it replaces an
older one, or something at least as new is kept. -/
theorem get_retain (hh : s.head = s.intent.revs) (h : Seen s.head snapshot observed)
    {x : SourceSnapshot} (hx : x ∈ snapshot.sources) :
    ((s.retain observed).get x.source = some x ∧
      ∀ y, s.intent.get x.source = some y → y.rev < x.rev) ∨
    ∃ y, s.intent.get x.source = some y ∧ (s.retain observed).get x.source = some y ∧
      x.rev ≤ y.rev := by
  by_cases hm : x ∈ observed
  · rw [get_retain_of_mem h hm]
    unfold State.isNewer
    rw [hh, Snapshot.getElem?_revs]
    cases hy : s.intent.get x.source with
    | none => simp
    | some y =>
      simp only [Option.map_some, decide_eq_true_eq, Option.some.injEq, exists_eq_left']
      by_cases hlt : x.rev > y.rev
      · left
        refine ⟨by simp [hlt], ?_⟩
        rintro z rfl
        exact hlt
      · right
        exact ⟨by simp [hlt], not_lt.mp hlt⟩
  · obtain ⟨rev, hr, hle⟩ := h.rest x hx hm
    rw [hh, Snapshot.getElem?_revs, Option.map_eq_some_iff] at hr
    obtain ⟨y, hy, rfl⟩ := hr
    refine .inr ⟨y, hy, ?_, hle⟩
    rw [get_retain_of_absent, hy]
    intro z hz he
    -- two contributions of one snapshot under one identity are the same
    have hzx := Snapshot.mem_sources.mp (h.sublist.subset hz)
    rw [he, Snapshot.mem_sources.mp hx] at hzx
    exact hm (Option.some.inj hzx ▸ hz)

theorem get_retain_of_none (h : Seen s.head snapshot observed) {id : SourceId}
    (hn : snapshot.get id = none) : (s.retain observed).get id = s.intent.get id := by
  apply get_retain_of_absent
  rintro x hx rfl
  rw [Snapshot.mem_sources.mp (h.sublist.subset hx)] at hn
  cases hn

/-- Admission moves the intent only forward. -/
theorem extends_retain (hh : s.head = s.intent.revs) (h : Seen s.head snapshot observed) :
    Extends s.intent (s.retain observed) := by
  intro y hy
  have hy' := Snapshot.mem_sources.mp hy
  cases hn : snapshot.get y.source with
  | none => exact ⟨y, by rw [get_retain_of_none h hn, hy'], .inl rfl⟩
  | some x =>
    have hs := Snapshot.get_source hn
    rcases get_retain hh h (Snapshot.get_mem_sources hn) with ⟨hx, hlt⟩ | ⟨z, hz, hr, _⟩
    · rw [hs] at hx hlt
      exact ⟨x, hx, .inr (hlt y hy')⟩
    · rw [hs] at hz hr
      rw [hy'] at hz
      exact ⟨z, hr, .inl (Option.some.inj hz).symm⟩

/-- Head and intent advance together. -/
theorem observe_head (hh : s.head = s.intent.revs) (h : Seen s.head snapshot observed) :
    (s.observe snapshot observed).head = (s.observe snapshot observed).intent.revs := by
  apply Std.ExtTreeMap.ext_getElem?
  intro id
  change (s.head.mergeMax snapshot.revs)[id]? = (s.retain observed).revs[id]?
  rw [RevVector.getElem?_mergeMax, Snapshot.getElem?_revs, Snapshot.getElem?_revs, hh,
    Snapshot.getElem?_revs]
  cases hn : snapshot.get id with
  | none => simp [get_retain_of_none h hn]
  | some x =>
    obtain rfl := Snapshot.get_source hn
    rcases get_retain hh h (Snapshot.get_mem_sources hn) with ⟨hx, hlt⟩ | ⟨y, hy, hr, hle⟩
    · rw [hx]
      cases hy : s.intent.get x.source with
      | none => rfl
      | some y => simp [RevVector.mergeValue, max_eq_right (hlt y hy).le]
    · simp [hr, hy, RevVector.mergeValue, max_eq_left hle]

/-- An admitted observation is itself part of the intent's past. -/
theorem observe_follows {r : Request P} (hh : s.head = s.intent.revs)
    (h : Seen s.head r.snapshot observed) (ha : s.Admits c r) :
    Follows r.snapshot (s.retain observed) := by
  intro x hx
  rcases get_retain hh h hx with ⟨hg, _⟩ | ⟨y, hy, hg, hle⟩
  · exact ⟨x, hg, le_rfl, fun _ => rfl⟩
  · refine ⟨y, hg, hle, ?_⟩
    intro he
    have hc := ha.fresh x hx (by rw [hh, Snapshot.getElem?_revs, hy, Option.map_some, he])
    simpa [hy] using hc

end

/-- Recovery is the one operation whose serving sources are not the observed ones. -/
def Call.recovers : Call P c → Bool
  | .recoverIf _ _ _ _ => true
  | _ => false

/-- What a candidate was built on: an intent of the store's past, of which its own
sources are a part. -/
structure Fenced (s : State P) (recovers : Bool) (r : Request P) (base : CandidateBase P) :
    Prop where
  past : ∃ intent, intent.revs = base.expectedHead ∧ Extends intent s.intent ∧
    Follows r.snapshot intent
  expected : ∀ v, r.expected = some v → base.baseGeneration = v.generation
  complete : recovers = false → r.snapshot.revs = base.expectedHead
  first : recovers = true → base.baseGeneration = Generation.none

/-- What a restoration was validated against. -/
structure Restoring (s : State P) (recovers : Bool) (expected : Version) (snapshot : Snapshot)
    (serving : Option (Snapshot × P.Registry)) : Prop where
  past : ∃ intent, intent.revs = expected.revs ∧ Extends intent s.intent ∧ Extends intent snapshot
  serving : ∀ pair, serving = some pair →
    recovers = true ∧ expected.generation = Generation.none ∧ Follows pair.1 snapshot

/-- What a call between two sections may rely on. -/
def Thread.Sound (s : State P) (t : Thread P c) : Prop :=
  match t.task with
  | .starting => True
  | .writing => t.call.recovers = false
  | .observing _ => t.call.recovers = false
  | .admitting r observed => t.call.recovers = false ∧ Seen s.head r.snapshot observed
  | .finishing r base => Fenced s t.call.recovers r base
  | .preparing r base _ next =>
    Fenced s t.call.recovers r base ∧ base.baseGeneration.next = some next
  | .restoring expected snapshot serving =>
    Restoring s t.call.recovers expected snapshot serving
  | .done _ => True

theorem Fenced.mono {s s' : State P} {recovers : Bool} {r : Request P} {base : CandidateBase P}
    (h : Fenced s recovers r base) (he : Extends s.intent s'.intent) :
    Fenced s' recovers r base := by
  obtain ⟨intent, hr, hi, hf⟩ := h.past
  exact ⟨⟨intent, hr, hi.trans he, hf⟩, h.expected, h.complete, h.first⟩

theorem Restoring.mono {s s' : State P} {recovers : Bool} {expected : Version}
    {snapshot : Snapshot} {serving : Option (Snapshot × P.Registry)}
    (h : Restoring s recovers expected snapshot serving) (he : Extends s.intent s'.intent) :
    Restoring s' recovers expected snapshot serving := by
  obtain ⟨intent, hr, hi, hs⟩ := h.past
  exact ⟨⟨intent, hr, hi.trans he, hs⟩, h.serving⟩

/-- Sections of other callers leave a waiting call's knowledge true. -/
theorem Thread.Sound.mono {s s' : State P} {t : Thread P c} (h : t.Sound s) (hs : s.Sound)
    (hs' : s'.Sound) (he : Extends s.intent s'.intent) : t.Sound s' := by
  obtain ⟨call, task⟩ := t
  cases task with
  | starting => exact h
  | writing => exact h
  | observing r => exact h
  | admitting r observed =>
    refine ⟨h.1, h.2.mono ?_⟩
    rw [hs.head, hs'.head]
    exact he.follows.revs_le
  | finishing r base => exact Fenced.mono h he
  | preparing r base plan next => exact ⟨Fenced.mono h.1 he, h.2⟩
  | restoring expected snapshot serving => exact Restoring.mono h he
  | done result => exact h

/-- A candidate that is still the newest was built on the very intent the store holds. -/
theorem Fenced.follows {s : State P} {recovers : Bool} {r : Request P} {base : CandidateBase P}
    (h : Fenced s recovers r base) (hs : s.Sound) (ha : s.Accepts base) :
    Follows r.snapshot s.intent := by
  obtain ⟨intent, hr, hi, hf⟩ := h.past
  have heq : intent = s.intent := hi.eq_of_revs (by rw [hr, ← ha.head, hs.head])
  exact heq ▸ hf

/-- A restoration whose version still holds was validated against the store's intent. -/
theorem Restoring.extends {s : State P} {recovers : Bool} {expected : Version}
    {snapshot : Snapshot} {serving : Option (Snapshot × P.Registry)}
    (h : Restoring s recovers expected snapshot serving) (hs : s.Sound)
    (hv : s.version = expected) : Extends s.intent snapshot := by
  obtain ⟨intent, hr, hi, hx⟩ := h.past
  have heq : intent = s.intent := hi.eq_of_revs (by rw [hr, ← hv, ← hs.head]; rfl)
  exact heq ▸ hx

/-- One section keeps the state sound and moves the intent only forward. -/
theorem Transition.sound {s s' : State P} {t : Thread P c} {task : Task P}
    (h : Transition s t s' task) (hs : s.Sound) (ht : t.Sound s) :
    s'.Sound ∧ Extends s.intent s'.intent := by
  have same : s.Sound ∧ Extends s.intent s.intent := ⟨hs, Extends.refl _⟩
  have quiet : ∀ f, State.Sound { s with lastFailure := f } ∧ Extends s.intent s.intent :=
    fun f => ⟨⟨hs.head, hs.revs, hs.serving⟩, Extends.refl _⟩
  have admission : ∀ {call : Call P c} {r : Request P} {observed : List SourceSnapshot},
      Thread.Sound s ⟨call, .admitting r observed⟩ →
      (s.observe r.snapshot observed).Sound ∧ Extends s.intent (s.observe r.snapshot observed).intent := by
    intro call r observed ht
    have he := extends_retain hs.head ht.2
    exact ⟨⟨observe_head hs.head ht.2, hs.revs, fun cm hc => (hs.serving cm hc).trans he.follows⟩, he⟩
  have restore : ∀ {call : Call P c} {expected : Version} {snapshot : Snapshot}
      {serving : Option (Snapshot × P.Registry)},
      Thread.Sound s ⟨call, .restoring expected snapshot serving⟩ → s.version = expected →
      State.Sound { s with intent := snapshot, head := snapshot.revs } ∧
        Extends s.intent snapshot := by
    intro call expected snapshot serving ht hv
    have he := Restoring.extends ht hs hv
    exact ⟨⟨rfl, hs.revs, fun cm hc => (hs.serving cm hc).trans he.follows⟩, he⟩
  cases h with
  | rejectRecorded => exact quiet _
  | sealed => exact ⟨⟨hs.head, hs.revs, hs.serving⟩, Extends.refl _⟩
  | overtaken => exact admission ht
  | admitted => exact admission ht
  | failed => exact quiet _
  | noOp => exact quiet _
  | published ha ho =>
    refine ⟨⟨hs.head, ?_, ?_⟩, Extends.refl _⟩
    · rintro committed ⟨⟩; rfl
    · rintro committed ⟨⟩; exact ht.1.follows hs ha
  | restored ho hv => exact restore ht hv
  | recovered ho hv => exact restore ht hv
  | _ => exact same

/-- One section leaves its own call with what the next section relies on. -/
theorem Transition.thread_sound {s s' : State P} {t : Thread P c} {task : Task P}
    (h : Transition s t s' task) (hs : s.Sound) (ht : t.Sound s) :
    Thread.Sound s' ⟨t.call, task⟩ := by
  cases h with
  | @begun call r hr =>
    refine ⟨?_, s.newIntent_seen _⟩
    cases call <;> simp_all [Call.request?, Call.recovers]
  | etagMatched => rfl
  | sourceComposed => rfl
  | writerOpen => rfl
  | writerComposed => rfl
  | restoreValidated hv hx =>
    refine ⟨⟨s.intent, ?_, Extends.refl _, hx.extends⟩, by simp⟩
    rw [← hv, ← hs.head]
    rfl
  | recoverValidated hg ho hv hx =>
    refine ⟨⟨s.intent, ?_, Extends.refl _, hx.extends⟩, ?_⟩
    · rw [← hv, ← hs.head]
      rfl
    · rintro pair ⟨⟩
      exact ⟨rfl, hg, ho.extends.follows⟩
  | observed => exact ⟨ht, s.newIntent_seen _⟩
  | @admitted call r observed ha hh =>
    refine ⟨⟨s.retain observed, ?_, Extends.refl _, observe_follows hs.head ht.2 ha⟩, ?_, ?_, ?_⟩
    · rw [← hh]
      exact (observe_head hs.head ht.2).symm
    · intro v hv
      rw [ha.expected v hv]
      rfl
    · exact fun _ => rfl
    · intro hr
      rw [ht.1] at hr
      cases hr
  | compiled hn => exact ⟨ht, hn⟩
  | @recovered call expected snapshot serving registry ho hv =>
    obtain ⟨hr, hg, hf⟩ := ht.serving _ rfl
    have hgen : s.generation = expected.generation := by rw [← hv]; rfl
    refine ⟨⟨snapshot, rfl, Extends.refl _, hf⟩, ?_, ?_, ?_⟩
    · rintro v ⟨⟩; exact hgen
    · intro hn
      rw [hn] at hr
      cases hr
    · exact fun _ => hgen.trans hg
  | _ => trivial

/-- Either nothing is published, and generation and runtime stay, or a candidate that is
still the newest commits. -/
theorem Transition.published_or {s s' : State P} {t : Thread P c} {task : Task P}
    (h : Transition s t s' task) (i : Nat) :
    (t.publication i s s' task = none ∧ s'.generation = s.generation ∧ s'.current = s.current) ∨
    ∃ r base plan next runtime o, t.task = .preparing r base plan next ∧ s.Accepts base ∧
      o.publishes = true ∧ task = .done (.outcome o) ∧
      s' = { s with
        generation := next
        current := some ⟨next, s.bootId, plan, runtime, r.snapshot.revs, r.snapshot⟩
        lastFailure := none } ∧
      t.publication i s s' task = some ⟨i, t.call, r.expected,
        ⟨next, s.bootId, plan, runtime, r.snapshot.revs, r.snapshot⟩, s.head⟩ := by
  cases h with
  | @published call r base plan next runtime o ha ho =>
    refine .inr ⟨r, base, plan, next, runtime, o, rfl, ha, ho, rfl, rfl, ?_⟩
    simp [Thread.publication, ho]
  | stale hc =>
    refine .inl ⟨?_, rfl, rfl⟩
    unfold Thread.publication
    split
    · rename_i o _ ho; cases ho; rfl
    · rfl
  | failed hc ha ho =>
    refine .inl ⟨?_, rfl, rfl⟩
    unfold Thread.publication
    split
    · rename_i o _ he; cases he; simp [Outcome.publishes_of_isFailure ho]
    · rfl
  | _ => exact .inl ⟨rfl, rfl, rfl⟩

/-- The log of publications against the state they led to. -/
structure LogSound (s : State P) (log : List (Publication P c)) : Prop where
  numbered : log.map (·.committed.number.val) = List.range' 1 log.length
  count : s.generation.val = log.length
  last : s.current = log.getLast?.map (·.committed)
  below : ∀ p ∈ log, Le p.committed.revs s.head
  ordered : log.Pairwise (fun p q => Le p.committed.revs q.committed.revs)
  atHead : ∀ p ∈ log, p.call.recovers = false → p.committed.revs = p.head
  expected : ∀ p ∈ log, ∀ v, p.expected = some v → p.committed.number.val = v.generation.val + 1

theorem Transition.log_sound {s s' : State P} {t : Thread P c} {task : Task P}
    {log : List (Publication P c)} (h : Transition s t s' task) (hs : s.Sound) (ht : t.Sound s)
    (hl : LogSound s log) (i : Nat) :
    LogSound s' (log ++ (t.publication i s s' task).toList) := by
  obtain ⟨hs', he⟩ := h.sound hs ht
  have hle : Le s.head s'.head := by
    rw [hs.head, hs'.head]
    exact he.follows.revs_le
  rcases h.published_or i with ⟨hn, hg, hc⟩ | ⟨r, base, plan, next, runtime, o, htask, ha, -, -, rfl, hp⟩
  · rw [hn, Option.toList_none, List.append_nil]
    exact ⟨hl.numbered, hg ▸ hl.count, hc ▸ hl.last, fun p hp => (hl.below p hp).trans hle,
      hl.ordered, hl.atHead, hl.expected⟩
  · rw [hp, Option.toList_some]
    obtain ⟨call, task'⟩ := t
    obtain rfl : task' = .preparing r base plan next := htask
    obtain ⟨hf, hnext⟩ := ht
    have hnum : next.val = log.length + 1 := by
      rw [U64.next_eq_some.mp hnext, ← ha.generation, hl.count]
    -- every earlier publication lies below the head, and the new one is at the head
    -- unless it recovers, and then it is the first
    have habove : ∀ p ∈ log, Le p.committed.revs r.snapshot.revs := by
      intro p hp
      cases hrec : call.recovers with
      | false =>
        rw [hf.complete hrec, ← ha.head]
        exact hl.below p hp
      | true =>
        have hzero : log.length = 0 := by
          rw [← hl.count, ha.generation, hf.first hrec]
          rfl
        rw [List.length_eq_zero_iff.mp hzero] at hp
        cases hp
    refine ⟨?_, ?_, ?_, ?_, ?_, ?_, ?_⟩
    · rw [List.map_append, hl.numbered, List.length_append, List.map_singleton, List.length_singleton,
        List.range'_1_concat, hnum, Nat.add_comm]
    · simpa using hnum
    · simp
    · intro p hp
      rcases List.mem_append.mp hp with hp | hp
      · exact hl.below p hp
      · rw [List.mem_singleton] at hp
        subst hp
        have hfol := (hf.follows hs ha).revs_le
        rw [← hs.head] at hfol
        exact hfol
    · rw [List.pairwise_append]
      refine ⟨hl.ordered, List.pairwise_singleton _ _, ?_⟩
      intro p hp q hq
      rw [List.mem_singleton] at hq
      subst hq
      exact habove p hp
    · intro p hp hrec
      rcases List.mem_append.mp hp with hp | hp
      · exact hl.atHead p hp hrec
      · rw [List.mem_singleton] at hp
        subst hp
        exact (hf.complete hrec).trans ha.head.symm
    · intro p hp v hv
      rcases List.mem_append.mp hp with hp | hp
      · exact hl.expected p hp v hv
      · rw [List.mem_singleton] at hp
        subst hp
        rw [← hf.expected v hv]
        exact U64.next_eq_some.mp hnext

/-- The inductive invariant of the whole system. -/
structure World.Sound (w : World P c) : Prop where
  state : w.state.Sound
  threads : ∀ t ∈ w.threads, t.Sound w.state
  log : LogSound w.state w.log

theorem World.start_sound (boot : BootId) : (World.start boot : World P c).Sound where
  state := ⟨by apply Std.ExtTreeMap.ext_getElem?; simp [World.start, State.fresh], by
    simp [World.start, State.fresh], by simp [World.start, State.fresh]⟩
  threads := by simp [World.start]
  log := ⟨rfl, rfl, rfl, by simp [World.start], .nil, by simp [World.start], by simp [World.start]⟩

/-- What one action of the schedule is: nothing, a new caller, or one transition. -/
theorem World.act_cases (w : World P c) (a : Action P c) :
    (w.act a).state = w.state ∧ (w.act a).log = w.log ∧
      (∀ t ∈ (w.act a).threads, t ∈ w.threads ∨ t.task = .starting) ∨
    ∃ i prepared t s' task, a = .step i prepared ∧ w.threads[i]? = some t ∧
      Transition w.state t s' task ∧ w.act a = ⟨s', w.threads.set i ⟨t.call, task⟩,
        w.log ++ (t.publication i w.state s' task).toList⟩ := by
  cases a with
  | call call =>
    refine .inl ⟨rfl, rfl, ?_⟩
    intro t ht
    rcases List.mem_append.mp ht with ht | ht
    · exact .inl ht
    · rw [List.mem_singleton] at ht
      exact .inr (ht ▸ rfl)
  | step i prepared =>
    have still : w.act (.step i prepared) = w → (w.act (.step i prepared)).state = w.state ∧
        (w.act (.step i prepared)).log = w.log ∧
        ∀ t ∈ (w.act (.step i prepared)).threads, t ∈ w.threads ∨ t.task = .starting := by
      intro he
      rw [he]
      exact ⟨rfl, rfl, fun t ht => .inl ht⟩
    cases hi : w.threads[i]? with
    | none => exact .inl (still (by simp [World.act, hi]))
    | some t =>
      cases hstep : t.step prepared w.state with
      | none => exact .inl (still (by simp [World.act, hi, hstep]))
      | some pair =>
        exact .inr ⟨i, prepared, t, pair.1, pair.2, rfl, hi, Thread.step_transition hstep,
          by simp [World.act, hi, hstep]⟩

/-- One action keeps the system sound and moves the intent only forward. -/
theorem World.act_sound {w : World P c} (hw : w.Sound) (a : Action P c) :
    (w.act a).Sound ∧ Extends w.state.intent (w.act a).state.intent := by
  rcases w.act_cases a with ⟨hs, hl, ht⟩ | ⟨i, prepared, t, s', task, -, hi, htr, heq⟩
  · refine ⟨⟨hs ▸ hw.state, ?_, hs ▸ hl ▸ hw.log⟩, hs ▸ Extends.refl _⟩
    intro t hm
    rcases ht t hm with hm | hst
    · exact hs ▸ hw.threads t hm
    · simp [Thread.Sound, hst]
  · have hts := hw.threads t (List.mem_of_getElem? hi)
    obtain ⟨hs', he⟩ := htr.sound hw.state hts
    rw [heq]
    refine ⟨⟨hs', ?_, htr.log_sound hw.state hts hw.log i⟩, he⟩
    intro u hu
    rcases List.mem_or_eq_of_mem_set hu with hu | rfl
    · exact (hw.threads u hu).mono hw.state hs' he
    · exact htr.thread_sound hw.state hts

theorem World.run_sound {w : World P c} (hw : w.Sound) (actions : List (Action P c)) :
    (w.run actions).Sound :=
  Run.invariant (I := World.Sound) (fun _ a h => (World.act_sound h a).1) hw actions

/-- The intent of a later world extends that of an earlier one. -/
theorem World.run_extends {w : World P c} (hw : w.Sound) (actions : List (Action P c)) :
    Extends w.state.intent (w.run actions).state.intent :=
  Run.related (I := World.Sound) (R := fun a b => Extends a.state.intent b.state.intent)
    (fun _ a h => (World.act_sound h a).1) (fun w => Extends.refl w.state.intent)
    Extends.trans (fun _ a h => (World.act_sound h a).2) hw actions

end Gatel
