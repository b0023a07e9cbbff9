import Gatel.Generation.Safety

namespace Gatel
open Snapshot (Extends)

variable {P : Pipeline} {c : StoreConfig}

/-- The condition a caller supplied names this version. -/
def Call.Names (v : Version) : Call P c → Prop
  | .attemptIf expected _ _ => expected = v
  | .refreshIf expected _ _ => expected = v
  | .attemptIfEtag tag _ _ => tag = v.etag P.blake3
  | .attemptSourceIf expected _ _ => expected = v
  | .writerAttemptIf _ expected _ _ => expected = v
  | _ => False

/-- The version and the source of a source-scoped write. -/
def Call.scope? : Call P c → Option (Version × SourceId)
  | .attemptSourceIf expected source _ => some (expected, source.source)
  | .writerAttemptIf writer expected _ _ => some (expected, writer.source)
  | _ => none

/-- The version checked under the lock, against what the caller supplied. A tag stands
for a version the store has had. -/
def Call.Supplied (visited : Version → Prop) (expected : Option Version) : Call P c → Prop
  | .attemptIf v _ _ => expected = some v
  | .refreshIf v _ _ => expected = some v
  | .attemptIfEtag tag _ _ => ∃ v, expected = some v ∧ visited v ∧ tag = v.etag P.blake3
  | .attemptSourceIf v _ _ => expected = some v
  | .writerAttemptIf _ v _ _ => expected = some v
  | _ => True

theorem Call.request?_supplied {visited : Version → Prop} {call : Call P c} {r : Request P}
    (hr : call.request? = some r) : call.Supplied visited r.expected := by
  cases call with
  | attempt => trivial
  | refresh => trivial
  | attemptIf => cases hr; rfl
  | refreshIf => cases hr; rfl
  | _ => cases hr

/-- Every call in flight checks, under the lock, what its caller supplied. -/
def Thread.Conditioned (visited : Version → Prop) (t : Thread P c) : Prop :=
  match t.task with
  | .observing r => t.call.Supplied visited r.expected
  | .admitting r _ => t.call.Supplied visited r.expected
  | .finishing r _ => t.call.Supplied visited r.expected
  | .preparing r _ _ _ => t.call.Supplied visited r.expected
  | .restoring _ _ _ => ∀ expected, t.call.Supplied visited expected
  | _ => True

theorem Transition.conditioned {visited : Version → Prop} {s s' : State P} {t : Thread P c}
    {task : Task P} (h : Transition s t s' task) (hv : visited s.version)
    (ht : t.Conditioned visited) : Thread.Conditioned visited ⟨t.call, task⟩ := by
  cases h with
  | begun hr => exact Call.request?_supplied hr
  | etagMatched he => exact ⟨_, rfl, hv, he⟩
  | sourceComposed => rfl
  | writerComposed => rfl
  | restoreValidated => exact fun _ => trivial
  | recoverValidated => exact fun _ => trivial
  | observed => exact ht
  | admitted => exact ht
  | compiled => exact ht
  | recovered => exact ht _
  | _ => trivial

structure World.Conditioned (visited : Version → Prop) (w : World P c) : Prop where
  threads : ∀ t ∈ w.threads, t.Conditioned visited
  log : ∀ p ∈ w.log, p.call.Supplied visited p.expected

theorem World.act_conditioned {visited : Version → Prop} {w : World P c}
    (hv : visited w.state.version) (hw : w.Conditioned visited) (a : Action P c) :
    (w.act a).Conditioned visited := by
  rcases w.act_cases a with ⟨hs, hl, ht⟩ | ⟨i, prepared, t, s', task, -, hi, htr, heq⟩
  · refine ⟨?_, hl ▸ hw.log⟩
    intro t hm
    rcases ht t hm with hm | hst
    · exact hw.threads t hm
    · simp [Thread.Conditioned, hst]
  · have htc := hw.threads t (List.mem_of_getElem? hi)
    rw [heq]
    refine ⟨?_, ?_⟩
    · intro u hu
      rcases List.mem_or_eq_of_mem_set hu with hu | rfl
      · exact hw.threads u hu
      · exact htr.conditioned hv htc
    · intro p hp
      rcases List.mem_append.mp hp with hp | hp
      · exact hw.log p hp
      · rcases htr.published_or i with ⟨hn, -, -⟩ | ⟨r, base, plan, next, runtime, o, ht, -, -, -, -, he⟩
        · simp [hn] at hp
        · rw [he, Option.toList_some, List.mem_singleton] at hp
          subst hp
          simpa [Thread.Conditioned, ht] using htc

/-- Publications number their versions: two under one version are the same. -/
theorem World.Sound.publication_unique {w : World P c} (h : w.Sound) {i j : Nat}
    {p q : Publication P c} {v : Version} (hi : w.log[i]? = some p) (hj : w.log[j]? = some q)
    (hp : p.expected = some v) (hq : q.expected = some v) : i = j := by
  have number : ∀ {i : Nat} {p : Publication P c}, w.log[i]? = some p →
      p.committed.number.val = i + 1 := by
    intro i p hi
    have hlt := (List.getElem?_eq_some_iff.mp hi).1
    have hmap : (w.log.map (·.committed.number.val))[i]? = some p.committed.number.val := by
      simp [hi]
    rw [h.log.numbered, List.getElem?_range' hlt, Option.some.injEq] at hmap
    omega
  have hpn := h.log.expected p (List.mem_of_getElem? hi) v hp
  have hqn := h.log.expected q (List.mem_of_getElem? hj) v hq
  rw [number hi] at hpn
  rw [number hj] at hqn
  omega

/-- The union of a source-scoped write: some past intent with one contribution put in. -/
def Request.ComposedOn (s : State P) (v : Version) (source : SourceId) (r : Request P) : Prop :=
  r.expected = some v ∧ ∃ intent x, x.source = source ∧ r.snapshot = intent.insert x ∧
    intent.revs = v.revs ∧ Extends intent s.intent

def Thread.Composed (s : State P) (t : Thread P c) : Prop :=
  ∀ v source, t.call.scope? = some (v, source) → match t.task with
    | .observing r => r.ComposedOn s v source
    | .admitting r _ => r.ComposedOn s v source
    | _ => True

theorem Request.ComposedOn.mono {s s' : State P} {v : Version} {source : SourceId} {r : Request P}
    (h : r.ComposedOn s v source) (he : Extends s.intent s'.intent) : r.ComposedOn s' v source := by
  obtain ⟨hr, intent, x, hx, hs, hv, hi⟩ := h
  exact ⟨hr, intent, x, hx, hs, hv, hi.trans he⟩

theorem Thread.Composed.mono {s s' : State P} {t : Thread P c} (h : t.Composed s)
    (he : Extends s.intent s'.intent) : t.Composed s' := by
  obtain ⟨call, task⟩ := t
  intro v source hsc
  have hc := h v source hsc
  cases task with
  | observing r => exact Request.ComposedOn.mono hc he
  | admitting r observed => exact Request.ComposedOn.mono hc he
  | _ => trivial

theorem SourceSnapshot.observe_fields {source : SourceId} {content : Fingerprint}
    {nodes : List Node} {previous : Option SourceSnapshot} {x : SourceSnapshot}
    (h : SourceSnapshot.observe source content nodes previous = .ok x) :
    x.source = source ∧ x.content = content ∧ x.nodes = nodes ∧
      ((∃ old, previous = some old ∧ (x.rev = old.rev ∨ old.rev.next = some x.rev)) ∨ x.rev = 1) := by
  unfold SourceSnapshot.observe at h
  cases previous with
  | none => cases h; exact ⟨rfl, rfl, rfl, .inr rfl⟩
  | some old =>
    dsimp only at h
    split_ifs at h with hs hc hn
    · cases h
      exact ⟨rfl, rfl, rfl, .inl ⟨old, rfl, .inl rfl⟩⟩
    · cases hr : old.rev.next with
      | none => rw [hr] at h; cases h
      | some rev =>
        rw [hr] at h
        cases h
        exact ⟨rfl, rfl, rfl, .inl ⟨old, rfl, .inr hr⟩⟩

theorem Call.scope?_of_request? {call : Call P c} {r : Request P} (hr : call.request? = some r) :
    call.scope? = none := by
  cases call with
  | attemptSourceIf => cases hr
  | writerAttemptIf => cases hr
  | _ => rfl

theorem Transition.composed {s s' : State P} {t : Thread P c} {task : Task P}
    (h : Transition s t s' task) (hs : s.Sound) (ht : t.Composed s) :
    Thread.Composed s' ⟨t.call, task⟩ := by
  have onIntent : ∀ {v : Version} (x : SourceSnapshot) (registry : P.Registry), s.version = v →
      Request.ComposedOn s v x.source ⟨s.intent.insert x, registry, some v, false⟩ := by
    intro v x registry hv
    refine ⟨rfl, s.intent, x, rfl, rfl, ?_, Extends.refl _⟩
    rw [← hs.head, ← hv]
    rfl
  intro v source hsc
  cases h with
  | begun hr =>
    rw [Call.scope?_of_request? hr] at hsc
    cases hsc
  | etagMatched => cases hsc
  | sourceComposed hv =>
    cases hsc
    exact onIntent _ _ hv
  | @writerComposed writer expected content nodes x hv hx =>
    cases hsc
    rw [← (SourceSnapshot.observe_fields hx).1]
    exact onIntent _ _ hv
  | observed => exact ht v source hsc
  | _ => trivial

theorem World.run_composed {w : World P c} (hw : w.Sound) (hc : ∀ t ∈ w.threads, t.Composed w.state)
    (actions : List (Action P c)) :
    ∀ t ∈ (w.run actions).threads, t.Composed (w.run actions).state := by
  refine (Run.invariant (I := fun w : World P c => w.Sound ∧ ∀ t ∈ w.threads, t.Composed w.state)
    ?_ ⟨hw, hc⟩ actions).2
  rintro w a ⟨hw, hc⟩
  obtain ⟨hw', he⟩ := World.act_sound hw a
  refine ⟨hw', ?_⟩
  rcases w.act_cases a with ⟨hs, -, ht⟩ | ⟨i, prepared, t, s', task, -, hi, htr, heq⟩
  · intro t hm
    rcases ht t hm with hm | hst
    · exact hs ▸ hc t hm
    · intro v source _
      simp [hst]
  · rw [heq] at he ⊢
    intro u hu
    rcases List.mem_or_eq_of_mem_set hu with hu | rfl
    · exact (hc u hu).mono he
    · exact htr.composed hw.state (hc t (List.mem_of_getElem? hi))

/-- Admitting a composed union changes the intent of its own source alone. -/
theorem Request.ComposedOn.get_retain {s : State P} {v : Version} {source : SourceId}
    {r : Request P} {observed : List SourceSnapshot} (h : r.ComposedOn s v source)
    (hs : s.Sound) (hseen : Seen s.head r.snapshot observed) (ha : s.Admits c r) :
    s.version = v ∧ (∃ x, x.source = source ∧ r.snapshot = s.intent.insert x) ∧
      ∀ id, id ≠ source → (s.retain observed).get id = s.intent.get id := by
  obtain ⟨hr, intent, x, rfl, hx, hrevs, he⟩ := h
  have hv := ha.expected v hr
  have hi : intent = s.intent := by
    apply he.eq_of_revs
    rw [hrevs, hv, ← hs.head]
    rfl
  subst hi
  refine ⟨hv.symm, ⟨x, rfl, hx⟩, ?_⟩
  intro id hne
  have hget : r.snapshot.get id = s.intent.get id := by
    rw [hx, Snapshot.get_insert]
    simp [hne.symm]
  cases hid : s.intent.get id with
  | none => rw [get_retain_of_none hseen (hget.trans hid), hid]
  | some y =>
    rw [hid] at hget
    obtain rfl := Snapshot.get_source hget
    rcases Gatel.get_retain hs.head hseen (Snapshot.get_mem_sources hget) with
      ⟨hg, hlt⟩ | ⟨z, hz, hg, -⟩
    · exact hg
    · rw [hid] at hz
      exact hg.trans hz.symm

/-- An admission section that neither conflicts nor refuses has observed. -/
theorem Transition.admitted_of {s s' : State P} {call : Call P c} {r : Request P}
    {observed : List SourceSnapshot} {task : Task P}
    (h : Transition s ⟨call, .admitting r observed⟩ s' task)
    (hc : ∀ actual, task ≠ .done (.conflict actual)) (hr : ∀ why, task ≠ .done (.refused why)) :
    s' = s.observe r.snapshot observed ∧ s.Admits c r := by
  cases h with
  | admitConflict => exact absurd rfl (hc _)
  | refused => exact absurd rfl (hr _)
  | overtaken ha => exact ⟨rfl, ha⟩
  | admitted ha => exact ⟨rfl, ha⟩
  | stale hn => cases hn
  | failed hn => cases hn

/-- A call past the point where it may have written. -/
def Task.touched : Task P → Bool
  | .finishing _ _ => true
  | .preparing _ _ _ _ => true
  | .done (.outcome _) => true
  | .done (.restored _) => true
  | .done .sealed => true
  | _ => false

theorem Transition.touched_of_change {s s' : State P} {t : Thread P c} {task : Task P}
    (h : Transition s t s' task) (hc : s' ≠ s) : task.touched = true := by
  cases h with
  | rejectRecorded => rfl
  | sealed => rfl
  | overtaken => rfl
  | admitted => rfl
  | failed => rfl
  | noOp => rfl
  | published => rfl
  | restored => rfl
  | recovered => rfl
  | _ => exact absurd rfl hc

theorem Transition.touched {s s' : State P} {t : Thread P c} {task : Task P}
    (h : Transition s t s' task) (ht : t.task.touched = true) : task.touched = true := by
  cases h with
  | stale => rfl
  | failed => rfl
  | noOp => rfl
  | compiled => rfl
  | published => rfl
  | _ => cases ht

/-- A call that ends outside those points has written nothing, at none of its steps. -/
theorem World.untouched_call {w : World P c} {k : Nat} {prepared : Except String P.Runtime}
    (post : List (Action P c)) {t : Thread P c}
    (hk : ((w.act (.step k prepared)).run post).threads[k]? = some t)
    (ht : t.task.touched = false) : (w.act (.step k prepared)).state = w.state := by
  rcases w.act_step_cases k prepared with he | ⟨u, s', task, -, htr, rfl, hk'⟩
  · rw [he]
  · by_contra hc
    obtain ⟨u', hu', hq⟩ := World.run_thread (Q := fun u => u.task.touched = true)
      (fun htr ht => htr.touched ht) hk' (htr.touched_of_change hc) post
    rw [hk, Option.some.injEq] at hu'
    subst hu'
    rw [ht] at hq
    cases hq

/-- The versions a store has had along a run. -/
def World.Visited (boot : BootId) (actions : List (Action P c)) (v : Version) : Prop :=
  ∃ pre, pre <+: actions ∧ ((World.start boot : World P c).run pre).state.version = v

theorem World.run_conditioned (boot : BootId) (actions : List (Action P c)) :
    ((World.start boot : World P c).run actions).Conditioned (World.Visited boot actions) := by
  refine Run.invariant_of_visited (I := World.Conditioned (World.Visited boot actions))
    (V := fun w => World.Visited boot actions w.state.version)
    (fun w a hv hw => World.act_conditioned hv hw a) ?_ (fun p hp => ⟨p, hp, rfl⟩)
  exact ⟨by simp [World.start], by simp [World.start]⟩

/-- A publication whose caller named a version was admitted under that version. -/
theorem Call.Supplied.of_names {visited : Version → Prop} {call : Call P c}
    {expected : Option Version} {v : Version} (h : call.Supplied visited expected)
    (hn : call.Names v) (hv : visited v)
    (hinj : ∀ v w, visited v → visited w → v.etag P.blake3 = w.etag P.blake3 → v = w) :
    expected = some v := by
  cases call with
  | attemptIf => exact h.trans (congrArg some hn)
  | refreshIf => exact h.trans (congrArg some hn)
  | attemptIfEtag tag snapshot registry =>
    obtain ⟨u, rfl, hu, ht⟩ := h
    exact congrArg some (hinj u v hu hv (ht.symm.trans hn))
  | attemptSourceIf => exact h.trans (congrArg some hn)
  | writerAttemptIf => exact h.trans (congrArg some hn)
  | _ => exact hn.elim

/-- Conditional writers lose no update. Tags are told apart on the versions the store has
had; nothing else is assumed of the digest. -/
theorem World.no_lost_update (boot : BootId) (actions : List (Action P c))
    (hinj : ∀ v w, World.Visited boot actions v → World.Visited boot actions w →
      v.etag P.blake3 = w.etag P.blake3 → v = w) :
    let w := (World.start boot : World P c).run actions
    (∀ v (i j : Nat) (p q : Publication P c), World.Visited boot actions v → w.log[i]? = some p → w.log[j]? = some q →
      p.call.Names v → q.call.Names v → i = j) ∧
    (∀ pre k prepared post t, actions = pre ++ .step k prepared :: post →
      w.threads[k]? = some t →
      ((∃ actual, t.task = .done (.conflict actual)) ∨ ∃ why, t.task = .done (.refused why)) →
      let before := (World.start boot : World P c).run pre
      (before.act (.step k prepared)).state = before.state) ∧
    (∀ k prepared t t' r observed v source, w.threads[k]? = some t →
      t.call.scope? = some (v, source) → t.task = .admitting r observed →
      (w.act (.step k prepared)).threads[k]? = some t' →
      (∀ actual, t'.task ≠ .done (.conflict actual)) → (∀ why, t'.task ≠ .done (.refused why)) →
      w.state.version = v ∧ (∃ x, x.source = source ∧ r.snapshot = w.state.intent.insert x) ∧
      ∀ id, id ≠ source →
        (w.act (.step k prepared)).state.intent.get id = w.state.intent.get id ∧
        ∀ pre, pre <+: actions → ((World.start boot : World P c).run pre).state.version = v →
          (w.act (.step k prepared)).state.intent.get id =
            ((World.start boot : World P c).run pre).state.intent.get id) := by
  intro w
  have hw : w.Sound := World.run_sound (World.start_sound boot) actions
  refine ⟨?_, ?_, ?_⟩
  · intro v i j p q hv hi hj hp hq
    have hc := (World.run_conditioned boot actions).log
    exact hw.publication_unique hi hj
      ((hc p (List.mem_of_getElem? hi)).of_names hp hv hinj)
      ((hc q (List.mem_of_getElem? hj)).of_names hq hv hinj)
  · rintro pre k prepared post t rfl hk ht before
    refine World.untouched_call post (t := t) ?_ ?_
    · have he : w = (before.act (.step k prepared)).run post := Run.run_append _ _ _ _
      rw [← he]
      exact hk
    · rcases ht with ⟨actual, ht⟩ | ⟨why, ht⟩
      · rw [ht]; rfl
      · rw [ht]; rfl
  · intro k prepared t t' r observed v source hk hsc ht hk' hnc hnr
    have hcomp := World.run_composed (World.start_sound boot) (by simp [World.start]) actions t
      (List.mem_of_getElem? hk) v source hsc
    have hts := hw.threads t (List.mem_of_getElem? hk)
    rw [ht] at hcomp
    obtain ⟨call, task⟩ := t
    obtain rfl : task = .admitting r observed := ht
    have hstep : Thread.step ⟨call, .admitting r observed⟩ prepared w.state =
        some (r.admission c observed w.state) := rfl
    obtain ⟨hs', hk''⟩ := World.act_step_some hk hstep
    rw [hk', Option.some.injEq] at hk''
    subst hk''
    have key := (r.admission_transition call observed w.state).admitted_of hnc hnr
    obtain ⟨hst, ha⟩ := key
    obtain ⟨hv, hx, hothers⟩ := hcomp.get_retain hw.state hts.2 ha
    rw [hs', hst]
    refine ⟨hv, hx, fun id hne => ⟨hothers id hne, ?_⟩⟩
    rintro pre ⟨post, rfl⟩ hpre
    have hu := World.run_sound (World.start_sound (c := c) boot) pre
    have he := World.run_extends hu post
    have hrun : (((World.start boot : World P c).run pre).run post) = w :=
      (Run.run_append _ _ _ _).symm
    rw [hrun] at he
    have heq := he.eq_of_revs (by
      rw [← hu.state.head, ← hw.state.head]
      exact congrArg Version.revs (hpre.trans hv.symm))
    rw [heq]
    exact hothers id hne

namespace Sample

/-- One file source at its first revision. -/
def file : SourceSnapshot := ⟨.file "main", 1, .zero, []⟩

def boot : BootId := .zero

def versionAt (generation : Generation) (revs : RevVector) : Version := ⟨boot, generation, revs⟩

/-- The three versions the sample store passes through, with the digests of their tags. -/
def digests : List (Version × List UInt8) :=
  [(versionAt 0 ∅, [128, 51, 39, 191, 254, 106, 64, 203, 131, 137, 79, 185, 19, 76, 6, 129,
      48, 114, 204, 161, 10, 253, 174, 126, 26, 156, 42, 166, 215, 191, 147, 168]),
    (versionAt 0 (Snapshot.empty.insert file).revs, [227, 118, 52, 6, 124, 144, 42, 40, 175, 153,
      81, 211, 61, 216, 149, 160, 158, 222, 114, 247, 232, 50, 157, 23, 197, 83, 113, 1, 148,
      189, 220, 50]),
    (versionAt 1 (Snapshot.empty.insert file).revs, [169, 8, 51, 198, 147, 16, 194, 234, 30, 57,
      46, 171, 116, 193, 137, 15, 224, 157, 181, 8, 58, 159, 179, 94, 161, 184, 83, 17, 187, 168,
      103, 138])]

def blake3 (input : List UInt8) : Fingerprint :=
  match digests.find? (fun d => d.1.hasher.written = input) with
  | some d => (Fingerprint.fromBytes? d.2).getD .zero
  | none => .zero

/-- A pipeline that accepts everything and builds nothing. -/
def pipeline : Pipeline where
  Registry := Unit
  Diagnostics := Unit
  Spec := Unit
  Plan := Unit
  Binding := Unit
  BindingChange := Unit
  Runtime := Unit
  normalize _ _ := .ok ()
  compile _ _ := ()
  planHash _ := .zero
  buildHash _ := .zero
  bindings _ := []
  diffBindings _ _ := []
  errorCount _ := 0
  firstMessage _ := none
  blake3 := blake3

/-- One write under the tag of the fresh store, from its first read to its publication. -/
def taggedWrite : List (Action pipeline StoreConfig.new) :=
  .call (.attemptIfEtag ((versionAt 0 ∅).etag blake3) (Snapshot.empty.insert file) ()) ::
    List.replicate 5 (.step 0 (.ok ()))

theorem visited_mem_digests {v : Version} (h : World.Visited boot taggedWrite v) :
    v ∈ digests.map Prod.fst := by
  obtain ⟨pre, hp, rfl⟩ := h
  have hall : ∀ p ∈ taggedWrite.inits,
      ((World.start boot).run p).state.version ∈ digests.map Prod.fst := by decide +kernel
  exact hall pre ((List.mem_inits _ _).mpr hp)

theorem etag_injective {v w : Version} (hv : World.Visited boot taggedWrite v)
    (hw : World.Visited boot taggedWrite w) (h : v.etag blake3 = w.etag blake3) : v = w := by
  have hall : ∀ v ∈ digests.map Prod.fst, ∀ w ∈ digests.map Prod.fst,
      v.etag blake3 = w.etag blake3 → v = w := by decide +kernel
  exact hall v (visited_mem_digests hv) w (visited_mem_digests hw) h

theorem tagged_write_published_once :
    ((World.start boot).run taggedWrite).log.length = 1 ∧
    ∀ v (i j : Nat) (p q : Publication pipeline StoreConfig.new),
      World.Visited boot taggedWrite v →
      ((World.start boot).run taggedWrite).log[i]? = some p →
      ((World.start boot).run taggedWrite).log[j]? = some q →
      p.call.Names v → q.call.Names v → i = j :=
  ⟨by decide, (World.no_lost_update boot taggedWrite
    (fun _ _ hv hw h => etag_injective hv hw h)).1⟩

end Sample

end Gatel
