import Gatel.Server.PluginTasks

namespace Gatel.Http
open Run (run run_append run_cons run_nil)

/-! The scopes of all generations of a process, and who cleans them up. -/

/-- A tracked scope, with the call of `shutdown` its retirement job makes. -/
structure RetirementEntry where
  scope : Nat
  job : Option Nat

/-- Where a call of `Retirements::shutdown` is. The calls of `shutdown` it makes and the jobs it
joins are known by their scope and their number there. -/
inductive ClosingPhase where
  | waiting
  | stopping (children : List (Nat × Nat))
  | joining (jobs : List (Nat × Nat))
  | done
  | cancelled
  deriving DecidableEq

structure PluginRetirements where
  /-- Every scope registered so far, by its number. -/
  scopes : List TaskScope
  closed : Bool
  entries : List RetirementEntry
  /-- The call that holds the lock on shutdowns. -/
  lock : Option Nat
  closings : List ClosingPhase

namespace PluginRetirements

def limit : Nat := 64

def start : PluginRetirements := ⟨[], false, [], none, []⟩

def phaseOf (s : PluginRetirements) (k c : Nat) : Option ShutdownPhase := s.scopes[k]?.bind fun sc => sc.calls[c]?

/-- The call has returned, or its task was taken away. -/
def isOver (s : PluginRetirements) (k c : Nat) : Bool :=
  s.phaseOf k c = some .done ∨ s.phaseOf k c = some .cancelled

@[grind =] def scopeStopped (s : PluginRetirements) (k : Nat) : Bool := match s.scopes[k]? with
  | some sc => sc.isStopped
  | none => false

/-- A job whose handle somebody else is looking at does not count as finished. -/
def reap (s : PluginRetirements) (busy : List Nat) : PluginRetirements :=
  { s with entries := s.entries.filter fun e =>
      !((match e.job with
        | some c => s.isOver e.scope c && !busy.contains e.scope
        | none => false) && s.scopeStopped e.scope) }

/-- `PluginTasks::managed`: a scope without tasks is not registered, and a refused one is gone. -/
def managed (s : PluginRetirements) (busy : List Nat) (cooperative : List Bool) : PluginRetirements :=
  if cooperative.length > TaskScope.limit ∨ cooperative = [] ∨ s.closed then s
  else
    let s := s.reap busy
    if s.entries.length ≥ limit ∨ s.scopes.length + 1 ≥ 2 ^ 64 then s
    else { s with
      scopes := s.scopes ++ [.new cooperative]
      entries := s.entries ++ [⟨s.scopes.length, none⟩] }

/-- What `retire` makes of the entry of a scope whose ticket is dropped. -/
def retire (s : PluginRetirements) (k : Nat) (sc : TaskScope) : PluginRetirements :=
  if s.entries.any fun e => e.scope == k then
    if sc.isPending || sc.isStopped then { s with entries := s.entries.filter fun e => e.scope != k }
    else if s.closed then s
    else { s with
      scopes := s.scopes.modify k fun sc => sc.step .shutdown
      entries := s.entries.map fun e => if e.scope = k then { e with job := some sc.calls.length } else e }
  else s

@[grind =] def drop (s : PluginRetirements) (k : Nat) : PluginRetirements :=
  match s.scopes[k]? with
  | some sc => match sc.state with
    | .activating _ => s
    | _ => if sc.owned then { s with scopes := s.scopes.set k (sc.step .disown) }.retire k sc else s
  | none => s

def setClosing (s : PluginRetirements) (p : Nat) (phase : ClosingPhase) : PluginRetirements :=
  { s with closings := s.closings.set p phase }

/-- Seals the registry and calls `shutdown` on every tracked scope. -/
def close (s : PluginRetirements) (p : Nat) : PluginRetirements :=
  { s with
    closed := true
    lock := some p
    scopes := s.scopes.mapIdx fun k (sc : TaskScope) =>
      if s.entries.any fun (e : RetirementEntry) => e.scope == k then sc.step .shutdown else sc }.setClosing p
      (.stopping (s.entries.map fun (e : RetirementEntry) => (e.scope, match s.scopes[e.scope]? with
        | some sc => sc.calls.length
        | none => 0)))

def jobs (s : PluginRetirements) : List (Nat × Nat) := s.entries.filterMap fun e => e.job.map fun c => (e.scope, c)

@[grind =] def advance (s : PluginRetirements) (p : Nat) : ClosingPhase → PluginRetirements
  | .waiting => if s.lock = none then s.close p else s
  | .stopping children =>
    if children.all fun c => s.phaseOf c.1 c.2 = some .done then s.setClosing p (.joining s.jobs) else s
  | .joining jobs =>
    if jobs.all fun c => s.isOver c.1 c.2 then { s with entries := [], lock := none }.setClosing p .done else s
  | .done | .cancelled => s

/-- The calls it makes are dropped before the lock is. -/
def cancel (s : PluginRetirements) (p : Nat) : ClosingPhase → PluginRetirements
  | .waiting => s.setClosing p .cancelled
  | .stopping children =>
    if children.all fun c => s.isOver c.1 c.2 then { s with lock := none }.setClosing p .cancelled else s
  | .joining _ => { s with lock := none }.setClosing p .cancelled
  | .done | .cancelled => s

inductive Event where
  | managed (busy : List Nat) (cooperative : List Bool)
  /-- Anything in one scope; its owner goes with its ticket. -/
  | scope (k : Nat) (e : TaskScope.Event)
  | reap (busy : List Nat)
  | shutdown
  | advance (p : Nat)
  | cancel (p : Nat)

@[grind =] def step (s : PluginRetirements) : Event → PluginRetirements
  | .managed busy cooperative => s.managed busy cooperative
  | .scope k .disown => s.drop k
  | .scope k e => { s with scopes := s.scopes.modify k fun sc => sc.step e }
  | .reap busy => s.reap busy
  | .shutdown => { s with closings := s.closings ++ [.waiting] }
  | .advance p => match s.closings[p]? with
    | some phase => s.advance p phase
    | none => s
  | .cancel p => match s.closings[p]? with
    | some phase => s.cancel p phase
    | none => s

/-- What a step may do to a scope. -/
inductive Touch (e : Event) (k : Nat) (sc : TaskScope) : TaskScope → Prop
  | same : Touch e k sc sc
  | own {x : TaskScope.Event} : e = .scope k x → Touch e k sc (sc.step x)
  | called : Touch e k sc (sc.step .shutdown)
  | retired : Touch e k sc ((sc.step .disown).step .shutdown)

theorem touch_modify {e : Event} {l : List TaskScope} {k : Nat} {f : TaskScope → TaskScope}
    (hf : ∀ sc, l[k]? = some sc → Touch e k sc (f sc)) {j : Nat} {sc : TaskScope} (hj : l[j]? = some sc) :
    ∃ sc', (l.modify k f)[j]? = some sc' ∧ Touch e j sc sc' := by
  rw [List.getElem?_modify, hj]
  by_cases hkj : k = j
  · subst hkj
    exact ⟨f sc, by simp, hf sc hj⟩
  · exact ⟨sc, by simp [hkj], .same⟩

theorem close_scopes {s : PluginRetirements} {k : Nat} {sc : TaskScope} (hk : s.scopes[k]? = some sc) (p : Nat) :
    (s.close p).scopes[k]? = some (if s.entries.any fun e => e.scope == k then sc.step .shutdown else sc) := by
  unfold close setClosing
  dsimp only
  rw [List.getElem?_mapIdx, hk]
  rfl

theorem step_scopes (s : PluginRetirements) (e : Event) {k : Nat} {sc : TaskScope} (hk : s.scopes[k]? = some sc) :
    ∃ sc', (s.step e).scopes[k]? = some sc' ∧ Touch e k sc sc' := by
  have hsame {s' : PluginRetirements} (he : s'.scopes = s.scopes) : ∃ sc', s'.scopes[k]? = some sc' ∧ Touch e k sc sc' :=
    ⟨sc, by rw [he]; exact hk, .same⟩
  cases e with
  | managed busy cooperative =>
    rw [step, managed]
    split
    · exact hsame rfl
    · dsimp only
      split
      · exact hsame rfl
      · refine ⟨sc, ?_, .same⟩
        exact (List.getElem?_append_left (List.getElem?_eq_some_iff.mp hk).1).trans hk
  | scope j x =>
    by_cases hx : x = .disown
    · subst hx
      rw [step, drop]
      split
      · rename_i sj hj
        split
        · exact hsame rfl
        · split
          · have hset : ∃ sc', (s.scopes.set j (sj.step .disown))[k]? = some sc' ∧ Touch (.scope j .disown) k sc sc' := by
              by_cases hkj : j = k
              · subst hkj
                rw [hk] at hj
                cases hj
                exact ⟨_, List.getElem?_set_self (List.getElem?_eq_some_iff.mp hk).1, .own rfl⟩
              · exact ⟨sc, (List.getElem?_set_ne hkj).trans hk, .same⟩
            unfold retire
            split
            · split
              · exact hset
              · split
                · exact hset
                · by_cases hkj : j = k
                  · subst hkj
                    rw [hk] at hj
                    cases hj
                    refine ⟨(sc.step .disown).step .shutdown, ?_, .retired⟩
                    simp [List.getElem?_set_self (List.getElem?_eq_some_iff.mp hk).1]
                  · refine ⟨sc, ?_, .same⟩
                    simp [List.getElem?_set_ne hkj, hk, hkj]
            · exact hset
          · exact hsame rfl
      · exact hsame rfl
    · have hstep : s.step (.scope j x) = { s with scopes := s.scopes.modify j fun sc => sc.step x } := by
        cases x <;> first | rfl | exact absurd rfl hx
      rw [hstep]
      exact touch_modify (fun _ _ => .own rfl) hk
  | reap busy => exact hsame rfl
  | shutdown => exact hsame rfl
  | advance p =>
    rw [step]
    split
    · unfold advance
      split
      · split
        · refine ⟨_, close_scopes hk p, ?_⟩
          split
          · exact .called
          · exact .same
        · exact hsame rfl
      · split <;> exact hsame rfl
      · split <;> exact hsame rfl
      · exact hsame rfl
      · exact hsame rfl
    · exact hsame rfl
  | cancel p =>
    rw [step]
    split
    · unfold cancel
      split
      · exact hsame rfl
      · split <;> exact hsame rfl
      all_goals exact hsame rfl
    · exact hsame rfl

theorem Touch.inv {e : Event} {k : Nat} {sc sc' : TaskScope} (h : Touch e k sc sc') (hi : sc.Inv) : sc'.Inv := by
  cases h with
  | same => exact hi
  | own _ => exact hi.step _
  | called => exact hi.step _
  | retired => exact (hi.step _).step _

theorem Touch.quiet {e : Event} {k : Nat} {sc sc' : TaskScope} (h : Touch e k sc sc') (hq : sc.Quiet) : sc'.Quiet := by
  cases h with
  | same => exact hq
  | own _ => exact hq.step _
  | called => exact hq.step _
  | retired => exact (hq.step _).step _

theorem Touch.barred {e : Event} {k : Nat} {sc sc' : TaskScope} (h : Touch e k sc sc') (hb : sc.Barred) : sc'.Barred := by
  cases h with
  | same => exact hb
  | own _ => exact hb.step _
  | called => exact hb.step _
  | retired => exact (hb.step _).step _

theorem Touch.still {e : Event} {k : Nat} {sc sc' : TaskScope} (h : Touch e k sc sc') (hi : sc.Inv) (hq : sc.Quiet) :
    sc'.tasks.map (fun t => (t.life, t.runs)) = sc.tasks.map fun t => (t.life, t.runs) := by
  cases h with
  | same => rfl
  | own _ => exact hi.still_of_quiet hq _
  | called => exact hi.still_of_quiet hq _
  | retired => exact ((hi.step _).still_of_quiet (hq.step _) _).trans (hi.still_of_quiet hq _)

/-- Only `activate` ends the time before a scope has begun. -/
theorem Touch.unbegun {e : Event} {k : Nat} {sc sc' : TaskScope} (h : Touch e k sc sc') (hu : sc.Unbegun) :
    sc'.Unbegun ∨ (e = .scope k .activate ∧ sc.owned = true ∧ sc.state = .pending) := by
  have hstep {sc : TaskScope} (hu : sc.Unbegun) {x : TaskScope.Event} (hx : x ≠ .activate) : (sc.step x).Unbegun := by
    rcases hu.step x with hu | ⟨he, -⟩
    · exact hu
    · exact absurd he hx
  cases h with
  | same => exact Or.inl hu
  | @own x he =>
    rcases hu.step x with hu | ⟨rfl, ho, hp⟩
    · exact Or.inl hu
    · exact Or.inr ⟨he, ho, hp⟩
  | called => exact Or.inl (hstep hu TaskScope.Event.noConfusion)
  | retired => exact Or.inl (hstep (hstep hu TaskScope.Event.noConfusion) TaskScope.Event.noConfusion)

/-- A scope is the only one that a step adds. -/
theorem step_new (s : PluginRetirements) (e : Event) : (s.step e).scopes.length = s.scopes.length ∨
    ∃ busy cooperative, (s.step e).scopes = s.scopes ++ [.new cooperative] ∧ s.closed = false ∧
      (s.reap busy).entries.length < limit ∧ (s.step e) = { s.reap busy with
        scopes := s.scopes ++ [.new cooperative]
        entries := (s.reap busy).entries ++ [⟨s.scopes.length, none⟩] } := by
  cases e with
  | managed busy cooperative =>
    rw [step, managed]
    split
    · exact Or.inl rfl
    · rename_i hopen
      dsimp only
      split
      · exact Or.inl rfl
      · rename_i hroom
        refine Or.inr ⟨busy, cooperative, rfl, ?_, ?_, rfl⟩
        · cases hc : s.closed with
          | false => rfl
          | true => exact absurd (Or.inr (Or.inr hc)) hopen
        · exact Nat.lt_of_not_le fun hle => hroom (Or.inl hle)
  | scope j x =>
    left
    by_cases hx : x = .disown
    · subst hx
      rw [step, drop]
      unfold retire
      repeat' split
      all_goals simp
    · have hstep : s.step (.scope j x) = { s with scopes := s.scopes.modify j fun sc => sc.step x } := by
        cases x <;> first | rfl | exact absurd rfl hx
      rw [hstep]
      exact List.length_modify _ _ _
  | reap busy => exact Or.inl rfl
  | shutdown => exact Or.inl rfl
  | advance p =>
    left
    rw [step]
    unfold advance close
    repeat' split
    all_goals simp [setClosing]
  | cancel p =>
    left
    rw [step]
    unfold cancel
    repeat' split
    all_goals simp [setClosing]

/-- What a finished or unfinished `shutdown` of the registry has brought about. -/
def Closes (s : PluginRetirements) : ClosingPhase → Prop
  | .stopping children => s.closed = true ∧ ∀ e ∈ s.entries, ∃ c, (e.scope, c) ∈ children
  | .joining _ => s.closed = true ∧ ∀ e ∈ s.entries, ∀ sc, s.scopes[e.scope]? = some sc → sc.Quiet
  | .done => s.closed = true ∧ s.entries = []
  | .waiting | .cancelled => True

structure Inv (s : PluginRetirements) : Prop where
  scopes : ∀ sc ∈ s.scopes, sc.Inv
  tracked : ∀ k sc, s.scopes[k]? = some sc → (∃ e ∈ s.entries, e.scope = k) ∨ sc.Quiet
  within : s.entries.length ≤ limit
  closes : ∀ p ∈ s.closings, s.Closes p

theorem inv_start : start.Inv := by
  refine ⟨fun _ h => (by cases h), ?_, Nat.zero_le _, fun _ h => (by cases h)⟩
  intro k sc h
  cases h

theorem phaseOf_done {s : PluginRetirements} {k c : Nat} (h : s.phaseOf k c = some .done) :
    ∃ sc, s.scopes[k]? = some sc ∧ .done ∈ sc.calls := by
  obtain ⟨sc, hsc, hc⟩ := Option.bind_eq_some_iff.mp h
  exact ⟨sc, hsc, List.mem_of_getElem? hc⟩

/-- An entry that is gone was of a scope at rest. -/
structure Sheds (s s' : PluginRetirements) : Prop where
  fewer : ∀ e ∈ s'.entries, ∃ e' ∈ s.entries, e'.scope = e.scope
  rest : ∀ e ∈ s.entries, (∃ e' ∈ s'.entries, e'.scope = e.scope) ∨
    ∀ sc, s'.scopes[e.scope]? = some sc → sc.Quiet
  length : s'.entries.length ≤ s.entries.length
  closed : s.closed = true → s'.closed = true

theorem sheds_of_eq {s s' : PluginRetirements} (he : s'.entries = s.entries) (hc : s.closed = true → s'.closed = true) :
    s.Sheds s' :=
  ⟨fun x hx => ⟨x, he ▸ hx, rfl⟩, fun x hx => Or.inl ⟨x, he ▸ hx, rfl⟩, le_of_eq (congrArg _ he), hc⟩

theorem Sheds.refl (s : PluginRetirements) : s.Sheds s := sheds_of_eq rfl id

/-- The scopes go on and the entries do not grow. -/
theorem Inv.sheds {s s' : PluginRetirements} (h : s.Inv) {e : Event} (hlen : s'.scopes.length = s.scopes.length)
    (hscopes : ∀ k sc, s.scopes[k]? = some sc → ∃ sc', s'.scopes[k]? = some sc' ∧ Touch e k sc sc') (hs : s.Sheds s')
    (hnew : ∀ p ∈ s'.closings, p ∈ s.closings ∨ s'.Closes p) : s'.Inv := by
  have hback : ∀ k sc', s'.scopes[k]? = some sc' → ∃ sc, s.scopes[k]? = some sc ∧ Touch e k sc sc' := by
    intro k sc' hk
    have hlt : k < s.scopes.length := hlen ▸ (List.getElem?_eq_some_iff.mp hk).1
    obtain ⟨sc'', hk', ht⟩ := hscopes k _ (List.getElem?_eq_getElem hlt)
    rw [hk] at hk'
    cases hk'
    exact ⟨_, List.getElem?_eq_getElem hlt, ht⟩
  refine ⟨?_, ?_, hs.length.trans h.within, ?_⟩
  · intro sc' hsc'
    obtain ⟨k, hk⟩ := List.mem_iff_getElem?.mp hsc'
    obtain ⟨sc, hsc, ht⟩ := hback k sc' hk
    exact ht.inv (h.scopes sc (List.mem_of_getElem? hsc))
  · intro k sc' hk
    obtain ⟨sc, hsc, ht⟩ := hback k sc' hk
    rcases h.tracked k sc hsc with ⟨x, hx, rfl⟩ | hq
    · rcases hs.rest x hx with hin | hq
      · exact Or.inl hin
      · exact Or.inr (hq sc' hk)
    · exact Or.inr (ht.quiet hq)
  · intro p hp
    rcases hnew p hp with hp | hp
    · have hc := h.closes p hp
      cases p with
      | waiting => trivial
      | cancelled => trivial
      | stopping children =>
        refine ⟨hs.closed hc.1, ?_⟩
        intro x hx
        obtain ⟨y, hy, he⟩ := hs.fewer x hx
        rw [← he]
        exact hc.2 y hy
      | joining jobs =>
        refine ⟨hs.closed hc.1, ?_⟩
        intro x hx sc' hk
        obtain ⟨y, hy, he⟩ := hs.fewer x hx
        obtain ⟨sc, hsc, ht⟩ := hback _ sc' hk
        exact ht.quiet (hc.2 y hy sc (he ▸ hsc))
      | done =>
        refine ⟨hs.closed hc.1, List.eq_nil_iff_forall_not_mem.mpr ?_⟩
        intro x hx
        obtain ⟨y, hy, -⟩ := hs.fewer x hx
        rw [hc.2] at hy
        cases hy
    · exact hp

theorem scopeStopped_iff {s : PluginRetirements} {k : Nat} :
    s.scopeStopped k = true ↔ ∃ sc, s.scopes[k]? = some sc ∧ sc.isStopped = true := by
  unfold scopeStopped
  cases s.scopes[k]? <;> simp

theorem Inv.sheds_reap {s : PluginRetirements} (h : s.Inv) (busy : List Nat) : s.Sheds (s.reap busy) := by
  refine ⟨?_, ?_, List.length_filter_le _ _, id⟩
  · intro x hx
    exact ⟨x, (List.mem_filter.mp hx).1, rfl⟩
  · intro x hx
    by_cases hin : x ∈ (s.reap busy).entries
    · exact Or.inl ⟨x, hin, rfl⟩
    · right
      intro sc hsc
      have hstop : s.scopeStopped x.scope = true := by
        by_contra hn
        refine hin (List.mem_filter.mpr ⟨hx, ?_⟩)
        rw [Bool.not_eq_true] at hn
        rw [hn, Bool.and_false]
        rfl
      obtain ⟨sc', hsc', hst⟩ := scopeStopped_iff.1 hstop
      have he : some sc = some sc' := hsc.symm.trans hsc'
      cases he
      exact (h.scopes sc (List.mem_of_getElem? hsc)).quiet_of_stopped hst

theorem Inv.sheds_drop {s : PluginRetirements} (h : s.Inv) (k : Nat) : s.Sheds (s.drop k) := by
  unfold drop
  split
  · rename_i sc hk
    have hinv := h.scopes sc (List.mem_of_getElem? hk)
    split
    · exact .refl s
    · rename_i hact
      split
      · unfold retire
        split
        · split
          · rename_i hover
            refine ⟨?_, ?_, List.length_filter_le _ _, id⟩
            · intro x hx
              exact ⟨x, (List.mem_filter.mp hx).1, rfl⟩
            · intro x hx
              by_cases hxk : x.scope = k
              · right
                intro sc' hsc'
                rw [hxk] at hsc'
                have he : some (sc.step .disown) = some sc' :=
                  (List.getElem?_set_self (List.getElem?_eq_some_iff.mp hk).1).symm.trans hsc'
                cases he
                rcases (Bool.or_eq_true _ _).mp hover with hp | hst
                · have hpending := TaskScope.isPending_iff.mp hp
                  refine (hinv.step .disown).quiet_of_discarded ?_ ?_
                  · rw [TaskScope.step]
                    split <;> exact hpending
                  · rw [TaskScope.step, hpending]
                · exact (hinv.quiet_of_stopped hst).step .disown
              · exact Or.inl ⟨x, List.mem_filter.mpr ⟨hx, by simpa using hxk⟩, rfl⟩
          · split
            · exact sheds_of_eq rfl id
            · refine ⟨?_, ?_, (List.length_map _).le, id⟩
              · intro x hx
                obtain ⟨y, hy, rfl⟩ := List.mem_map.mp hx
                refine ⟨y, hy, ?_⟩
                split <;> rfl
              · intro x hx
                refine Or.inl ⟨_, List.mem_map.mpr ⟨x, hx, rfl⟩, ?_⟩
                split <;> rfl
        · exact sheds_of_eq rfl id
      · exact .refl s
  · exact .refl s

theorem Inv.sheds_advance {s : PluginRetirements} (h : s.Inv) {p : Nat} {phase : ClosingPhase}
    (hp : s.closings[p]? = some phase) : s.Sheds (s.advance p phase) ∧
    ∀ q ∈ (s.advance p phase).closings, q ∈ s.closings ∨ (s.advance p phase).Closes q := by
  have hset {q q' : ClosingPhase} (hq : q ∈ s.closings.set p q') : q ∈ s.closings ∨ q = q' := List.mem_or_eq_of_mem_set hq
  unfold advance
  split
  · split
    · refine ⟨sheds_of_eq rfl fun _ => rfl, ?_⟩
      intro q hq
      rcases hset hq with hq | rfl
      · exact Or.inl hq
      · refine Or.inr ⟨rfl, ?_⟩
        intro x hx
        exact ⟨_, List.mem_map.mpr ⟨x, hx, rfl⟩⟩
    · exact ⟨.refl s, fun _ hq => Or.inl hq⟩
  · rename_i children
    split
    · rename_i hall
      refine ⟨sheds_of_eq rfl id, ?_⟩
      intro q hq
      rcases hset hq with hq | rfl
      · exact Or.inl hq
      · have hc := h.closes _ (List.mem_of_getElem? hp)
        refine Or.inr ⟨hc.1, ?_⟩
        intro x hx sc hsc
        obtain ⟨c, hmem⟩ := hc.2 x hx
        have hdone := of_decide_eq_true (List.all_eq_true.mp hall _ hmem)
        obtain ⟨sc', hsc', hin⟩ := phaseOf_done hdone
        have he : some sc = some sc' := hsc.symm.trans hsc'
        cases he
        exact Or.inl ((h.scopes sc (List.mem_of_getElem? hsc)).finished hin)
    · exact ⟨.refl s, fun _ hq => Or.inl hq⟩
  · split
    · have hc := h.closes _ (List.mem_of_getElem? hp)
      refine ⟨⟨fun x hx => (by cases hx), fun x hx => Or.inr (hc.2 x hx), Nat.zero_le _, id⟩, ?_⟩
      intro q hq
      rcases hset hq with hq | rfl
      · exact Or.inl hq
      · exact Or.inr ⟨hc.1, rfl⟩
    · exact ⟨.refl s, fun _ hq => Or.inl hq⟩
  · exact ⟨.refl s, fun _ hq => Or.inl hq⟩
  · exact ⟨.refl s, fun _ hq => Or.inl hq⟩

theorem sheds_cancel (s : PluginRetirements) (p : Nat) (phase : ClosingPhase) : s.Sheds (s.cancel p phase) ∧
    ∀ q ∈ (s.cancel p phase).closings, q ∈ s.closings ∨ (s.cancel p phase).Closes q := by
  have hset {q : ClosingPhase} (hq : q ∈ s.closings.set p .cancelled) : q ∈ s.closings ∨ q = .cancelled :=
    List.mem_or_eq_of_mem_set hq
  have hkeep {s' : PluginRetirements} (he : s'.entries = s.entries) (hc : s'.closed = s.closed)
      (hcl : s'.closings = s.closings.set p .cancelled) :
      s.Sheds s' ∧ ∀ q ∈ s'.closings, q ∈ s.closings ∨ s'.Closes q := by
    refine ⟨sheds_of_eq he fun ht => hc.trans ht, ?_⟩
    intro q hq
    rw [hcl] at hq
    rcases hset hq with hq | rfl
    · exact Or.inl hq
    · exact Or.inr trivial
  unfold cancel
  split
  · exact hkeep rfl rfl rfl
  · split
    · exact hkeep rfl rfl rfl
    · exact ⟨.refl s, fun _ hq => Or.inl hq⟩
  · exact hkeep rfl rfl rfl
  · exact ⟨.refl s, fun _ hq => Or.inl hq⟩
  · exact ⟨.refl s, fun _ hq => Or.inl hq⟩

theorem drop_closings (s : PluginRetirements) (k : Nat) : (s.drop k).closings = s.closings := by
  unfold drop retire
  repeat' split
  all_goals rfl

theorem Inv.step_sheds {s : PluginRetirements} (h : s.Inv) (e : Event) (hlen : (s.step e).scopes.length = s.scopes.length) :
    s.Sheds (s.step e) ∧ ∀ q ∈ (s.step e).closings, q ∈ s.closings ∨ (s.step e).Closes q := by
  cases e with
  | managed busy cooperative =>
    rw [step, managed] at hlen ⊢
    split
    · exact ⟨.refl s, fun _ hq => Or.inl hq⟩
    · rename_i hopen
      rw [if_neg hopen] at hlen
      dsimp only at hlen ⊢
      split
      · exact ⟨h.sheds_reap busy, fun _ hq => Or.inl hq⟩
      · rename_i hroom
        rw [if_neg hroom] at hlen
        rw [List.length_append] at hlen
        exact absurd hlen (Nat.succ_ne_self _)
  | scope k x =>
    by_cases hx : x = .disown
    · subst hx
      refine ⟨h.sheds_drop k, ?_⟩
      intro q hq
      rw [step, drop_closings] at hq
      exact Or.inl hq
    · have hstep : s.step (.scope k x) = { s with scopes := s.scopes.modify k fun sc => sc.step x } := by
        cases x <;> first | rfl | exact absurd rfl hx
      rw [hstep]
      exact ⟨sheds_of_eq rfl id, fun _ hq => Or.inl hq⟩
  | reap busy => exact ⟨h.sheds_reap busy, fun _ hq => Or.inl hq⟩
  | shutdown =>
    refine ⟨sheds_of_eq rfl id, ?_⟩
    intro q hq
    rcases List.mem_append.mp hq with hq | hq
    · exact Or.inl hq
    · rw [List.mem_singleton.mp hq]
      exact Or.inr trivial
  | advance p =>
    rw [step]
    split
    · rename_i phase hp
      exact h.sheds_advance hp
    · exact ⟨.refl s, fun _ hq => Or.inl hq⟩
  | cancel p =>
    rw [step]
    split
    · exact sheds_cancel s p _
    · exact ⟨.refl s, fun _ hq => Or.inl hq⟩

/-- A new scope, with its entry. -/
theorem Inv.register {s : PluginRetirements} (h : s.Inv) (hopen : s.closed = false) (hroom : s.entries.length < limit)
    (cooperative : List Bool) :
    Inv { s with scopes := s.scopes ++ [.new cooperative], entries := s.entries ++ [⟨s.scopes.length, none⟩] } := by
  refine ⟨?_, ?_, ?_, ?_⟩
  · intro sc hsc
    rcases List.mem_append.mp hsc with hsc | hsc
    · exact h.scopes sc hsc
    · rw [List.mem_singleton.mp hsc]
      exact TaskScope.inv_new cooperative
  · intro k sc hk
    by_cases hlt : k < s.scopes.length
    · rw [List.getElem?_append_left hlt] at hk
      rcases h.tracked k sc hk with ⟨x, hx, he⟩ | hq
      · exact Or.inl ⟨x, List.mem_append_left _ hx, he⟩
      · exact Or.inr hq
    · have hlen := (List.getElem?_eq_some_iff.mp hk).1
      rw [List.length_append] at hlen
      have hke : s.scopes.length = k := by
        simp only [List.length_singleton] at hlen
        omega
      exact Or.inl ⟨_, List.mem_append_right _ (List.mem_singleton_self _), hke⟩
  · simp only [List.length_append, List.length_singleton]
    exact hroom
  · intro p hp
    have hc := h.closes p hp
    cases p with
    | waiting => trivial
    | cancelled => trivial
    | stopping children => exact absurd (hopen.symm.trans hc.1) (by simp)
    | joining jobs => exact absurd (hopen.symm.trans hc.1) (by simp)
    | done => exact absurd (hopen.symm.trans hc.1) (by simp)

theorem Inv.step {s : PluginRetirements} (h : s.Inv) (e : Event) : (s.step e).Inv := by
  rcases step_new s e with hlen | ⟨busy, cooperative, -, hopen, hroom, he⟩
  · obtain ⟨hs, hnew⟩ := h.step_sheds e hlen
    exact h.sheds hlen (fun k sc hk => step_scopes s e hk) hs hnew
  · rw [he]
    have hreap : (s.reap busy).Inv := h.sheds rfl (fun k sc hk => step_scopes s (.reap busy) hk) (h.sheds_reap busy)
      fun _ hq => Or.inl hq
    exact hreap.register hopen hroom cooperative

theorem run_inv (es : List Event) : (run step start es).Inv := Run.invariant (fun _ e h => h.step e) inv_start es

theorem Inv.scope {s : PluginRetirements} (h : s.Inv) {k : Nat} {sc : TaskScope} (hk : s.scopes[k]? = some sc) : sc.Inv :=
  h.scopes sc (List.mem_of_getElem? hk)

/-- A factory has run only in a scope that was activated while it was pending and had its owner. -/
theorem run_activated (es : List Event) {k : Nat} {sc : TaskScope} (hk : (run step start es).scopes[k]? = some sc)
    (hb : ¬ sc.Unbegun) : ∃ before after, es = before ++ .scope k .activate :: after ∧
      ∃ sc₀, (run step start before).scopes[k]? = some sc₀ ∧ sc₀.owned = true ∧ sc₀.state = .pending := by
  induction es using List.reverseRecOn generalizing sc with
  | nil => cases hk
  | append_singleton es e ih =>
    rw [run_append] at hk
    have hstep : run step (run step start es) [e] = (run step start es).step e := rfl
    rw [hstep] at hk
    by_cases hlt : k < (run step start es).scopes.length
    · have hk₀ := List.getElem?_eq_getElem hlt
      obtain ⟨sc', hk', ht⟩ := step_scopes _ e hk₀
      rw [hk] at hk'
      cases hk'
      by_cases hu : ((run step start es).scopes[k]).Unbegun
      · rcases ht.unbegun hu with hu' | ⟨rfl, ho, hp⟩
        · exact absurd hu' hb
        · exact ⟨es, [], rfl, _, hk₀, ho, hp⟩
      · obtain ⟨before, after, he, hfound⟩ := ih hk₀ hu
        exact ⟨before, after ++ [e], by rw [he, List.append_assoc]; rfl, hfound⟩
    · rcases step_new (run step start es) e with hlen | ⟨busy, cooperative, hnew, -⟩
      · have hlt' := (List.getElem?_eq_some_iff.mp hk).1
        rw [hlen] at hlt'
        exact absurd hlt' hlt
      · rw [hnew, List.getElem?_append_right (Nat.le_of_not_lt hlt)] at hk
        obtain rfl := List.mem_singleton.mp (List.mem_of_getElem? hk)
        refine absurd ⟨?_, fun _ => ScopeState.noConfusion⟩ hb
        intro t ht
        obtain ⟨b, -, rfl⟩ := List.mem_map.mp ht
        rfl

theorem run_scope (s : PluginRetirements) (es : List Event) {I : TaskScope → Prop}
    (hI : ∀ e k sc sc', Touch e k sc sc' → I sc → I sc') {k : Nat} {sc : TaskScope} (hk : s.scopes[k]? = some sc) (hsc : I sc) :
    ∃ sc', (run step s es).scopes[k]? = some sc' ∧ I sc' := by
  induction es generalizing s sc with
  | nil => exact ⟨sc, hk, hsc⟩
  | cons e es ih =>
    obtain ⟨sc', hk', ht⟩ := step_scopes s e hk
    exact ih (s.step e) hk' (hI e k sc sc' ht hsc)

theorem Touch.outcome {e : Event} {k : Nat} {sc sc' : TaskScope} (h : Touch e k sc sc') (hi : sc.Inv) {i : Nat} {t' : Task}
    (ht' : sc'.tasks[i]? = some t') :
    ∃ t, sc.tasks[i]? = some t ∧ (t'.outcome = t.outcome ∨ t.outcome.Moves t'.outcome) := by
  cases h with
  | same => exact ⟨t', ht', Or.inl rfl⟩
  | own _ => exact TaskScope.step_outcome hi _ ht'
  | called => exact TaskScope.step_outcome hi _ ht'
  | retired =>
    have hdisown : (sc.step .disown).tasks = sc.tasks := by
      rw [TaskScope.step]
      split <;> rfl
    refine ⟨t', ?_, Or.inl rfl⟩
    rw [← hdisown]
    exact ht'

/-- Nothing is tracked and nothing can be. -/
def Sealed (s : PluginRetirements) : Prop := s.closed = true ∧ s.entries = [] ∧ ∀ sc ∈ s.scopes, sc.Quiet

theorem Inv.seals {s : PluginRetirements} (h : s.Inv) (hd : .done ∈ s.closings) : s.Sealed := by
  obtain ⟨hc, he⟩ := h.closes _ hd
  refine ⟨hc, he, ?_⟩
  intro sc hsc
  obtain ⟨k, hk⟩ := List.mem_iff_getElem?.mp hsc
  rcases h.tracked k sc hk with ⟨x, hx, -⟩ | hq
  · rw [he] at hx
    cases hx
  · exact hq

theorem Sealed.step {s : PluginRetirements} (h : s.Inv) (hs : s.Sealed) (e : Event) : (s.step e).Sealed ∧
    ((s.step e).scopes.map fun sc => sc.tasks.map fun t => (t.life, t.runs)) =
      s.scopes.map fun sc => sc.tasks.map fun t => (t.life, t.runs) := by
  have hlen : (s.step e).scopes.length = s.scopes.length := by
    rcases step_new s e with hlen | ⟨busy, cooperative, -, hopen, -⟩
    · exact hlen
    · rw [hs.1] at hopen
      cases hopen
  have hsheds := (h.step_sheds e hlen).1
  have hback : ∀ k sc', (s.step e).scopes[k]? = some sc' → ∃ sc, s.scopes[k]? = some sc ∧ Touch e k sc sc' := by
    intro k sc' hk
    have hlt : k < s.scopes.length := hlen ▸ (List.getElem?_eq_some_iff.mp hk).1
    obtain ⟨sc'', hk', ht⟩ := step_scopes s e (List.getElem?_eq_getElem hlt)
    rw [hk] at hk'
    cases hk'
    exact ⟨_, List.getElem?_eq_getElem hlt, ht⟩
  refine ⟨⟨hsheds.closed hs.1, ?_, ?_⟩, ?_⟩
  · refine List.eq_nil_iff_forall_not_mem.mpr ?_
    intro x hx
    obtain ⟨y, hy, -⟩ := hsheds.fewer x hx
    rw [hs.2.1] at hy
    cases hy
  · intro sc' hsc'
    obtain ⟨k, hk⟩ := List.mem_iff_getElem?.mp hsc'
    obtain ⟨sc, hsc, ht⟩ := hback k sc' hk
    exact ht.quiet (hs.2.2 sc (List.mem_of_getElem? hsc))
  · refine List.ext_getElem? ?_
    intro k
    rw [List.getElem?_map, List.getElem?_map]
    cases hk : (s.step e).scopes[k]? with
    | none =>
      have hle := List.getElem?_eq_none_iff.mp hk
      rw [hlen] at hle
      rw [List.getElem?_eq_none_iff.mpr hle]
    | some sc' =>
      obtain ⟨sc, hsc, ht⟩ := hback k sc' hk
      have hstill := ht.still (h.scope hsc) (hs.2.2 sc (List.mem_of_getElem? hsc))
      rw [hsc, Option.map_some, Option.map_some, hstill]

theorem Inv.sealed_run {s : PluginRetirements} (h : s.Inv) (hs : s.Sealed) (es : List Event) :
    (run PluginRetirements.step s es).Sealed ∧
    ((run PluginRetirements.step s es).scopes.map fun sc => sc.tasks.map fun t => (t.life, t.runs)) =
      s.scopes.map fun sc => sc.tasks.map fun t => (t.life, t.runs) := by
  induction es generalizing s with
  | nil => exact ⟨hs, rfl⟩
  | cons e es ih =>
    obtain ⟨hnext, he⟩ := hs.step h e
    obtain ⟨hrun, he'⟩ := ih (h.step e) hnext
    exact ⟨hrun, he'.trans he⟩

theorem task_lifecycle (es : List Event) :
    (∀ (k : Nat) (sc : TaskScope), (run step start es).scopes[k]? = some sc → ∀ t ∈ sc.tasks, t.runs ≤ 1 ∧
      (0 < t.runs → ∃ before after, es = before ++ .scope k .activate :: after ∧
        ∃ sc₀, (run step start before).scopes[k]? = some sc₀ ∧ sc₀.owned = true ∧ sc₀.state = .pending)) ∧
    (∀ before after (k : Nat) (sc₀ sc : TaskScope), es = before ++ after →
      (run step start before).scopes[k]? = some sc₀ → sc₀.Barred →
      (run step start es).scopes[k]? = some sc → ∀ t ∈ sc.tasks, t.runs = 0) ∧
    (∀ e (k : Nat) (sc' : TaskScope) (i : Nat) (t' : Task),
      (run step start (es ++ [e])).scopes[k]? = some sc' → sc'.tasks[i]? = some t' →
      ((run step start es).scopes.length ≤ k ∧ t'.outcome = .pending) ∨ ∃ (sc : TaskScope) (t : Task), (run step start es).scopes[k]? = some sc ∧ sc.tasks[i]? = some t ∧
        (t'.outcome = t.outcome ∨ t.outcome.Moves t'.outcome)) ∧
    (∀ (k : Nat) (sc : TaskScope), (run step start es).scopes[k]? = some sc →
      (∀ t ∈ sc.tasks, t.life ≠ .unborn → t.joined = false → sc.isStopped = false) ∧
      ∀ (c : Nat) p handles, sc.calls[c]? = some p → p.handles = some handles → (sc.step (.cancel c)).calls[c]? = some .cancelled →
        (sc.step (.cancel c)).state = .stopping handles ∧ (sc.step (.cancel c)).lock = none ∧
        ∀ (i : Nat) (t : Task), (sc.step (.cancel c)).tasks[i]? = some t → t.life ≠ .unborn → t.joined = false →
          handles[i]? = some true) ∧
    (run step start es).entries.length ≤ limit ∧
    (.done ∈ (run step start es).closings → (run step start es).entries = [] ∧
      (∀ sc ∈ (run step start es).scopes, ∀ t ∈ sc.tasks, t.life = .unborn ∨ (t.life = .ended ∧ t.joined = true)) ∧
      ∀ later, (run step start (es ++ later)).entries = [] ∧
        ((run step start (es ++ later)).scopes.map fun sc => sc.tasks.map fun t => (t.life, t.runs)) =
          (run step start es).scopes.map fun sc => sc.tasks.map fun t => (t.life, t.runs)) := by
  have h := run_inv es
  refine ⟨?_, ?_, ?_, ?_, h.within, ?_⟩
  · intro k sc hk t ht
    obtain ⟨hle, hzero⟩ := Task.runs_of_ok ((h.scope hk).ok t ht)
    refine ⟨hle, ?_⟩
    intro hpos
    refine run_activated es hk ?_
    intro hu
    rw [hzero (hu.1 t ht)] at hpos
    exact absurd hpos (Nat.lt_irrefl 0)
  · intro before after k sc₀ sc he hk₀ hb hk t ht
    obtain ⟨sc', hk', hb'⟩ := run_scope (run step start before) after (fun _ _ _ _ ht hb => Touch.barred ht hb) hk₀ hb
    rw [← run_append, ← he, hk] at hk'
    cases hk'
    exact (Task.runs_of_ok ((h.scope hk).ok t ht)).2 (hb'.1 t ht)
  · intro e k sc' i t' hk ht'
    rw [run_append] at hk
    have hstep : run step (run step start es) [e] = (run step start es).step e := rfl
    rw [hstep] at hk
    by_cases hlt : k < (run step start es).scopes.length
    · obtain ⟨sc'', hk', htouch⟩ := step_scopes _ e (List.getElem?_eq_getElem hlt)
      rw [hk] at hk'
      cases hk'
      obtain ⟨t, ht, hm⟩ := htouch.outcome (h.scope (List.getElem?_eq_getElem hlt)) ht'
      exact Or.inr ⟨_, t, List.getElem?_eq_getElem hlt, ht, hm⟩
    · refine Or.inl ⟨Nat.le_of_not_lt hlt, ?_⟩
      rcases step_new (run step start es) e with hlen | ⟨busy, cooperative, hnew, -⟩
      · have hlt' := (List.getElem?_eq_some_iff.mp hk).1
        rw [hlen] at hlt'
        exact absurd hlt' hlt
      · rw [hnew, List.getElem?_append_right (Nat.le_of_not_lt hlt)] at hk
        obtain rfl := List.mem_singleton.mp (List.mem_of_getElem? hk)
        obtain ⟨b, -, rfl⟩ := List.mem_map.mp (List.mem_of_getElem? ht')
        rfl
  · intro k sc hk
    have hsc := h.scope hk
    refine ⟨?_, fun c p handles hc hp he => hsc.cancelled_keeps hc hp he⟩
    intro t ht hl hj
    by_contra hs
    rw [Bool.not_eq_false] at hs
    rcases hsc.joined_of_quiet (hsc.quiet_of_stopped hs) ht with hu | ⟨-, hjoined⟩
    · exact hl hu
    · rw [hj] at hjoined
      cases hjoined
  · intro hd
    have hsealed := h.seals hd
    refine ⟨hsealed.2.1, ?_, ?_⟩
    · intro sc hsc t ht
      exact (h.scopes sc hsc).joined_of_quiet (hsealed.2.2 sc hsc) ht
    · intro later
      obtain ⟨hlater, he⟩ := h.sealed_run hsealed later
      rw [run_append]
      exact ⟨hlater.2.1, he⟩

/-- A task that runs through its shutdown and is joined by the registry's. -/
example :
    let joining := List.replicate 4 (Event.scope 0 (.advance 0))
    let s := run step start ([Event.managed [] [true], .scope 0 .activate, .scope 0 .spawn, .scope 0 .spawn,
      .scope 0 (.poll 0), .shutdown, .advance 0] ++ joining ++ [Event.scope 0 (.finish 0 .ok), .scope 0 (.leave 0)] ++
      joining ++ [Event.advance 0, .advance 0])
    s.closings = [.done] ∧
      (s.scopes.map fun sc => sc.tasks.map fun t => (t.outcome, t.runs, t.joined)) = [[(.completed, 1, true)]] := by
  decide

end PluginRetirements

end Gatel.Http
