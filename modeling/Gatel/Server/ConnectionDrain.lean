import Gatel.Lib.KeyedMap
import Gatel.Lib.Run

namespace Gatel.ConnectionDrain
open KeyedMap (Map lookup_refine)
open Run (run run_append run_cons)

/-! Retiring the connections that an older generation has pinned. -/

/-- A connection keeps its generation's signal alive; the registry only knows it weakly. -/
structure Connection where
  generation : Nat
  signal : Nat
  live : Bool
  deriving DecidableEq

/-- `Retirements`, with the publications and connections around it. -/
structure Retirements where
  /-- The store's current generation; nothing is published at zero. -/
  current : Nat
  /-- The channels, by address, and the deadline each one holds. -/
  signals : List (Option Nat)
  entries : Map Nat Nat
  /-- A `pin` has the lock and has read this generation. -/
  pinning : Option Nat
  connections : List Connection

namespace Retirements

def start : Retirements := ⟨0, [], ∅, none, []⟩

/-- `strong_count() > 0`. -/
def held (s : Retirements) (signal : Nat) : Bool := s.connections.any fun c => c.live && c.signal == signal

/-- The entries whose signal is still held. -/
def retained (s : Retirements) : Map Nat Nat :=
  KeyedMap.refine (fun _ signal => if s.held signal then some signal else none) s.entries

/-- The rest of `pin`: join the generation's signal, or make one. -/
@[grind =] def register (s : Retirements) (generation : Nat) : Retirements :=
  match s.retained.lookup generation with
  | some signal => { s with
      entries := s.retained
      pinning := none
      connections := s.connections ++ [⟨generation, signal, true⟩] }
  | none => { s with
      signals := s.signals ++ [none]
      entries := s.retained.insert generation s.signals.length
      pinning := none
      connections := s.connections ++ [⟨generation, s.signals.length, true⟩] }

/-- `send_if_modified` in `retire_before`: the first deadline stays. The clock is read once for
each entry. -/
def announced (entries : Map Nat Nat) (h grace : Nat) (now : Nat → Nat) (signal : Nat) (value : Option Nat) : Option Nat :=
  match entries.entries.find? fun e => e.2 == signal with
  | some e => if e.1 < h then some (value.getD (now e.1 + grace)) else value
  | none => value

/-- Nobody has the lock, and the generation is one that was published. -/
def Open (s : Retirements) (h : Nat) : Prop := s.pinning = none ∧ 0 < h ∧ h ≤ s.current

instance (s : Retirements) (h : Nat) : Decidable (s.Open h) := inferInstanceAs (Decidable (_ ∧ _ ∧ _))

def retireBefore (s : Retirements) (h : Nat) (grace : Option Nat) (now : Nat → Nat) : Retirements :=
  { s with
    entries := s.retained
    signals := match grace with
      | none => s.signals
      | some grace => s.signals.mapIdx (announced s.retained h grace now) }

inductive Event where
  | publish
  /-- `pin` takes the lock and reads the store. -/
  | pin
  /-- It registers and gives the lock back. -/
  | pinned
  | retireBefore (h : Nat) (grace : Option Nat) (now : Nat → Nat)
  | finish (connection : Nat)

/-- What cannot happen in a state leaves it as it is. -/
@[grind =] def step (s : Retirements) : Event → Retirements
  | .publish => { s with current := s.current + 1 }
  | .pin => if s.pinning = none ∧ s.current ≠ 0 then { s with pinning := some s.current } else s
  | .pinned => match s.pinning with
    | some generation => s.register generation
    | none => s
  | .retireBefore h grace now => if s.Open h then s.retireBefore h grace now else s
  | .finish i => { s with connections := s.connections.modify i fun c => { c with live := false } }

/-- The deadline a connection is under. -/
def deadline (s : Retirements) (i : Nat) : Option Nat :=
  s.connections[i]?.bind fun c => s.signals[c.signal]?.join

/-- The deadline that an event gives the connections of a generation. -/
@[grind =] def given (s : Retirements) (generation : Nat) : Event → Option Nat
  | .retireBefore h (some grace) now => if s.Open h ∧ generation < h then some (now generation + grace) else none
  | _ => none

/-- The first one along a run. -/
@[grind =] def firstGiven (generation : Nat) : Retirements → List Event → Option Nat
  | _, [] => none
  | s, e :: es => (s.given generation e).or (firstGiven generation (s.step e) es)

/-- A live connection's signal is the one under its generation, and no signal has two
generations; one that may still be joined has no deadline. -/
structure Inv (s : Retirements) : Prop where
  shared : ∀ c ∈ s.connections, c.live = true → s.entries.lookup c.generation = some c.signal
  single : ∀ g g' p, s.entries.lookup g = some p → s.entries.lookup g' = some p → g = g'
  made : ∀ g p, s.entries.lookup g = some p → p < s.signals.length ∧ g ≤ s.current
  quiet : ∀ g p, s.entries.lookup g = some p → g = s.current ∨ s.pinning = some g → s.signals[p]? = some none
  reading : ∀ g, s.pinning = some g → g ≤ s.current

theorem inv_start : start.Inv where
  shared _ hc := by cases hc
  single _ _ _ h := by cases h
  made _ _ h := by cases h
  quiet _ _ h := by cases h
  reading _ h := by cases h

theorem retained_lookup {s : Retirements} {g p : Nat} :
    s.retained.lookup g = some p ↔ s.entries.lookup g = some p ∧ s.held p = true := by
  rw [retained, lookup_refine, Option.bind_eq_some_iff]
  constructor
  · rintro ⟨q, hq, hp⟩
    split at hp
    · cases hp
      exact ⟨hq, by assumption⟩
    · cases hp
  · rintro ⟨hp, hh⟩
    exact ⟨p, hp, if_pos hh⟩

theorem held_of_live {s : Retirements} {c : Connection} (hc : c ∈ s.connections) (hl : c.live = true) :
    s.held c.signal = true :=
  List.any_eq_true.mpr ⟨c, hc, by simp [hl]⟩

/-- A live connection's entry survives the pruning. -/
theorem Inv.retained {s : Retirements} (h : s.Inv) {c : Connection} (hc : c ∈ s.connections) (hl : c.live = true) :
    s.retained.lookup c.generation = some c.signal :=
  retained_lookup.2 ⟨h.shared c hc hl, held_of_live hc hl⟩

theorem Inv.register {s : Retirements} (h : s.Inv) {g : Nat} (hp : s.pinning = some g) : (s.register g).Inv := by
  unfold Retirements.register
  split
  · rename_i signal hs
    refine ⟨?_, ?_, ?_, ?_, fun _ h => (by cases h)⟩
    · intro c hc hl
      rcases List.mem_append.mp hc with hc | hc
      · exact h.retained hc hl
      · obtain rfl := List.mem_singleton.mp hc
        exact hs
    · intro g₁ g₂ p h₁ h₂
      exact h.single g₁ g₂ p (retained_lookup.1 h₁).1 (retained_lookup.1 h₂).1
    · intro g₁ p h₁
      exact h.made g₁ p (retained_lookup.1 h₁).1
    · intro g₁ p h₁ hg
      rcases hg with hg | hg
      · exact h.quiet g₁ p (retained_lookup.1 h₁).1 (Or.inl hg)
      · cases hg
  · rename_i hs
    have hfresh : ∀ g₁ p, s.retained.lookup g₁ = some p → p < s.signals.length ∧ g₁ ≤ s.current :=
      fun g₁ p h₁ => h.made g₁ p (retained_lookup.1 h₁).1
    refine ⟨?_, ?_, ?_, ?_, fun _ h => (by cases h)⟩
    · intro c hc hl
      rcases List.mem_append.mp hc with hc | hc
      · have hold := h.retained hc hl
        have hne : c.generation ≠ g := by
          intro he
          rw [he, hs] at hold
          cases hold
        rw [AList.lookup_insert_ne hne]
        exact hold
      · obtain rfl := List.mem_singleton.mp hc
        exact AList.lookup_insert _
    · intro g₁ g₂ p h₁ h₂
      by_cases e₁ : g₁ = g <;> by_cases e₂ : g₂ = g
      · rw [e₁, e₂]
      · subst e₁
        rw [AList.lookup_insert] at h₁
        rw [AList.lookup_insert_ne e₂] at h₂
        cases h₁
        exact absurd (hfresh g₂ _ h₂).1 (lt_irrefl _)
      · subst e₂
        rw [AList.lookup_insert] at h₂
        rw [AList.lookup_insert_ne e₁] at h₁
        cases h₂
        exact absurd (hfresh g₁ _ h₁).1 (lt_irrefl _)
      · rw [AList.lookup_insert_ne e₁] at h₁
        rw [AList.lookup_insert_ne e₂] at h₂
        exact h.single g₁ g₂ p (retained_lookup.1 h₁).1 (retained_lookup.1 h₂).1
    · intro g₁ p h₁
      simp only [List.length_append, List.length_singleton]
      by_cases e₁ : g₁ = g
      · subst e₁
        rw [AList.lookup_insert] at h₁
        cases h₁
        exact ⟨Nat.lt_succ_self _, h.reading _ hp⟩
      · rw [AList.lookup_insert_ne e₁] at h₁
        exact ⟨Nat.lt_succ_of_lt (hfresh g₁ p h₁).1, (hfresh g₁ p h₁).2⟩
    · intro g₁ p h₁ hg
      by_cases e₁ : g₁ = g
      · subst e₁
        rw [AList.lookup_insert] at h₁
        cases h₁
        simp
      · rw [AList.lookup_insert_ne e₁] at h₁
        rw [List.getElem?_append_left (hfresh g₁ p h₁).1]
        rcases hg with hg | hg
        · exact h.quiet g₁ p (retained_lookup.1 h₁).1 (Or.inl hg)
        · cases hg

/-- The entry of a generation is the only one with its signal. -/
theorem announced_of_lookup {entries : Map Nat Nat} {g p : Nat} (hp : entries.lookup g = some p)
    (hs : ∀ g', entries.lookup g' = some p → g' = g) (h grace : Nat) (now : Nat → Nat) (value : Option Nat) :
    announced entries h grace now p value = if g < h then some (value.getD (now g + grace)) else value := by
  unfold announced
  split
  · rename_i e hfind
    have hmem := List.mem_of_find?_eq_some hfind
    have hvalue : e.2 = p := by simpa using List.find?_some hfind
    have hkey : e.1 = g := by
      apply hs
      rw [← hvalue]
      exact AList.mem_lookup_iff.mpr hmem
    rw [hkey]
  · rename_i hnone
    have hno := List.find?_eq_none.mp hnone ⟨g, p⟩ (AList.mem_lookup_iff.mp hp)
    simp at hno

/-- The value of a generation's signal after `retire_before`. -/
theorem retireBefore_signal {s : Retirements} (h : s.Inv) {g p : Nat} (hp : s.retained.lookup g = some p) (n : Nat)
    (grace : Nat) (now : Nat → Nat) :
    (s.retireBefore n (some grace) now).signals[p]? =
      s.signals[p]?.map fun value => if g < n then some (value.getD (now g + grace)) else value := by
  have hs : ∀ g', s.retained.lookup g' = some p → g' = g := fun g' h' =>
    h.single g' g p (retained_lookup.1 h').1 (retained_lookup.1 hp).1
  rw [retireBefore, List.getElem?_mapIdx, funext fun value => announced_of_lookup hp hs n grace now value]

theorem Inv.retireBefore {s : Retirements} (h : s.Inv) {n : Nat} (ho : s.Open n) (grace : Option Nat) (now : Nat → Nat) :
    (s.retireBefore n grace now).Inv := by
  have hlength : (s.retireBefore n grace now).signals.length = s.signals.length := by
    cases grace <;> simp [Retirements.retireBefore]
  refine ⟨?_, ?_, ?_, ?_, ?_⟩
  · intro c hc hl
    exact h.retained hc hl
  · intro g₁ g₂ p h₁ h₂
    exact h.single g₁ g₂ p (retained_lookup.1 h₁).1 (retained_lookup.1 h₂).1
  · intro g p hp
    rw [hlength]
    exact h.made g p (retained_lookup.1 hp).1
  · intro g p hp hg
    have hcurrent : g = s.current := by
      rcases hg with hg | hg
      · exact hg
      · have hno : s.pinning = some g := hg
        rw [ho.1] at hno
        cases hno
    have hold := h.quiet g p (retained_lookup.1 hp).1 (Or.inl hcurrent)
    cases grace with
    | none => exact hold
    | some grace =>
      rw [retireBefore_signal h hp, hold, Option.map_some, if_neg (by rw [hcurrent]; exact Nat.not_lt.mpr ho.2.2)]
  · exact h.reading

theorem Inv.step {s : Retirements} (h : s.Inv) (e : Event) : (s.step e).Inv := by
  cases e with
  | publish =>
    refine ⟨h.shared, h.single, ?_, ?_, ?_⟩
    · intro g p hp
      exact ⟨(h.made g p hp).1, Nat.le_succ_of_le (h.made g p hp).2⟩
    · intro g p hp hg
      rcases hg with hg | hg
      · have hle := (h.made g p hp).2
        change g = s.current + 1 at hg
        omega
      · exact h.quiet g p hp (Or.inr hg)
    · intro g hg
      exact Nat.le_succ_of_le (h.reading g hg)
  | pin =>
    simp only [Retirements.step]
    split
    · refine ⟨h.shared, h.single, h.made, ?_, ?_⟩
      · intro g p hp hg
        rcases hg with hg | hg
        · exact h.quiet g p hp (Or.inl hg)
        · cases hg
          exact h.quiet _ p hp (Or.inl rfl)
      · intro g hg
        cases hg
        exact le_refl _
    · exact h
  | pinned =>
    simp only [Retirements.step]
    split
    · rename_i g hg
      exact h.register hg
    · exact h
  | retireBefore n grace now =>
    simp only [Retirements.step]
    split
    · rename_i ho
      exact h.retireBefore ho grace now
    · exact h
  | finish i =>
    refine ⟨?_, h.single, h.made, h.quiet, h.reading⟩
    intro c hc hl
    obtain ⟨j, hj⟩ := List.mem_iff_getElem?.mp hc
    rw [Retirements.step, List.getElem?_modify] at hj
    obtain ⟨d, hd, he⟩ := Option.map_eq_some_iff.mp hj
    have hmem := List.mem_of_getElem? hd
    by_cases hi : i = j
    · rw [if_pos hi] at he
      rw [← he] at hl
      cases hl
    · rw [if_neg hi] at he
      have he : d = c := he
      rw [← he] at hl ⊢
      exact h.shared d hmem hl

theorem run_inv (es : List Event) : (run step start es).Inv := Run.invariant (fun _ e h => h.step e) inv_start es

/-- What one event does to a live connection that it does not end. -/
theorem step_deadline {s : Retirements} (h : s.Inv) {i : Nat} {c : Connection} (hc : s.connections[i]? = some c)
    (hl : c.live = true) {e : Event} (he : e ≠ .finish i) :
    (s.step e).connections[i]? = some c ∧ (s.step e).deadline i = (s.deadline i).or (s.given c.generation e) := by
  have hlt : i < s.connections.length := (List.getElem?_eq_some_iff.mp hc).1
  have hmem := List.mem_of_getElem? hc
  have hsame {t : Retirements} (ht : t.connections[i]? = some c) (hsig : t.signals[c.signal]? = s.signals[c.signal]?) :
      t.deadline i = s.deadline i := by
    rw [deadline, deadline, ht, hc, Option.bind_some, Option.bind_some, hsig]
  have hkeeps {t : Retirements} (ht : t.connections[i]? = some c) (hsig : t.signals[c.signal]? = s.signals[c.signal]?)
      (hno : s.given c.generation e = none) :
      t.connections[i]? = some c ∧ t.deadline i = (s.deadline i).or (s.given c.generation e) := by
    refine ⟨ht, ?_⟩
    rw [hno, Option.or_none]
    exact hsame ht hsig
  cases e with
  | publish => exact hkeeps hc rfl rfl
  | pin =>
    simp only [step]
    split
    · exact hkeeps hc rfl rfl
    · exact hkeeps hc rfl rfl
  | pinned =>
    simp only [step]
    split
    · rename_i g hg
      have hp := (h.made _ _ (h.shared c hmem hl)).1
      unfold register
      split
      · refine hkeeps ?_ rfl rfl
        rw [List.getElem?_append_left hlt]
        exact hc
      · refine hkeeps ?_ (List.getElem?_append_left hp) rfl
        rw [List.getElem?_append_left hlt]
        exact hc
    · exact hkeeps hc rfl rfl
  | retireBefore n grace now =>
    simp only [step]
    split
    · rename_i ho
      cases grace with
      | none => exact hkeeps hc rfl rfl
      | some grace =>
        have hvalue := retireBefore_signal h (h.retained hmem hl) n grace now
        have hmade : c.signal < s.signals.length := (h.made _ _ (h.shared c hmem hl)).1
        obtain ⟨value, hv⟩ : ∃ value, s.signals[c.signal]? = some value := ⟨_, List.getElem?_eq_getElem hmade⟩
        refine ⟨hc, ?_⟩
        have hthere : (s.retireBefore n (some grace) now).connections[i]? = some c := hc
        rw [deadline, deadline, hthere, hc, Option.bind_some, Option.bind_some, hvalue, hv, given]
        by_cases hn : c.generation < n
        · rw [if_pos ⟨ho, hn⟩]
          cases value <;> simp [hn]
        · rw [if_neg fun hboth => hn hboth.2]
          simp [hn]
    · rename_i ho
      refine hkeeps hc rfl ?_
      cases grace with
      | none => rfl
      | some grace => exact if_neg fun hn => ho hn.1
  | finish j =>
    refine hkeeps ?_ rfl rfl
    have hne : j ≠ i := fun hj => he (by rw [hj])
    rw [step, List.getElem?_modify, hc]
    exact congrArg some (if_neg hne)

/-- A live connection's deadline along a run: the one it has, or else the first one given. -/
theorem run_deadline {s : Retirements} (h : s.Inv) {i : Nat} {c : Connection} (hc : s.connections[i]? = some c)
    (hl : c.live = true) {es : List Event} (he : .finish i ∉ es) :
    (run step s es).connections[i]? = some c ∧
      (run step s es).deadline i = (s.deadline i).or (firstGiven c.generation s es) := by
  induction es generalizing s with
  | nil => exact ⟨hc, (Option.or_none).symm⟩
  | cons e es ih =>
    rw [List.mem_cons, not_or] at he
    obtain ⟨hthere, hdeadline⟩ := step_deadline h hc hl (Ne.symm he.1)
    obtain ⟨hlast, hrun⟩ := ih (h.step e) hthere he.2
    refine ⟨hlast, ?_⟩
    rw [run_cons, hrun, hdeadline, firstGiven, Option.or_assoc]

/-- A deadline that is given comes from an announcement for a later generation. -/
theorem firstGiven_some {g : Nat} {s : Retirements} {es : List Event} {d : Nat} (h : firstGiven g s es = some d) :
    ∃ before n grace now after, es = before ++ .retireBefore n (some grace) now :: after ∧ g < n ∧
      (run step s before).Open n ∧ d = now g + grace := by
  induction es generalizing s with
  | nil => cases h
  | cons e es ih =>
    rw [firstGiven] at h
    rcases Option.or_eq_some_iff.mp h with hg | ⟨-, hrest⟩
    · cases e with
      | retireBefore n grace now =>
        cases grace with
        | none => cases hg
        | some grace =>
          simp only [given] at hg
          split at hg
          · rename_i ho
            cases hg
            exact ⟨[], n, grace, now, es, rfl, ho.2, ho.1, rfl⟩
          · cases hg
      | publish => cases hg
      | pin => cases hg
      | pinned => cases hg
      | finish j => cases hg
    · obtain ⟨before, n, grace, now, after, rfl, hn, ho, hd⟩ := ih hrest
      exact ⟨e :: before, n, grace, now, after, rfl, hn, ho, hd⟩

/-- No older generation is read any more. -/
def Beyond (n : Nat) (s : Retirements) : Prop := n ≤ s.current ∧ ∀ g ∈ s.pinning, n ≤ g

theorem Beyond.step {n : Nat} {s : Retirements} (h : Beyond n s) (e : Event) : Beyond n (s.step e) := by
  cases e with
  | publish => exact ⟨Nat.le_succ_of_le h.1, h.2⟩
  | pin =>
    simp only [Retirements.step]
    split
    · refine ⟨h.1, ?_⟩
      intro g hg
      cases hg
      exact h.1
    · exact h
  | pinned =>
    simp only [Retirements.step]
    split
    · unfold register
      split
      · exact ⟨h.1, fun _ hg => (by cases hg)⟩
      · exact ⟨h.1, fun _ hg => (by cases hg)⟩
    · exact h
  | retireBefore m grace now =>
    simp only [Retirements.step]
    split
    · exact h
    · exact h
  | finish i => exact h

/-- The connection a `pin` makes. -/
theorem register_connection {s : Retirements} (h : s.Inv) {g : Nat} (hp : s.pinning = some g) :
    ∃ signal, (s.register g).connections = s.connections ++ [⟨g, signal, true⟩] ∧
      (s.register g).signals[signal]? = some none := by
  unfold register
  split
  · rename_i signal hs
    exact ⟨signal, rfl, h.quiet g signal (retained_lookup.1 hs).1 (Or.inr hp)⟩
  · exact ⟨s.signals.length, rfl, by simp⟩

/-- A pinned connection has no deadline until the first announcement for a later generation,
then that one's for as long as it lives; and no announcement made before the pin was for a
generation later than the pinned one. -/
theorem first_deadline_kept {before after : List Event} {g : Nat} (hp : (run step start before).pinning = some g)
    (ha : .finish (run step start before).connections.length ∉ after) :
    let i := (run step start before).connections.length
    let s := run step start (before ++ [.pinned])
    (∃ signal, (run step s after).connections[i]? = some ⟨g, signal, true⟩) ∧
    s.deadline i = none ∧
    (run step s after).deadline i = firstGiven g s after ∧
    (∀ d more, (run step s after).deadline i = some d → .finish i ∉ more → (run step s (after ++ more)).deadline i = some d) ∧
    (∀ d, (run step s after).deadline i = some d → ∃ a n grace now b, after = a ++ .retireBefore n (some grace) now :: b ∧
      g < n ∧ (run step s a).Open n ∧ d = now g + grace) ∧
    ∀ a n grace now b, before = a ++ .retireBefore n grace now :: b → (run step start a).Open n → n ≤ g := by
  have hinv := run_inv before
  intro i s
  have hs : s = (run step start before).register g := by
    change run step start (before ++ [.pinned]) = _
    rw [run_append, run_cons, Run.run_nil, step, hp]
  obtain ⟨signal, hconnections, hsignal⟩ := register_connection hinv hp
  have hthere : s.connections[i]? = some ⟨g, signal, true⟩ := by
    rw [hs, hconnections]
    exact List.getElem?_concat_length
  have hnone : s.deadline i = none := by
    rw [deadline, hthere, Option.bind_some, hs, hsignal]
    rfl
  have hsinv : s.Inv := run_inv _
  obtain ⟨hlast, hrun⟩ := run_deadline hsinv hthere rfl ha
  rw [hnone, Option.none_or] at hrun
  refine ⟨⟨signal, hlast⟩, hnone, hrun, ?_, ?_, ?_⟩
  · intro d more hd hmore
    have hmid : (run step s after).Inv := Run.invariant (fun _ e h => h.step e) hsinv after
    rw [run_append, (run_deadline hmid hlast rfl hmore).2, hd, Option.some_or]
  · intro d hd
    rw [hrun] at hd
    exact firstGiven_some hd
  · intro a n grace now b hb ho
    have hbeyond : Beyond n ((run step start a).step (.retireBefore n grace now)) := by
      apply Beyond.step
      exact ⟨ho.2.2, fun _ hg => by rw [ho.1] at hg; cases hg⟩
    have hend := Run.invariant (I := Beyond n) (fun _ e h => h.step e) hbeyond b
    rw [← run_cons, ← run_append, ← hb] at hend
    exact hend.2 g hp

/-- A later announcement with a shorter grace changes nothing. -/
theorem first_deadline_kept_twice :
    (run step start [.publish, .pin]).pinning = some 1 ∧
    (run step start [.publish, .pin, .pinned, .publish, .retireBefore 2 (some 5) fun _ => 10,
      .retireBefore 2 (some 1) fun _ => 11]).deadline 0 = some 15 := by
  refine ⟨rfl, ?_⟩
  have h := @first_deadline_kept [.publish, .pin]
    [.publish, .retireBefore 2 (some 5) fun _ => 10, .retireBefore 2 (some 1) fun _ => 11] 1 rfl (by simp)
  exact h.2.2.1

end Retirements

end Gatel.ConnectionDrain
