import Gatel.Server.Bind

namespace Gatel.Http
open KeyedMap (Map lookup_retain)
open Run (run run_append run_cons run_nil)

/-! `Server::sync` beside publications: which accept loops run, and on which sockets. -/

/-- A committed generation, with the sockets it publishes. -/
structure Generation where
  number : Nat
  sockets : Map SocketAddr Nat

inductive Phase where
  /-- For the lock on the accept loops. -/
  | waiting
  | starting (rest : List SocketAddr)
  | stopping (rest : List SocketAddr)
  /-- The lock is given back; the table is still to be pruned. -/
  | retaining
  | done
  deriving DecidableEq

/-- A call of `sync`, with the generation it read first. -/
structure Sync where
  generation : Generation
  phase : Phase

structure Server where
  table : BindTable
  current : Option Generation
  /-- The accept loops and the listeners they run on. -/
  tasks : Map SocketAddr Nat
  /-- The call that holds the lock on them. -/
  lock : Option Nat
  syncs : List Sync

namespace Server

def start : Server := ⟨.start, none, ∅, none, []⟩

def setPhase (s : Server) (i : Nat) (y : Sync) (phase : Phase) : Server :=
  { s with syncs := s.syncs.set i { y with phase := phase } }

/-- An address without an accept loop gets one if the table has its socket. -/
def startLoop (s : Server) (a : SocketAddr) : Server :=
  match s.table.sockets.lookup a with
  | some p => { s with table := s.table.step (.get a), tasks := s.tasks.insert a p }
  | none => s

/-- One turn of `sync`, between two points where others may run. -/
def advance (s : Server) (i : Nat) (y : Sync) : Server :=
  match y.phase with
  | .waiting => if s.lock = none then { s with lock := some i }.setPhase i y (.starting y.generation.sockets.keys) else s
  | .starting [] => s.setPhase i y (.stopping (s.tasks.keys.filter fun a => (y.generation.sockets.lookup a).isNone))
  | .starting (a :: rest) =>
    if (s.tasks.lookup a).isSome then s.setPhase i y (.starting rest)
    else if s.table.begun = none then (s.startLoop a).setPhase i y (.starting rest)
    else s
  | .stopping [] => { s with lock := none }.setPhase i y .retaining
  | .stopping (a :: rest) => { s with tasks := s.tasks.erase a }.setPhase i y (.stopping rest)
  | .retaining =>
    if s.table.begun = none then { s with table := s.table.step (.retain y.generation.sockets.keys) }.setPhase i y .done
    else s
  | .done => s

inductive Event where
  | stage (wanted : List SocketAddr)
  | drop (c : Nat)
  /-- The candidate becomes current, with the lock on the table taken; then its sockets go in;
  then the replaced ones go. -/
  | commit (c : Nat)
  | install
  | finish (c : Nat)
  /-- A stopped accept loop, or another holder, lets go of a listener. -/
  | release (p : Nat)
  | sync
  | advance (i : Nat)

/-- The number of the next generation. -/
def next (s : Server) : Nat := (s.current.map fun g => g.number + 1).getD 1

def commit (s : Server) (c : Nat) : Server :=
  match s.table.candidates[c]? with
  | some ⟨some m, _⟩ =>
    if s.table.begun = none then { s with table := s.table.step (.begin c), current := some ⟨s.next, m⟩ } else s
  | _ => s

@[grind =] def step (s : Server) : Event → Server
  | .stage wanted => { s with table := s.table.step (.stage wanted) }
  | .drop c => { s with table := s.table.step (.drop c) }
  | .commit c => s.commit c
  | .install => { s with table := s.table.step .publish }
  | .finish c => { s with table := s.table.step (.finish c) }
  | .release p => if (s.tasks.entries.any fun e => e.2 == p) && s.table.handles.count p ≤ 1 then s
      else { s with table := s.table.step (.release p) }
  | .sync => match s.current with
    | some g => { s with syncs := s.syncs ++ [⟨g, .waiting⟩] }
    | none => s
  | .advance i => match s.syncs[i]? with
    | some y => s.advance i y
    | none => s

/-- A generation committed while a `sync` is under way wants no address beyond those of the
generation that `sync` has read. -/
def Meets (s : Server) : Event → Prop
  | .commit c => ∀ m r, s.table.candidates[c]? = some ⟨some m, r⟩ → ∀ y ∈ s.syncs, y.phase ≠ .done →
      ∀ a, (m.lookup a).isSome → (y.generation.sockets.lookup a).isSome
  | _ => True

/-- The accept loops are those of a generation. -/
def Settled (tasks : Map SocketAddr Nat) (g : Generation) : Prop :=
  ∀ a, (tasks.lookup a).isSome ↔ (g.sockets.lookup a).isSome

/-- How far a call has brought the loops to the generation it read, as long as that is current. -/
def Reached (tasks : Map SocketAddr Nat) (g : Generation) : Phase → Prop
  | .waiting => True
  | .starting rest => ∀ a, (g.sockets.lookup a).isSome → a ∈ rest ∨ (tasks.lookup a).isSome
  | .stopping rest => ∀ a, ((g.sockets.lookup a).isSome → (tasks.lookup a).isSome) ∧
      ((tasks.lookup a).isSome → (g.sockets.lookup a).isSome ∨ a ∈ rest)
  | .retaining | .done => Settled tasks g

/-- Whether a call holds the lock on the loops. -/
def Locks : Phase → Prop
  | .starting _ | .stopping _ => True
  | .waiting | .retaining | .done => False

structure Inv (s : Server) : Prop where
  table : s.table.Inv
  loops : ∀ a p, s.tasks.lookup a = some p → p ∈ s.table.handles ∧ s.table.listeners[p]? = some a
  installed : ∀ g, s.current = some g → s.table.begun = none → ∀ a, s.table.sockets.lookup a = g.sockets.lookup a
  installing : ∀ c, s.table.begun = some c → ∃ g r, s.current = some g ∧ s.table.candidates[c]? = some ⟨some g.sockets, r⟩
  covers : ∀ y ∈ s.syncs, y.phase ≠ .done → ∀ g, s.current = some g →
    ∀ a, (g.sockets.lookup a).isSome → (y.generation.sockets.lookup a).isSome
  obsolete : ∀ y ∈ s.syncs, ∀ rest, y.phase = .stopping rest → ∀ a ∈ rest, y.generation.sockets.lookup a = none
  locked : ∀ i y, s.syncs[i]? = some y → Locks y.phase → s.lock = some i
  known : ∀ y ∈ s.syncs, ∃ g, s.current = some g ∧ y.generation.number ≤ g.number ∧
    (y.generation.number = g.number → y.generation = g)
  reached : ∀ y ∈ s.syncs, ∀ g, s.current = some g → y.generation.number = g.number →
    Reached s.tasks g y.phase

theorem inv_start : start.Inv where
  table := BindTable.inv_start
  loops _ _ h := by cases h
  installed _ h := by cases h
  installing _ h := by cases h
  covers _ h := by cases h
  obsolete _ h := by cases h
  locked _ _ h := by cases h
  known _ h := by cases h
  reached _ h := by cases h

/-- A change of the table alone. -/
theorem Inv.ofTable {s : Server} (h : s.Inv) {t : BindTable} (ht : t.Inv) (hgrow : s.table.listeners <+: t.listeners)
    (hh : ∀ a p, s.tasks.lookup a = some p → p ∈ t.handles)
    (hinstalled : ∀ g, s.current = some g → t.begun = none → ∀ a, t.sockets.lookup a = g.sockets.lookup a)
    (hinstalling : ∀ c, t.begun = some c → ∃ g r, s.current = some g ∧ t.candidates[c]? = some ⟨some g.sockets, r⟩) :
    Inv { s with table := t } := by
  refine ⟨ht, ?_, hinstalled, hinstalling, h.covers, h.obsolete, h.locked, h.known, h.reached⟩
  intro a p hp
  exact ⟨hh a p hp, BindTable.getElem?_of_grows hgrow (h.loops a p hp).2⟩

/-- A candidate in the making of its publication keeps its sockets. -/
theorem installing_modify {t : BindTable} {c d : Nat} {f : Candidate → Candidate} {m : Map SocketAddr Nat}
    (hf : ∀ x, d = c → (f x).pending = x.pending) (hc : ∃ r, t.candidates[c]? = some ⟨some m, r⟩) :
    ∃ r, (t.candidates.modify d f)[c]? = some ⟨some m, r⟩ := by
  obtain ⟨r, hc⟩ := hc
  rw [List.getElem?_modify, hc]
  by_cases hd : d = c
  · refine ⟨(f ⟨some m, r⟩).retired, ?_⟩
    have hp := hf ⟨some m, r⟩ hd
    simp only [hd, if_true, Option.map_some, Option.map_eq_map]
    generalize f ⟨some m, r⟩ = x at hp
    cases x
    cases hp
    rfl
  · exact ⟨r, congrArg some (if_neg hd)⟩

theorem Inv.stage {s : Server} (h : s.Inv) (wanted : List SocketAddr) :
    Inv { s with table := s.table.step (.stage wanted) } := by
  refine h.ofTable (h.table.step _) (BindTable.step_grows h.table _) ?_ ?_ ?_
  · intro a p hp
    have hmem := (h.loops a p hp).1
    simp only [BindTable.step]
    split
    · unfold BindTable.stage
      simp only
      split <;> exact hmem
    · exact hmem
  · intro g hg hb
    simp only [BindTable.step] at hb ⊢
    split at hb
    · rename_i hnone
      rw [if_pos hnone]
      unfold BindTable.stage
      simp only
      split <;> exact h.installed g hg hnone
    · rename_i hsome
      exact absurd hb hsome
  · intro c hb
    simp only [BindTable.step] at hb ⊢
    split at hb
    · rename_i hnone
      unfold BindTable.stage at hb
      simp only at hb
      split at hb <;> exact absurd (hnone.symm.trans hb) (by simp)
    · rename_i hsome
      rw [if_neg hsome]
      exact h.installing c hb

theorem Inv.drop {s : Server} (h : s.Inv) (c : Nat) : Inv { s with table := s.table.step (.drop c) } := by
  by_cases hc : s.table.begun = some c
  · have hsame : s.table.step (.drop c) = s.table := by rw [BindTable.step, if_pos hc]
    rw [hsame]
    exact h
  · have hstep : s.table.step (.drop c) = { s.table with candidates := s.table.candidates.modify c fun _ => ⟨none, none⟩ } := by
      rw [BindTable.step, if_neg hc]
    refine h.ofTable (h.table.step _) (BindTable.step_grows h.table _) ?_ ?_ ?_ <;> rw [hstep]
    · exact fun a p hp => (h.loops a p hp).1
    · exact h.installed
    · intro d hd
      obtain ⟨g, r, hg, hr⟩ := h.installing d hd
      have hne : c ≠ d := by
        rintro rfl
        exact hc hd
      obtain ⟨r, hr⟩ := installing_modify (f := fun _ => ⟨none, none⟩) (fun _ he => absurd he hne) ⟨r, hr⟩
      exact ⟨g, r, hg, hr⟩

theorem Inv.finish {s : Server} (h : s.Inv) (c : Nat) : Inv { s with table := s.table.step (.finish c) } := by
  refine h.ofTable (h.table.step _) (BindTable.step_grows h.table _) ?_ ?_ ?_
  · exact fun a p hp => (h.loops a p hp).1
  · exact h.installed
  · intro d hd
    obtain ⟨g, r, hg, hr⟩ := h.installing d hd
    obtain ⟨r, hr⟩ := installing_modify (d := c) (f := fun x => { x with retired := none }) (fun _ _ => rfl) ⟨r, hr⟩
    exact ⟨g, r, hg, hr⟩

theorem Inv.install {s : Server} (h : s.Inv) : Inv { s with table := s.table.step .publish } := by
  cases hb : s.table.begun with
  | none =>
    have hsame : s.table.step .publish = s.table := by rw [BindTable.step, hb]
    rw [hsame]
    exact h
  | some c =>
    obtain ⟨g, r, hg, hr⟩ := h.installing c hb
    have hstep : s.table.step .publish = { s.table with
        sockets := g.sockets
        candidates := s.table.candidates.set c ⟨none, some s.table.sockets⟩
        begun := none } := by
      rw [BindTable.step, hb]
      simp only
      unfold BindTable.publish
      rw [hr]
    refine h.ofTable (h.table.step _) (BindTable.step_grows h.table _) ?_ ?_ ?_ <;> rw [hstep]
    · exact fun a p hp => (h.loops a p hp).1
    · intro g' hg' _ a
      rw [hg] at hg'
      cases hg'
      rfl
    · intro d hd
      cases hd

theorem Inv.release {s : Server} (h : s.Inv) (p : Nat) (hp : ¬ ((s.tasks.entries.any fun e => e.2 == p) &&
    s.table.handles.count p ≤ 1) = true) : Inv { s with table := s.table.step (.release p) } := by
  refine h.ofTable (h.table.step _) (BindTable.step_grows h.table _) ?_ h.installed h.installing
  intro a q hq
  have hmem := (h.loops a q hq).1
  change q ∈ s.table.handles.erase p
  by_cases hqp : q = p
  · subst hqp
    have hany : (s.tasks.entries.any fun e => e.2 == q) = true :=
      List.any_eq_true.mpr ⟨⟨a, q⟩, AList.mem_lookup_iff.mp hq, by simp⟩
    rw [hany, Bool.true_and, decide_eq_true_eq] at hp
    have hcount : 0 < (s.table.handles.erase q).count q := by
      rw [List.count_erase_self]
      omega
    exact List.count_pos_iff.mp hcount
  · exact (List.mem_erase_of_ne hqp).mpr hmem

theorem Inv.commit {s : Server} (h : s.Inv) {c : Nat} (hm : s.Meets (.commit c)) : (s.commit c).Inv := by
  unfold Server.commit
  split
  · rename_i m r hc
    split
    · rename_i hb
      have hlt := (List.getElem?_eq_some_iff.mp hc).1
      have hstep : s.table.step (.begin c) = { s.table with begun := some c } := by
        rw [BindTable.step, if_pos ⟨hb, hlt⟩]
      have hold : ∀ y ∈ s.syncs, y.generation.number < s.next := by
        intro y hy
        obtain ⟨g, hg, hle, -⟩ := h.known y hy
        rw [next, hg]
        exact Nat.lt_succ_of_le hle
      refine ⟨BindTable.Inv.step h.table (.begin c), ?_, ?_, ?_, ?_, h.obsolete, h.locked, ?_, ?_⟩
      · intro a p hp
        rw [hstep]
        exact h.loops a p hp
      · intro g _ hnone
        rw [hstep] at hnone
        cases hnone
      · intro d hd
        rw [hstep] at hd ⊢
        cases hd
        exact ⟨_, r, rfl, hc⟩
      · intro y hy hdone g hg
        cases hg
        exact hm m r hc y hy hdone
      · intro y hy
        refine ⟨_, rfl, (hold y hy).le, ?_⟩
        intro he
        exact absurd he (hold y hy).ne
      · intro y hy g hg he
        cases hg
        exact absurd he (hold y hy).ne
    · exact h
  · exact h

theorem Inv.sync {s : Server} (h : s.Inv) {g : Generation} (hg : s.current = some g) :
    Inv { s with syncs := s.syncs ++ [⟨g, .waiting⟩] } := by
  have hmem : ∀ y ∈ s.syncs ++ [⟨g, .waiting⟩], y ∈ s.syncs ∨ y = ⟨g, .waiting⟩ := by
    intro y hy
    rcases List.mem_append.mp hy with hy | hy
    · exact Or.inl hy
    · exact Or.inr (List.mem_singleton.mp hy)
  refine ⟨h.table, h.loops, h.installed, h.installing, ?_, ?_, ?_, ?_, ?_⟩
  · intro y hy hdone g' hg' a ha
    rcases hmem y hy with hy | rfl
    · exact h.covers y hy hdone g' hg' a ha
    · rw [hg] at hg'
      cases hg'
      exact ha
  · intro y hy rest hr
    rcases hmem y hy with hy | rfl
    · exact h.obsolete y hy rest hr
    · cases hr
  · intro i y hy hl
    by_cases hi : i < s.syncs.length
    · rw [List.getElem?_append_left hi] at hy
      exact h.locked i y hy hl
    · rw [List.getElem?_append_right (Nat.le_of_not_lt hi)] at hy
      obtain rfl := List.mem_singleton.mp (List.mem_of_getElem? hy)
      exact absurd hl id
  · intro y hy
    rcases hmem y hy with hy | rfl
    · exact h.known y hy
    · exact ⟨g, hg, le_refl _, fun _ => rfl⟩
  · intro y hy g' hg' he
    rcases hmem y hy with hy | rfl
    · exact h.reached y hy g' hg' he
    · trivial

/-- The phase of another call is not touched. -/
theorem getElem?_setPhase {l : List Sync} {i j : Nat} {y z : Sync} {phase : Phase}
    (hi : l[i]? = some y) (hz : (l.set i { y with phase := phase })[j]? = some z) :
    (j = i ∧ z = { y with phase := phase }) ∨ (j ≠ i ∧ l[j]? = some z) := by
  by_cases hj : j = i
  · subst hj
    rw [List.getElem?_set_self (List.getElem?_eq_some_iff.mp hi).1] at hz
    exact Or.inl ⟨rfl, (Option.some.inj hz).symm⟩
  · rw [List.getElem?_set_ne (Ne.symm hj)] at hz
    exact Or.inr ⟨hj, hz⟩

/-- What one call may change of the whole, and go on. -/
structure Moves (s : Server) (i : Nat) (y : Sync) (t : BindTable) (tasks : Map SocketAddr Nat) (lock : Option Nat)
    (phase : Phase) : Prop where
  running : y.phase ≠ .done
  table : t.Inv
  loops : ∀ a p, tasks.lookup a = some p → p ∈ t.handles ∧ t.listeners[p]? = some a
  begun : t.begun = s.table.begun
  candidates : t.candidates = s.table.candidates
  installed : ∀ g, s.current = some g → s.table.begun = none → ∀ a, t.sockets.lookup a = g.sockets.lookup a
  obsolete : ∀ rest, phase = .stopping rest → ∀ a ∈ rest, y.generation.sockets.lookup a = none
  locks : Locks phase → lock = some i
  unlocks : ∀ j, j ≠ i → s.lock = some j → lock = some j
  reached : s.current = some y.generation → Reached tasks y.generation phase
  others : ∀ g, s.current = some g → ∀ j z, j ≠ i → s.syncs[j]? = some z → Reached s.tasks g z.phase →
    Reached tasks g z.phase
  keeps : ∀ g, s.current = some g → ∀ a, (g.sockets.lookup a).isSome → ∀ p,
    (s.tasks.lookup a = some p → tasks.lookup a = some p) ∧ (s.table.sockets.lookup a = some p → t.sockets.lookup a = some p)

theorem Inv.move {s : Server} (h : s.Inv) {i : Nat} {y : Sync} (hy : s.syncs[i]? = some y) {t : BindTable}
    {tasks : Map SocketAddr Nat} {lock : Option Nat} {phase : Phase} (hm : s.Moves i y t tasks lock phase) :
    Inv { table := t, current := s.current, tasks := tasks, lock := lock,
          syncs := s.syncs.set i { y with phase := phase } } := by
  have hmem : ∀ z ∈ s.syncs.set i { y with phase := phase }, z = { y with phase := phase } ∨
      ∃ j, j ≠ i ∧ s.syncs[j]? = some z := by
    intro z hz
    obtain ⟨j, hj⟩ := List.mem_iff_getElem?.mp hz
    rcases getElem?_setPhase hy hj with ⟨-, rfl⟩ | ⟨hne, hz⟩
    · exact Or.inl rfl
    · exact Or.inr ⟨j, hne, hz⟩
  have hyin := List.mem_of_getElem? hy
  refine ⟨hm.table, hm.loops, ?_, ?_, ?_, ?_, ?_, ?_, ?_⟩
  · intro g hg hb
    exact hm.installed g hg (hm.begun ▸ hb)
  · intro c hc
    obtain ⟨g, r, hg, hr⟩ := h.installing c (hm.begun ▸ hc)
    exact ⟨g, r, hg, hm.candidates ▸ hr⟩
  · intro z hz hdone g hg
    rcases hmem z hz with rfl | ⟨j, -, hj⟩
    · exact h.covers y hyin hm.running g hg
    · exact h.covers z (List.mem_of_getElem? hj) hdone g hg
  · intro z hz rest hr
    rcases hmem z hz with rfl | ⟨j, -, hj⟩
    · exact hm.obsolete rest hr
    · exact h.obsolete z (List.mem_of_getElem? hj) rest hr
  · intro j z hz hl
    rcases getElem?_setPhase hy hz with ⟨rfl, rfl⟩ | ⟨hne, hz⟩
    · exact hm.locks hl
    · exact hm.unlocks j hne (h.locked j z hz hl)
  · intro z hz
    rcases hmem z hz with rfl | ⟨j, -, hj⟩
    · exact h.known y hyin
    · exact h.known z (List.mem_of_getElem? hj)
  · intro z hz g hg he
    rcases hmem z hz with rfl | ⟨j, hne, hj⟩
    · obtain ⟨g', hg', -, heq⟩ := h.known y hyin
      rw [hg] at hg'
      cases hg'
      obtain rfl : y.generation = g := heq he
      exact hm.reached hg
    · exact hm.others g hg j z hne hj (h.reached z (List.mem_of_getElem? hj) g hg he)

/-- While a call holds the lock, the others are before or after their work on the loops. -/
theorem Inv.settled_elsewhere {s : Server} (h : s.Inv) {i : Nat} (hlock : s.lock = some i) {tasks : Map SocketAddr Nat}
    {g : Generation} (hsettled : Settled s.tasks g → Settled tasks g) {j : Nat} {z : Sync} (hne : j ≠ i)
    (hz : s.syncs[j]? = some z) (hr : Reached s.tasks g z.phase) : Reached tasks g z.phase := by
  cases hp : z.phase with
  | waiting => trivial
  | starting rest =>
    have hj := h.locked j z hz (by rw [hp]; trivial)
    rw [hlock] at hj
    exact absurd (Option.some.inj hj).symm hne
  | stopping rest =>
    have hj := h.locked j z hz (by rw [hp]; trivial)
    rw [hlock] at hj
    exact absurd (Option.some.inj hj).symm hne
  | retaining =>
    rw [hp] at hr
    exact hsettled hr
  | done =>
    rw [hp] at hr
    exact hsettled hr

/-- A turn that leaves the table and the loops. -/
theorem Inv.rests {s : Server} (h : s.Inv) {i : Nat} {y : Sync} (hy : s.syncs[i]? = some y) (hrun : y.phase ≠ .done)
    {lock : Option Nat} {phase : Phase}
    (hobs : ∀ rest, phase = .stopping rest → ∀ a ∈ rest, y.generation.sockets.lookup a = none)
    (hlocks : Locks phase → lock = some i) (hunlocks : ∀ j, j ≠ i → s.lock = some j → lock = some j)
    (hreached : s.current = some y.generation → Reached s.tasks y.generation y.phase → Reached s.tasks y.generation phase) :
    s.Moves i y s.table s.tasks lock phase where
  running := hrun
  table := h.table
  loops := h.loops
  begun := rfl
  candidates := rfl
  installed := h.installed
  obsolete := hobs
  locks := hlocks
  unlocks := hunlocks
  reached hg := hreached hg (h.reached y (List.mem_of_getElem? hy) y.generation hg rfl)
  others _ _ _ _ _ _ hr := hr
  keeps _ _ _ _ _ := ⟨fun hp => hp, fun hp => hp⟩

theorem Inv.moves_start {s : Server} (h : s.Inv) {i : Nat} {y : Sync} (hy : s.syncs[i]? = some y) {a : SocketAddr}
    {rest : List SocketAddr} (hp : y.phase = .starting (a :: rest)) (hnone : s.tasks.lookup a = none)
    (hb : s.table.begun = none) {p : Nat} (ha : s.table.sockets.lookup a = some p) :
    s.Moves i y (s.table.step (.get a)) (s.tasks.insert a p) s.lock (.starting rest) := by
  have hyin := List.mem_of_getElem? hy
  have hlock : s.lock = some i := h.locked i y hy (by rw [hp]; trivial)
  have hget : s.table.step (.get a) = { s.table with handles := s.table.handles ++ [p] } := by
    rw [BindTable.step, if_pos hb, ha]
    rfl
  have hfiled : s.table.listeners[p]? = some a := h.table.filed a p (BindTable.grips_iff.mpr (Or.inl ha))
  have hlookup (b : SocketAddr) : (s.tasks.insert a p).lookup b = if b = a then some p else s.tasks.lookup b := by
    by_cases hba : b = a
    · subst hba
      rw [if_pos rfl, AList.lookup_insert]
    · rw [if_neg hba, AList.lookup_insert_ne hba]
  refine ⟨by rw [hp]; simp, h.table.step _, ?_, by rw [hget], by rw [hget], ?_, fun _ he => (by cases he), fun _ => hlock,
    fun _ _ hj => hj, ?_, ?_, ?_⟩
  · intro b q hq
    rw [hget]
    rw [hlookup] at hq
    by_cases hba : b = a
    · rw [if_pos hba] at hq
      cases hq
      subst hba
      exact ⟨List.mem_append_right _ (List.mem_singleton_self p), hfiled⟩
    · rw [if_neg hba] at hq
      obtain ⟨hmem, hl⟩ := h.loops b q hq
      exact ⟨List.mem_append_left _ hmem, hl⟩
  · rw [hget]
    exact h.installed
  · intro hg b hb
    have hreached := h.reached y hyin y.generation hg rfl
    rw [hp] at hreached
    rw [hlookup]
    by_cases hba : b = a
    · rw [if_pos hba]
      exact Or.inr rfl
    · rw [if_neg hba]
      rcases hreached b hb with hin | hin
      · exact Or.inl ((List.mem_cons.mp hin).resolve_left hba)
      · exact Or.inr hin
  · intro g hg j z hne hz hr
    refine h.settled_elsewhere hlock ?_ hne hz hr
    -- The address has no loop, so the loops were not those of the generation.
    intro hsettled
    have hwanted : (g.sockets.lookup a).isSome := by
      rw [← h.installed g hg hb a, ha]
      rfl
    have hsome := (hsettled a).mpr hwanted
    rw [hnone] at hsome
    cases hsome
  · intro g _ b _ q
    rw [hget, hlookup]
    refine ⟨?_, fun hq => hq⟩
    intro hq
    rw [if_neg ?_]
    · exact hq
    · rintro rfl
      rw [hnone] at hq
      cases hq

theorem Inv.moves_stop {s : Server} (h : s.Inv) {i : Nat} {y : Sync} (hy : s.syncs[i]? = some y) {a : SocketAddr}
    {rest : List SocketAddr} (hp : y.phase = .stopping (a :: rest)) :
    s.Moves i y s.table (s.tasks.erase a) s.lock (.stopping rest) := by
  have hyin := List.mem_of_getElem? hy
  have hlock : s.lock = some i := h.locked i y hy (by rw [hp]; trivial)
  have hrun : y.phase ≠ .done := by
    rw [hp]
    simp
  have hunwanted : y.generation.sockets.lookup a = none := h.obsolete y hyin _ hp a List.mem_cons_self
  have hcurrent : ∀ g, s.current = some g → g.sockets.lookup a = none := by
    intro g hg
    rw [← Option.not_isSome_iff_eq_none]
    intro hsome
    have hcov := h.covers y hyin hrun g hg a hsome
    rw [hunwanted] at hcov
    cases hcov
  have hlookup {b : SocketAddr} (hba : b ≠ a) : (s.tasks.erase a).lookup b = s.tasks.lookup b := AList.lookup_erase_ne hba
  have hgone : (s.tasks.erase a).lookup a = none := AList.lookup_erase _ _
  refine ⟨hrun, h.table, ?_, rfl, rfl, h.installed, ?_, fun _ => hlock, fun _ _ hj => hj, ?_, ?_, ?_⟩
  · intro b q hq
    by_cases hba : b = a
    · rw [hba, hgone] at hq
      cases hq
    · rw [hlookup hba] at hq
      exact h.loops b q hq
  · intro rest' he b hb
    cases he
    exact h.obsolete y hyin _ hp b (List.mem_cons_of_mem a hb)
  · intro hg b
    have hreached := h.reached y hyin y.generation hg rfl
    rw [hp] at hreached
    by_cases hba : b = a
    · rw [hba, hunwanted, hgone]
      exact ⟨fun hn => (by cases hn), fun hn => (by cases hn)⟩
    · rw [hlookup hba]
      refine ⟨(hreached b).1, ?_⟩
      intro hb
      rcases (hreached b).2 hb with hin | hin
      · exact Or.inl hin
      · exact Or.inr ((List.mem_cons.mp hin).resolve_left hba)
  · intro g hg j z hne hz hr
    refine h.settled_elsewhere hlock ?_ hne hz hr
    intro hsettled b
    by_cases hba : b = a
    · rw [hba, hgone, hcurrent g hg]
    · rw [hlookup hba]
      exact hsettled b
  · intro g hg b hb q
    refine ⟨?_, fun hq => hq⟩
    intro hq
    rw [hlookup ?_]
    · exact hq
    · rintro rfl
      rw [hcurrent g hg] at hb
      cases hb

theorem Inv.moves_retain {s : Server} (h : s.Inv) {i : Nat} {y : Sync} (hy : s.syncs[i]? = some y)
    (hp : y.phase = .retaining) (hb : s.table.begun = none) :
    s.Moves i y (s.table.step (.retain y.generation.sockets.keys)) s.tasks s.lock .done := by
  have hyin := List.mem_of_getElem? hy
  have hrun : y.phase ≠ .done := by
    rw [hp]
    simp
  have hstep : s.table.step (.retain y.generation.sockets.keys) = { s.table with
      sockets := KeyedMap.retain (fun a => y.generation.sockets.keys.contains a) s.table.sockets } := by
    rw [BindTable.step, if_pos hb]
  -- What is pruned, no newer generation wants.
  have hkeep : ∀ g, s.current = some g → ∀ a, (KeyedMap.retain (fun a => y.generation.sockets.keys.contains a)
      s.table.sockets).lookup a = s.table.sockets.lookup a := by
    intro g hg a
    rw [lookup_retain]
    by_cases ha : a ∈ y.generation.sockets.keys
    · simp [ha]
    · have hnone : g.sockets.lookup a = none := by
        rw [← Option.not_isSome_iff_eq_none]
        intro hsome
        have hcov := h.covers y hyin hrun g hg a hsome
        exact ha (AList.mem_keys.mpr (AList.lookup_isSome.mp hcov))
      rw [h.installed g hg hb a, hnone]
      simp
  refine ⟨hrun, h.table.step _, ?_, by rw [hstep], by rw [hstep], ?_, fun _ he => (by cases he), fun hl => absurd hl id,
    fun _ _ hj => hj, ?_, fun _ _ _ _ _ _ hr => hr, ?_⟩
  · rw [hstep]
    exact h.loops
  · intro g hg hnone a
    rw [hstep]
    exact (hkeep g hg a).trans (h.installed g hg hnone a)
  · intro hg
    have hreached := h.reached y hyin y.generation hg rfl
    rw [hp] at hreached
    exact hreached
  · intro g hg a _ q
    rw [hstep]
    refine ⟨fun hq => hq, ?_⟩
    intro hq
    exact (hkeep g hg a).trans hq

/-- One turn of a call: nothing, or a move. -/
theorem advance_cases {s : Server} (h : s.Inv) {i : Nat} {y : Sync} (hy : s.syncs[i]? = some y) :
    s.advance i y = s ∨ ∃ t tasks lock phase, s.Moves i y t tasks lock phase ∧ s.advance i y =
      { table := t, current := s.current, tasks := tasks, lock := lock,
        syncs := s.syncs.set i { y with phase := phase } } := by
  unfold advance
  split
  · rename_i hp
    split
    · rename_i hfree
      refine Or.inr ⟨s.table, s.tasks, some i, _, h.rests hy (by rw [hp]; simp) (fun _ he => (by cases he)) (fun _ => rfl) ?_ ?_, rfl⟩
      · intro j _ hj
        rw [hfree] at hj
        cases hj
      · intro _ _ a ha
        exact Or.inl (AList.mem_keys.mpr (AList.lookup_isSome.mp ha))
    · exact Or.inl rfl
  · rename_i hp
    have hlock : s.lock = some i := h.locked i y hy (by rw [hp]; trivial)
    refine Or.inr ⟨s.table, s.tasks, s.lock, _, h.rests hy (by rw [hp]; simp) ?_ (fun _ => hlock) (fun _ _ hj => hj) ?_, rfl⟩
    · intro rest he a ha
      cases he
      have hf := (List.mem_filter.mp ha).2
      exact Option.isNone_iff_eq_none.mp hf
    · intro _ hr a
      rw [hp] at hr
      refine ⟨?_, ?_⟩
      · intro ha
        exact (hr a ha).resolve_left (by simp)
      · intro ha
        cases hg : y.generation.sockets.lookup a with
        | some p => exact Or.inl rfl
        | none =>
          refine Or.inr (List.mem_filter.mpr ⟨AList.mem_keys.mpr (AList.lookup_isSome.mp ha), ?_⟩)
          rw [hg]
          rfl
  · rename_i a rest hp
    have hlock : s.lock = some i := h.locked i y hy (by rw [hp]; trivial)
    split
    · rename_i hsome
      refine Or.inr ⟨s.table, s.tasks, s.lock, _, h.rests hy (by rw [hp]; simp) (fun _ he => (by cases he)) (fun _ => hlock)
        (fun _ _ hj => hj) ?_, rfl⟩
      intro _ hr b hb
      rw [hp] at hr
      rcases hr b hb with hin | hin
      · rcases List.mem_cons.mp hin with rfl | hin
        · exact Or.inr hsome
        · exact Or.inl hin
      · exact Or.inr hin
    · rename_i hnone
      rw [Option.not_isSome_iff_eq_none] at hnone
      split
      · rename_i hb
        refine Or.inr ?_
        unfold startLoop
        split
        · rename_i p ha
          exact ⟨_, _, _, _, h.moves_start hy hp hnone hb ha, rfl⟩
        · rename_i ha
          refine ⟨s.table, s.tasks, s.lock, _, h.rests hy (by rw [hp]; simp) (fun _ he => (by cases he)) (fun _ => hlock)
            (fun _ _ hj => hj) ?_, rfl⟩
          intro hg hr b hbw
          rw [hp] at hr
          rcases hr b hbw with hin | hin
          · rcases List.mem_cons.mp hin with rfl | hin
            · rw [← h.installed _ hg hb b, ha] at hbw
              cases hbw
            · exact Or.inl hin
          · exact Or.inr hin
      · exact Or.inl rfl
  · rename_i hp
    refine Or.inr ⟨s.table, s.tasks, none, _, h.rests hy (by rw [hp]; simp) (fun _ he => (by cases he)) (fun hl => absurd hl id) ?_ ?_, rfl⟩
    · intro j hne hj
      rw [h.locked i y hy (by rw [hp]; trivial)] at hj
      exact absurd (Option.some.inj hj).symm hne
    · intro _ hr a
      rw [hp] at hr
      refine ⟨?_, (hr a).1⟩
      intro ha
      exact ((hr a).2 ha).resolve_right (by simp)
  · rename_i a rest hp
    exact Or.inr ⟨_, _, _, _, h.moves_stop hy hp, rfl⟩
  · rename_i hp
    split
    · rename_i hb
      exact Or.inr ⟨_, _, _, _, h.moves_retain hy hp hb, rfl⟩
    · exact Or.inl rfl
  · exact Or.inl rfl

theorem Inv.step {s : Server} (h : s.Inv) {e : Event} (hm : s.Meets e) : (s.step e).Inv := by
  cases e with
  | stage wanted => exact h.stage wanted
  | drop c => exact h.drop c
  | commit c => exact h.commit hm
  | install => exact h.install
  | finish c => exact h.finish c
  | release p =>
    rw [Server.step]
    split
    · exact h
    · rename_i hp
      exact h.release p hp
  | sync =>
    rw [Server.step]
    split
    · rename_i g hg
      exact h.sync hg
    · exact h
  | advance i =>
    rw [Server.step]
    split
    · rename_i y hy
      rcases advance_cases h hy with he | ⟨t, tasks, lock, phase, hmoves, he⟩
      · rw [he]
        exact h
      · rw [he]
        exact h.move hy hmoves
    · exact h

/-- A run in which every publication meets the calls under way. -/
def Careful : Server → List Event → Prop
  | _, [] => True
  | s, e :: es => s.Meets e ∧ Careful (s.step e) es

theorem Careful.inv {s : Server} (h : s.Inv) {es : List Event} (hes : Careful s es) : (run step s es).Inv := by
  induction es generalizing s with
  | nil => exact h
  | cons e es ih => exact ih (h.step hes.1) hes.2

theorem advance_keeps {s : Server} (h : s.Inv) (i : Nat) {g : Generation} (hg : s.current = some g) {a : SocketAddr}
    (ha : (g.sockets.lookup a).isSome) (p : Nat) :
    (s.tasks.lookup a = some p → (s.step (.advance i)).tasks.lookup a = some p) ∧
      (s.table.sockets.lookup a = some p → (s.step (.advance i)).table.sockets.lookup a = some p) := by
  rw [step]
  split
  · rename_i y hy
    rcases advance_cases h hy with he | ⟨t, tasks, lock, phase, hm, he⟩
    · rw [he]
      exact ⟨fun hp => hp, fun hp => hp⟩
    · rw [he]
      exact hm.keeps g hg a ha p
  · exact ⟨fun hp => hp, fun hp => hp⟩

/-- The listener a generation publishes for an address is open, and the only one there. -/
theorem Inv.published {s : Server} (h : s.Inv) {g : Generation} (hg : s.current = some g) {a : SocketAddr} {p q : Nat}
    (hp : s.tasks.lookup a = some p) (hq : g.sockets.lookup a = some q) : p = q := by
  have hgrips : s.table.Grips a q := by
    rw [BindTable.grips_iff]
    cases hb : s.table.begun with
    | none => exact Or.inl ((h.installed g hg hb a).trans hq)
    | some c =>
      obtain ⟨g', r, hg', hc⟩ := h.installing c hb
      rw [hg] at hg'
      cases hg'
      exact Or.inr ⟨_, List.mem_of_getElem? hc, Or.inl ⟨g.sockets, rfl, hq⟩⟩
  obtain ⟨hmem, hl⟩ := h.loops a p hp
  exact h.table.single p q a (Or.inl (Or.inr hmem)) (Or.inl (Or.inl ⟨a, hgrips⟩)) hl (h.table.filed a q hgrips)

theorem Inv.settled {s : Server} (h : s.Inv) {y : Sync} (hy : y ∈ s.syncs) (hdone : y.phase = .done)
    (hg : s.current = some y.generation) (a : SocketAddr) (p : Nat) :
    s.tasks.lookup a = some p ↔ y.generation.sockets.lookup a = some p := by
  have hr := h.reached y hy y.generation hg rfl
  rw [hdone] at hr
  constructor
  · intro hp
    obtain ⟨q, hq⟩ := Option.isSome_iff_exists.mp ((hr a).mp (by rw [hp]; rfl))
    rw [hq, h.published hg hp hq]
  · intro hq
    obtain ⟨p', hp⟩ := Option.isSome_iff_exists.mp ((hr a).mpr (by rw [hq]; rfl))
    rw [hp, h.published hg hp hq]

theorem accept_loops_converge {es : List Event} (hes : Careful start es) :
    ∀ g, (run step start es).current = some g →
      (∀ i a p, (g.sockets.lookup a).isSome →
        ((run step start es).tasks.lookup a = some p → (run step start (es ++ [.advance i])).tasks.lookup a = some p) ∧
        ((run step start es).table.sockets.lookup a = some p →
          (run step start (es ++ [.advance i])).table.sockets.lookup a = some p)) ∧
      (∀ y ∈ (run step start es).syncs, y.phase = .done → y.generation = g →
        ∀ a p, (run step start es).tasks.lookup a = some p ↔ g.sockets.lookup a = some p) := by
  have h := hes.inv inv_start
  intro g hg
  refine ⟨?_, ?_⟩
  · intro i a p ha
    rw [run_append]
    exact advance_keeps h i hg ha p
  · rintro y hy hdone rfl a p
    exact h.settled hy hdone hg a p

/-- Two addresses; then one of them, published while the first call waits. -/
def narrowing : List Event :=
  [Event.stage [BindTable.port 80, BindTable.port 81], .commit 0, .install, .sync, .stage [BindTable.port 80], .commit 1,
    .install, .finish 1] ++ List.replicate 6 (Event.advance 0) ++ [Event.sync] ++ List.replicate 6 (Event.advance 1)

/-- The other way round: the first call prunes the socket of the second generation. -/
def widening : List Event :=
  [Event.stage [BindTable.port 80], .commit 0, .install, .sync, .stage [BindTable.port 80, BindTable.port 81], .commit 1,
    .install, .finish 1] ++ List.replicate 5 (Event.advance 0) ++ [Event.sync] ++ List.replicate 6 (Event.advance 1)

theorem narrowing_careful : Careful start narrowing := by
  refine ⟨trivial, ?_, trivial, trivial, trivial, ?_, trivial, trivial, trivial, trivial, trivial, trivial, trivial, trivial,
    trivial, trivial, trivial, trivial, trivial, trivial, trivial, trivial⟩
  · intro m r _ y hy
    cases hy
  · intro m r hc y hy _ a ha
    obtain rfl := List.mem_singleton.mp hy
    cases hc
    obtain rfl : a = BindTable.port 80 := List.mem_singleton.mp (AList.mem_keys.mp (AList.lookup_isSome.mp ha))
    rfl

theorem accept_loops_converge_narrowing :
    Careful start narrowing ∧ (run step start narrowing).tasks.lookup (BindTable.port 80) = some 0 ∧
      ∀ p, (run step start narrowing).tasks.lookup (BindTable.port 81) ≠ some p := by
  have hall := (accept_loops_converge narrowing_careful _ rfl).2 _ (List.mem_of_getElem? (i := 1) rfl) rfl rfl
  refine ⟨narrowing_careful, (hall _ _).mpr rfl, ?_⟩
  intro p hp
  cases (hall _ p).mp hp

/-- A call that read the first generation prunes what the second has published, and the call
after it finds no socket to accept on. -/
theorem newer_socket_pruned :
    ((run step start (widening.take 12)).current.map fun g => g.sockets.lookup (BindTable.port 81)) = some (some 1) ∧
    (run step start (widening.take 12)).table.sockets.lookup (BindTable.port 81) = some 1 ∧
    (run step start (widening.take 12 ++ [.advance 0])).table.sockets.lookup (BindTable.port 81) = none ∧
    ((run step start widening).current.map fun g => (g.number, g.sockets.lookup (BindTable.port 81))) = some (2, some 1) ∧
    ((run step start widening).syncs[1]?.map fun y => (y.generation.number, y.phase)) = some (2, .done) ∧
    (run step start widening).tasks.lookup (BindTable.port 81) = none := by
  decide

end Server

end Gatel.Http
