import Gatel.Lib.KeyedMap
import Gatel.Lib.Run
import Gatel.Model.Net

namespace Gatel.Http
open KeyedMap (Map lookup_refine lookup_retain)
open Run (run run_append run_cons run_nil)

/-! Who owns the listening sockets. A listener is known by the number it was opened with; it is
closed when its last holder lets go of it. -/

/-- `BindUpdate`; one that is dropped holds nothing. -/
structure Candidate where
  pending : Option (Map SocketAddr Nat)
  retired : Option (Map SocketAddr Nat)

structure BindTable where
  /-- The address of every listener opened so far. -/
  listeners : List SocketAddr
  sockets : Map SocketAddr Nat
  /-- Weak: it keeps nothing open. -/
  reserved : Map SocketAddr Nat
  candidates : List Candidate
  /-- The candidate whose `BindPublication` holds the lock. -/
  begun : Option Nat
  /-- Handles of accept loops and of other callers. -/
  handles : List Nat
  /-- Listeners of the embedder, not handed over yet. -/
  foreign : List Nat

namespace BindTable

def start : BindTable := ⟨[], ∅, ∅, [], none, [], []⟩

/-- The maps that keep listeners open. -/
def maps (s : BindTable) : List (Map SocketAddr Nat) :=
  s.sockets :: s.candidates.flatMap fun c => c.pending.toList ++ c.retired.toList

def strong (s : BindTable) (p : Nat) : Bool := (s.maps.any fun m => m.entries.any fun e => e.2 == p) || s.handles.contains p

def live (s : BindTable) (p : Nat) : Bool := s.strong p || s.foreign.contains p

/-- Whether `bind` finds the address in use. -/
def taken (s : BindTable) (a : SocketAddr) : Bool :=
  (List.range s.listeners.length).any fun p => s.live p && s.listeners[p]? == some a

structure Gathering where
  listeners : List SocketAddr
  reserved : Map SocketAddr Nat
  selected : Map SocketAddr Nat
  /-- The address that could not be bound. -/
  failed : Option SocketAddr

/-- One turn of the loop in `gather`. -/
def gatherOne (s : BindTable) (g : Gathering) (a : SocketAddr) : Gathering :=
  if g.failed.isSome || (g.selected.lookup a).isSome then g
  else
    match (s.sockets.lookup a).or ((g.reserved.lookup a).filter s.strong) with
    | some p => { g with reserved := g.reserved.insert a p, selected := g.selected.insert a p }
    | none =>
      if s.taken a then { g with failed := some a }
      else { g with
        listeners := g.listeners ++ [a]
        reserved := g.reserved.insert a g.listeners.length
        selected := g.selected.insert a g.listeners.length }

def gather (s : BindTable) (wanted : List SocketAddr) : Gathering :=
  wanted.foldl (gatherOne s)
    ⟨s.listeners, KeyedMap.refine (fun _ p => if s.strong p then some p else none) s.reserved, ∅, none⟩

/-- `extend` of one map by another. -/
def extend (m n : Map SocketAddr Nat) : Map SocketAddr Nat := n.entries.foldl (fun m e => m.insert e.1 e.2) m

inductive Event where
  /-- The embedder opens a listener of its own, or closes one. -/
  | «open» (a : SocketAddr)
  | close (p : Nat)
  | adopt (p : Nat) (configured : Bool)
  | ensure (wanted : List SocketAddr)
  | stage (wanted : List SocketAddr)
  | begin (c : Nat)
  | publish
  /-- A `BindPublication` dropped without publishing. -/
  | abandon
  | finish (c : Nat)
  | drop (c : Nat)
  | retain (wanted : List SocketAddr)
  | get (a : SocketAddr)
  | release (p : Nat)

/-- A registered address is refused, and the listener dropped. -/
def adopt (s : BindTable) (p : Nat) (configured : Bool) : BindTable :=
  match s.listeners[p]? with
  | none => s
  | some a =>
    let s := { s with foreign := s.foreign.erase p }
    if (s.sockets.lookup a).isSome || ((s.reserved.lookup a).filter s.strong).isSome || !configured then s
    else { s with reserved := s.reserved.insert a p, sockets := s.sockets.insert a p }

def ensure (s : BindTable) (wanted : List SocketAddr) : BindTable :=
  let g := s.gather wanted
  let s := { s with listeners := g.listeners, reserved := g.reserved }
  if g.failed.isSome then s
  else { s with sockets := extend s.sockets g.selected, handles := s.handles ++ g.selected.entries.map Sigma.snd }

def stage (s : BindTable) (wanted : List SocketAddr) : BindTable :=
  let g := s.gather wanted
  let s := { s with listeners := g.listeners, reserved := g.reserved }
  if g.failed.isSome then s else { s with candidates := s.candidates ++ [⟨some g.selected, none⟩] }

def publish (s : BindTable) (c : Nat) : BindTable :=
  match s.candidates[c]? with
  | some ⟨some next, _⟩ =>
    { s with sockets := next, candidates := s.candidates.set c ⟨none, some s.sockets⟩, begun := none }
  | _ => { s with begun := none }

/-- What the lock or the state forbids does not happen. -/
@[grind =] def step (s : BindTable) : Event → BindTable
  | .open a => if s.taken a then s else { s with listeners := s.listeners ++ [a], foreign := s.foreign ++ [s.listeners.length] }
  | .close p => { s with foreign := s.foreign.erase p }
  | .adopt p configured => if s.begun = none ∧ p ∈ s.foreign then s.adopt p configured else s
  | .ensure wanted => if s.begun = none then s.ensure wanted else s
  | .stage wanted => if s.begun = none then s.stage wanted else s
  | .begin c => if s.begun = none ∧ c < s.candidates.length then { s with begun := some c } else s
  | .publish => match s.begun with
    | some c => s.publish c
    | none => s
  | .abandon => { s with begun := none }
  | .finish c => { s with candidates := s.candidates.modify c fun x => { x with retired := none } }
  | .drop c => if s.begun = some c then s else { s with candidates := s.candidates.modify c fun _ => ⟨none, none⟩ }
  | .retain wanted => if s.begun = none then { s with sockets := KeyedMap.retain (fun a => wanted.contains a) s.sockets } else s
  | .get a => if s.begun = none then { s with handles := s.handles ++ (s.sockets.lookup a).toList } else s
  | .release p => { s with handles := s.handles.erase p }

/-- A map holds the listener for an address. -/
def Grips (s : BindTable) (a : SocketAddr) (p : Nat) : Prop := ∃ m ∈ s.maps, m.lookup a = some p

def Strong (s : BindTable) (p : Nat) : Prop := (∃ a, s.Grips a p) ∨ p ∈ s.handles

def Live (s : BindTable) (p : Nat) : Prop := s.Strong p ∨ p ∈ s.foreign

theorem strong_iff {s : BindTable} {p : Nat} : s.strong p = true ↔ s.Strong p := by
  simp only [strong, Strong, Grips, Bool.or_eq_true, List.any_eq_true, List.contains_eq_mem, decide_eq_true_eq,
    beq_iff_eq]
  constructor
  · rintro (⟨m, hm, ⟨a, q⟩, he, rfl⟩ | h)
    · exact Or.inl ⟨a, m, hm, AList.mem_lookup_iff.mpr he⟩
    · exact Or.inr h
  · rintro (⟨a, m, hm, hl⟩ | h)
    · exact Or.inl ⟨m, hm, ⟨a, p⟩, AList.mem_lookup_iff.mp hl, rfl⟩
    · exact Or.inr h

theorem live_iff {s : BindTable} {p : Nat} : s.live p = true ↔ s.Live p := by
  simp only [live, Live, Bool.or_eq_true, strong_iff, List.contains_eq_mem, decide_eq_true_eq]

/-- Every map files a listener under its own address, no address has two live listeners, and the
index knows every listener that is held here. -/
structure Inv (s : BindTable) : Prop where
  filed : ∀ a p, s.Grips a p → s.listeners[p]? = some a
  made : ∀ p, p ∈ s.handles ∨ p ∈ s.foreign → p < s.listeners.length
  single : ∀ p q a, s.Live p → s.Live q → s.listeners[p]? = some a → s.listeners[q]? = some a → p = q
  index : ∀ a p, s.Strong p → s.listeners[p]? = some a → s.reserved.lookup a = some p
  indexed : ∀ a p, s.reserved.lookup a = some p → s.listeners[p]? = some a

theorem inv_start : start.Inv where
  filed a p h := by
    obtain ⟨m, hm, hl⟩ := h
    obtain rfl := List.mem_singleton.mp hm
    cases hl
  made p h := by rcases h with h | h <;> cases h
  single p q a hp := by
    rcases hp with (⟨b, m, hm, hl⟩ | h) | h
    · obtain rfl := List.mem_singleton.mp hm
      cases hl
    · cases h
    · cases h
  index a p hp := by
    rcases hp with ⟨b, m, hm, hl⟩ | h
    · obtain rfl := List.mem_singleton.mp hm
      cases hl
    · cases h
  indexed a p h := by cases h

theorem Inv.range {s : BindTable} (h : s.Inv) {p : Nat} (hp : s.Live p) : ∃ a, s.listeners[p]? = some a := by
  have hlt (hm : p ∈ s.handles ∨ p ∈ s.foreign) : ∃ a, s.listeners[p]? = some a :=
    ⟨_, List.getElem?_eq_getElem (h.made p hm)⟩
  rcases hp with (⟨a, hg⟩ | hm) | hm
  · exact ⟨a, h.filed a p hg⟩
  · exact hlt (Or.inl hm)
  · exact hlt (Or.inr hm)

theorem Inv.live_lt {s : BindTable} (h : s.Inv) {p : Nat} (hp : s.Live p) : p < s.listeners.length := by
  obtain ⟨a, ha⟩ := h.range hp
  exact (List.getElem?_eq_some_iff.mp ha).1

theorem taken_iff {s : BindTable} (h : s.Inv) {a : SocketAddr} :
    s.taken a = true ↔ ∃ p, s.Live p ∧ s.listeners[p]? = some a := by
  simp only [taken, List.any_eq_true, List.mem_range, Bool.and_eq_true, live_iff, beq_iff_eq]
  constructor
  · rintro ⟨p, -, hp, ha⟩
    exact ⟨p, hp, ha⟩
  · rintro ⟨p, hp, ha⟩
    exact ⟨p, h.live_lt hp, hp, ha⟩

/-- `t` holds no more than `s`, if by other means. -/
structure Shrinks (s t : BindTable) : Prop where
  listeners : t.listeners = s.listeners
  reserved : t.reserved = s.reserved
  grips : ∀ a p, t.Grips a p → s.Grips a p
  handles : ∀ p ∈ t.handles, s.Strong p
  foreign : ∀ p ∈ t.foreign, p ∈ s.foreign

theorem Shrinks.strong {s t : BindTable} (h : Shrinks s t) {p : Nat} (hp : t.Strong p) : s.Strong p := by
  rcases hp with ⟨a, hp⟩ | hp
  · exact Or.inl ⟨a, h.grips a p hp⟩
  · exact h.handles p hp

theorem Shrinks.live {s t : BindTable} (h : Shrinks s t) {p : Nat} (hp : t.Live p) : s.Live p := by
  rcases hp with hp | hp
  · exact Or.inl (h.strong hp)
  · exact Or.inr (h.foreign p hp)

theorem Shrinks.refl (s : BindTable) : Shrinks s s := ⟨rfl, rfl, fun _ _ hg => hg, fun _ hp => Or.inr hp, fun _ hp => hp⟩

theorem Inv.shrink {s t : BindTable} (h : s.Inv) (hs : Shrinks s t) : t.Inv := by
  refine ⟨?_, ?_, ?_, ?_, ?_⟩
  · intro a p hp
    rw [hs.listeners]
    exact h.filed a p (hs.grips a p hp)
  · intro p hp
    rw [hs.listeners]
    rcases hp with hp | hp
    · exact h.live_lt (Or.inl (hs.handles p hp))
    · exact h.live_lt (Or.inr (hs.foreign p hp))
  · intro p q a hp hq
    rw [hs.listeners]
    exact h.single p q a (hs.live hp) (hs.live hq)
  · intro a p hp
    rw [hs.listeners, hs.reserved]
    exact h.index a p (hs.strong hp)
  · intro a p
    rw [hs.listeners, hs.reserved]
    exact h.indexed a p

/-- What `gather` has found so far. -/
structure Gathered (s : BindTable) (g : Gathering) : Prop where
  grows : s.listeners <+: g.listeners
  found : ∀ a p, g.selected.lookup a = some p → g.listeners[p]? = some a ∧ g.reserved.lookup a = some p ∧
    (s.Strong p ∨ (s.listeners.length ≤ p ∧ ∀ q, s.Live q → s.listeners[q]? ≠ some a))
  index : ∀ a p, s.Strong p → s.listeners[p]? = some a → g.reserved.lookup a = some p
  indexed : ∀ a p, g.reserved.lookup a = some p → g.listeners[p]? = some a

theorem getElem?_of_grows {α : Type} {l m : List α} (h : l <+: m) {i : Nat} {a : α} (ha : l[i]? = some a) :
    m[i]? = some a := by
  obtain ⟨more, rfl⟩ := h
  rw [List.getElem?_append_left (List.getElem?_eq_some_iff.mp ha).1]
  exact ha

theorem gatherOne_spec {s : BindTable} (h : s.Inv) {g : Gathering} (hg : Gathered s g) (a : SocketAddr) :
    Gathered s (s.gatherOne g a) := by
  unfold gatherOne
  split
  · exact hg
  · -- a listener that is found is held here, under this address
    have hput {p : Nat} {l : List SocketAddr} (hgrow : g.listeners <+: l) (hp : l[p]? = some a)
        (hfound : s.Strong p ∨ (s.listeners.length ≤ p ∧ ∀ q, s.Live q → s.listeners[q]? ≠ some a))
        (hown : ∀ q, s.Strong q → s.listeners[q]? = some a → q = p) :
        Gathered s { g with listeners := l, reserved := g.reserved.insert a p, selected := g.selected.insert a p } := by
      refine ⟨hg.grows.trans hgrow, ?_, ?_, ?_⟩
      · intro b q hq
        by_cases hb : b = a
        · subst hb
          rw [AList.lookup_insert] at hq
          cases hq
          exact ⟨hp, AList.lookup_insert _, hfound⟩
        · rw [AList.lookup_insert_ne hb] at hq
          obtain ⟨h₁, h₂, h₃⟩ := hg.found b q hq
          exact ⟨getElem?_of_grows hgrow h₁, by rw [AList.lookup_insert_ne hb]; exact h₂, h₃⟩
      · intro b q hq hb
        by_cases he : b = a
        · subst he
          rw [AList.lookup_insert, hown q hq hb]
        · rw [AList.lookup_insert_ne he]
          exact hg.index b q hq hb
      · intro b q hq
        by_cases hb : b = a
        · subst hb
          rw [AList.lookup_insert] at hq
          cases hq
          exact hp
        · rw [AList.lookup_insert_ne hb] at hq
          exact getElem?_of_grows hgrow (hg.indexed b q hq)
    split
    · rename_i p hp
      have hheld : s.Strong p ∧ s.listeners[p]? = some a := by
        rcases Option.or_eq_some_iff.mp hp with hp | ⟨-, hp⟩
        · have hgrip : s.Grips a p := ⟨s.sockets, List.mem_cons_self, hp⟩
          exact ⟨Or.inl ⟨a, hgrip⟩, h.filed a p hgrip⟩
        · obtain ⟨hres, hst⟩ := Option.filter_eq_some_iff.mp hp
          have hstrong := strong_iff.1 hst
          refine ⟨hstrong, ?_⟩
          obtain ⟨b, hb⟩ := h.range (Or.inl hstrong)
          have hsame := getElem?_of_grows hg.grows hb
          rw [hg.indexed a p hres] at hsame
          rw [hb, ← hsame]
      refine hput List.prefix_rfl (getElem?_of_grows hg.grows hheld.2) (Or.inl hheld.1) ?_
      intro q hq hqa
      exact h.single q p a (Or.inl hq) (Or.inl hheld.1) hqa hheld.2
    · split
      · exact ⟨hg.grows, hg.found, hg.index, hg.indexed⟩
      · rename_i hfree
        have hfree : ∀ q, s.Live q → s.listeners[q]? ≠ some a := fun q hq hqa => hfree ((taken_iff h).mpr ⟨q, hq, hqa⟩)
        refine hput (List.prefix_append _ _) List.getElem?_concat_length (Or.inr ⟨?_, hfree⟩) ?_
        · exact hg.grows.length_le
        · intro q hq hqa
          exact absurd hqa (hfree q (Or.inl hq))

theorem gather_spec {s : BindTable} (h : s.Inv) (wanted : List SocketAddr) : Gathered s (s.gather wanted) := by
  refine @Run.invariant _ _ (gatherOne s) (Gathered s) (fun _ a hg => gatherOne_spec h hg a) _ ?_ wanted
  refine ⟨List.prefix_rfl, fun _ _ h => (by cases h), ?_, ?_⟩
  · intro a p hp ha
    rw [lookup_refine, h.index a p hp ha, Option.bind_some, if_pos (strong_iff.2 hp)]
  · intro a p hp
    rw [lookup_refine, Option.bind_eq_some_iff] at hp
    obtain ⟨q, hq, hp⟩ := hp
    split at hp
    · cases hp
      exact h.indexed a p hq
    · cases hp

/-- `t` holds what was held and what was gathered. -/
structure Grows (s : BindTable) (g : Gathering) (t : BindTable) : Prop where
  listeners : t.listeners = g.listeners
  reserved : t.reserved = g.reserved
  grips : ∀ a p, t.Grips a p → s.Grips a p ∨ g.selected.lookup a = some p
  handles : ∀ p ∈ t.handles, p ∈ s.handles ∨ ∃ a, g.selected.lookup a = some p
  foreign : t.foreign = s.foreign

theorem Grows.strong {s t : BindTable} {g : Gathering} (h : Grows s g t) {p : Nat} (hp : t.Strong p) :
    s.Strong p ∨ ∃ a, g.selected.lookup a = some p := by
  rcases hp with ⟨a, hp⟩ | hp
  · rcases h.grips a p hp with hp | hp
    · exact Or.inl (Or.inl ⟨a, hp⟩)
    · exact Or.inr ⟨a, hp⟩
  · rcases h.handles p hp with hp | hp
    · exact Or.inl (Or.inr hp)
    · exact Or.inr hp

theorem Grows.live {s t : BindTable} {g : Gathering} (h : Grows s g t) {p : Nat} (hp : t.Live p) :
    s.Live p ∨ ∃ a, g.selected.lookup a = some p := by
  rcases hp with hp | hp
  · rcases h.strong hp with hp | hp
    · exact Or.inl (Or.inl hp)
    · exact Or.inr hp
  · rw [h.foreign] at hp
    exact Or.inl (Or.inr hp)

theorem Inv.grow {s t : BindTable} (h : s.Inv) {g : Gathering} (hg : Gathered s g) (ht : Grows s g t) : t.Inv := by
  -- the address of a listener that was live before
  have hold : ∀ {p a}, s.Live p → g.listeners[p]? = some a → s.listeners[p]? = some a := by
    intro p a hp ha
    obtain ⟨b, hb⟩ := h.range hp
    rw [getElem?_of_grows hg.grows hb] at ha
    rw [hb]
    exact ha
  have hcross : ∀ {p q a b}, s.Live p → g.selected.lookup b = some q → g.listeners[p]? = some a →
      g.listeners[q]? = some a → p = q := by
    intro p q a b hp hq hpa hqa
    obtain ⟨hqb, -, hfound⟩ := hg.found b q hq
    have hab : b = a := by
      rw [hqb] at hqa
      cases hqa
      rfl
    subst hab
    rcases hfound with hs | ⟨-, hfree⟩
    · exact h.single p q b hp (Or.inl hs) (hold hp hpa) (hold (Or.inl hs) hqa)
    · exact absurd (hold hp hpa) (hfree p hp)
  refine ⟨?_, ?_, ?_, ?_, ?_⟩
  · intro a p hp
    rw [ht.listeners]
    rcases ht.grips a p hp with hp | hp
    · exact getElem?_of_grows hg.grows (h.filed a p hp)
    · exact (hg.found a p hp).1
  · intro p hp
    rw [ht.listeners]
    have hmade : s.Live p ∨ ∃ a, g.selected.lookup a = some p := by
      rcases hp with hp | hp
      · exact ht.live (Or.inl (Or.inr hp))
      · exact ht.live (Or.inr hp)
    rcases hmade with hp | ⟨a, hp⟩
    · exact lt_of_lt_of_le (h.live_lt hp) hg.grows.length_le
    · exact (List.getElem?_eq_some_iff.mp (hg.found a p hp).1).1
  · intro p q a hp hq hpa hqa
    rw [ht.listeners] at hpa hqa
    rcases ht.live hp with hp | ⟨b, hp⟩ <;> rcases ht.live hq with hq | ⟨c, hq⟩
    · exact h.single p q a hp hq (hold hp hpa) (hold hq hqa)
    · exact hcross hp hq hpa hqa
    · exact (hcross hq hp hqa hpa).symm
    · have hb := (hg.found b p hp).1
      have hc := (hg.found c q hq).1
      rw [hpa] at hb
      rw [hqa] at hc
      cases hb
      cases hc
      rw [hp] at hq
      cases hq
      rfl
  · intro a p hp hpa
    rw [ht.listeners] at hpa
    rw [ht.reserved]
    rcases ht.strong hp with hp | ⟨b, hp⟩
    · exact hg.index a p hp (hold (Or.inl hp) hpa)
    · obtain ⟨hb, hres, -⟩ := hg.found b p hp
      rw [hpa] at hb
      cases hb
      exact hres
  · intro a p hp
    rw [ht.listeners]
    rw [ht.reserved] at hp
    exact hg.indexed a p hp

theorem lookup_extend {m n : Map SocketAddr Nat} {a : SocketAddr} {p : Nat} (h : (extend m n).lookup a = some p) :
    m.lookup a = some p ∨ n.lookup a = some p := by
  have hall : ∀ (es : List (Sigma fun _ : SocketAddr => Nat)) (m : Map SocketAddr Nat),
      (es.foldl (fun m e => m.insert e.1 e.2) m).lookup a = some p → m.lookup a = some p ∨ ⟨a, p⟩ ∈ es := by
    intro es
    induction es with
    | nil => exact fun m hm => Or.inl hm
    | cons e es ih =>
      intro m hm
      rcases ih _ hm with hl | hmem
      · by_cases he : a = e.1
        · subst he
          rw [AList.lookup_insert] at hl
          cases hl
          exact Or.inr List.mem_cons_self
        · rw [AList.lookup_insert_ne he] at hl
          exact Or.inl hl
      · exact Or.inr (List.mem_cons_of_mem _ hmem)
  rcases hall n.entries m h with h | h
  · exact Or.inl h
  · exact Or.inr (AList.mem_lookup_iff.mpr h)

theorem grips_iff {s : BindTable} {a : SocketAddr} {p : Nat} : s.Grips a p ↔ s.sockets.lookup a = some p ∨
    ∃ c ∈ s.candidates, (∃ m, c.pending = some m ∧ m.lookup a = some p) ∨ ∃ m, c.retired = some m ∧ m.lookup a = some p := by
  simp only [Grips, maps, List.mem_cons, List.mem_flatMap, List.mem_append, Option.mem_toList]
  constructor
  · rintro ⟨m, rfl | ⟨c, hc, hm | hm⟩, hl⟩
    · exact Or.inl hl
    · exact Or.inr ⟨c, hc, Or.inl ⟨m, hm, hl⟩⟩
    · exact Or.inr ⟨c, hc, Or.inr ⟨m, hm, hl⟩⟩
  · rintro (hl | ⟨c, hc, ⟨m, hm, hl⟩ | ⟨m, hm, hl⟩⟩)
    · exact ⟨_, Or.inl rfl, hl⟩
    · exact ⟨m, Or.inr ⟨c, hc, Or.inl hm⟩, hl⟩
    · exact ⟨m, Or.inr ⟨c, hc, Or.inr hm⟩, hl⟩

theorem mem_modify {α : Type} {l : List α} {i : Nat} {f : α → α} {x : α} (h : x ∈ l.modify i f) :
    x ∈ l ∨ ∃ y, l[i]? = some y ∧ x = f y := by
  obtain ⟨j, hj⟩ := List.mem_iff_getElem?.mp h
  rw [List.getElem?_modify] at hj
  obtain ⟨y, hy, he⟩ := Option.map_eq_some_iff.mp hj
  by_cases hij : i = j
  · rw [if_pos hij] at he
    subst hij
    exact Or.inr ⟨y, hy, he.symm⟩
  · rw [if_neg hij] at he
    have he : y = x := he
    rw [← he]
    exact Or.inl (List.mem_of_getElem? hy)

/-- A listener of the embedder goes into the table. -/
def adopted (s : BindTable) (p : Nat) (a : SocketAddr) : BindTable :=
  { s with
    reserved := s.reserved.insert a p
    sockets := s.sockets.insert a p
    foreign := s.foreign.erase p }

theorem adopted_grips {s : BindTable} {p q : Nat} {a b : SocketAddr} (h : (s.adopted p a).Grips b q) :
    (b = a ∧ q = p) ∨ s.Grips b q := by
  rcases grips_iff.1 h with h | h
  · by_cases hb : b = a
    · subst hb
      rw [adopted, AList.lookup_insert] at h
      cases h
      exact Or.inl ⟨rfl, rfl⟩
    · rw [adopted, AList.lookup_insert_ne hb] at h
      exact Or.inr (grips_iff.2 (Or.inl h))
  · exact Or.inr (grips_iff.2 (Or.inr h))

theorem adopted_live {s : BindTable} {p q : Nat} {a : SocketAddr} (hp : p ∈ s.foreign) (h : (s.adopted p a).Live q) :
    s.Live q := by
  rcases h with (⟨b, h⟩ | h) | h
  · rcases adopted_grips h with ⟨-, rfl⟩ | h
    · exact Or.inr hp
    · exact Or.inl (Or.inl ⟨b, h⟩)
  · exact Or.inl (Or.inr h)
  · exact Or.inr (List.mem_of_mem_erase h)

theorem Inv.adopted {s : BindTable} (h : s.Inv) {p : Nat} {a : SocketAddr} (hp : p ∈ s.foreign)
    (ha : s.listeners[p]? = some a) : (s.adopted p a).Inv := by
  refine ⟨?_, ?_, ?_, ?_, ?_⟩
  · intro b q hq
    rcases adopted_grips hq with ⟨rfl, rfl⟩ | hq
    · exact ha
    · exact h.filed b q hq
  · intro q hq
    rcases hq with hq | hq
    · exact h.made q (Or.inl hq)
    · exact h.made q (Or.inr (List.mem_of_mem_erase hq))
  · intro q r b hq hr
    exact h.single q r b (adopted_live hp hq) (adopted_live hp hr)
  · intro b q hq hqb
    by_cases hb : b = a
    · subst hb
      rw [BindTable.adopted, AList.lookup_insert, h.single p q b (Or.inr hp) (adopted_live hp (Or.inl hq)) ha hqb]
    · rw [BindTable.adopted, AList.lookup_insert_ne hb]
      refine h.index b q ?_ hqb
      rcases hq with ⟨c, hq⟩ | hq
      · rcases adopted_grips hq with ⟨rfl, rfl⟩ | hq
        · have hqb : s.listeners[q]? = some b := hqb
          rw [ha] at hqb
          cases hqb
          exact absurd rfl hb
        · exact Or.inl ⟨c, hq⟩
      · exact Or.inr hq
  · intro b q hq
    by_cases hb : b = a
    · subst hb
      rw [BindTable.adopted, AList.lookup_insert] at hq
      cases hq
      exact ha
    · rw [BindTable.adopted, AList.lookup_insert_ne hb] at hq
      exact h.indexed b q hq

/-- The embedder has a listener at an address where none was live. -/
def opened (s : BindTable) (a : SocketAddr) : BindTable :=
  { s with listeners := s.listeners ++ [a], foreign := s.foreign ++ [s.listeners.length] }

theorem opened_live {s : BindTable} {a : SocketAddr} {q : Nat} (h : (s.opened a).Live q) : s.Live q ∨ q = s.listeners.length := by
  rcases h with h | h
  · exact Or.inl (Or.inl h)
  · rcases List.mem_append.mp h with h | h
    · exact Or.inl (Or.inr h)
    · exact Or.inr (List.mem_singleton.mp h)

theorem Inv.opened {s : BindTable} (h : s.Inv) {a : SocketAddr} (hfree : ∀ q, s.Live q → s.listeners[q]? ≠ some a) :
    (s.opened a).Inv := by
  have hgrow : s.listeners <+: s.listeners ++ [a] := List.prefix_append _ _
  have hold : ∀ {q b}, s.Live q → (s.listeners ++ [a])[q]? = some b → s.listeners[q]? = some b := by
    intro q b hq hb
    rwa [List.getElem?_append_left (h.live_lt hq)] at hb
  have hnew : ∀ {b}, (s.listeners ++ [a])[s.listeners.length]? = some b → b = a := by
    intro b hb
    rw [List.getElem?_concat_length] at hb
    exact (Option.some.inj hb).symm
  refine ⟨?_, ?_, ?_, ?_, ?_⟩
  · intro b q hq
    exact getElem?_of_grows hgrow (h.filed b q hq)
  · intro q hq
    change q < (s.listeners ++ [a]).length
    rw [List.length_append, List.length_singleton]
    have hlive : (s.opened a).Live q := by
      rcases hq with hq | hq
      · exact Or.inl (Or.inr hq)
      · exact Or.inr hq
    rcases opened_live hlive with hq | rfl
    · exact Nat.lt_succ_of_lt (h.live_lt hq)
    · exact Nat.lt_succ_self _
  · intro q r b hq hr hqb hrb
    rcases opened_live hq with hq | rfl <;> rcases opened_live hr with hr | rfl
    · exact h.single q r b hq hr (hold hq hqb) (hold hr hrb)
    · rw [hnew hrb] at hqb
      exact absurd (hold hq hqb) (hfree q hq)
    · rw [hnew hqb] at hrb
      exact absurd (hold hr hrb) (hfree r hr)
    · rfl
  · intro b q hq hqb
    exact h.index b q hq (hold (Or.inl hq) hqb)
  · intro b q hq
    exact getElem?_of_grows hgrow (h.indexed b q hq)

/-- A candidate that gives something up leaves no new grip. -/
theorem shrinks_modify {s : BindTable} {c : Nat} {f : Candidate → Candidate}
    (hp : ∀ x m, (f x).pending = some m → x.pending = some m) (hr : ∀ x m, (f x).retired = some m → x.retired = some m) :
    Shrinks s { s with candidates := s.candidates.modify c f } := by
  refine ⟨rfl, rfl, ?_, fun _ hq => Or.inr hq, fun _ hq => hq⟩
  intro a p h
  rcases grips_iff.1 h with h | ⟨x, hx, h⟩
  · exact grips_iff.2 (Or.inl h)
  · apply grips_iff.2
    right
    rcases mem_modify hx with hx | ⟨y, hy, rfl⟩
    · exact ⟨x, hx, h⟩
    · refine ⟨y, List.mem_of_getElem? hy, ?_⟩
      rcases h with ⟨m, hm, hl⟩ | ⟨m, hm, hl⟩
      · exact Or.inl ⟨m, hp y m hm, hl⟩
      · exact Or.inr ⟨m, hr y m hm, hl⟩

theorem shrinks_publish (s : BindTable) (c : Nat) : Shrinks s (s.publish c) := by
  unfold publish
  split
  · rename_i next retired hc
    refine ⟨rfl, rfl, ?_, fun _ hq => Or.inr hq, fun _ hq => hq⟩
    intro a p hp
    rcases grips_iff.1 hp with hp | ⟨x, hx, hp⟩
    · exact grips_iff.2 (Or.inr ⟨_, List.mem_of_getElem? hc, Or.inl ⟨next, rfl, hp⟩⟩)
    · rcases List.mem_or_eq_of_mem_set hx with hx | rfl
      · exact grips_iff.2 (Or.inr ⟨x, hx, hp⟩)
      · rcases hp with ⟨m, hm, -⟩ | ⟨m, hm, hl⟩
        · cases hm
        · cases hm
          exact grips_iff.2 (Or.inl hl)
  · exact ⟨rfl, rfl, fun _ _ hg => hg, fun _ hq => Or.inr hq, fun _ hq => hq⟩

theorem grows_ensure (s : BindTable) (wanted : List SocketAddr) : Grows s (s.gather wanted) (s.ensure wanted) := by
  unfold ensure
  simp only
  split
  · exact ⟨rfl, rfl, fun _ _ hp => Or.inl hp, fun _ hp => Or.inl hp, rfl⟩
  · refine ⟨rfl, rfl, ?_, ?_, rfl⟩
    · intro a p hp
      rcases grips_iff.1 hp with hp | hp
      · rcases lookup_extend hp with hp | hp
        · exact Or.inl (grips_iff.2 (Or.inl hp))
        · exact Or.inr hp
      · exact Or.inl (grips_iff.2 (Or.inr hp))
    · intro p hp
      rcases List.mem_append.mp hp with hp | hp
      · exact Or.inl hp
      · obtain ⟨e, he, rfl⟩ := List.mem_map.mp hp
        exact Or.inr ⟨e.1, AList.mem_lookup_iff.mpr he⟩

theorem grows_stage (s : BindTable) (wanted : List SocketAddr) : Grows s (s.gather wanted) (s.stage wanted) := by
  unfold stage
  simp only
  split
  · exact ⟨rfl, rfl, fun _ _ hp => Or.inl hp, fun _ hp => Or.inl hp, rfl⟩
  · refine ⟨rfl, rfl, ?_, fun _ hp => Or.inl hp, rfl⟩
    intro a p hp
    rcases grips_iff.1 hp with hp | ⟨c, hc, hp⟩
    · exact Or.inl (grips_iff.2 (Or.inl hp))
    · rcases List.mem_append.mp hc with hc | hc
      · exact Or.inl (grips_iff.2 (Or.inr ⟨c, hc, hp⟩))
      · obtain rfl := List.mem_singleton.mp hc
        rcases hp with ⟨m, hm, hl⟩ | ⟨m, hm, -⟩
        · cases hm
          exact Or.inr hl
        · cases hm

/-- What an event can do to the listeners. -/
theorem step_cases {s : BindTable} (h : s.Inv) (e : Event) :
    Shrinks s (s.step e) ∨ (∃ g, Gathered s g ∧ Grows s g (s.step e)) ∨
    (∃ p a, p ∈ s.foreign ∧ s.listeners[p]? = some a ∧ s.step e = s.adopted p a) ∨
    ∃ a, (∀ q, s.Live q → s.listeners[q]? ≠ some a) ∧ s.step e = s.opened a := by
  have hforeign (p : Nat) : Shrinks s { s with foreign := s.foreign.erase p } :=
    ⟨rfl, rfl, fun _ _ hg => hg, fun _ hq => Or.inr hq, fun _ hq => List.mem_of_mem_erase hq⟩
  have hlock (begun : Option Nat) : Shrinks s { s with begun := begun } :=
    ⟨rfl, rfl, fun _ _ hg => hg, fun _ hq => Or.inr hq, fun _ hq => hq⟩
  cases e with
  | «open» a =>
    simp only [step]
    split
    · exact Or.inl (.refl s)
    · rename_i hfree
      exact Or.inr (Or.inr (Or.inr ⟨a, fun q hq hqa => hfree ((taken_iff h).mpr ⟨q, hq, hqa⟩), rfl⟩))
  | close p => exact Or.inl (hforeign p)
  | adopt p configured =>
    simp only [step]
    split
    · rename_i hp
      obtain ⟨a, ha⟩ := h.range (Or.inr hp.2)
      unfold adopt
      rw [ha]
      simp only
      split
      · exact Or.inl (hforeign p)
      · exact Or.inr (Or.inr (Or.inl ⟨p, a, hp.2, ha, rfl⟩))
    · exact Or.inl (.refl s)
  | ensure wanted =>
    simp only [step]
    split
    · exact Or.inr (Or.inl ⟨_, gather_spec h wanted, grows_ensure s wanted⟩)
    · exact Or.inl (.refl s)
  | stage wanted =>
    simp only [step]
    split
    · exact Or.inr (Or.inl ⟨_, gather_spec h wanted, grows_stage s wanted⟩)
    · exact Or.inl (.refl s)
  | begin c =>
    simp only [step]
    split
    · exact Or.inl (hlock (some c))
    · exact Or.inl (.refl s)
  | publish =>
    simp only [step]
    split
    · exact Or.inl (shrinks_publish s _)
    · exact Or.inl (.refl s)
  | abandon => exact Or.inl (hlock none)
  | finish c =>
    exact Or.inl (shrinks_modify (f := fun x => { x with retired := none }) (fun _ _ hm => hm) (fun _ _ hm => (by cases hm)))
  | drop c =>
    simp only [step]
    split
    · exact Or.inl (.refl s)
    · exact Or.inl (shrinks_modify (fun _ _ hm => (by cases hm)) (fun _ _ hm => (by cases hm)))
  | retain wanted =>
    simp only [step]
    split
    · refine Or.inl ⟨rfl, rfl, ?_, fun _ hq => Or.inr hq, fun _ hq => hq⟩
      intro a p hp
      rcases grips_iff.1 hp with hp | hp
      · rw [lookup_retain] at hp
        split at hp
        · exact grips_iff.2 (Or.inl hp)
        · cases hp
      · exact grips_iff.2 (Or.inr hp)
    · exact Or.inl (.refl s)
  | get a =>
    simp only [step]
    split
    · refine Or.inl ⟨rfl, rfl, fun _ _ hg => hg, ?_, fun _ hq => hq⟩
      intro q hq
      rcases List.mem_append.mp hq with hq | hq
      · exact Or.inr hq
      · exact Or.inl ⟨a, grips_iff.2 (Or.inl (Option.mem_toList.mp hq))⟩
    · exact Or.inl (.refl s)
  | release p =>
    exact Or.inl ⟨rfl, rfl, fun _ _ hg => hg, fun _ hq => Or.inr (List.mem_of_mem_erase hq), fun _ hq => hq⟩

theorem Inv.step {s : BindTable} (h : s.Inv) (e : Event) : (s.step e).Inv := by
  rcases step_cases h e with hs | ⟨g, hg, ht⟩ | ⟨p, a, hp, ha, he⟩ | ⟨a, hfree, he⟩
  · exact h.shrink hs
  · exact h.grow hg ht
  · rw [he]
    exact h.adopted hp ha
  · rw [he]
    exact h.opened hfree

theorem run_inv (es : List Event) : (run step start es).Inv := Run.invariant (fun _ e h => h.step e) inv_start es

theorem step_grows {s : BindTable} (h : s.Inv) (e : Event) : s.listeners <+: (s.step e).listeners := by
  rcases step_cases h e with hs | ⟨g, hg, ht⟩ | ⟨p, a, hp, -, he⟩ | ⟨a, hfree, he⟩
  · rw [hs.listeners]
  · rw [ht.listeners]
    exact hg.grows
  · rw [he]
    exact List.prefix_rfl
  · rw [he]
    exact List.prefix_append _ _

/-- The listener that is held here for an address. -/
def Holds (s : BindTable) (a : SocketAddr) (p : Nat) : Prop := s.Strong p ∧ s.listeners[p]? = some a

/-- A candidate with sockets of its own has not been published. -/
def Unpublished (s : BindTable) : Prop := ∀ x ∈ s.candidates, ∀ m, x.pending = some m → x.retired = none

theorem Unpublished.step {s : BindTable} (h : s.Unpublished) (e : Event) : (s.step e).Unpublished := by
  have hmodify {c : Nat} {f : Candidate → Candidate} (hf : ∀ x, (f x).retired = none) :
      Unpublished { s with candidates := s.candidates.modify c f } := by
    intro x hx m hm
    rcases mem_modify hx with hx | ⟨y, -, rfl⟩
    · exact h x hx m hm
    · exact hf y
  cases e with
  | «open» a =>
    simp only [BindTable.step]
    split <;> exact h
  | close p => exact h
  | adopt p configured =>
    simp only [BindTable.step]
    split
    · unfold BindTable.adopt
      split
      · exact h
      · simp only
        split <;> exact h
    · exact h
  | ensure wanted =>
    simp only [BindTable.step]
    split
    · unfold BindTable.ensure
      simp only
      split <;> exact h
    · exact h
  | stage wanted =>
    simp only [BindTable.step]
    split
    · unfold BindTable.stage
      simp only
      split
      · exact h
      · intro x hx m hm
        rcases List.mem_append.mp hx with hx | hx
        · exact h x hx m hm
        · rw [List.mem_singleton.mp hx]
    · exact h
  | begin c =>
    simp only [BindTable.step]
    split <;> exact h
  | publish =>
    simp only [BindTable.step]
    split
    · unfold BindTable.publish
      split
      · intro x hx m hm
        rcases List.mem_or_eq_of_mem_set hx with hx | rfl
        · exact h x hx m hm
        · cases hm
      · exact h
    · exact h
  | abandon => exact h
  | finish c => exact hmodify fun _ => rfl
  | drop c =>
    simp only [BindTable.step]
    split
    · exact h
    · exact hmodify fun _ => rfl
  | retain wanted =>
    simp only [BindTable.step]
    split <;> exact h
  | get a =>
    simp only [BindTable.step]
    split <;> exact h
  | release p => exact h

/-- A port of the local host. -/
def port (n : UInt16) : SocketAddr := ⟨.v4 #v[127, 0, 0, 1], n, 0, fun _ => rfl⟩

end BindTable

end Gatel.Http
