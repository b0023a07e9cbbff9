import Gatel.Lib.KeyedFold
import Gatel.Model.Value

namespace Gatel
open Std (ExtTreeMap LawfulEqCmp)

/-- What one source contributed. -/
structure SourceSnapshot where
  source : SourceId
  rev : SourceRev
  content : Fingerprint
  nodes : List Node
  deriving DecidableEq

inductive ObservationError where
  | wrongSource
  | revisionExhausted
  | contentMismatch
  deriving DecidableEq, Repr

/-- Assign a revision from a complete content identity. Reusing an identity needs
the very same node tree. -/
def SourceSnapshot.observe (source : SourceId) (content : Fingerprint) (nodes : List Node)
    (previous : Option SourceSnapshot) : Except ObservationError SourceSnapshot :=
  match previous with
  | none => .ok ⟨source, 1, content, nodes⟩
  | some previous =>
    if previous.source ≠ source then .error .wrongSource
    else if previous.content = content then
      if Node.same previous.nodes nodes then .ok ⟨source, previous.rev, content, nodes⟩
      else .error .contentMismatch
    else match previous.rev.next with
      | some rev => .ok ⟨source, rev, content, nodes⟩
      | none => .error .revisionExhausted

/-- Revisions per source. -/
abbrev RevVector := ExtTreeMap SourceId SourceRev

namespace RevVector

def mergeEntry (self : RevVector) (entry : SourceId × SourceRev) : RevVector :=
  match self[entry.1]? with
  | none => self.insert entry.1 entry.2
  | some slot => if entry.2 > slot then self.insert entry.1 entry.2 else self

/-- Advance to the newer of two observations, per source. -/
def mergeMax (self other : RevVector) : RevVector := other.toList.foldl mergeEntry self

/-- The first difference in words, for the stale outcome. -/
def firstDifference (self other : RevVector) : Option String :=
  let moved := self.toList.findSome? fun (source, rev) =>
    match other[source]? with
    | some current =>
      if current = rev then none
      else some s!"{source.display} moved from {rev.val} to {current.val}"
    | none => some (source.display ++ " disappeared")
  moved.or <|
    (other.keys.find? (fun source => !self.contains source)).map (fun s => s.display ++ " appeared")

/-- Nothing is lost and nothing moves back. -/
def Le (a b : RevVector) : Prop :=
  ∀ (id : SourceId) (r : SourceRev), a[id]? = some r → ∃ r', b[id]? = some r' ∧ r ≤ r'

theorem Le.refl (a : RevVector) : Le a a := fun _ r h => ⟨r, h, le_rfl⟩

theorem Le.trans {a b c : RevVector} (hab : Le a b) (hbc : Le b c) : Le a c := by
  intro id r h
  obtain ⟨r', h', hle⟩ := hab id r h
  obtain ⟨r'', h'', hle'⟩ := hbc id r' h'
  exact ⟨r'', h'', hle.trans hle'⟩

def mergeValue (entry : SourceId × SourceRev) (slot : Option SourceRev) : Option SourceRev :=
  match slot with
  | none => some entry.2
  | some slot => some (max slot entry.2)

theorem mergeEntry_local :
    KeyedFold.Local Prod.fst (fun (v : RevVector) id => v[id]?) mergeValue mergeEntry := by
  intro v entry id
  unfold mergeEntry mergeValue
  cases hv : v[entry.1]? with
  | none =>
    simp only [ExtTreeMap.getElem?_insert, LawfulEqCmp.compare_eq_iff_eq]
    split
    · rename_i he; subst he; simp [hv]
    · rfl
  | some slot =>
    dsimp only
    by_cases hs : entry.2 > slot
    · simp only [hs, ↓reduceIte, ExtTreeMap.getElem?_insert, LawfulEqCmp.compare_eq_iff_eq]
      split
      · rename_i he; subst he; simp [hv, max_eq_right hs.le]
      · rfl
    · simp only [hs, ↓reduceIte]
      split
      · rename_i he; subst he; simp [hv, max_eq_left (not_lt.mp hs)]
      · rfl

theorem toList_distinct (v : RevVector) : v.toList.Pairwise (fun a b => a.1 ≠ b.1) := by
  refine v.distinct_keys_toList.imp ?_
  intro a b h he
  exact h (by simp [he])

theorem getElem?_mergeMax (a b : RevVector) (id : SourceId) :
    (mergeMax a b)[id]? = match b[id]? with
      | none => a[id]?
      | some r => mergeValue (id, r) a[id]? := by
  cases hb : b[id]? with
  | none =>
    refine KeyedFold.read_foldl_absent mergeEntry_local b.toList a id ?_
    rintro ⟨k, r⟩ hm rfl
    rw [ExtTreeMap.mem_toList_iff_getElem?_eq_some] at hm
    simp [hb] at hm
  | some r =>
    exact KeyedFold.read_foldl_present mergeEntry_local b.toList (toList_distinct b) a
      (i := (id, r)) (ExtTreeMap.mem_toList_iff_getElem?_eq_some.mpr hb)

theorem le_mergeMax (a b : RevVector) : Le a (mergeMax a b) := by
  intro id r h
  rw [getElem?_mergeMax]
  cases b[id]? with
  | none => exact ⟨r, h, le_rfl⟩
  | some r' => exact ⟨max r r', by simp [mergeValue, h], le_max_left r r'⟩

theorem le_mergeMax_right (a b : RevVector) : Le b (mergeMax a b) := by
  intro id r h
  rw [getElem?_mergeMax, h]
  cases ha : a[id]? with
  | none => exact ⟨r, by simp [mergeValue], le_rfl⟩
  | some r' => exact ⟨max r' r, by simp [mergeValue], le_max_right r' r⟩

end RevVector

/-- Every source at one moment. The source's map is only ever filled by `insert`,
so a contribution is always found under its own identity. -/
structure Snapshot where
  map : ExtTreeMap SourceId SourceSnapshot
  keyed : ∀ (id : SourceId) (s : SourceSnapshot), map[id]? = some s → s.source = id

instance : DecidableEq Snapshot := fun a b =>
  decidable_of_iff (a.map = b.map) (by cases a; cases b; simp)

namespace Snapshot

def empty : Snapshot := ⟨∅, by simp⟩

def get (s : Snapshot) (id : SourceId) : Option SourceSnapshot := s.map[id]?

def insert (s : Snapshot) (x : SourceSnapshot) : Snapshot where
  map := s.map.insert x.source x
  keyed := by
    intro id y h
    simp only [ExtTreeMap.getElem?_insert, LawfulEqCmp.compare_eq_iff_eq] at h
    split at h
    · cases h; assumption
    · exact s.keyed id y h

/-- Contributions in the order of their identities. -/
def sources (s : Snapshot) : List SourceSnapshot := s.map.toList.map Prod.snd

def isEmpty (s : Snapshot) : Bool := s.sources.isEmpty

/-- Every top-level node with the source that declared it. -/
def nodes (s : Snapshot) : List (SourceId × Node) :=
  s.sources.flatMap fun x => x.nodes.map fun n => (x.source, n)

def revs (s : Snapshot) : RevVector := s.map.map fun _ x => x.rev

/-- The composition loop: insert one contribution after another. -/
def ofSources (l : List SourceSnapshot) : Snapshot := l.foldl insert empty

theorem ext {s t : Snapshot} (h : ∀ id, s.get id = t.get id) : s = t := by
  obtain ⟨m, hm⟩ := s
  obtain ⟨n, hn⟩ := t
  have he : m = n := ExtTreeMap.ext_getElem? h
  subst he
  rfl

@[simp] theorem get_empty (id : SourceId) : empty.get id = none := by simp [empty, get]

theorem get_source {s : Snapshot} {id : SourceId} {x : SourceSnapshot}
    (h : s.get id = some x) : x.source = id := s.keyed id x h

theorem get_insert (s : Snapshot) (x : SourceSnapshot) (id : SourceId) :
    (s.insert x).get id = if x.source = id then some x else s.get id := by
  simp [insert, get, ExtTreeMap.getElem?_insert, LawfulEqCmp.compare_eq_iff_eq]

theorem mem_sources {s : Snapshot} {x : SourceSnapshot} :
    x ∈ s.sources ↔ s.get x.source = some x := by
  unfold sources get
  simp only [List.mem_map, Prod.exists, exists_eq_right]
  constructor
  · rintro ⟨id, hm⟩
    rw [ExtTreeMap.mem_toList_iff_getElem?_eq_some] at hm
    rw [s.keyed id x hm]
    exact hm
  · intro h
    exact ⟨x.source, ExtTreeMap.mem_toList_iff_getElem?_eq_some.mpr h⟩

theorem get_mem_sources {s : Snapshot} {id : SourceId} {x : SourceSnapshot}
    (h : s.get id = some x) : x ∈ s.sources :=
  mem_sources.2 (by rw [get_source h]; exact h)

@[simp] theorem getElem?_revs (s : Snapshot) (id : SourceId) :
    s.revs[id]? = (s.get id).map (·.rev) := by
  simp [revs, get, ExtTreeMap.getElem?_map]

theorem map_source_toList (s : Snapshot) :
    s.sources.map (·.source) = s.map.toList.map Prod.fst := by
  unfold sources
  rw [List.map_map]
  apply List.map_congr_left
  rintro ⟨id, x⟩ hm
  exact s.keyed id x (ExtTreeMap.mem_toList_iff_getElem?_eq_some.mp hm)

/-- Identities strictly increase along the contributions. -/
theorem sources_sorted (s : Snapshot) :
    s.sources.Pairwise (fun a b => compare a.source b.source = .lt) := by
  have h : (s.sources.map (·.source)).Pairwise (fun a b => compare a b = .lt) := by
    rw [map_source_toList]
    exact List.pairwise_map.mpr s.map.ordered_keys_toList
  exact List.pairwise_map.mp h

theorem sources_distinct (s : Snapshot) :
    s.sources.Pairwise (fun a b => a.source ≠ b.source) := by
  refine s.sources_sorted.imp ?_
  intro a b h he
  rw [he] at h
  simp at h

theorem insert_local : KeyedFold.Local SourceSnapshot.source get (fun x _ => some x) insert :=
  fun s x id => get_insert s x id

/-- Composing distinct contributions finds each under its own identity. -/
theorem get_ofSources {l : List SourceSnapshot} (hd : l.Pairwise (fun a b => a.source ≠ b.source))
    {x : SourceSnapshot} : (ofSources l).get x.source = some x ↔ x ∈ l := by
  constructor
  · intro h
    by_contra hm
    by_cases ha : ∀ y ∈ l, y.source ≠ x.source
    · rw [ofSources, KeyedFold.read_foldl_absent insert_local l _ _ ha] at h
      simp at h
    · push Not at ha
      obtain ⟨y, hy, he⟩ := ha
      have hp := KeyedFold.read_foldl_present insert_local l hd empty hy
      rw [he] at hp
      exact hm (Option.some.inj (h.symm.trans hp) ▸ hy)
  · intro hm
    exact KeyedFold.read_foldl_present insert_local l hd empty hm

theorem mem_sources_ofSources {l : List SourceSnapshot}
    (hd : l.Pairwise (fun a b => a.source ≠ b.source)) {x : SourceSnapshot} :
    x ∈ (ofSources l).sources ↔ x ∈ l := mem_sources.trans (get_ofSources hd)

theorem ext_sources {s t : Snapshot} (h : ∀ x, x ∈ s.sources ↔ x ∈ t.sources) : s = t := by
  apply ext
  intro id
  apply Option.ext
  intro x
  have hx := h x
  rw [mem_sources, mem_sources] at hx
  constructor
  · intro hs
    have he := get_source hs
    rw [← he] at hs ⊢
    exact hx.mp hs
  · intro ht
    have he := get_source ht
    rw [← he] at ht ⊢
    exact hx.mpr ht

/-- Copying a snapshot contribution by contribution gives the same snapshot. -/
@[simp] theorem ofSources_sources (s : Snapshot) : ofSources s.sources = s :=
  ext_sources fun _ => mem_sources_ofSources s.sources_distinct

end Snapshot

inductive SnapshotHistoryError where
  | zeroRevision
  | missingSource
  | revisionRegression
  | revisionReused
  deriving DecidableEq, Repr

namespace Snapshot

/-- One old contribution against the next snapshot. -/
def checkSuccessor (next : Snapshot) (old : SourceSnapshot) : Except SnapshotHistoryError Unit :=
  match next.get old.source with
  | none => .error .missingSource
  | some new =>
    if new.rev < old.rev then .error .revisionRegression
    else if new.rev = old.rev ∧ (new.content ≠ old.content ∨ ¬ Node.same old.nodes new.nodes) then
      .error .revisionReused
    else .ok ()

/-- `next` keeps every source and moves revisions only forward. -/
def validateSuccessor (s next : Snapshot) : Except SnapshotHistoryError Unit :=
  if (s.sources ++ next.sources).any (fun x => x.rev == 0) then .error .zeroRevision
  else forM s.sources (checkSuccessor next)

/-- What a successful history check establishes. -/
structure Successor (s next : Snapshot) : Prop where
  positive : ∀ x ∈ s.sources, x.rev ≠ 0
  positive_next : ∀ x ∈ next.sources, x.rev ≠ 0
  kept : ∀ x ∈ s.sources, ∃ y, next.get x.source = some y ∧ x.rev ≤ y.rev ∧
    (y.rev = x.rev → y.content = x.content ∧ y.nodes = x.nodes)

theorem checkSuccessor_ok {next : Snapshot} {x : SourceSnapshot} :
    checkSuccessor next x = .ok () ↔ ∃ y, next.get x.source = some y ∧ x.rev ≤ y.rev ∧
      (y.rev = x.rev → y.content = x.content ∧ y.nodes = x.nodes) := by
  unfold checkSuccessor
  cases hn : next.get x.source with
  | none => simp
  | some y =>
    simp only [Option.some.injEq, exists_eq_left']
    split
    · rename_i hlt
      simp only [reduceCtorEq, false_iff, not_and]
      intro hle
      exact absurd hlt (not_lt.mpr hle)
    · rename_i hlt
      have hle := not_lt.mp hlt
      simp only [Node.same_iff]
      split
      · rename_i hr
        simp only [reduceCtorEq, false_iff, not_and]
        intro _ hk
        obtain ⟨hc, hs⟩ := hk hr.1
        rcases hr.2 with h | h
        · exact h hc
        · exact h hs.symm
      · rename_i hr
        simp only [true_iff]
        refine ⟨hle, fun he => ?_⟩
        simp only [not_and, not_or, not_not] at hr
        exact ⟨(hr he).1, (hr he).2.symm⟩

theorem forM_ok {α ε : Type} {l : List α} {f : α → Except ε Unit} :
    forM l f = .ok () ↔ ∀ x ∈ l, f x = .ok () := by
  induction l with
  | nil => simp [pure, Except.pure]
  | cons x l ih =>
    cases hx : f x with
    | error e => simp [List.forM_cons, hx, bind, Except.bind]
    | ok u => simp [List.forM_cons, hx, bind, Except.bind, ih]

theorem validateSuccessor_ok {s next : Snapshot} :
    s.validateSuccessor next = .ok () ↔ Successor s next := by
  unfold validateSuccessor
  split
  · rename_i hz
    simp only [reduceCtorEq, false_iff]
    intro h
    obtain ⟨x, hx, hr⟩ := List.any_eq_true.mp hz
    rcases List.mem_append.mp hx with hx | hx
    · exact h.positive x hx (by simpa using hr)
    · exact h.positive_next x hx (by simpa using hr)
  · rename_i hz
    simp only [List.any_eq_true, List.mem_append, beq_iff_eq, not_exists, not_and] at hz
    rw [forM_ok]
    simp only [checkSuccessor_ok]
    constructor
    · exact fun h => ⟨fun x hx => hz x (.inl hx), fun x hx => hz x (.inr hx), h⟩
    · exact fun h => h.kept

/-- Every contribution is kept, or replaced under a newer revision. -/
def Extends (a b : Snapshot) : Prop :=
  ∀ x ∈ a.sources, ∃ y, b.get x.source = some y ∧ (y = x ∨ x.rev < y.rev)

/-- The same up to the node trees: one revision has one content. -/
def Follows (a b : Snapshot) : Prop :=
  ∀ x ∈ a.sources, ∃ y, b.get x.source = some y ∧ x.rev ≤ y.rev ∧
    (y.rev = x.rev → y.content = x.content)

theorem Extends.refl (a : Snapshot) : Extends a a :=
  fun x hx => ⟨x, mem_sources.1 hx, .inl rfl⟩

theorem Extends.trans {a b d : Snapshot} (hab : Extends a b) (hbd : Extends b d) :
    Extends a d := by
  intro x hx
  obtain ⟨y, hy, hxy⟩ := hab x hx
  obtain ⟨z, hz, hyz⟩ := hbd y (get_mem_sources hy)
  rw [get_source hy] at hz
  refine ⟨z, hz, ?_⟩
  rcases hxy with rfl | hxy
  · exact hyz
  · rcases hyz with rfl | hyz
    · exact .inr hxy
    · exact .inr (hxy.trans hyz)

theorem Extends.follows {a b : Snapshot} (h : Extends a b) : Follows a b := by
  intro x hx
  obtain ⟨y, hy, hxy⟩ := h x hx
  refine ⟨y, hy, ?_⟩
  rcases hxy with rfl | hlt
  · exact ⟨le_rfl, fun _ => rfl⟩
  · exact ⟨hlt.le, fun he => absurd he hlt.ne'⟩

theorem Follows.trans {a b d : Snapshot} (hab : Follows a b) (hbd : Follows b d) :
    Follows a d := by
  intro x hx
  obtain ⟨y, hy, hxy, hcy⟩ := hab x hx
  obtain ⟨z, hz, hyz, hcz⟩ := hbd y (get_mem_sources hy)
  rw [get_source hy] at hz
  refine ⟨z, hz, hxy.trans hyz, ?_⟩
  intro he
  have hyx : y.rev = x.rev := le_antisymm (he ▸ hyz) hxy
  rw [hcz (he.trans hyx.symm), hcy hyx]

theorem Follows.revs_le {a b : Snapshot} (h : Follows a b) : RevVector.Le a.revs b.revs := by
  intro id r hr
  rw [getElem?_revs, Option.map_eq_some_iff] at hr
  obtain ⟨x, hx, rfl⟩ := hr
  obtain ⟨y, hy, hle, _⟩ := h x (get_mem_sources hx)
  rw [get_source hx] at hy
  exact ⟨y.rev, by simp [hy], hle⟩

theorem Successor.extends {a b : Snapshot} (h : Successor a b) : Extends a b := by
  intro x hx
  obtain ⟨y, hy, hle, heq⟩ := h.kept x hx
  refine ⟨y, hy, ?_⟩
  rcases hle.eq_or_lt with he | hlt
  · obtain ⟨hc, hn⟩ := heq he.symm
    left
    have hs := get_source hy
    cases x
    cases y
    simp_all
  · exact .inr hlt

/-- Along a history the revisions alone identify the snapshot. -/
theorem Extends.eq_of_revs {a b : Snapshot} (h : Extends a b) (hr : a.revs = b.revs) : a = b := by
  apply ext
  intro id
  have hid : (a.get id).map (·.rev) = (b.get id).map (·.rev) := by
    rw [← getElem?_revs, ← getElem?_revs, hr]
  cases ha : a.get id with
  | none =>
    cases hb : b.get id with
    | none => rfl
    | some y => simp [ha, hb] at hid
  | some x =>
    obtain ⟨y, hy, hxy⟩ := h x (get_mem_sources ha)
    rw [get_source ha] at hy
    rw [ha, hy, Option.map_some, Option.map_some, Option.some.injEq] at hid
    rcases hxy with rfl | hlt
    · exact hy.symm
    · exact absurd hid hlt.ne

end Snapshot

end Gatel
