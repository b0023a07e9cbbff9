import Gatel.Plan.Decoded
import Gatel.Plan.UpstreamExact

namespace Gatel
open Diagnostics (hasErrors)
open Frontend (SiteAlike SiteReordered SiteOutcomeAlike)
open KeepFirst (Event record declared offered)
open Shuffle (Shuffled)
open Std (ExtTreeMap)

/-- A top-level node: a site may have its own children reordered. -/
def NodeReordered (n n' : Node) : Prop := n = n' ∨ (n.name = "site" ∧ SiteReordered n n')

theorem NodeReordered.refl (n : Node) : NodeReordered n n := Or.inl rfl

theorem NodeReordered.name {n n' : Node} (h : NodeReordered n n') : n.name = n'.name := by
  obtain rfl | ⟨_, hr⟩ := h
  · rfl
  · exact hr.name

/-- One source with its nodes, the routes of its sites and the directives of both in
another order. -/
structure SourceReordered (x y : SourceSnapshot) : Prop where
  source : x.source = y.source
  nodes : Shuffled NodeReordered x.nodes y.nodes

def Snapshot.Reordered (s t : Snapshot) : Prop := List.Forall₂ SourceReordered s.sources t.sources

def ItemReordered (a b : SourceId × Node) : Prop := a.1 = b.1 ∧ NodeReordered a.2 b.2

def SourceSnapshot.items (x : SourceSnapshot) : List (SourceId × Node) := x.nodes.map fun n => (x.source, n)

theorem SourceReordered.items {x y : SourceSnapshot} (h : SourceReordered x y) :
    Shuffled ItemReordered x.items y.items := by
  unfold SourceSnapshot.items
  rw [h.source]
  exact h.nodes.map fun a b hab => ⟨rfl, hab⟩

theorem Snapshot.Reordered.nodes {s t : Snapshot} (h : s.Reordered t) : Shuffled ItemReordered s.nodes t.nodes :=
  Shuffled.flatMap_forall₂ (fun _ _ hxy => hxy.items) h

namespace Frontend

variable (fe : Frontend)

theorem siteOutcome_reordered {a b : SourceId × Node} (h : ItemReordered a b) :
    SiteOutcomeAlike (fe.siteOutcome a) (fe.siteOutcome b) := by
  obtain ⟨ho, hn⟩ := h
  obtain ⟨owner, n⟩ := a
  obtain ⟨owner', n'⟩ := b
  obtain rfl : owner = owner' := ho
  obtain he | ⟨hs, hr⟩ := hn
  · obtain rfl : n = n' := he
    refine ⟨rfl, .refl _, ?_⟩
    cases (fe.siteOutcome (owner, n)).value with
    | none => exact .none
    | some s => exact .some (SiteAlike.refl s)
  · have hs' : n'.name = "site" := hr.name ▸ hs
    simp only at hs
    simp only [siteOutcome, hs, hs', ↓reduceIte]
    exact fe.site_reordered owner hr

theorem upstreamDecoded_reordered {a b : SourceId × Node} (h : ItemReordered a b) :
    fe.upstreamDecoded a = fe.upstreamDecoded b := by
  obtain ⟨ho, hn⟩ := h
  obtain ⟨owner, n⟩ := a
  obtain ⟨owner', n'⟩ := b
  obtain rfl : owner = owner' := ho
  obtain he | ⟨hs, hr⟩ := hn
  · obtain rfl : n = n' := he
    rfl
  · have hs' : n'.name = "site" := hr.name ▸ hs
    simp only at hs
    simp [upstreamDecoded, hs, hs']

theorem isGlobal_reordered {a b : SourceId × Node} (h : ItemReordered a b) : isGlobal a = isGlobal b := by
  simp only [isGlobal, h.1, h.2.name]

theorem itemSaid_reordered {a b : SourceId × Node} (h : ItemReordered a b) :
    hasErrors (fe.itemSaid a) = hasErrors (fe.itemSaid b) := by
  have hs := (fe.siteOutcome_reordered h).errors
  have hu := fe.upstreamDecoded_reordered h
  obtain ⟨ho, hn⟩ := h
  obtain ⟨owner, n⟩ := a
  obtain ⟨owner', n'⟩ := b
  obtain rfl : owner = owner' := ho
  obtain he | ⟨hname, hr⟩ := hn
  · obtain rfl : n = n' := he
    rfl
  · have hname' : n'.name = "site" := hr.name ▸ hname
    simp only at hname
    simp [itemSaid, hs, hu, hname, hname']

/-- Two or more `global` nodes are an error in every order; one is one. -/
theorem global_perm {gs gs' : List (SourceId × Node)} (h : gs.Perm gs') :
    fe.globalErrs gs = fe.globalErrs gs' ∧ (fe.globalErrs gs = false → fe.globalOf gs = fe.globalOf gs') := by
  match gs, gs', h with
  | [], gs', h =>
    obtain rfl := h.nil_eq
    exact ⟨rfl, fun _ => rfl⟩
  | [g], gs', h =>
    obtain rfl := h.singleton_eq
    exact ⟨rfl, fun _ => rfl⟩
  | a :: b :: gs, gs', h =>
    have hl := h.length_eq
    match gs', hl with
    | a' :: b' :: gs', _ => exact ⟨rfl, fun hf => by simp [globalErrs] at hf⟩

theorem globals_perm {s t : Snapshot} (h : s.Reordered t) :
    (s.nodes.filter isGlobal).Perm (t.nodes.filter isGlobal) := by
  refine h.nodes.filter_perm (fun a b hab => isGlobal_reordered hab) ?_
  intro a b hab hg
  obtain ⟨ho, he | ⟨hs, -⟩⟩ := hab
  · exact Prod.ext ho he
  · simp [isGlobal, hs] at hg

/-- The inline upstreams of one source, in the order they are met. -/
def inlineOf (x : SourceSnapshot) : List Upstream := x.items.flatMap fun i => (fe.siteOutcome i).inline

/-- The named upstreams of one source. -/
def namedOf (x : SourceSnapshot) : List Upstream := x.items.flatMap fun i => (fe.upstreamDecoded i).value.toList

theorem offered_events (items : List (SourceId × Node)) :
    offered (items.flatMap fe.events) = items.flatMap fun i => (fe.siteOutcome i).inline := by
  induction items with
  | nil => rfl
  | cons i items ih =>
    have hcons : ∀ l l' : List (Event Upstream), offered (l ++ l') = offered l ++ offered l' := by
      intro l l'
      simp [offered]
    rw [List.flatMap_cons, List.flatMap_cons, hcons, ih, events, hcons]
    simp [offered, List.filterMap_map]

theorem declared_events (items : List (SourceId × Node)) :
    declared (items.flatMap fe.events) = items.flatMap fun i => (fe.upstreamDecoded i).value.toList := by
  induction items with
  | nil => rfl
  | cons i items ih =>
    have hcons : ∀ l l' : List (Event Upstream), declared (l ++ l') = declared l ++ declared l' := by
      intro l l'
      simp [declared]
    rw [List.flatMap_cons, List.flatMap_cons, hcons, ih, events, hcons]
    simp [declared, List.filterMap_map]

/-- No source names an upstream by the identity one of its own inline upstreams
derives. -/
def NoClash (s : Snapshot) : Prop :=
  ∀ x ∈ s.sources, ∀ d ∈ fe.namedOf x, ∀ u ∈ fe.inlineOf x, d.id ≠ u.id

/-- The digest keeps apart what naming the inline upstreams of a snapshot hashes:
what they hash on the way is in `D`, and one identity is derived from one stream. -/
structure Apart (s : Snapshot) (D : Set (List UInt8)) : Prop where
  digest : Hasher.Apart fe.blake3 D
  hashed : ∀ x ∈ s.sources, ∀ u ∈ fe.inlineOf x, u.HashedIn D
  short : ∀ x ∈ s.sources, ∀ u ∈ fe.inlineOf x, (u.hashInto fe.blake3 .new).written.length < 2 ^ 64
  identity : ∀ x ∈ s.sources, ∀ u ∈ fe.inlineOf x, ∀ v ∈ fe.inlineOf x, u.id = v.id →
    u.hashInto fe.blake3 .new = v.hashInto fe.blake3 .new

theorem inlineOf_owner {x : SourceSnapshot} {u : Upstream} (h : u ∈ fe.inlineOf x) : u.owner = x.source := by
  obtain ⟨item, hi, hu⟩ := List.mem_flatMap.mp h
  obtain ⟨node, _, rfl⟩ := List.mem_map.mp hi
  unfold siteOutcome at hu
  split at hu
  · exact (fe.site_inline_distinct hu).1
  · cases hu

theorem core_of_agree {u v : Upstream} (ho : u.owner = v.owner) (h : u.Agree Target.SameText v) : u.core = v.core := by
  have he : (u.endpoints.map Upstream.endpointCore).Perm (v.endpoints.map Upstream.endpointCore) := by
    refine h.endpoints.map_perm ?_
    intro a b hab
    simp only [Upstream.endpointCore, Prod.mk.injEq]
    exact ⟨hab.id, hab.target, hab.weight, hab.priority⟩
  unfold Upstream.core
  rw [h.id, ho, h.balance, h.timeouts, h.pool, h.retry, h.health, h.passiveHealth, h.protocol, h.tls, h.resolve,
    Multiset.coe_eq_coe.mpr he]

/-- Inline upstreams of one source under one identity are configured alike. -/
theorem Apart.core {fe : Frontend} {s : Snapshot} {D : Set (List UInt8)} (h : fe.Apart s D) :
    ∀ x ∈ s.sources, ∀ u ∈ fe.inlineOf x, ∀ v ∈ fe.inlineOf x, u.id = v.id → u.core = v.core := by
  intro x hx u hu v hv he
  refine core_of_agree ((fe.inlineOf_owner hu).trans (fe.inlineOf_owner hv).symm) ?_
  have hw := congrArg Hasher.written (h.identity x hx u hu v hv he)
  exact (Upstream.codes h.digest).ends.whole u v (h.hashed x hx u hu) (h.hashed x hx v hv) hw (h.short x hx u hu)

/-- Source by source, both orders record the same upstreams. -/
theorem upstreams_perm {xs ys : List SourceSnapshot} (h : List.Forall₂ SourceReordered xs ys)
    (hc : ∀ x ∈ xs, ∀ d ∈ fe.namedOf x, ∀ u ∈ fe.inlineOf x, d.id ≠ u.id)
    (hi : ∀ x ∈ xs, ∀ u ∈ fe.inlineOf x, ∀ v ∈ fe.inlineOf x, u.id = v.id → u.core = v.core)
    {acc acc' : List Upstream} (ha : (acc.map Upstream.core).Perm (acc'.map Upstream.core)) :
    ((((xs.flatMap SourceSnapshot.items).flatMap fe.events).foldl (record Upstream.id) acc).map Upstream.core).Perm
      ((((ys.flatMap SourceSnapshot.items).flatMap fe.events).foldl (record Upstream.id) acc').map Upstream.core) := by
  induction h generalizing acc acc' with
  | nil => exact ha
  | @cons x y xs ys hxy _ ih =>
    simp only [List.flatMap_cons, List.flatMap_append, List.foldl_append]
    refine ih (fun z hz => hc z (List.mem_cons_of_mem x hz)) (fun z hz => hi z (List.mem_cons_of_mem x hz)) ?_
    refine KeepFirst.record_core_perm (fun u v => Upstream.id_of_core) ha ?_ ?_ ?_ ?_
    · rw [declared_events, declared_events]
      refine (hxy.items.flatMap_perm ?_).map Upstream.core
      intro a b hab
      rw [fe.upstreamDecoded_reordered hab]
    · rw [offered_events, offered_events]
      refine hxy.items.flatMap_perm ?_
      intro a b hab
      exact (fe.siteOutcome_reordered hab).inline
    · rw [declared_events, offered_events]
      exact hc x List.mem_cons_self
    · rw [offered_events]
      exact hi x List.mem_cons_self

theorem nodes_eq_items (s : Snapshot) : s.nodes = s.sources.flatMap SourceSnapshot.items := rfl

/-- The two passes see one configuration. -/
theorem pass_alike {s t : Snapshot} (h : s.Reordered t) (hc : fe.NoClash s)
    (hi : ∀ x ∈ s.sources, ∀ u ∈ fe.inlineOf x, ∀ v ∈ fe.inlineOf x, u.id = v.id → u.core = v.core) :
    hasErrors (s.nodes.foldl (Pass.step fe) .start).diagnostics =
        hasErrors (t.nodes.foldl (Pass.step fe) .start).diagnostics ∧
      (hasErrors (s.nodes.foldl (Pass.step fe) .start).diagnostics = false →
        (s.nodes.foldl (Pass.step fe) .start).global = (t.nodes.foldl (Pass.step fe) .start).global) ∧
      Shuffled SiteAlike (s.nodes.foldl (Pass.step fe) .start).sites (t.nodes.foldl (Pass.step fe) .start).sites ∧
      ((s.nodes.foldl (Pass.step fe) .start).upstreams.map Upstream.core).Perm
        ((t.nodes.foldl (Pass.step fe) .start).upstreams.map Upstream.core) := by
  have hp := fe.pass_summary s.nodes
  have hp' := fe.pass_summary t.nodes
  obtain ⟨hge, hgv⟩ := fe.global_perm (globals_perm h)
  have hany : ((s.nodes.filter fun i => !isGlobal i).any fun i => hasErrors (fe.itemSaid i)) =
      (t.nodes.filter fun i => !isGlobal i).any fun i => hasErrors (fe.itemSaid i) := by
    rw [List.any_filter, List.any_filter]
    refine h.nodes.any_eq ?_
    intro a b hab
    simp only [isGlobal_reordered hab, fe.itemSaid_reordered hab]
  refine ⟨?_, ?_, ?_, ?_⟩
  · rw [hp.errors, hp'.errors, hany, hge]
  · intro hclean
    rw [hp.errors, Bool.or_eq_false_iff] at hclean
    rw [hp.global, hp'.global, hgv hclean.2]
  · rw [hp.sites, hp'.sites]
    refine h.nodes.flatMap ?_
    intro a b hab
    have hv := (fe.siteOutcome_reordered hab).value
    generalize (fe.siteOutcome a).value = v at hv
    generalize (fe.siteOutcome b).value = v' at hv
    cases hv with
    | none => exact ⟨[], .refl _, .nil⟩
    | some hs => exact ⟨_, .refl _, .cons hs .nil⟩
  · rw [hp.upstreams, hp'.upstreams, nodes_eq_items, nodes_eq_items]
    exact fe.upstreams_perm h hc hi (.refl _)

theorem pass_kinded (items : List (SourceId × Node)) :
    ∀ site ∈ (items.foldl (Pass.step fe) .start).sites, site.Decoded fe := by
  intro site hs
  rw [(fe.pass_summary items).sites] at hs
  obtain ⟨item, _, hi⟩ := List.mem_flatMap.mp hs
  rw [Option.mem_toList] at hi
  unfold siteOutcome at hi
  split at hi
  · exact fe.site_decoded hi
  · cases hi

/-- What an operator can observe of a specification. -/
structure SameBehaviour (a b : Spec) : Prop where
  fingerprint : a.fingerprint fe.blake3 = b.fingerprint fe.blake3
  planHash : (compile fe.blake3 a fe.registry).planHash = (compile fe.blake3 b fe.registry).planHash
  tables : (compile fe.blake3 a fe.registry).listeners = (compile fe.blake3 b fe.registry).listeners
  resolve : ∀ (i : Nat) (request : RoutedRequest),
    ((compile fe.blake3 a fe.registry).listeners[i]?.map fun l => l.resolve fe.leaves request) =
      (compile fe.blake3 b fe.registry).listeners[i]?.map fun l => l.resolve fe.leaves request

/-- The same verdict, and the same behaviour where it is `Ok`. -/
def SameResult : Except Diagnostics Spec → Except Diagnostics Spec → Prop
  | .ok a, .ok b => fe.SameBehaviour a b
  | .error _, .error _ => True
  | _, _ => False

theorem Settled.sameBehaviour {a b : Spec} (h : a.Settled b) : fe.SameBehaviour a b := by
  have ht : (compile fe.blake3 a fe.registry).listeners = (compile fe.blake3 b fe.registry).listeners := h.listeners_eq
  refine ⟨h.fingerprint_eq fe.blake3, h.planHash_eq fe.blake3 fe.registry, ht, ?_⟩
  intro i request
  rw [ht]

/-- What is accepted: one `global`, no error in the pass and none in the checks. -/
theorem normalize_eq_ok {s : Snapshot} {spec : Spec} : normalize fe s = .ok spec ↔
    ∃ global listeners origin, (s.nodes.foldl (Pass.step fe) .start).global = some (global, listeners, origin) ∧
      hasErrors (s.nodes.foldl (Pass.step fe) .start).diagnostics = false ∧
      hasErrors (finishSpec fe ⟨global, listeners, (s.nodes.foldl (Pass.step fe) .start).sites,
        (s.nodes.foldl (Pass.step fe) .start).upstreams⟩).diagnostics = false ∧
      spec = (finishSpec fe ⟨global, listeners, (s.nodes.foldl (Pass.step fe) .start).sites,
        (s.nodes.foldl (Pass.step fe) .start).upstreams⟩).value := by
  unfold normalize
  dsimp only
  generalize s.nodes.foldl (Pass.step fe) .start = p
  cases p.global with
  | none => simp
  | some g =>
    obtain ⟨global, listeners, origin⟩ := g
    simp only [Option.some.injEq, Prod.mk.injEq, ↓existsAndEq, and_true, exists_eq_left',
      Diagnostics.hasErrors_append, Bool.or_eq_true]
    split
    · rename_i he
      obtain he | he := he
      · simp [he]
      · simp [he]
    · rename_i he
      simp only [not_or, Bool.not_eq_true] at he
      simp [he.1, he.2, eq_comm]

theorem sameResult_of {r r' : Except Diagnostics Spec} (h : ∀ a, r = .ok a → ∃ b, r' = .ok b ∧ fe.SameBehaviour a b)
    (h' : ∀ b, r' = .ok b → ∃ a, r = .ok a) : fe.SameResult r r' := by
  match r, r' with
  | .ok a, .ok b =>
    obtain ⟨b', hb, hs⟩ := h a rfl
    cases hb
    exact hs
  | .ok a, .error ds =>
    obtain ⟨b', hb, _⟩ := h a rfl
    cases hb
  | .error ds, .ok b =>
    obtain ⟨a, ha⟩ := h' b rfl
    cases ha
  | .error ds, .error ds' => trivial

/-- Without a clash, no order of a configuration is told from another. -/
theorem sameResult_of_noClash {s t : Snapshot} (h : s.Reordered t) (hc : fe.NoClash s)
    (hi : ∀ x ∈ s.sources, ∀ u ∈ fe.inlineOf x, ∀ v ∈ fe.inlineOf x, u.id = v.id → u.core = v.core) :
    fe.SameResult (normalize fe s) (normalize fe t) := by
  obtain ⟨he, hg, hs, hu⟩ := fe.pass_alike h hc hi
  have hk : ∀ site ∈ (s.nodes.foldl (Pass.step fe) .start).sites, site.Kinded := fun site hm =>
    (fe.pass_kinded s.nodes site hm).kinded
  have halike : ∀ global listeners, Spec.Alike
      ⟨global, listeners, (s.nodes.foldl (Pass.step fe) .start).sites, (s.nodes.foldl (Pass.step fe) .start).upstreams⟩
      ⟨global, listeners, (t.nodes.foldl (Pass.step fe) .start).sites, (t.nodes.foldl (Pass.step fe) .start).upstreams⟩ :=
    fun _ _ => ⟨rfl, rfl, hs, hu⟩
  refine fe.sameResult_of ?_ ?_
  · intro a ha
    obtain ⟨global, listeners, origin, hgl, hclean, hf, rfl⟩ := fe.normalize_eq_ok.mp ha
    obtain ⟨hfe, hset⟩ := finishSpec_alike fe (halike global listeners) hk
    exact ⟨_, fe.normalize_eq_ok.mpr ⟨global, listeners, origin, hg hclean ▸ hgl, he ▸ hclean, hfe ▸ hf, rfl⟩,
      Settled.sameBehaviour fe (hset hf)⟩
  · intro b hb
    obtain ⟨global, listeners, origin, hgl, hclean, hf, rfl⟩ := fe.normalize_eq_ok.mp hb
    obtain ⟨hfe, -⟩ := finishSpec_alike fe (halike global listeners) hk
    have hclean' := he.trans hclean
    exact ⟨_, fe.normalize_eq_ok.mpr ⟨global, listeners, origin, (hg hclean').trans hgl, hclean', hfe.trans hf, rfl⟩⟩

end Frontend

/-- Change contributions in place. -/
def Snapshot.update (s : Snapshot) (f : SourceSnapshot → SourceSnapshot) (hf : ∀ x, (f x).source = x.source) :
    Snapshot where
  map := s.map.map fun _ x => f x
  keyed := by
    intro id y h
    rw [ExtTreeMap.getElem?_map] at h
    obtain ⟨x, hx, rfl⟩ := Option.map_eq_some_iff.mp h
    rw [hf, s.keyed id x hx]

theorem Snapshot.sources_update (s : Snapshot) {f : SourceSnapshot → SourceSnapshot}
    (hf : ∀ x, (f x).source = x.source) : (s.update f hf).sources = s.sources.map f := by
  unfold sources update
  rw [ExtTreeMap.toList_map, List.map_map, List.map_map]
  rfl

/-- Declare one node of a source after all its others. -/
def moveLast (id : SourceId) (n : Node) (x : SourceSnapshot) : SourceSnapshot :=
  if x.source = id ∧ n ∈ x.nodes then { x with nodes := x.nodes.erase n ++ [n] } else x

theorem moveLast_source (id : SourceId) (n : Node) (x : SourceSnapshot) : (moveLast id n x).source = x.source := by
  unfold moveLast
  split <;> rfl

theorem moveLast_reordered (id : SourceId) (n : Node) (x : SourceSnapshot) : SourceReordered x (moveLast id n x) := by
  refine ⟨(moveLast_source id n x).symm, Shuffled.of_perm NodeReordered.refl ?_⟩
  unfold moveLast
  split
  · rename_i h
    exact (List.perm_cons_erase h.2).trans (List.perm_append_singleton n _).symm
  · exact .refl _

namespace Frontend

variable (fe : Frontend)

/-- What is recorded twice under one identity is rejected. -/
theorem rejected_of_duplicate {t : Snapshot} {l m : List Upstream} {d a : Upstream}
    (hu : (t.nodes.flatMap fe.events).foldl (record Upstream.id) [] = l ++ [d] ++ m) (ha : a ∈ l)
    (he : a.id = d.id) (spec : Spec) : normalize fe t ≠ .ok spec := by
  intro hok
  obtain ⟨global, listeners, origin, _, _, hf, _⟩ := fe.normalize_eq_ok.mp hok
  rw [(fe.pass_summary t.nodes).upstreams, hu] at hf
  simp only [finishSpec, Diagnostics.hasErrors_append, Bool.or_eq_false_iff] at hf
  obtain ⟨-, -, hn, -⟩ := (checkUniqueness_clean _).mp hf.1.1.2
  simp only [applyAutomaticTls, List.map_append, List.append_assoc] at hn
  have hdis := (List.nodup_append.mp hn).2.2
  refine hdis a.id.name (List.mem_map_of_mem ha) d.id.name ?_ (by rw [he])
  simp

/-- Declared last, an upstream meets the inline one that took its name. -/
theorem rejected_of_clash {s : Snapshot} {x : SourceSnapshot} (hx : x ∈ s.sources) {d u : Upstream}
    (hd : d ∈ fe.namedOf x) (hu : u ∈ fe.inlineOf x) (he : d.id = u.id) :
    ∃ t, s.Reordered t ∧ ∀ spec, normalize fe t ≠ .ok spec := by
  obtain ⟨item, hi, hdi⟩ := List.mem_flatMap.mp hd
  obtain ⟨n, hn, rfl⟩ := List.mem_map.mp hi
  obtain ⟨item', hi', hui⟩ := List.mem_flatMap.mp hu
  obtain ⟨m, hm, rfl⟩ := List.mem_map.mp hi'
  have hname : n.name = "upstream" := by
    unfold upstreamDecoded at hdi
    split at hdi
    · assumption
    · cases hdi
  have hsite : m.name = "site" := by
    unfold siteOutcome at hui
    split at hui
    · assumption
    · cases hui
  have hne : m ≠ n := by
    rintro rfl
    rw [hname] at hsite
    simp at hsite
  refine ⟨s.update (moveLast x.source n) (moveLast_source x.source n), ?_, ?_⟩
  · unfold Snapshot.Reordered
    rw [Snapshot.sources_update, List.forall₂_map_right_iff, List.forall₂_same]
    exact fun y _ => moveLast_reordered x.source n y
  · obtain ⟨pre, post, hsplit⟩ := List.append_of_mem hx
    have hself : (moveLast x.source n x).items = (x.nodes.erase n).map (fun k => (x.source, k)) ++ [(x.source, n)] := by
      simp [SourceSnapshot.items, moveLast, hn]
    have hevents : fe.events (x.source, n) = [.declare d] := by
      rw [Option.mem_toList] at hdi
      have hv : (fe.upstreamDecoded (x.source, n)).value = some d := hdi
      simp [events, hv, siteOutcome, hname, Yield.fail]
    have hoffer : u ∈ offered (((x.nodes.erase n).map fun k => (x.source, k)).flatMap fe.events) := by
      rw [offered_events, List.mem_flatMap]
      exact ⟨(x.source, m), List.mem_map_of_mem ((List.mem_erase_of_ne hne).mpr hm), hui⟩
    let before := ((pre.map (moveLast x.source n)).flatMap SourceSnapshot.items).flatMap fe.events
    let own := ((x.nodes.erase n).map fun k => (x.source, k)).flatMap fe.events
    let after := ((post.map (moveLast x.source n)).flatMap SourceSnapshot.items).flatMap fe.events
    have hall : ((s.update (moveLast x.source n) (moveLast_source x.source n)).nodes.flatMap fe.events) =
        before ++ own ++ [.declare d] ++ after := by
      rw [nodes_eq_items, Snapshot.sources_update, hsplit]
      simp only [List.map_append, List.map_cons, List.flatMap_append, List.flatMap_cons, hself, hevents,
        List.flatMap_nil, List.append_nil, List.append_assoc, before, own, after]
    obtain ⟨a, ha, hae⟩ := @KeepFirst.key_of_offered _ _ _ Upstream.id _ _ hoffer (before.foldl (record Upstream.id) [])
    obtain ⟨more, hmore⟩ := @KeepFirst.record_append _ _ _ Upstream.id after (own.foldl (record Upstream.id)
      (before.foldl (record Upstream.id) []) ++ [d])
    refine fe.rejected_of_duplicate (l := own.foldl (record Upstream.id) (before.foldl (record Upstream.id) []))
      (m := more) (d := d) ?_ ha (hae.trans he.symm)
    rw [hall, List.foldl_append, List.foldl_append, List.foldl_append, List.foldl_cons, List.foldl_nil]
    exact hmore

/-- Declaration order never decides behaviour, unless a source names an upstream by
the identity that one of its inline upstreams derives; a configuration that every
order rejects has no behaviour to compare. -/
theorem declaration_order_iff (s : Snapshot) {D : Set (List UInt8)} (h : fe.Apart s D) :
    (∀ t, s.Reordered t → fe.SameResult (normalize fe s) (normalize fe t)) ↔
      (fe.NoClash s ∨ ∀ t, s.Reordered t → ∀ spec, normalize fe t ≠ .ok spec) := by
  constructor
  · intro hsame
    by_cases hc : fe.NoClash s
    · exact Or.inl hc
    · right
      unfold NoClash at hc
      push Not at hc
      obtain ⟨x, hx, d, hd, u, hu, he⟩ := hc
      obtain ⟨t₀, hr₀, hrej⟩ := fe.rejected_of_clash hx hd hu he
      have hs : ∀ spec, normalize fe s ≠ .ok spec := by
        intro spec hok
        have h₀ := hsame t₀ hr₀
        rw [hok] at h₀
        cases hn : normalize fe t₀ with
        | ok spec₀ => exact hrej spec₀ hn
        | error ds =>
          rw [hn] at h₀
          exact h₀
      intro t ht spec hok
      have h₁ := hsame t ht
      rw [hok] at h₁
      cases hn : normalize fe s with
      | ok spec₀ => exact hs spec₀ hn
      | error ds =>
        rw [hn] at h₁
        exact h₁
  · rintro (hc | hrej) t ht
    · exact fe.sameResult_of_noClash ht hc h.core
    · have hself : s.Reordered s := List.forall₂_same.mpr fun x _ =>
        ⟨rfl, Shuffled.of_perm NodeReordered.refl (.refl _)⟩
      cases hs : normalize fe s with
      | ok spec => exact absurd hs (hrej s hself spec)
      | error ds =>
        cases ht' : normalize fe t with
        | ok spec => exact absurd ht' (hrej t ht spec)
        | error ds' => trivial

end Frontend

/-! A configuration of one site that proxies to one address. -/

namespace Frontend.Sample

def here : Origin := .synthetic "sample"

def text (s : String) : Value := ⟨.str s, here⟩

def node (name : String) (args : List String) (children : List Node) : Node := ⟨name, args.map text, [], children, here⟩

def socket (a b c d : UInt8) (port : UInt16) : SocketAddr := ⟨.v4 #v[a, b, c, d], port, 0, fun _ => rfl⟩

def leaves : Leaves where
  routingPath := some
  parseIp _ := none
  parseSocket s :=
    if s = "0.0.0.0:8080" then some (socket 0 0 0 0 8080)
    else if s = "127.0.0.1:9000" then some (socket 127 0 0 1 9000) else none
  parseDuration text := .error ("`" ++ text ++ "` is not a duration")
  showDuration nanos := toString nanos ++ "ns"

/-- `endpoint` with its defaults. -/
def endpointNode (n : Node) : Decode EndpointNode :=
  match n.args.head?.bind Value.asStr with
  | some address => .ok ⟨address, none, 1, I32.zero⟩
  | none => .fail (.error .argumentCount n.origin "`endpoint` needs an address")

def absent {α : Type} (n : Node) : Decode α := .fail (.error .unknownNode n.origin "not written here")

/-- Surroundings with the given digest and no directives. -/
def frontend (blake3 : Digest) : Frontend where
  blake3 := blake3
  registry := ⟨[], [], .nil⟩
  leaves := leaves
  upstreamNodes := ⟨endpointNode, absent, absent, absent, absent, absent, absent⟩
  blockingNode := absent
  limitsNode := absent
  reloadDrainNode := absent
  logNode := absent
  acmeNode := absent

/-- A digest given by the value its bytes have, least significant first. -/
def digest (n : Nat) : Fingerprint := ⟨LittleEndian.bytes 32 n, LittleEndian.length_bytes 32 n⟩

def words (l : List String) : List UInt8 := (l.foldl Hasher.updateStr .new).written

def endpoint : Endpoint := ⟨"127.0.0.1:9000", .address (socket 127 0 0 1 9000), 1, I32.zero, here⟩

def endpointDigest : Fingerprint := digest 0x11582824bf8c37b7fc078fbc49d20855c9b961276b2da418250a3a31a3648f04

/-- The inline upstream as it is first decoded, under the identity of its address. -/
def seed : Upstream where
  endpoints := [endpoint]
  balance := .roundRobin
  timeouts := .default
  pool := .default
  retry := none
  health := none
  passiveHealth := none
  protocol := .http1
  tls := none
  resolve := .default
  origin := here
  id := ⟨.upstream, "@4631e8b4abf65ddb"⟩
  owner := .file "gatel.kdl"

/-- The digests of everything this configuration hashes on its way to a spec. -/
def table : List (List UInt8 × Fingerprint) :=
  [(words ["site", "example.com"], digest 0xdadb29f7f4c9c152e5406c7557d56d32e0517fd28fe43685ed5a61641ce21e88),
    (words ["upstream", "@881ee21c64615aed", "127.0.0.1:9000"],
      digest 0x4cd56f2b0f24491e81394d5a3c8a1e14737091069e349d8ddb5df6abb4e83146),
    ((endpoint.hashInto .new).written, endpointDigest),
    ((seed.hashInto (fun _ => endpointDigest) (Hasher.new.updateStr "inline-upstream-policy-v1")).written,
      digest 0xf0a74888a08a94f954afcfdb66bcff469c83b7f71dcea1d5109c6244940f33b4),
    (words ["upstream", "@881ee21c64615aed", "b4330f9444629c10d5a1ce1df7b7839c46ffbc66dbcfaf54f9948aa08848a7f0"],
      digest 0xf5f248f59d32fac422597a57b2c74ddfae96e0d9052d0313ab75df50f3f3b923),
    (words ["route", "@881ee21c64615aed", "example.com", "*", "/"],
      digest 0x378a5f4aef0a9f0bde441464ba40a5ee806556585c4fc4f4c5b01ebeaf6f6222)]

def fe : Frontend := frontend fun w => (table.lookup w).getD .zero

def globalNode : Node := node "global" [] [node "http" [":8080"] []]

def siteNode : Node := node "site" ["example.com"] [node "route" ["/"] [node "proxy" ["127.0.0.1:9000"] []]]

/-- Named by the identity that the site's own `proxy` derives. -/
def upstreamNode : Node := node "upstream" ["@23b9f3f350df75ab"] [node "endpoint" ["127.0.0.1:9000"] []]

def source (nodes : List Node) : SourceSnapshot := ⟨.file "gatel.kdl", 1, .zero, nodes⟩

def snapshot (nodes : List Node) : Snapshot := .ofSources [source nodes]

def accepted (r : Except Diagnostics Spec) : Bool :=
  match r with
  | .ok _ => true
  | .error _ => false

theorem not_sameResult {fe : Frontend} {r r' : Except Diagnostics Spec} (h : accepted r = true)
    (h' : accepted r' = false) : ¬ fe.SameResult r r' := by
  intro hsame
  cases r with
  | error ds => cases h
  | ok a =>
    cases r' with
    | error ds => exact hsame
    | ok b => cases h'

/-- The inline upstream under its own identity. -/
def named : Upstream := { seed with id := ⟨.upstream, "@23b9f3f350df75ab"⟩ }

/-- Pairwise distinct digests keep what a table hashes apart. -/
theorem lookup_inj {table : List (List UInt8 × Fingerprint)} (h : (table.map Prod.snd).Nodup) :
    ∀ x ∈ table.map Prod.fst, ∀ y ∈ table.map Prod.fst,
      (table.lookup x).getD .zero = (table.lookup y).getD .zero → x = y := by
  have hentry : ∀ x ∈ table.map Prod.fst, (x, (table.lookup x).getD .zero) ∈ table := by
    clear h
    intro x hx
    induction table with
    | nil => cases hx
    | cons entry rest ih =>
      obtain ⟨key, value⟩ := entry
      by_cases he : x = key
      · subst he
        simp
      · have hrest : x ∈ rest.map Prod.fst := by simpa [he] using hx
        have hb : (x == key) = false := beq_false_of_ne he
        rw [List.lookup_cons, hb]
        exact List.mem_cons_of_mem _ (ih hrest)
  intro x hx y hy he
  exact congrArg Prod.fst (List.inj_on_of_nodup_map h (hentry x hx) (hentry y hy) he)

theorem sources_snapshot (nodes : List Node) : (snapshot nodes).sources = [source nodes] := rfl

/-- Only a site derives upstreams. -/
theorem inlineOf_upstream (nodes : List Node) :
    fe.inlineOf (source (globalNode :: upstreamNode :: nodes)) = fe.inlineOf (source (globalNode :: nodes)) := rfl

/-- What is hashed, and what comes of it: the `proxy` of the site derives the one upstream, and
the upstream that is named like it is accepted in front of the site and refused behind it. -/
theorem evaluated : ((table.map Prod.snd).Nodup ∧ (∀ x ∈ table.map Prod.fst, x.length < 2 ^ 64) ∧
      (named.hashInto fe.blake3 .new).written.length < 2 ^ 64 ∧
      (endpoint.hashInto .new).written ∈ table.map Prod.fst) ∧
    fe.inlineOf (source [globalNode, siteNode]) = [named] ∧
    accepted (normalize fe (snapshot [globalNode, upstreamNode, siteNode])) = true ∧
    accepted (normalize fe (snapshot [globalNode, siteNode, upstreamNode])) = false := by
  refine ⟨?_, ?_, ?_, ?_⟩
  all_goals decide +kernel

/-- What this configuration hashes is kept apart. -/
theorem apart {nodes : List Node} (h : fe.inlineOf (source nodes) = [named]) :
    fe.Apart (snapshot nodes) {w | w ∈ table.map Prod.fst} := by
  obtain ⟨hnodup, hshort, hlen, hendpoint⟩ := evaluated.1
  refine ⟨⟨fun x hx y hy => lookup_inj hnodup x hx y hy, hshort⟩, ?_, ?_, ?_⟩
  all_goals
    intro x hx u hu
    rw [sources_snapshot, List.mem_singleton] at hx
    subst hx
    rw [h, List.mem_singleton] at hu
    subst hu
  · refine ⟨?_, fun p hp => by cases hp⟩
    intro e he
    obtain rfl := List.mem_singleton.mp he
    exact hendpoint
  · exact hlen
  · intro v hv _
    rw [h, List.mem_singleton] at hv
    rw [hv]

end Frontend.Sample

open Frontend.Sample in
/-- One site and one `proxy`, in both orders. -/
theorem Frontend.declaration_order_sample :
    fe.SameResult (normalize fe (snapshot [globalNode, siteNode])) (normalize fe (snapshot [siteNode, globalNode])) := by
  have hn : fe.namedOf (source [globalNode, siteNode]) = [] := by decide
  have hc : fe.NoClash (snapshot [globalNode, siteNode]) := by
    intro x hx d hd
    rw [sources_snapshot, List.mem_singleton] at hx
    rw [hx, hn] at hd
    cases hd
  have hr : (snapshot [globalNode, siteNode]).Reordered (snapshot [siteNode, globalNode]) := by
    unfold Snapshot.Reordered
    rw [sources_snapshot, sources_snapshot]
    exact .cons ⟨rfl, Shuffle.Shuffled.of_perm NodeReordered.refl (.swap _ _ _)⟩ .nil
  have ha : fe.Apart (snapshot [globalNode, siteNode]) {w | w ∈ table.map Prod.fst} := apart evaluated.2.1
  generalize snapshot [globalNode, siteNode] = s at hc hr ha ⊢
  generalize snapshot [siteNode, globalNode] = t at hr ⊢
  exact (declaration_order_iff fe s ha).mpr (Or.inl hc) t hr

open Frontend.Sample in
/-- An upstream named by the identity its source's `proxy` derives is shared when it
comes first and a duplicate when it comes last. -/
theorem Frontend.declaration_order_decides :
    fe.Apart (snapshot [globalNode, upstreamNode, siteNode]) {w | w ∈ table.map Prod.fst} ∧
      (snapshot [globalNode, upstreamNode, siteNode]).Reordered (snapshot [globalNode, siteNode, upstreamNode]) ∧
      ¬ fe.SameResult (normalize fe (snapshot [globalNode, upstreamNode, siteNode]))
        (normalize fe (snapshot [globalNode, siteNode, upstreamNode])) := by
  obtain ⟨-, hi, hok, hno⟩ := evaluated
  refine ⟨apart ((inlineOf_upstream [siteNode]).trans hi), ?_, not_sameResult hok hno⟩
  unfold Snapshot.Reordered
  rw [sources_snapshot, sources_snapshot]
  exact .cons ⟨rfl, Shuffle.Shuffled.of_perm NodeReordered.refl (.cons _ (.swap _ _ _))⟩ .nil

end Gatel
