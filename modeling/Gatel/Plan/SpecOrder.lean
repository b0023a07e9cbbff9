import Gatel.Plan.Compile
import Gatel.Plan.SiteOrder

namespace Gatel
open CanonicalSort (sortBy sortBy_eq_of_perm map_sortBy transCmp_on)
open Diagnostics (hasErrors)
open Frontend (SiteAlike)
open Shuffle (Shuffled)
open Std (TransCmp LawfulEqOrd)

instance (host : HostMatch) : TransCmp (compareRoutes host) := by
  have h₁ : TransCmp fun _ _ : Route => comparePair host.specificity host.specificity :=
    transCmp_on fun _ => host.specificity
  have h₂ : TransCmp fun a b : Route => comparePair a.path.specificity b.path.specificity :=
    transCmp_on fun a : Route => a.path.specificity
  have h₃ : TransCmp fun a b : Route => compare b.methods.specificity a.methods.specificity :=
    @TransCmp.opposite _ _ (transCmp_on fun a : Route => a.methods.specificity)
  have h₄ : TransCmp fun a b : Route => compare b.matchers.length a.matchers.length :=
    @TransCmp.opposite _ _ (transCmp_on fun a : Route => a.matchers.length)
  have he : compareRoutes host = compareLex (fun _ _ : Route => comparePair host.specificity host.specificity)
      (compareLex (fun a b : Route => comparePair a.path.specificity b.path.specificity)
        (compareLex (fun a b : Route => compare b.methods.specificity a.methods.specificity)
          (compareLex (fun a b : Route => compare b.matchers.length a.matchers.length)
            (compareOn fun r : Route => r.id.name)))) := by
    funext a b
    simp only [compareRoutes, compareSpecificity, compareLex, compareOn, Ordering.then_assoc]
  rw [he]
  infer_instance

instance : TransCmp compareSites := by
  have h₁ : TransCmp fun a b : Site => comparePair a.host.specificity b.host.specificity :=
    transCmp_on fun a : Site => a.host.specificity
  exact inferInstanceAs (TransCmp (compareLex
    (fun a b : Site => comparePair a.host.specificity b.host.specificity) (compareOn fun s : Site => s.id.name)))

theorem name_eq_of_compareRoutes {host : HostMatch} {a b : Route} (h : compareRoutes host a b = .eq) :
    a.id.name = b.id.name := LawfulEqOrd.eq_of_compare (Ordering.then_eq_eq.mp h).2

theorem name_eq_of_compareSites {a b : Site} (h : compareSites a b = .eq) : a.id.name = b.id.name :=
  LawfulEqOrd.eq_of_compare (Ordering.then_eq_eq.mp h).2

/-- Identities carry the kind of their resource. -/
structure Site.Kinded (s : Site) : Prop where
  site : s.id.kind = .site
  routes : ∀ r ∈ s.routes, r.id.kind = .route

theorem ResourceId.ext_name {a b : ResourceId} (hk : a.kind = b.kind) (hn : a.name = b.name) : a = b := by
  cases a; cases b; simp_all

/-- A site's routes sort to one list, whatever order they were declared in. -/
theorem sortSite_alike {a b : Site} (h : SiteAlike a b) (hk : a.Kinded) (hn : (a.routes.map Route.id).Nodup) :
    sortSite a = sortSite b := by
  obtain ⟨hb, hp⟩ := h
  have hs : sortBy (compareRoutes a.host) a.routes = sortBy (compareRoutes a.host) b.routes := by
    refine sortBy_eq_of_perm hp ?_
    intro r hr r' hr' he
    refine List.inj_on_of_nodup_map hn hr hr' ?_
    exact ResourceId.ext_name ((hk.routes r hr).trans (hk.routes r' hr').symm) (name_eq_of_compareRoutes he)
  have hh : b.host = a.host := by rw [hb]
  unfold sortSite
  rw [hh, ← hs, hb]

/-- Sites that are alike up to the order of routes sort to one table. -/
theorem sortSites_alike {sites sites' : List Site} (h : Shuffled SiteAlike sites sites')
    (hk : ∀ s ∈ sites, s.Kinded) (hs : (sites.map Site.id).Nodup)
    (hr : ((sites.flatMap Site.routes).map Route.id).Nodup) :
    sortBy compareSites (sites.map sortSite) = sortBy compareSites (sites'.map sortSite) := by
  have hroutes : ∀ s ∈ sites, (s.routes.map Route.id).Nodup := by
    intro s hm
    rw [List.map_flatMap] at hr
    exact (List.nodup_flatMap.mp hr).1 s hm
  have hp : (sites.map sortSite).Perm (sites'.map sortSite) := by
    obtain ⟨m, hm, hf⟩ := h
    refine (hm.map sortSite).trans (List.Perm.of_eq ?_)
    have hall : ∀ s ∈ m, s.Kinded ∧ (s.routes.map Route.id).Nodup := fun s hs =>
      ⟨hk s (hm.mem_iff.mpr hs), hroutes s (hm.mem_iff.mpr hs)⟩
    clear hm
    induction hf with
    | nil => rfl
    | @cons a b m l hab _ ih =>
      obtain ⟨hak, han⟩ := hall a List.mem_cons_self
      rw [List.map_cons, List.map_cons, sortSite_alike hab hak han,
        ih fun s hs => hall s (List.mem_cons_of_mem a hs)]
  refine sortBy_eq_of_perm hp ?_
  intro x hx y hy he
  obtain ⟨a, ha, rfl⟩ := List.mem_map.mp hx
  obtain ⟨b, hb, rfl⟩ := List.mem_map.mp hy
  have hn : a.id.name = b.id.name := name_eq_of_compareSites he
  have hid := ResourceId.ext_name ((hk a ha).site.trans (hk b hb).site.symm) hn
  rw [List.inj_on_of_nodup_map hs ha hb hid]

theorem automaticTls_alike (leaves : Leaves) (listeners : List Listener) {a b : Site} (h : SiteAlike a b) :
    SiteAlike (automaticTls leaves listeners a).value (automaticTls leaves listeners b).value ∧
      hasErrors (automaticTls leaves listeners a).diagnostics =
        hasErrors (automaticTls leaves listeners b).diagnostics := by
  obtain ⟨hb, hp⟩ := h
  generalize b.routes = routes at hb hp
  subst hb
  unfold automaticTls
  dsimp only
  generalize (_ || _ || _ || _) = plain
  cases plain with
  | true => exact ⟨⟨rfl, hp⟩, rfl⟩
  | false =>
    cases a.host.localName leaves with
    | none => exact ⟨⟨rfl, hp⟩, rfl⟩
    | some name => exact ⟨⟨rfl, hp⟩, rfl⟩

/-- Two specs of one configuration in two orders. -/
structure Spec.Alike (a b : Spec) : Prop where
  global : a.global = b.global
  listeners : a.listeners = b.listeners
  sites : Shuffled SiteAlike a.sites b.sites
  upstreams : (a.upstreams.map Upstream.core).Perm (b.upstreams.map Upstream.core)

namespace Spec.Alike

variable {a b : Spec}

theorem listenersFor_eq (h : a.Alike b) {s s' : Site} (hs : SiteAlike s s') :
    a.listenersFor s = b.listenersFor s' := by
  have hl : s'.listeners = s.listeners := by rw [hs.1]
  have ht : s'.tls = s.tls := by rw [hs.1]
  unfold Spec.listenersFor Spec.listener
  rw [h.listeners, hl, ht]

theorem upstreamIds_perm (h : a.Alike b) :
    (a.upstreams.map fun u => u.id).Perm (b.upstreams.map fun u => u.id) := by
  have hp := h.upstreams.map fun c : Upstream.Core => c.id
  simpa [List.map_map, Function.comp_def, Upstream.core] using hp

theorem upstream_isNone (h : a.Alike b) (id : ResourceId) :
    (a.upstream id).isNone = (b.upstream id).isNone := by
  have hm := h.upstreamIds_perm.mem_iff (a := id)
  have key : ∀ c : Spec, (c.upstream id).isNone = true ↔ id ∉ c.upstreams.map fun u => u.id := by
    intro c
    simp [Spec.upstream, List.find?_eq_none]
  rw [Bool.eq_iff_iff, key, key, hm]

theorem unknownUpstream_isError (spec : Spec) (upstream : ResourceId) (origin : Origin) :
    (unknownUpstream spec upstream origin).isError = true := by
  unfold unknownUpstream
  dsimp only
  split
  · rfl
  · split <;> rfl

theorem checkDirective_eq (h : a.Alike b) (d : DirectiveInstance) :
    hasErrors (checkDirectiveUpstreams a d) = hasErrors (checkDirectiveUpstreams b d) := by
  have he : ∀ c : Spec, hasErrors (checkDirectiveUpstreams c d) =
      d.config.upstreams.any fun u => (c.upstream u).isNone := by
    intro c
    unfold checkDirectiveUpstreams
    rw [hasErrors, List.any_map, List.any_filter]
    refine List.any_congr rfl fun u => ?_
    simp [unknownUpstream_isError]
  rw [he, he]
  simp only [h.upstream_isNone]

theorem checkRoute_eq (h : a.Alike b) (r : Route) :
    hasErrors (checkRoute a r) = hasErrors (checkRoute b r) := by
  simp only [checkRoute, Diagnostics.hasErrors_append, Diagnostics.hasErrors_flatMap, h.checkDirective_eq]
  congr 1
  cases r.terminal with
  | directive d => rfl
  | proxy upstream =>
    dsimp only
    rw [h.upstream_isNone]
    cases (b.upstream upstream).isNone with
    | true => simp [unknownUpstream_isError]
    | false => rfl

theorem checkSite_eq (h : a.Alike b) {s s' : Site} (hs : SiteAlike s s') :
    hasErrors (checkSite a s) = hasErrors (checkSite b s') := by
  have hserved := h.listenersFor_eq hs
  obtain ⟨hb, hp⟩ := hs
  generalize hr : s'.routes = routes at hb hp
  subst hb
  have hroutes : (s.routes.any fun r => hasErrors (checkRoute a r)) =
      routes.any fun r => hasErrors (checkRoute b r) := by
    rw [hp.any_eq]
    simp only [h.checkRoute_eq]
  have hunknown : unknownListener a s = unknownListener b { s with routes := routes } := by
    funext name
    simp only [unknownListener, h.listeners]
  simp only [checkSite, checkServed, Diagnostics.hasErrors_append, Diagnostics.hasErrors_flatMap,
    h.checkDirective_eq, hroutes, hserved, hunknown, h.listeners]

theorem checkAcme_eq (h : a.Alike b) {s s' : Site} (hs : SiteAlike s s') :
    checkAcme a s = checkAcme b s' := by
  obtain ⟨hb, hp⟩ := hs
  generalize s'.routes = routes at hb hp
  subst hb
  simp only [checkAcme, h.global]

theorem checkReferences_eq (h : a.Alike b) :
    hasErrors (checkReferences a) = hasErrors (checkReferences b) := by
  have hacme : (a.sites.any fun s => hasErrors (checkAcme a s)) = b.sites.any fun s => hasErrors (checkAcme b s) :=
    h.sites.any_eq fun s s' hs => congrArg hasErrors (h.checkAcme_eq hs)
  have hsite : (a.sites.any fun s => hasErrors (checkSite a s)) = b.sites.any fun s => hasErrors (checkSite b s) :=
    h.sites.any_eq fun s s' hs => h.checkSite_eq hs
  simp only [checkReferences, checkProxyProtocol, Diagnostics.hasErrors_append, Diagnostics.hasErrors_flatMap,
    hacme, hsite, h.global, h.listeners]

theorem checkClaims_alike {s s' : Site} (hs : SiteAlike s s') :
    hasErrors (checkClaims s) = hasErrors (checkClaims s') := by
  have hh : s'.host = s.host := by rw [hs.1]
  have hp := hs.2.map (Route.claim s.host)
  have hiff : hasErrors (checkClaims s) = false ↔ hasErrors (checkClaims s') = false := by
    rw [checkClaims_clean, checkClaims_clean, hh, hp.nodup_iff]
  rw [Bool.eq_iff_iff, ← not_iff_not, Bool.not_eq_true, Bool.not_eq_true, hiff]

/-- Nothing an accepted configuration must not repeat depends on the order. -/
theorem checkUniqueness_eq (h : a.Alike b) :
    hasErrors (checkUniqueness a) = hasErrors (checkUniqueness b) := by
  have hids : (a.sites.map Site.id).Perm (b.sites.map Site.id) := by
    refine h.sites.map_perm ?_
    intro s s' hs
    rw [hs.1]
  have hroutes : ((a.sites.flatMap Site.routes).map Route.id).Perm ((b.sites.flatMap Site.routes).map Route.id) :=
    (h.sites.flatMap_perm fun s s' hs => hs.2).map Route.id
  have hnames : (a.upstreams.map fun u => u.id.name).Perm (b.upstreams.map fun u => u.id.name) := by
    have hp := h.upstreamIds_perm.map ResourceId.name
    simpa [List.map_map, Function.comp_def] using hp
  have hclaims : (∀ s ∈ a.sites, (s.routes.map (Route.claim s.host)).Nodup) ↔
      ∀ s ∈ b.sites, (s.routes.map (Route.claim s.host)).Nodup := by
    have hany : (a.sites.any fun s => hasErrors (checkClaims s)) = b.sites.any fun s => hasErrors (checkClaims s) :=
      h.sites.any_eq fun s s' hs => checkClaims_alike hs
    simpa only [List.any_eq_true, not_exists, not_and, Bool.not_eq_true, checkClaims_clean]
      using not_congr (Bool.eq_iff_iff.mp hany)
  have hclean : hasErrors (checkUniqueness a) = false ↔ hasErrors (checkUniqueness b) = false := by
    rw [checkUniqueness_clean, checkUniqueness_clean, hids.nodup_iff, hroutes.nodup_iff, hnames.nodup_iff, hclaims,
      h.listeners]
  rw [Bool.eq_iff_iff, ← not_iff_not, Bool.not_eq_true, Bool.not_eq_true, hclean]

theorem applyAutomaticTls (leaves : Leaves) (h : a.Alike b) :
    (applyAutomaticTls leaves a).value.Alike (applyAutomaticTls leaves b).value ∧
      hasErrors (Gatel.applyAutomaticTls leaves a).diagnostics =
        hasErrors (Gatel.applyAutomaticTls leaves b).diagnostics := by
  refine ⟨⟨h.global, h.listeners, ?_, h.upstreams⟩, ?_⟩
  · simp only [Gatel.applyAutomaticTls, List.map_map, h.listeners]
    refine h.sites.map ?_
    intro s s' hs
    exact (automaticTls_alike leaves b.listeners hs).1
  · simp only [Gatel.applyAutomaticTls, List.flatMap_map, Diagnostics.hasErrors_flatMap, h.listeners]
    refine h.sites.any_eq ?_
    intro s s' hs
    exact (automaticTls_alike leaves b.listeners hs).2

end Spec.Alike

/-- Only an inferred certificate is ever added to a site. -/
theorem automaticTls_value (leaves : Leaves) (listeners : List Listener) (s : Site) :
    (automaticTls leaves listeners s).value = s ∨
      (automaticTls leaves listeners s).value = { s with tls := some ⟨.internal, none, true⟩ } := by
  unfold automaticTls
  dsimp only
  generalize (_ || _ || _ || _) = plain
  cases plain with
  | true => exact Or.inl rfl
  | false =>
    cases s.host.localName leaves with
    | none => exact Or.inl rfl
    | some name => exact Or.inr rfl

theorem automaticTls_kinded (leaves : Leaves) (listeners : List Listener) {s : Site} (h : s.Kinded) :
    (automaticTls leaves listeners s).value.Kinded := by
  obtain he | he := automaticTls_value leaves listeners s
  · rw [he]
    exact h
  · rw [he]
    exact ⟨h.site, h.routes⟩

/-- Two specs that differ in nothing a fingerprint or a routing decision reads. -/
structure Spec.Settled (a b : Spec) : Prop where
  global : a.global = b.global
  listeners : a.listeners = b.listeners
  sites : a.sites = b.sites
  upstreams : a.upstreams.map Upstream.core = b.upstreams.map Upstream.core

/-- Without a repeated identity the canonical order is the same for both. -/
theorem Spec.Alike.sortRoutes {a b : Spec} (h : a.Alike b) (hk : ∀ s ∈ a.sites, s.Kinded)
    (hu : hasErrors (checkUniqueness a) = false) : (sortRoutes a).Settled (sortRoutes b) := by
  obtain ⟨⟨hs, hr⟩, -, hn, -⟩ := (checkUniqueness_clean a).mp hu
  refine ⟨h.global, ?_, sortSites_alike h.sites hk hs hr, ?_⟩
  · simp only [Gatel.sortRoutes, h.listeners]
  · have hcmp : ∀ u v : Upstream, compareOn (fun u : Upstream => u.id.name) u v =
        compareOn (fun c : Upstream.Core => c.id.name) u.core v.core := fun _ _ => rfl
    simp only [Gatel.sortRoutes]
    rw [map_sortBy _ hcmp, map_sortBy _ hcmp]
    refine sortBy_eq_of_perm h.upstreams ?_
    intro c hc d hd he
    obtain ⟨u, hu, rfl⟩ := List.mem_map.mp hc
    obtain ⟨v, hv, rfl⟩ := List.mem_map.mp hd
    rw [List.inj_on_of_nodup_map hn hu hv (LawfulEqOrd.eq_of_compare he)]

/-- The checks of the whole configuration, and what they let through. -/
theorem finishSpec_alike (fe : Frontend) {a b : Spec} (h : a.Alike b) (hk : ∀ s ∈ a.sites, s.Kinded) :
    hasErrors (finishSpec fe a).diagnostics = hasErrors (finishSpec fe b).diagnostics ∧
      (hasErrors (finishSpec fe a).diagnostics = false →
        (finishSpec fe a).value.Settled (finishSpec fe b).value) := by
  obtain ⟨ht, he⟩ := h.applyAutomaticTls fe.leaves
  have hu := ht.checkUniqueness_eq
  have hr := ht.checkReferences_eq
  have hk' : ∀ s ∈ (applyAutomaticTls fe.leaves a).value.sites, s.Kinded := by
    intro s hs
    simp only [applyAutomaticTls, List.map_map, List.mem_map, Function.comp_apply] at hs
    obtain ⟨t, ht, rfl⟩ := hs
    exact automaticTls_kinded fe.leaves a.listeners (hk t ht)
  unfold finishSpec
  dsimp only
  cases hclean : hasErrors (checkUniqueness (applyAutomaticTls fe.leaves a).value) with
  | true => simp [hclean, ← hu]
  | false =>
    have hset := ht.sortRoutes hk' hclean
    refine ⟨?_, fun _ => hset⟩
    simp only [Diagnostics.hasErrors_append, he, hu, hr, hset.sites]

namespace Spec.Settled

variable {a b : Spec}

/-- What is read of every upstream through its core is the same list. -/
theorem map_upstreams {β : Type} (h : a.Settled b) {f : Upstream → β}
    (hf : ∀ u v : Upstream, u.core = v.core → f u = f v) : a.upstreams.map f = b.upstreams.map f := by
  have hall : ∀ {l l' : List Upstream}, l.map Upstream.core = l'.map Upstream.core → l.map f = l'.map f := by
    intro l
    induction l with
    | nil =>
      intro l' he
      rw [List.map_eq_nil_iff.mp he.symm]
    | cons u l ih =>
      intro l' he
      cases l' with
      | nil => cases he
      | cons v l' =>
        simp only [List.map_cons, List.cons.injEq] at he ⊢
        exact ⟨hf u v he.1, ih he.2⟩
  exact hall h.upstreams

theorem fingerprint_eq (h : a.Settled b) (blake3 : Digest) : a.fingerprint blake3 = b.fingerprint blake3 := by
  have hu : a.upstreams.map (fun u => u.hashInto blake3 (Hasher.new.updateStr u.owner.display)) =
      b.upstreams.map fun u => u.hashInto blake3 (Hasher.new.updateStr u.owner.display) := by
    refine h.map_upstreams ?_
    intro u v he
    rw [Upstream.owner_of_core he]
    exact Upstream.hashInto_core blake3 he _
  have hs : ∀ g, Hasher.updateUnordered blake3 a.upstreams
        (fun u h => u.hashInto blake3 (h.updateStr u.owner.display)) g =
      Hasher.updateUnordered blake3 b.upstreams (fun u h => u.hashInto blake3 (h.updateStr u.owner.display)) g :=
    fun g => Hasher.updateUnordered_congr (.of_eq hu) g
  simp only [Spec.fingerprint, h.global, h.listeners, h.sites, hs]

theorem transportHash_core (blake3 : Digest) {u v : Upstream} (h : u.core = v.core) :
    transportHash blake3 u = transportHash blake3 v := by
  have hp := Upstream.endpoints_map_perm h fun c => (Hasher.new.updateStr c.1).updateStr c.2.1
  have hproto : u.protocol = v.protocol := congrArg Upstream.Core.protocol h
  have he : Hasher.new.updateUnordered blake3 u.endpoints (fun e h => (h.updateStr e.id).updateStr e.target.describe) =
      Hasher.new.updateUnordered blake3 v.endpoints fun e h => (h.updateStr e.id).updateStr e.target.describe :=
    Hasher.updateUnordered_congr hp Hasher.new
  simp only [transportHash, he, hproto, Upstream.updateOption_tls h]

theorem upstreamBindings_core (blake3 : Digest) {u v : Upstream} (h : u.core = v.core) :
    upstreamBindings blake3 u = upstreamBindings blake3 v := by
  have hb : u.balance.describe = v.balance.describe := congrArg Upstream.Core.balance h
  have hh : u.health = v.health := congrArg Upstream.Core.health h
  have hp : u.passiveHealth = v.passiveHealth := congrArg Upstream.Core.passiveHealth h
  unfold upstreamBindings
  simp only [Balance.hashInto, transportHash_core blake3 h, Upstream.id_of_core h, hb, hh, hp]

theorem bindings_eq (h : a.Settled b) (blake3 : Digest) : collectBindings blake3 a = collectBindings blake3 b := by
  have hu : a.upstreams.flatMap (upstreamBindings blake3) = b.upstreams.flatMap (upstreamBindings blake3) := by
    rw [List.flatMap_def, List.flatMap_def, h.map_upstreams fun u v => upstreamBindings_core blake3]
  unfold collectBindings
  rw [hu, h.sites]

theorem listeners_eq (h : a.Settled b) : a.listeners.map (compileListener a) = b.listeners.map (compileListener b) := by
  have hl : a.listener = b.listener := by
    funext name
    simp only [Spec.listener, h.listeners]
  have hc : compileListener a = compileListener b := by
    funext l
    simp only [compileListener, Spec.listenersFor, hl, h.sites, h.listeners]
  rw [hc, h.listeners]

theorem planHash_eq (h : a.Settled b) (blake3 : Digest) (registry : Registry) :
    (compile blake3 a registry).planHash = (compile blake3 b registry).planHash := by
  simp only [compile, h.fingerprint_eq blake3, h.bindings_eq blake3]

end Spec.Settled

end Gatel
