import Gatel.Plan.Faithful
import Gatel.Plan.PathIdentity

namespace Gatel
open CanonicalSort (mem_sortBy)

/-- Every pattern is printed in its own way. -/
theorem PathMatch.describe_inj {a b : PathMatch} (h : a.describe = b.describe) : a = b := by
  have hescape : ∀ p q : String, PathMatch.escapePathPattern p = PathMatch.escapePathPattern q → p = q := by
    intro p q he
    have hp := PathMatch.unescape_escape p
    rw [he, PathMatch.unescape_escape q] at hp
    exact (Hasher.utf8_injective (Option.some.inj hp)).symm
  have hstar : ∀ p q : String, PathMatch.escapePathPattern p ≠ PathMatch.escapePathPattern q ++ "*" := by
    intro p q he
    have hno := PathMatch.not_mem_escape (.inl rfl) p
    rw [he] at hno
    simp at hno
  cases a with
  | exact p =>
    cases b with
    | exact q => rw [hescape p q h]
    | under q => exact absurd h (hstar p q)
  | under p =>
    cases b with
    | exact q => exact absurd h.symm (hstar q p)
    | under q => rw [hescape p q (String.append_left_inj _ |>.mp h)]

theorem MethodMatch.bar_not_mem {m : MethodMatch} (h : m.Parsed) : '|' ∉ m.describe.toList := by
  cases m with
  | any => decide
  | only l =>
    intro hm
    rw [MethodMatch.describe, String.toList_intercalate] at hm
    obtain hm | ⟨x, hx, hm⟩ := Separated.mem_intercalate hm
    · cases hm
    · obtain ⟨word, hword, rfl⟩ := List.mem_map.mp hx
      rcases (h.2 word hword).2 '|' hm with ha | ha
      · revert ha
        decide
      · cases ha

theorem Matcher.describe_ne_nil (m : Matcher) : m.describe.toList ≠ [] := by
  intro he
  have ht := m.take_describe
  rw [he] at ht
  cases m <;> cases ht

theorem Matcher.map_describe_inj {l l' : List Matcher} (h : ∀ m ∈ l, m.Parsed) (h' : ∀ m ∈ l', m.Parsed)
    (he : l.map (String.toList ∘ Matcher.describe) = l'.map (String.toList ∘ Matcher.describe)) : l = l' := by
  induction l generalizing l' with
  | nil => exact (List.map_eq_nil_iff.mp he.symm).symm
  | cons m l ih =>
    cases l' with
    | nil => cases he
    | cons m' l' =>
      simp only [List.map_cons, List.cons.injEq, Function.comp] at he
      rw [Matcher.describe_inj (h m List.mem_cons_self) (h' m' List.mem_cons_self) (toList_inj he.1),
        ih (fun x hx => h x (List.mem_cons_of_mem m hx)) (fun x hx => h' x (List.mem_cons_of_mem m' hx)) he.2]

/-- No text of one route goes on, behind a separator of the duplicate check, where a text
of the other ends. -/
structure Route.Unconfused (r r' : Route) : Prop where
  path : ¬ r.path.describe.toList ++ ['|'] <+: r'.path.describe.toList ∧
    ¬ r'.path.describe.toList ++ ['|'] <+: r.path.describe.toList
  conditions : ∀ m ∈ r.matchers, ∀ m' ∈ r'.matchers,
    ¬ m.describe.toList ++ [','] <+: m'.describe.toList ∧
      ¬ m'.describe.toList ++ [','] <+: m.describe.toList

/-- What the duplicate check compares: path, methods and the conditions as they are listed. -/
theorem Route.claim_eq_iff {r r' : Route} (host : HostMatch) (hu : r.Unconfused r')
    (hm : r.methods.Parsed) (hm' : r'.methods.Parsed) (hc : ∀ m ∈ r.matchers, m.Parsed)
    (hc' : ∀ m ∈ r'.matchers, m.Parsed) :
    r.claim host = r'.claim host ↔
      r.path = r'.path ∧ r.methods = r'.methods ∧ r.matchers = r'.matchers := by
  have hbar : "|".toList = ['|'] := rfl
  have hcomma : ",".toList = [','] := rfl
  constructor
  · intro h
    have hl := congrArg String.toList h
    simp only [Route.claim, String.toList_append, List.append_assoc, hbar, List.cons_append,
      List.nil_append] at hl
    obtain ⟨hpath, hl⟩ := Separated.split_apart hu.path.1 hu.path.2 hl
    obtain ⟨hmethods, hl⟩ :=
      Separated.split_inj (MethodMatch.bar_not_mem hm) (MethodMatch.bar_not_mem hm') hl
    have hjoined := List.append_cancel_right hl
    rw [String.toList_intercalate, String.toList_intercalate, hcomma, List.map_map, List.map_map] at hjoined
    have hlists := Separated.intercalate_apart ?_ ?_ ?_ hjoined
    · refine ⟨PathMatch.describe_inj (toList_inj hpath),
        MethodMatch.describe_inj hm hm' (toList_inj hmethods), ?_⟩
      exact Matcher.map_describe_inj hc hc' hlists
    · intro x hx y hy
      obtain ⟨m, hm, rfl⟩ := List.mem_map.mp hx
      obtain ⟨m', hm', rfl⟩ := List.mem_map.mp hy
      exact hu.conditions m hm m' hm'
    · intro x hx
      obtain ⟨m, -, rfl⟩ := List.mem_map.mp hx
      exact m.describe_ne_nil
    · intro x hx
      obtain ⟨m, -, rfl⟩ := List.mem_map.mp hx
      exact m.describe_ne_nil
  · rintro ⟨hp, hm, hc⟩
    rw [Route.claim, Route.claim, hp, hm, hc]

namespace Frontend
variable (fe : Frontend)

/-- The conditions of a route as its `match` nodes list them, each node sorted by itself. -/
def listed (n : Node) : List Matcher := n.children.flatMap fe.routeMatchers

/-- Whether a route is given a name. -/
def routeNamed (n : Node) : Option String := (n.props.foldl (idProp "route") ⟨none, []⟩).value

/-- What a decoded route has from its conditions: the list of them, and a derived name. -/
theorem route_listed {n : Node} {site : ResourceId} {host : HostMatch} {owner : SourceId} {r : Route}
    (h : (fe.route n site host owner).value = some r) :
    r.matchers = fe.listed n ∧ (routeNamed n = none → ∃ b : RouteBody, b.methods = r.methods ∧
      b.matchers = r.matchers ∧ r.id = fe.routeId site host owner r.path b) := by
  unfold route at h
  split at h
  · cases h
  · rename_i value raw _
    split at h
    · cases h
    · rename_i path _
      dsimp only at h
      split at h
      · cases h
      · have hb := fe.routeBody_summary site owner n (n.props.foldl (idProp "route") ⟨none, []⟩).diagnostics
        generalize fe.routeBody n site owner _ = b at h hb
        unfold routeTail at h
        obtain ⟨terminal, ht, h⟩ := Decode.bind_eq_some.mp h
        obtain ⟨id, hid, h⟩ := Decode.bind_eq_some.mp h
        obtain ⟨_, _, h⟩ := Decode.bind_eq_some.mp h
        cases h
        refine ⟨hb.matchers, ?_⟩
        intro hnone
        unfold routeNamed at hnone
        rw [hnone, ownedName] at hid
        exact ⟨b, rfl, rfl, (Option.some.inj hid).symm⟩

/-- The derived name sees the conditions in any order. -/
theorem routeId_perm {site : ResourceId} {host : HostMatch} {owner : SourceId} {path : PathMatch}
    {b b' : RouteBody} (hm : b.methods = b'.methods) (hc : b.matchers.Perm b'.matchers) :
    fe.routeId site host owner path b = fe.routeId site host owner path b' := by
  have hempty : b.matchers.isEmpty = b'.matchers.isEmpty := by
    rw [Bool.eq_iff_iff, List.isEmpty_iff, List.isEmpty_iff]
    constructor
    · intro he
      rw [he] at hc
      exact List.nil_perm.mp hc
    · intro he
      rw [he] at hc
      exact List.perm_nil.mp hc
  have hhash : ∀ h : Hasher, h.updateUnordered fe.blake3 b.matchers Matcher.hashInto =
      h.updateUnordered fe.blake3 b'.matchers Matcher.hashInto :=
    fun h => Hasher.updateUnordered_congr (hc.map _) h
  simp only [routeId, hm, hempty, hhash]

theorem normalize_site_ids {s : Snapshot} {a : Spec} (h : normalize fe s = .ok a) :
    (a.sites.map Site.id).Nodup := by
  obtain ⟨global, listeners, origin, -, -, hf, rfl⟩ := fe.normalize_eq_ok.mp h
  generalize s.nodes.foldl (Pass.step fe) .start = p at hf
  simp only [finishSpec, Diagnostics.hasErrors_append, Bool.or_eq_false_iff] at hf
  obtain ⟨⟨hids, -⟩, -⟩ := (checkUniqueness_clean _).mp hf.1.1.2
  have hp := (CanonicalSort.sortBy_perm compareSites
    ((applyAutomaticTls fe.leaves ⟨global, listeners, p.sites, p.upstreams⟩).value.sites.map sortSite)).map Site.id
  have hkeep : ∀ sites : List Site, (sites.map sortSite).map Site.id = sites.map Site.id := by
    intro sites
    rw [List.map_map]
    rfl
  rw [hkeep] at hp
  exact hp.nodup_iff.mpr hids

/-- One specification with the conditions of one of its routes listed as in another. -/
def Rewritten (a b : Spec) (r : Route) (conditions : List Matcher) : Prop :=
  ∃ (before after : List Site) (site : Site) (rs rs' : List Route),
    a.sites = before ++ { site with routes := rs ++ r :: rs' } :: after ∧
    b = { a with
      sites := before ++ { site with routes := rs ++ { r with matchers := conditions } :: rs' } :: after }

/-- The fingerprint sees the conditions of a route in the order they are listed. -/
theorem fingerprint_rewritten {s t : Snapshot} {a b : Spec} (ha : normalize fe s = .ok a)
    (hb : normalize fe t = .ok b) {D : Set (List UInt8)} (hd : Hasher.Apart fe.blake3 D)
    (hha : a.HashedIn fe.blake3 D) (hhb : b.HashedIn fe.blake3 D) {r : Route} {conditions : List Matcher}
    (h : Rewritten a b r conditions) :
    a.fingerprint fe.blake3 = b.fingerprint fe.blake3 ↔ r.matchers = conditions := by
  obtain ⟨before, after, site, rs, rs', hsites, rfl⟩ := h
  constructor
  · intro he
    have hagree := (Spec.fingerprint_eq_iff hd (fe.normalize_formed ha).1 (fe.normalize_formed hb).1 hha hhb).mp he
    have hin : { site with routes := rs ++ r :: rs' } ∈ a.sites := by
      rw [hsites]
      simp
    obtain ⟨site', hs', hsite⟩ := hagree.sites.exists_of_mem hin
    have hwritten : { site with routes := rs ++ { r with matchers := conditions } :: rs' } ∈
        before ++ { site with routes := rs ++ { r with matchers := conditions } :: rs' } :: after := by simp
    obtain rfl := List.inj_on_of_nodup_map (fe.normalize_site_ids hb) hs' hwritten hsite.id.symm
    have hroute := (List.forall₂_iff_get.mp hsite.routes).2 rs.length (by simp) (by simp)
    have hmatchers := hroute.matchers
    simpa using hmatchers
  · rintro rfl
    rw [← hsites]

end Frontend

namespace Frontend

/-- Match conditions are compared as they are listed: each `match` node sorted by itself, the
nodes in their order. The derived name of a route does not see the order, but the fingerprint
does, and so does the duplicate check, which besides joins its texts with separators that they
may contain. Where no text goes on behind a separator, the check is right about two routes
exactly when they list equal conditions alike. -/
theorem conditions_listed_iff (fe : Frontend) {site : ResourceId} {host : HostMatch} {owner : SourceId}
    {n n' : Node} {r r' : Route} (hr : (fe.route n site host owner).value = some r)
    (hr' : (fe.route n' site host owner).value = some r') :
    (routeNamed n = none → routeNamed n' = none → r.path = r'.path → r.methods = r'.methods →
      (fe.listed n).Perm (fe.listed n') → r.id = r'.id) ∧
    (∀ (s t : Snapshot) (a b : Spec) (D : Set (List UInt8)), normalize fe s = .ok a →
      normalize fe t = .ok b → Rewritten a b r r'.matchers → Hasher.Apart fe.blake3 D →
      a.HashedIn fe.blake3 D → b.HashedIn fe.blake3 D →
      (a.fingerprint fe.blake3 = b.fingerprint fe.blake3 ↔ fe.listed n = fe.listed n')) ∧
    (r.Unconfused r' →
      ((r.claim host = r'.claim host ↔
        r.path = r'.path ∧ r.methods = r'.methods ∧ ∀ m, m ∈ fe.listed n ↔ m ∈ fe.listed n') ↔
      (r.path = r'.path → r.methods = r'.methods → (∀ m, m ∈ fe.listed n ↔ m ∈ fe.listed n') →
        fe.listed n = fe.listed n'))) ∧
    ∀ other : Site, Diagnostics.hasErrors (checkClaims other) = true ↔
      ¬ (other.routes.map (Route.claim other.host)).Nodup := by
  obtain ⟨hlist, hid⟩ := fe.route_listed hr
  obtain ⟨hlist', hid'⟩ := fe.route_listed hr'
  refine ⟨?_, ?_, ?_, ?_⟩
  · intro hn hn' hp hm hc
    obtain ⟨b, hbm, hbc, hbid⟩ := hid hn
    obtain ⟨b', hbm', hbc', hbid'⟩ := hid' hn'
    rw [hbid, hbid', hp]
    exact fe.routeId_perm (by rw [hbm, hbm', hm]) (by rw [hbc, hbc', hlist, hlist']; exact hc)
  · intro s t a b D ha hb hrw hd hha hhb
    rw [fe.fingerprint_rewritten ha hb hd hha hhb hrw, hlist, hlist']
  · intro hu
    have hdecoded := fe.route_decoded hr
    have hdecoded' := fe.route_decoded hr'
    have hparsed : ∀ {m : MethodMatch}, (m = .any ∨ ∃ names, MethodMatch.parse names = .ok m) → m.Parsed := by
      rintro m (rfl | ⟨names, hm⟩)
      · trivial
      · exact MethodMatch.parsed_of_parse hm
    rw [Route.claim_eq_iff host hu (hparsed hdecoded.methods) (hparsed hdecoded'.methods) hdecoded.matchers
      hdecoded'.matchers, hlist, hlist']
    constructor
    · rintro hiff hp hm hs
      exact (hiff.mpr ⟨hp, hm, hs⟩).2.2
    · intro harrange
      constructor
      · rintro ⟨hp, hm, hl⟩
        exact ⟨hp, hm, fun m => by rw [hl]⟩
      · rintro ⟨hp, hm, hs⟩
        exact ⟨hp, hm, harrange hp hm hs⟩
  · intro other
    rw [← checkClaims_clean, Bool.not_eq_false]

end Frontend

namespace Frontend.Sample

/-- `match header=…`. -/
def matchNode (name : String) : Node := ⟨"match", [], [⟨"header", text name, here⟩], [], here⟩

/-- A route that lists two conditions in `match` nodes of their own. -/
def twoConditions (props : List Property) (first second : String) : Node :=
  ⟨"route", [text "/"], props,
    [matchNode first, matchNode second, node "proxy" ["127.0.0.1:9000"] []], here⟩

def idOf (id : String) : List Property := [⟨"id", text id, here⟩]

def swappedSite : Node := node "site" ["example.com"]
  [twoConditions (idOf "one") "a" "b", twoConditions (idOf "two") "b" "a"]

end Frontend.Sample

open Frontend.Sample in
/-- Swapping two `match` nodes keeps the derived name of a route and nothing else. -/
theorem Frontend.conditions_listed_swapped :
    ∃ r r', (fe.route (twoConditions [] "a" "b") ⟨.site, "s"⟩ .any (.file "gatel.kdl")).value = some r ∧
      (fe.route (twoConditions [] "b" "a") ⟨.site, "s"⟩ .any (.file "gatel.kdl")).value = some r' ∧
      r.id = r'.id ∧ fe.listed (twoConditions [] "a" "b") ≠ fe.listed (twoConditions [] "b" "a") := by
  obtain ⟨r, hr⟩ : ∃ r, (fe.route (twoConditions [] "a" "b") ⟨.site, "s"⟩ .any (.file "gatel.kdl")).value =
      some r := Option.isSome_iff_exists.mp (by decide)
  obtain ⟨r', hr'⟩ : ∃ r, (fe.route (twoConditions [] "b" "a") ⟨.site, "s"⟩ .any (.file "gatel.kdl")).value =
      some r := Option.isSome_iff_exists.mp (by decide)
  have hsame : (fe.route (twoConditions [] "a" "b") ⟨.site, "s"⟩ .any (.file "gatel.kdl")).value.map
      (fun r => (r.path, r.methods)) = (fe.route (twoConditions [] "b" "a") ⟨.site, "s"⟩ .any
        (.file "gatel.kdl")).value.map (fun r => (r.path, r.methods)) := by decide
  rw [hr, hr', Option.map_some, Option.map_some, Option.some.injEq, Prod.mk.injEq] at hsame
  have hperm : (fe.listed (twoConditions [] "a" "b")).Perm (fe.listed (twoConditions [] "b" "a")) := by
    decide
  exact ⟨r, r', hr, hr', (conditions_listed_iff fe hr hr').1 (by decide) (by decide) hsame.1 hsame.2 hperm,
    by decide⟩

open Frontend.Sample in
/-- Two named routes of a site with the same path, methods and conditions, accepted because
their `match` nodes come in another order. -/
theorem Frontend.swapped_conditions_accepted :
    ∃ (spec : Spec) (site : Site) (r r' : Route),
      normalize fe (snapshot [globalNode, swappedSite]) = .ok spec ∧
      site ∈ spec.sites ∧ site.routes = [r, r'] ∧ r.path = r'.path ∧ r.methods = r'.methods ∧
      ∀ m, m ∈ r.matchers ↔ m ∈ r'.matchers := by
  have hrun : (normalize fe (snapshot [globalNode, swappedSite])).toOption.map (fun spec =>
      spec.sites.map fun site => site.routes.map fun r => (r.path, r.methods, r.matchers)) =
      some [[(.exact "/", .any, [.header "a" none, .header "b" none]),
        (.exact "/", .any, [.header "b" none, .header "a" none])]] := by decide +kernel
  cases hn : normalize fe (snapshot [globalNode, swappedSite]) with
  | error ds =>
    rw [hn] at hrun
    cases hrun
  | ok spec =>
    simp only [hn, Except.toOption, Option.map_some, Option.some.injEq, List.map_eq_cons_iff,
      List.map_eq_nil_iff, Prod.mk.injEq] at hrun
    obtain ⟨site, rest, hsites, ⟨r, later, hroutes, ⟨hp, hm, hc⟩, r', none, rfl, ⟨hp', hm', hc'⟩, rfl⟩, rfl⟩ := hrun
    refine ⟨spec, site, r, r', rfl, by rw [hsites]; exact List.mem_cons_self, hroutes, by rw [hp, hp'],
      by rw [hm, hm'], ?_⟩
    intro m
    rw [hc, hc']
    simp [or_comm]

end Gatel
