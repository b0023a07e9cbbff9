import Gatel.Lib.FirstMatch
import Gatel.Plan.Faithful

namespace Gatel
open CanonicalSort (sortBy sortBy_perm sortBy_pairwise mem_sortBy transCmp_on)
open Std (TransCmp)

/-! Which site of a listener answers for a host, and when each of them can. -/

namespace HostMatch

/-- A host as the parser builds it: lower case, a wildcard's tail behind a dot. -/
def Canonical : HostMatch → Prop
  | .any => True
  | .exact name => Text.lower name = name
  | .suffix tail => Text.lower tail = tail ∧ tail.toList.head? = some '.'

theorem lower_lower (s : String) : Text.lower (Text.lower s) = Text.lower s := by
  simp [Text.lower, Function.comp_def]

theorem lower_append (s t : String) : Text.lower (s ++ t) = Text.lower s ++ Text.lower t := by
  simp [Text.lower]

/-- What is left of a lower-case text is lower case. -/
theorem lower_stripPrefix {pre text rest : String} (h : SecretRef.stripPrefix? pre (Text.lower text) = some rest) :
    Text.lower rest = rest := by
  unfold SecretRef.stripPrefix? at h
  split at h
  · cases h
    simp [Text.lower, Function.comp_def]
  · cases h

theorem canonical_of_parse {raw : String} {m : HostMatch} (h : HostMatch.parse raw = .ok m) : m.Canonical := by
  unfold HostMatch.parse at h
  dsimp only at h
  split at h
  · cases h
    trivial
  · split at h
    · cases h
    · split at h
      · cases h
      · split at h
        · rename_i rest hrest
          split at h
          · cases h
          · cases h
            refine ⟨?_, by simp⟩
            rw [lower_append, lower_stripPrefix hrest]
            simp [Text.lower]
        · split at h
          · cases h
          · cases h
            exact lower_lower _

/-- A label longer than every exact host, without a dot. -/
def freshLabel (hosts : List HostMatch) : String :=
  String.ofList (List.replicate (1 + (hosts.map fun m => m.describe.toList.length).sum) 'a')

theorem lower_freshLabel (hosts : List HostMatch) : Text.lower (freshLabel hosts) = freshLabel hosts := by
  simp [freshLabel, Text.lower]

theorem mem_freshLabel {hosts : List HostMatch} {c : Char} (h : c ∈ (freshLabel hosts).toList) : c = 'a' := by
  rw [freshLabel, String.toList_ofList] at h
  exact List.eq_of_mem_replicate h

theorem length_lt_freshLabel {hosts : List HostMatch} {name : String} (h : HostMatch.exact name ∈ hosts) :
    name.toList.length < (freshLabel hosts).toList.length := by
  have hle := List.single_le_sum (l := hosts.map fun m => m.describe.toList.length) (fun _ _ => Nat.zero_le _)
    name.toList.length (List.mem_map.mpr ⟨.exact name, h, rfl⟩)
  simp only [freshLabel, String.toList_ofList, List.length_replicate]
  omega

theorem matches_exact {name host : String} (hc : (HostMatch.exact name).Canonical) :
    (HostMatch.exact name).matches host = true ↔ Text.lower host = name := by
  have hn : Text.lower name = name := hc
  simp [HostMatch.matches, hn]

theorem suffix_of_matches {tail host : String} (h : (HostMatch.suffix tail).matches host = true) :
    tail.toList <:+ (Text.lower host).toList := by
  simp only [HostMatch.matches, Text.endsWith, Bool.and_eq_true, List.isPrefixOf_iff_prefix] at h
  exact List.reverse_prefix.mp h.2

/-- Too long for any exact host. -/
theorem not_matches_exact {hosts : List HostMatch} {name rest : String} (hm : HostMatch.exact name ∈ hosts)
    (hc : (HostMatch.exact name).Canonical) (hl : Text.lower rest = rest) :
    (HostMatch.exact name).matches (freshLabel hosts ++ rest) = false := by
  have hlt := length_lt_freshLabel hm
  rw [← Bool.not_eq_true, matches_exact hc, lower_append, lower_freshLabel, hl]
  intro he
  rw [← he, String.toList_append, List.length_append] at hlt
  omega

/-- Of the wildcards no shorter than one of them, a fresh label in front of it meets
only that one. -/
theorem suffix_eq {hosts : List HostMatch} {tail tail' : String} (hc : (HostMatch.suffix tail).Canonical)
    (hc' : (HostMatch.suffix tail').Canonical) (hm : (HostMatch.suffix tail').matches (freshLabel hosts ++ tail) = true)
    (hle : tail.utf8ByteSize ≤ tail'.utf8ByteSize) : tail' = tail := by
  have hs := suffix_of_matches hm
  rw [lower_append, lower_freshLabel, hc.1, String.toList_append] at hs
  obtain h | h := List.suffix_or_suffix_of_suffix hs (List.suffix_append _ _)
  · -- a shorter suffix of the same size is the whole
    obtain ⟨front, hf⟩ := h
    have htail : tail = String.ofList front ++ tail' := by
      rw [← String.toList_inj, String.toList_append, String.toList_ofList, hf]
    rw [htail, String.utf8ByteSize_append] at hle
    have hz : (String.ofList front).utf8ByteSize = 0 := by omega
    rw [htail, String.utf8ByteSize_eq_zero_iff.mp hz, String.empty_append]
  · obtain ⟨front, hf⟩ := h
    rw [← hf] at hs
    have hfront : front <:+ (freshLabel hosts).toList := by
      obtain ⟨more, hmore⟩ := hs
      rw [← List.append_assoc] at hmore
      exact ⟨more, List.append_cancel_right hmore⟩
    cases front with
    | nil => exact toList_inj hf.symm
    | cons c front =>
      have hdot : c = '.' := by
        have := hc'.2
        rw [← hf] at this
        simpa using this
      have ha := mem_freshLabel (hfront.mem List.mem_cons_self)
      rw [hdot] at ha
      simp at ha

/-- The ranking of `specificity`, highest first. -/
theorem comparePair_isLE {x y : Nat × Nat} : (comparePair x y).isLE = true ↔ toLex y ≤ toLex x := by
  rw [Prod.Lex.toLex_le_toLex]
  simp only [comparePair, compareLex, compareOn, Ordering.isLE_then_iff_or, Nat.compare_eq_lt, Nat.compare_eq_eq,
    Nat.isLE_compare]

/-- Every host has a name that no other host of the list, unless less specific, claims. -/
theorem exists_own {hosts : List HostMatch} (hc : ∀ m ∈ hosts, m.Canonical) {m : HostMatch} (hm : m ∈ hosts) :
    ∃ host, m.matches host = true ∧
      ∀ m' ∈ hosts, m'.matches host = true → toLex m.specificity ≤ toLex m'.specificity → m' = m := by
  cases m with
  | any =>
    refine ⟨freshLabel hosts ++ "", rfl, ?_⟩
    intro m' hm' hmatch _
    cases m' with
    | any => rfl
    | exact name =>
      rw [not_matches_exact hm' (hc _ hm') (by decide)] at hmatch
      cases hmatch
    | suffix tail =>
      have hs := suffix_of_matches hmatch
      rw [String.append_empty, lower_freshLabel] at hs
      have hdot : '.' ∈ tail.toList := List.mem_of_mem_head? (hc _ hm').2
      have ha := mem_freshLabel (hs.mem hdot)
      simp at ha
  | exact name =>
    have hn : Text.lower name = name := hc _ hm
    refine ⟨name, (matches_exact (hc _ hm)).mpr hn, ?_⟩
    intro m' hm' hmatch hle
    rw [Prod.Lex.toLex_le_toLex] at hle
    cases m' with
    | any => simp [specificity] at hle
    | suffix tail => simp [specificity] at hle
    | exact name' => rw [← (matches_exact (hc _ hm')).mp hmatch, hn]
  | suffix tail =>
    refine ⟨freshLabel hosts ++ tail, ?_, ?_⟩
    · have hpos : 0 < (freshLabel hosts).utf8ByteSize := by
        rw [Nat.pos_iff_ne_zero, ne_eq, String.utf8ByteSize_eq_zero_iff]
        intro he
        have hl := congrArg (fun s : String => s.toList.length) he
        simp [freshLabel] at hl
      simp only [HostMatch.matches, lower_append, lower_freshLabel, (hc _ hm).1, Text.endsWith, Bool.and_eq_true,
        decide_eq_true_eq, String.utf8ByteSize_append, List.isPrefixOf_iff_prefix, String.toList_append,
        List.reverse_append]
      exact ⟨by omega, List.prefix_append _ _⟩
    · intro m' hm' hmatch hle
      rw [Prod.Lex.toLex_le_toLex] at hle
      cases m' with
      | any => simp [specificity] at hle
      | exact name =>
        rw [not_matches_exact hm' (hc _ hm') (hc _ hm).1] at hmatch
        cases hmatch
      | suffix tail' =>
        have hsize : tail.utf8ByteSize ≤ tail'.utf8ByteSize := by simpa [specificity] using hle
        rw [suffix_eq (hc _ hm) (hc _ hm') hmatch hsize]

end HostMatch

instance : TransCmp compareSitePlans := by
  have h₁ : TransCmp fun a b : SitePlan => comparePair a.host.specificity b.host.specificity :=
    transCmp_on fun a : SitePlan => a.host.specificity
  exact inferInstanceAs (TransCmp (compareLex
    (fun a b : SitePlan => comparePair a.host.specificity b.host.specificity) (compareOn fun s : SitePlan => s.id.name)))

/-- At least as specific. -/
def SitePlan.Outranks (a b : SitePlan) : Prop := toLex b.host.specificity ≤ toLex a.host.specificity

namespace ListenerPlan

/-- Whatever claims the request, it is this site. -/
def Answers (leaves : Leaves) (p : ListenerPlan) (host : String) (site : SitePlan) : Prop :=
  p.siteFor host = some site ∧ ∀ request : RoutedRequest, request.host = host →
    p.resolve leaves request = .error .invalidPath ∨ p.resolve leaves request = .error (.site site.id) ∨
      ∃ route, p.resolve leaves request = .ok (site, route)

/-- Every site of a listener can be selected, and the most specific one is. -/
structure Selectable (leaves : Leaves) (p : ListenerPlan) : Prop where
  distinct : (p.sites.map SitePlan.host).Nodup
  reached : ∀ site ∈ p.sites, ∃ host, p.Answers leaves host site
  maximal : ∀ host site, p.siteFor host = some site →
    ∀ other ∈ p.sites, other.host.matches host = true → site.Outranks other

theorem answers_of_siteFor (leaves : Leaves) {p : ListenerPlan} {host : String} {site : SitePlan}
    (h : p.siteFor host = some site) : p.Answers leaves host site := by
  refine ⟨h, ?_⟩
  intro request hr
  unfold resolve
  split
  · exact Or.inl rfl
  · unfold siteFor at h
    dsimp only
    rw [hr, h]
    dsimp only
    split
    · exact Or.inr (Or.inl rfl)
    · rename_i route _
      exact Or.inr (Or.inr ⟨route, rfl⟩)

/-- Distinct hosts are enough: the table is sorted, and the first match wins. -/
theorem selectable_of_nodup (leaves : Leaves) {p : ListenerPlan} (hs : p.sites.Pairwise SitePlan.Outranks)
    (hc : ∀ site ∈ p.sites, site.host.Canonical) (hn : (p.sites.map SitePlan.host).Nodup) : p.Selectable leaves := by
  refine ⟨hn, ?_, ?_⟩
  · intro site hsite
    have hc' : ∀ m ∈ p.sites.map SitePlan.host, m.Canonical := by
      intro m hm
      obtain ⟨other, ho, rfl⟩ := List.mem_map.mp hm
      exact hc other ho
    obtain ⟨host, hmatch, hown⟩ := HostMatch.exists_own hc' (List.mem_map_of_mem hsite)
    refine ⟨host, answers_of_siteFor leaves (FirstMatch.find?_of_top hs hsite hmatch ?_)⟩
    intro other ho hm hr
    exact List.inj_on_of_nodup_map hn ho hsite (hown _ (List.mem_map_of_mem ho) hm hr)
  · intro host site hfor other ho hm
    obtain rfl | hr := FirstMatch.find?_before hs hfor ho hm
    · exact le_refl _
    · exact hr

end ListenerPlan

theorem compileListener_sorted (spec : Spec) (l : Listener) :
    (compileListener spec l).sites.Pairwise SitePlan.Outranks := by
  refine (@sortBy_pairwise _ compareSitePlans _ _).imp ?_
  intro a b h
  refine HostMatch.comparePair_isLE.mp ?_
  unfold compareSitePlans at h
  rw [Ordering.isLE_then_iff_or] at h
  obtain h | ⟨h, _⟩ := h
  · rw [h]
    rfl
  · rw [h]
    rfl

/-- The listeners a site names, or every one of its own kind. -/
def Site.ServedOn (site : Site) (l : Listener) : Prop :=
  if site.listeners = [] then l.protocol.isTls = site.tls.isSome else l.name ∈ site.listeners

instance (site : Site) (l : Listener) : Decidable (site.ServedOn l) :=
  inferInstanceAs (Decidable (if site.listeners = [] then l.protocol.isTls = site.tls.isSome else l.name ∈ site.listeners))

theorem servedOn_iff {spec : Spec} (hn : (spec.listeners.map Listener.name).Nodup) {l : Listener}
    (hl : l ∈ spec.listeners) (site : Site) :
    ((spec.listenersFor site).any fun candidate => candidate.name == l.name) = true ↔ site.ServedOn l := by
  unfold Spec.listenersFor Site.ServedOn
  simp only [List.isEmpty_iff]
  split
  · simp only [List.any_filter, List.any_eq_true, Bool.and_eq_true, beq_iff_eq]
    constructor
    · rintro ⟨candidate, hc, htls, hname⟩
      rwa [← List.inj_on_of_nodup_map hn hc hl hname]
    · intro htls
      exact ⟨l, hl, htls, rfl⟩
  · simp only [List.any_eq_true, beq_iff_eq, List.mem_filterMap]
    constructor
    · rintro ⟨candidate, ⟨name, hmem, hfind⟩, hname⟩
      have hc : candidate.name = name := by simpa using List.find?_some hfind
      rwa [← hname, hc]
    · intro hmem
      cases hfind : spec.listener l.name with
      | none =>
        have hno := List.find?_eq_none.mp hfind l hl
        simp at hno
      | some candidate =>
        have hc : candidate.name = l.name := by simpa using List.find?_some hfind
        exact ⟨candidate, ⟨l.name, hmem, hfind⟩, hc⟩

namespace Frontend

variable (fe : Frontend)

/-- The sites a snapshot declares, one for each accepted `site` node. -/
def sitesOf (s : Snapshot) : List Site := s.nodes.flatMap fun item => (fe.siteOutcome item).value.toList

/-- The listeners its `global` block declares. -/
def listenersOf (s : Snapshot) : List Listener :=
  ((fe.globalOf (s.nodes.filter isGlobal)).map fun g => g.2.1).getD []

/-- Whether a declared site ends up on a listener, once its certificate is inferred. -/
def ServedOn (s : Snapshot) (site : Site) (l : Listener) : Prop :=
  (automaticTls fe.leaves (fe.listenersOf s) site).value.ServedOn l

instance (s : Snapshot) (site : Site) (l : Listener) : Decidable (fe.ServedOn s site l) :=
  inferInstanceAs (Decidable (Site.ServedOn _ l))

/-- No two site declarations claim one host on a common listener. -/
def Unshared (s : Snapshot) : Prop :=
  (fe.sitesOf s).Pairwise fun x y => x.host = y.host → ∀ l ∈ fe.listenersOf s,
    ¬ (fe.ServedOn s x l ∧ fe.ServedOn s y l)

/-- An accepted specification, from what the snapshot declares. -/
theorem normalize_sites {s : Snapshot} {a : Spec} (h : normalize fe s = .ok a) :
    a.sites.Perm ((fe.sitesOf s).map fun x => sortSite (automaticTls fe.leaves (fe.listenersOf s) x).value) ∧
      a.listeners.Perm (fe.listenersOf s) ∧ (a.listeners.map Listener.name).Nodup := by
  obtain ⟨global, listeners, origin, hg, _, hf, rfl⟩ := fe.normalize_eq_ok.mp h
  have hp := fe.pass_summary s.nodes
  have hl : fe.listenersOf s = listeners := by
    unfold listenersOf
    rw [← hp.global, hg]
    rfl
  have hs : fe.sitesOf s = (s.nodes.foldl (Pass.step fe) .start).sites := hp.sites.symm
  rw [hl, hs]
  generalize s.nodes.foldl (Pass.step fe) .start = p at hf
  simp only [finishSpec, Diagnostics.hasErrors_append, Bool.or_eq_false_iff] at hf
  obtain ⟨-, ⟨hn, -⟩, -, -⟩ := (checkUniqueness_clean _).mp hf.1.1.2
  have hlp := sortBy_perm (compareOn Listener.name) listeners
  refine ⟨?_, hlp, (hlp.map Listener.name).nodup_iff.mpr hn⟩
  simp only [finishSpec, sortRoutes, applyAutomaticTls, List.map_map]
  exact sortBy_perm compareSites _

/-- The hosts of one listener's table are those of the declarations served on it. -/
theorem hosts_perm {s : Snapshot} {a : Spec} (h : normalize fe s = .ok a) {l : Listener} (hl : l ∈ a.listeners) :
    ((compileListener a l).sites.map SitePlan.host).Perm
      (((fe.sitesOf s).filter fun x => decide (fe.ServedOn s x l)).map Site.host) := by
  obtain ⟨hs, _, hn⟩ := fe.normalize_sites h
  have hfilter : (a.sites.filter fun site => (a.listenersFor site).any fun candidate => candidate.name == l.name) =
      a.sites.filter fun site => decide (site.ServedOn l) := by
    refine List.filter_congr ?_
    intro site _
    rw [Bool.eq_iff_iff, servedOn_iff hn hl, decide_eq_true_eq]
  have hhost : ∀ x : Site, (automaticTls fe.leaves (fe.listenersOf s) x).value.host = x.host := by
    intro x
    obtain he | he := automaticTls_value fe.leaves (fe.listenersOf s) x <;> rw [he]
  refine ((sortBy_perm compareSitePlans _).map SitePlan.host).trans ?_
  rw [hfilter, List.map_map]
  refine ((hs.filter _).map _).trans ?_
  rw [List.filter_map, List.map_map]
  refine List.Perm.of_eq (List.map_congr_left ?_)
  intro x _
  exact hhost x

theorem nodup_hosts_iff {s : Snapshot} {a : Spec} (h : normalize fe s = .ok a) :
    (∀ l ∈ a.listeners, ((compileListener a l).sites.map SitePlan.host).Nodup) ↔ fe.Unshared s := by
  obtain ⟨_, hperm, _⟩ := fe.normalize_sites h
  have hside : fe.Unshared s ↔ ∀ l ∈ fe.listenersOf s, (fe.sitesOf s).Pairwise fun x y =>
      fe.ServedOn s x l → fe.ServedOn s y l → x.host ≠ y.host := by
    rw [← FirstMatch.pairwise_forall_mem]
    unfold Unshared
    refine List.Pairwise.iff ?_
    intro x y
    constructor
    · intro hx l hl hxl hyl he
      exact hx he l hl ⟨hxl, hyl⟩
    · intro hx he l hl hb
      exact hx l hl hb.1 hb.2 he
  rw [hside]
  have hone : ∀ l ∈ a.listeners, (((compileListener a l).sites.map SitePlan.host).Nodup ↔
      (fe.sitesOf s).Pairwise fun x y => fe.ServedOn s x l → fe.ServedOn s y l → x.host ≠ y.host) := by
    intro l hl
    rw [(fe.hosts_perm h hl).nodup_iff, List.Nodup, List.pairwise_map, List.pairwise_filter]
    simp only [decide_eq_true_eq]
  constructor
  · intro hall l hl
    have hl' := hperm.mem_iff.mpr hl
    exact (hone l hl').mp (hall l hl')
  · intro hall l hl
    exact (hone l hl).mpr (hall l (hperm.mem_iff.mp hl))

/-- Every site of every listener of an accepted configuration can be selected, exactly
when no two of its site declarations claim one host on a common listener. -/
theorem sites_selectable_iff {s : Snapshot} {a : Spec} (h : normalize fe s = .ok a) :
    (∀ p ∈ (compile fe.blake3 a fe.registry).listeners, p.Selectable fe.leaves) ↔ fe.Unshared s := by
  rw [← fe.nodup_hosts_iff h]
  have hplans : (compile fe.blake3 a fe.registry).listeners = a.listeners.map (compileListener a) := rfl
  rw [hplans]
  simp only [List.forall_mem_map]
  constructor
  · intro hall l hl
    exact (hall l hl).distinct
  · intro hall l hl
    refine ListenerPlan.selectable_of_nodup fe.leaves (compileListener_sorted a l) ?_ (hall l hl)
    intro plan hplan
    have hm := (fe.hosts_perm h hl).mem_iff.mp (List.mem_map_of_mem hplan)
    obtain ⟨x, hx, he⟩ := List.mem_map.mp hm
    have hd := fe.pass_kinded s.nodes x (by rw [(fe.pass_summary s.nodes).sites]; exact (List.mem_filter.mp hx).1)
    obtain ⟨raw, hraw⟩ := hd.host
    rw [← he]
    exact HostMatch.canonical_of_parse hraw

end Frontend

/-! Sites in front of one backend. -/

namespace Frontend.Sample

/-- The digests behind the derived identities of three sites and of their routes. -/
def siteTable : List (List UInt8 × Fingerprint) :=
  [(words ["site", "example.com"], digest 0xdadb29f7f4c9c152e5406c7557d56d32e0517fd28fe43685ed5a61641ce21e88),
    (words ["route", "@881ee21c64615aed", "example.com", "*", "/"],
      digest 0x378a5f4aef0a9f0bde441464ba40a5ee806556585c4fc4f4c5b01ebeaf6f6222),
    (words ["site", "example.com", "http"], digest 0xc45c1e315c4ea74a5d06b927597064cb8b0f5e551d4a96b8c93b1e60cf5f9b5f),
    (words ["route", "@5f9b5fcf601e3bc9", "example.com", "*", "/"],
      digest 0xc0d8b75eb657c69b6f95c5a6adc62717bb0f8e2467dfa127dfba036512eed20),
    (words ["site", "*"], digest 0xaa7b631d96a19d234c3648e4397e02425db3e800ed055f3a195ad302b5b3028f),
    (words ["route", "@8f02b3b502d35a19", "*", "*", "/"],
      digest 0xb62cd4c2dc1b639f0141f601b23f85efde8637961db98e7bf7ca2382102af41)]

def siteFe : Frontend := frontend (digestsOf siteTable)

def siteAt (host : String) (listeners : List String) : Node :=
  ⟨"site", [text host], listeners.map fun name => ⟨"listener", text name, here⟩,
    [node "route" ["/"] [proxyNode]], here⟩

def sitesNodes (sites : List Node) : List Node :=
  [globalNode, node "upstream" ["backend"] [node "endpoint" ["127.0.0.1:9000"] []]] ++ sites

theorem exists_of_accepted {r : Except Diagnostics Spec} (h : accepted r = true) : ∃ a, r = .ok a := by
  cases r with
  | error ds => cases h
  | ok a => exact ⟨a, rfl⟩

theorem sites_accepted :
    accepted (normalize siteFe (snapshot (sitesNodes [siteAt "*" [], siteAt "example.com" []]))) = true ∧
      accepted (normalize siteFe
        (snapshot (sitesNodes [siteAt "example.com" [], siteAt "example.com" ["http"]]))) = true := by
  constructor
  all_goals decide +kernel

end Frontend.Sample

open Frontend.Sample in
/-- A named site in front of the catch-all. -/
theorem Frontend.sites_selectable_fallback :
    ∃ a, normalize siteFe (snapshot (sitesNodes [siteAt "*" [], siteAt "example.com" []])) = .ok a ∧
      ∀ p ∈ (compile siteFe.blake3 a siteFe.registry).listeners, p.Selectable siteFe.leaves := by
  have hacc := sites_accepted.1
  have hhosts : (siteFe.sitesOf (snapshot (sitesNodes [siteAt "*" [], siteAt "example.com" []]))).map Site.host =
      [.any, .exact "example.com"] := by decide
  generalize snapshot (sitesNodes [siteAt "*" [], siteAt "example.com" []]) = s at hacc hhosts ⊢
  obtain ⟨a, ha⟩ := exists_of_accepted hacc
  refine ⟨a, ha, (sites_selectable_iff siteFe ha).mpr ?_⟩
  have hne : ((siteFe.sitesOf s).map Site.host).Pairwise (· ≠ ·) := by
    rw [hhosts]
    decide
  rw [List.pairwise_map] at hne
  exact hne.imp fun hxy he => absurd he hxy

open Frontend.Sample in
/-- Two sites claim one host, one by default and one by name: both are accepted, and
only one of them is ever selected. -/
theorem Frontend.sites_shadowed :
    ∃ a, normalize siteFe (snapshot (sitesNodes [siteAt "example.com" [], siteAt "example.com" ["http"]])) = .ok a ∧
      ¬ ∀ p ∈ (compile siteFe.blake3 a siteFe.registry).listeners, p.Selectable siteFe.leaves := by
  have hacc := sites_accepted.2
  have hshared : ¬ siteFe.Unshared
      (snapshot (sitesNodes [siteAt "example.com" [], siteAt "example.com" ["http"]])) := by
    unfold Frontend.Unshared
    decide
  generalize snapshot (sitesNodes [siteAt "example.com" [], siteAt "example.com" ["http"]]) = s at hacc hshared ⊢
  obtain ⟨a, ha⟩ := exists_of_accepted hacc
  refine ⟨a, ha, fun hall => hshared ((siteFe.nodup_hosts_iff ha).mp ?_)⟩
  intro l hl
  exact (hall _ (List.mem_map_of_mem hl)).distinct

end Gatel
