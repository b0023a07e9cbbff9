import Gatel.Plan.Selection
import Gatel.Plan.Texts

namespace Gatel.Tls
open CanonicalSort (sortBy sortBy_perm sortBy_pairwise mem_sortBy)

/-! A listener's TLS configuration: which certificate a server name gets, and who may connect. -/

/-- `WebPkiClientVerifier`: the authorities it trusts, and whether it lets a client without a
certificate through. -/
structure ClientVerifier (Roots : Type) where
  roots : Roots
  required : Bool
  deriving DecidableEq

/-- The sites of a listener, the most specific host first. -/
structure SniResolver where
  sites : List (HostMatch × ResourceId)
  deriving DecidableEq

namespace SniResolver

def new (sites : List (HostMatch × ResourceId)) : SniResolver :=
  ⟨sortBy (fun a b => comparePair a.1.specificity b.1.specificity) sites⟩

/-- Without a server name only a catch-all can answer. -/
@[grind =] def siteFor (r : SniResolver) : Option String → Option ResourceId
  | some name =>
    let lowered := Text.lower name
    (r.sites.find? fun site => site.1.matches lowered).map Prod.snd
  | none => (r.sites.find? fun site => site.1 == .any).map Prod.snd

end SniResolver

structure ServerConfig (Roots : Type) where
  clientVerifier : Option (ClientVerifier Roots)
  certResolver : SniResolver
  alpnProtocols : List String
  deriving DecidableEq

/-- What preparing reads from outside the plan: certificates, roots, and whether a verifier can
be built from these. -/
structure Preparation (Roots : Type) where
  loadCertificate : SitePlan → Except String Unit
  loadRoots : SecretRef → Except String Roots
  build : ClientVerifier Roots → Except String Unit

/-- What the loop over the sites has gathered. -/
structure Gathered where
  sites : List (HostMatch × ResourceId)
  clientAuth : Option (ResourceId × ClientAuth)
  deriving DecidableEq

section
variable {Roots : Type} (preparation : Preparation Roots)

@[grind =] def gatherSite (listener : Listener) (g : Gathered) (site : SitePlan) : Except String Gathered :=
  match site.tls with
  | none => .error ("site `" ++ site.host.describe ++ "` is served on the TLS listener `" ++ listener.name ++
      "` but has no `tls`")
  | some tls =>
    match preparation.loadCertificate site with
    | .error e => .error e
    | .ok _ =>
      let sites := g.sites ++ [(site.host, site.id)]
      match tls.clientAuth with
      | none => .ok ⟨sites, g.clientAuth⟩
      | some auth =>
        match g.clientAuth with
        | some (existing, _) => .error ("listener `" ++ listener.name ++
            "` cannot use two client-authentication policies (`" ++ existing.name ++ "` and `" ++ site.id.name ++ "`)")
        | none => .ok ⟨sites, some (site.id, auth)⟩

/-- The verifier for the one policy of a listener. -/
def verifier (auth : ClientAuth) : Except String (ClientVerifier Roots) :=
  match preparation.loadRoots auth.ca with
  | .error e => .error e
  | .ok roots =>
    match preparation.build ⟨roots, auth.required⟩ with
    | .error e => .error ("cannot build the client verifier: " ++ e)
    | .ok _ => .ok ⟨roots, auth.required⟩

/-- `none` for a listener without TLS. -/
@[grind =] def prepare (p : ListenerPlan) : Except String (Option (ServerConfig Roots)) :=
  if p.listener.protocol.isTls = false then .ok none
  else
    match p.sites.foldlM (gatherSite preparation p.listener) ⟨[], none⟩ with
    | .error e => .error e
    | .ok g =>
      if g.sites = [] then .error ("TLS listener `" ++ p.listener.name ++ "` serves no sites")
      else
        match g.clientAuth with
        | none => .ok (some ⟨none, .new g.sites, ["h2", "http/1.1"]⟩)
        | some (_, auth) =>
          match verifier preparation auth with
          | .error e => .error e
          | .ok v => .ok (some ⟨some v, .new g.sites, ["h2", "http/1.1"]⟩)

variable {preparation}

/-- Every site is gathered, in the order of the table, and the policy is that of the one site
that has one. -/
theorem foldlM_gatherSite {listener : Listener} {sites : List SitePlan} {g g' : Gathered}
    (h : sites.foldlM (gatherSite preparation listener) g = .ok g') :
    g'.sites = g.sites ++ sites.map (fun site => (site.host, site.id)) ∧
    (∀ policy, g.clientAuth = some policy → g'.clientAuth = some policy) ∧
    ∀ site ∈ sites, ∀ tls auth, site.tls = some tls → tls.clientAuth = some auth →
      g'.clientAuth = some (site.id, auth) := by
  induction sites generalizing g with
  | nil =>
    cases h
    exact ⟨(List.append_nil _).symm, fun _ h => h, fun _ hm => (by cases hm)⟩
  | cons site sites ih =>
    rw [List.foldlM_cons] at h
    cases hsite : gatherSite preparation listener g site with
    | error e =>
      rw [hsite] at h
      cases h
    | ok g₁ =>
      rw [hsite] at h
      obtain ⟨hall, hkept, hown⟩ := ih h
      have hstep : g₁.sites = g.sites ++ [(site.host, site.id)] ∧
          (∀ policy, g.clientAuth = some policy → g₁.clientAuth = some policy) ∧
          ∀ tls auth, site.tls = some tls → tls.clientAuth = some auth → g₁.clientAuth = some (site.id, auth) := by
        unfold gatherSite at hsite
        split at hsite
        · cases hsite
        · rename_i tls htls
          split at hsite
          · cases hsite
          · simp only at hsite
            split at hsite
            · rename_i hnone
              cases hsite
              refine ⟨rfl, fun _ h => h, ?_⟩
              intro tls' auth ht ha
              rw [htls] at ht
              cases ht
              rw [hnone] at ha
              cases ha
            · rename_i auth hauth
              split at hsite
              · cases hsite
              · rename_i hfree
                cases hsite
                refine ⟨rfl, ?_, ?_⟩
                · intro policy hp
                  rw [hfree] at hp
                  cases hp
                · intro tls' auth' ht ha
                  rw [htls] at ht
                  cases ht
                  rw [hauth] at ha
                  cases ha
                  rfl
      refine ⟨?_, fun policy hp => hkept _ (hstep.2.1 policy hp), ?_⟩
      · rw [hall, hstep.1, List.append_assoc, List.map_cons, List.singleton_append]
      · intro other hm tls auth ht ha
        rcases List.mem_cons.mp hm with rfl | hm
        · exact hkept _ (hstep.2.2 tls auth ht ha)
        · exact hown other hm tls auth ht ha

/-- What preparing succeeded with: the table's sites, and the verifier of any policy among them. -/
theorem prepare_ok {p : ListenerPlan} (htls : p.listener.protocol.isTls = true)
    {r : Option (ServerConfig Roots)} (h : prepare preparation p = .ok r) :
    ∃ config, r = some config ∧ config.certResolver = .new (p.sites.map fun site => (site.host, site.id)) ∧
      ∀ site ∈ p.sites, ∀ tls auth, site.tls = some tls → tls.clientAuth = some auth →
        ∃ v, verifier preparation auth = .ok v ∧ config.clientVerifier = some v := by
  unfold prepare at h
  rw [if_neg (by rw [htls]; decide)] at h
  split at h
  · cases h
  · rename_i g hg
    obtain ⟨hsites, -, hown⟩ := foldlM_gatherSite hg
    rw [List.nil_append] at hsites
    split at h
    · cases h
    · split at h
      · rename_i hfree
        cases h
        refine ⟨_, rfl, by rw [hsites], ?_⟩
        intro site hm tls auth ht ha
        have hpolicy := hown site hm tls auth ht ha
        rw [hfree] at hpolicy
        cases hpolicy
      · rename_i owner auth hauth
        split at h
        · cases h
        · rename_i v hv
          cases h
          refine ⟨_, rfl, by rw [hsites], ?_⟩
          intro site hm tls auth' ht ha
          have hpolicy := hown site hm tls auth' ht ha
          rw [hauth] at hpolicy
          cases hpolicy
          exact ⟨v, hv, rfl⟩

end

end Gatel.Tls

namespace Gatel
open CanonicalSort (sortBy sortBy_pairwise)

/-- A host is claimed in any letter case. -/
theorem HostMatch.matches_lower (m : HostMatch) (host : String) : m.matches (Text.lower host) = m.matches host := by
  have hlength : (Text.lower host).utf8ByteSize = host.utf8ByteSize := Text.utf8ByteSize_lower host
  cases m with
  | any => rfl
  | exact name => simp only [HostMatch.matches, lower_lower]
  | suffix tail => simp only [HostMatch.matches, lower_lower, hlength]

/-- More specific, or as specific and first by identity. -/
def SitePlan.Precedes (a b : SitePlan) : Prop :=
  toLex b.host.specificity < toLex a.host.specificity ∨
    b.host.specificity = a.host.specificity ∧ (compare a.id.name b.id.name).isLE = true

namespace ListenerPlan

theorem siteFor_lower (p : ListenerPlan) {host name : String} (h : Text.lower host = Text.lower name) :
    p.siteFor host = p.siteFor name := by
  have hsame (text : String) : p.siteFor (Text.lower text) = p.siteFor text := by
    simp only [siteFor, HostMatch.matches_lower]
  rw [← hsame host, h, hsame name]

/-- No site claims the host, so none is resolved. -/
theorem resolve_of_none (leaves : Leaves) {p : ListenerPlan} {request : RoutedRequest} (h : p.siteFor request.host = none) :
    p.resolve leaves request = .error .invalidPath ∨ p.resolve leaves request = .error .host := by
  unfold resolve
  split
  · exact Or.inl rfl
  · unfold siteFor at h
    dsimp only
    rw [h]
    exact Or.inr rfl

end ListenerPlan

theorem comparePair_eq {x y : Nat × Nat} (h : comparePair x y = .eq) : x = y := by
  simp only [comparePair, compareLex, compareOn, Ordering.then_eq_eq, Nat.compare_eq_eq] at h
  exact Prod.ext h.1.symm h.2.symm

theorem comparePair_self (x : Nat × Nat) : comparePair x x = .eq := Std.ReflCmp.compare_self

theorem compileListener_precedes (spec : Spec) (l : Listener) :
    (compileListener spec l).sites.Pairwise SitePlan.Precedes := by
  refine (@sortBy_pairwise _ compareSitePlans _ _).imp ?_
  intro a b h
  unfold compareSitePlans at h
  rw [Ordering.isLE_then_iff_or] at h
  rcases h with h | ⟨h, hname⟩
  · left
    have hle : toLex b.host.specificity ≤ toLex a.host.specificity := by
      rw [← HostMatch.comparePair_isLE, h]
      rfl
    refine lt_of_le_of_ne hle ?_
    intro he
    rw [toLex_inj.mp he, comparePair_self] at h
    cases h
  · exact Or.inr ⟨(comparePair_eq h).symm, hname⟩

namespace Tls

/-- A table sorted as routing needs it is left as it is. -/
theorem new_of_sorted {p : ListenerPlan} (h : p.sites.Pairwise SitePlan.Outranks) :
    SniResolver.new (p.sites.map fun site => (site.host, site.id)) = ⟨p.sites.map fun site => (site.host, site.id)⟩ := by
  unfold SniResolver.new sortBy
  congr 1
  apply List.Pairwise.insertionSort_eq
  rw [List.pairwise_map]
  refine h.imp ?_
  intro a b hab
  exact HostMatch.comparePair_isLE.mpr hab

theorem siteFor_some (p : ListenerPlan) (name : String) :
    SniResolver.siteFor ⟨p.sites.map fun site => (site.host, site.id)⟩ (some name) = (p.siteFor name).map SitePlan.id := by
  simp only [SniResolver.siteFor, ListenerPlan.siteFor, List.find?_map, HostMatch.matches_lower, Option.map_map]
  rfl

/-- The certificate is that of the site the request is routed to, whatever the letter case; and
without a server name only a catch-all has one. -/
theorem sni_agrees_with_routing {Roots : Type} {preparation : Preparation Roots} (leaves : Leaves) {blake3 : Digest}
    {spec : Spec} {registry : Gatel.Registry} {p : ListenerPlan} (hp : p ∈ (compile blake3 spec registry).listeners)
    (htls : p.listener.protocol.isTls = true) {r : Option (ServerConfig Roots)} (hr : prepare preparation p = .ok r) :
    ∃ config, r = some config ∧
      (∀ name, config.certResolver.siteFor (some name) = (p.siteFor name).map SitePlan.id) ∧
      (∀ name site, p.siteFor name = some site → site ∈ p.sites ∧ site.host.matches name = true ∧
        (∀ other ∈ p.sites, other.host.matches name = true → other = site ∨ site.Precedes other) ∧
        ∀ request : RoutedRequest, Text.lower request.host = Text.lower name → p.Answers leaves request.host site) ∧
      (∀ name, p.siteFor name = none → (∀ site ∈ p.sites, site.host.matches name = false) ∧
        ∀ request : RoutedRequest, Text.lower request.host = Text.lower name →
          p.resolve leaves request = .error .invalidPath ∨ p.resolve leaves request = .error .host) ∧
      ∀ id, config.certResolver.siteFor none = some id → ∃ site ∈ p.sites, site.host = .any ∧ site.id = id := by
  obtain ⟨config, rfl, hresolver, -⟩ := prepare_ok htls hr
  obtain ⟨l, -, rfl⟩ := List.mem_map.mp hp
  have hsorted := compileListener_sorted spec l
  have hprecedes := compileListener_precedes spec l
  generalize compileListener spec l = p at hsorted hprecedes hresolver
  rw [new_of_sorted hsorted] at hresolver
  refine ⟨config, rfl, ?_, ?_, ?_, ?_⟩
  · intro name
    rw [hresolver]
    exact siteFor_some p name
  · intro name site hsite
    have hfound : p.sites.find? (fun site => site.host.matches name) = some site := hsite
    have hmatch := List.find?_some hfound
    refine ⟨List.mem_of_find?_eq_some hfound, hmatch, ?_, ?_⟩
    · intro other ho hm
      exact FirstMatch.find?_before hprecedes hsite ho hm
    · intro request hcase
      apply ListenerPlan.answers_of_siteFor
      rw [p.siteFor_lower hcase]
      exact hsite
  · intro name hnone
    refine ⟨?_, ?_⟩
    · intro site hm
      exact Bool.eq_false_iff.mpr (List.find?_eq_none.mp hnone site hm)
    · intro request hcase
      apply ListenerPlan.resolve_of_none
      rw [p.siteFor_lower hcase]
      exact hnone
  · intro id hid
    rw [hresolver] at hid
    simp only [SniResolver.siteFor, List.find?_map, Option.map_map, Option.map_eq_some_iff] at hid
    obtain ⟨site, hfound, rfl⟩ := hid
    refine ⟨site, List.mem_of_find?_eq_some hfound, ?_, rfl⟩
    simpa using List.find?_some hfound

/-- A site with a required client certificate is served over TLS only behind a verifier that
requires one of its own authority, whatever host and server name are sent; it is served in
plain text only on a listener it names. -/
theorem client_auth_guards {Roots : Type} {preparation : Preparation Roots} {fe : Frontend} {s : Snapshot} {a : Spec}
    (h : normalize fe s = .ok a) {p : ListenerPlan} (hp : p ∈ (compile fe.blake3 a fe.registry).listeners)
    {r : Option (ServerConfig Roots)} (hr : prepare preparation p = .ok r) {request : RoutedRequest} {site : SitePlan}
    (hsite : p.siteFor request.host = some site) {tls : SiteTls} {auth : ClientAuth} (ht : site.tls = some tls)
    (ha : tls.clientAuth = some auth) (hrequired : auth.required = true) :
    (p.listener.protocol.isTls = true → ∃ config roots, r = some config ∧ preparation.loadRoots auth.ca = .ok roots ∧
      config.clientVerifier = some ⟨roots, true⟩) ∧
    (p.listener.protocol.isTls = false → r = none ∧
      ∃ declared ∈ a.sites, compileSite declared = site ∧ p.listener.name ∈ declared.listeners) := by
  have hmem : site ∈ p.sites := List.mem_of_find?_eq_some hsite
  constructor
  · intro htls
    obtain ⟨config, rfl, -, hpolicy⟩ := prepare_ok htls hr
    obtain ⟨v, hv, hconfig⟩ := hpolicy site hmem tls auth ht ha
    unfold verifier at hv
    split at hv
    · cases hv
    · rename_i roots hroots
      split at hv
      · cases hv
      · cases hv
        rw [hrequired] at hconfig
        exact ⟨config, roots, rfl, hroots, hconfig⟩
  · intro hplain
    unfold prepare at hr
    rw [if_pos hplain] at hr
    cases hr
    refine ⟨rfl, ?_⟩
    obtain ⟨l, hl, rfl⟩ := List.mem_map.mp hp
    obtain ⟨declared, hd, rfl⟩ := List.mem_map.mp (CanonicalSort.mem_sortBy.mp hmem)
    obtain ⟨hin, hserved⟩ := List.mem_filter.mp hd
    refine ⟨declared, hin, rfl, ?_⟩
    have hon := (servedOn_iff (fe.normalize_sites h).2.2 hl declared).mp hserved
    unfold Site.ServedOn at hon
    split at hon
    · -- a site without names of its own goes where its certificate allows
      have hplain : l.protocol.isTls = false := hplain
      have hsome : declared.tls = some tls := ht
      rw [hplain, hsome] at hon
      cases hon
    · exact hon

namespace Sample
open Frontend.Sample

def secure : Listener := ⟨⟨.listener, "https"⟩, .file "gatel.kdl", "https", socket 0 0 0 0 8443, .https, false, here⟩

/-- A named site and the catch-all, both with certificates. -/
def secureSpec : Spec :=
  ⟨.default, [secure], [{ site with tls := some ⟨.internal, none, false⟩ },
    { site with id := ⟨.site, "any"⟩, host := .any, tls := some ⟨.manual (.file "a.pem") (.file "a.key"), none, false⟩ }], []⟩

/-- Everything can be read, and roots are told apart by where they are read from. -/
def readable : Preparation SecretRef := ⟨fun _ => .ok (), .ok, fun _ => .ok ()⟩

def secureLeaves : Leaves :=
  { leaves with parseSocket := fun s => if s = "0.0.0.0:8443" then some (socket 0 0 0 0 8443) else leaves.parseSocket s }

/-- The digests behind the site's identity on the listeners it names, and behind its route's. -/
def secureTable : List (List UInt8 × Fingerprint) :=
  [(words ["site", "example.com", "https"], digest 0x12f703cb678b004bc322d57ce3c5bc615497e5532a43945de053081a4b8b780e),
    (words ["route", "@0e788b4b1a0853e0", "example.com", "*", "/"],
      digest 0xa1dac882084baff64ea6183b22eed28494dbf862f778a0f150eecc4c290f1a5e),
    (words ["site", "example.com", "http", "https"],
      digest 0xff64d88aa92af13576549a8277e25128f47b3398cbd23a38dd07c4599abc03a6),
    (words ["route", "@a603bc9a59c407dd", "example.com", "*", "/"],
      digest 0x9a92ec300ab365dc601ee47d640fed5a044a51c114065782a5fb4f1f3b3fd09d)]

def secureFe : Frontend := { frontend (digestsOf secureTable) with leaves := secureLeaves }

/-- A site that requires client certificates, on the listeners it names. -/
def guarded (listeners : List String) : Snapshot :=
  snapshot [node "global" [] [node "http" [":8080"] [], node "https" [":8443"] []],
    node "upstream" ["backend"] [node "endpoint" ["127.0.0.1:9000"] []],
    ⟨"site", [text "example.com"], listeners.map fun name => ⟨"listener", text name, here⟩,
      [⟨"tls", [text "internal"], [],
        [⟨"client-auth", [text "required"], [⟨"ca", text "clients.pem", here⟩], [], here⟩], here⟩,
        node "route" ["/"] [proxyNode]], here⟩]

def auth : ClientAuth := ⟨true, .file "clients.pem"⟩

/-- The tables of an accepted configuration. -/
def tables (r : Except Diagnostics Spec) : List ListenerPlan :=
  match r with
  | .ok a => a.listeners.map (compileListener a)
  | .error _ => []

/-- Whether the first table with TLS, or without, serves the site with its policy. -/
def serves (r : Except Diagnostics Spec) (tls : Bool) : Bool :=
  (tables r).any fun p => p.listener.protocol.isTls == tls &&
    ((p.siteFor "example.com").bind SitePlan.tls).bind SiteTls.clientAuth == some auth

end Sample

open Sample in
/-- In capitals, the named site before the catch-all. -/
theorem sni_agrees_with_routing_secure :
    ∃ config, prepare readable (compileListener secureSpec secure) = .ok (some config) ∧
      config.certResolver.siteFor (some "EXAMPLE.com") = some ⟨.site, "@881ee21c64615aed"⟩ := by
  have hp : compileListener secureSpec secure ∈ (compile (fun _ => .zero) secureSpec ⟨[], [], .nil⟩).listeners :=
    List.mem_singleton.mpr rfl
  have hok : ∃ r, prepare readable (compileListener secureSpec secure) = .ok r := by
    cases hr : prepare readable (compileListener secureSpec secure) with
    | ok r => exact ⟨r, rfl⟩
    | error e =>
      have hno : (prepare readable (compileListener secureSpec secure)).isOk = true := by decide
      rw [hr] at hno
      cases hno
  obtain ⟨r, hr⟩ := hok
  obtain ⟨config, rfl, hname, -⟩ := sni_agrees_with_routing Frontend.Sample.leaves hp rfl hr
  refine ⟨config, hr, (hname "EXAMPLE.com").trans ?_⟩
  decide

namespace Sample

/-- The table that serves the site, of a configuration found to have it. -/
theorem exists_served {r : Except Diagnostics Spec} {tls : Bool} (h : serves r tls = true) :
    ∃ a, r = .ok a ∧ ∃ l ∈ a.listeners, l.protocol.isTls = tls ∧ ∃ site t,
      (compileListener a l).siteFor "example.com" = some site ∧ site.tls = some t ∧ t.clientAuth = some auth := by
  cases r with
  | error ds => cases h
  | ok a =>
    simp only [serves, tables, List.any_map, List.any_eq_true, Function.comp_apply, Bool.and_eq_true, beq_iff_eq,
      Option.bind_eq_some_iff] at h
    obtain ⟨l, hl, htls, t, ⟨site, hsite, ht⟩, ha⟩ := h
    exact ⟨a, rfl, l, hl, htls, site, t, hsite, ht, ha⟩

end Sample

namespace Sample

theorem exists_prepared {r : Except Diagnostics Spec} (h : ((tables r).all fun p => (prepare readable p).isOk) = true)
    {p : ListenerPlan} (hp : p ∈ tables r) : ∃ config, prepare readable p = .ok config := by
  have hok := List.all_eq_true.mp h p hp
  cases hr : prepare readable p with
  | ok config => exact ⟨config, rfl⟩
  | error e =>
    rw [hr] at hok
    cases hok

end Sample

open Sample in
/-- On its `https` listener alone. -/
theorem client_auth_guards_secure :
    ∃ a, normalize secureFe (guarded ["https"]) = .ok a ∧ ∃ p ∈ (compile secureFe.blake3 a secureFe.registry).listeners,
      ∃ config, prepare readable p = .ok (some config) ∧
        config.clientVerifier = some ⟨.file "clients.pem", true⟩ := by
  have hserves : serves (normalize secureFe (guarded ["https"])) true = true := by decide
  have hok : ((tables (normalize secureFe (guarded ["https"]))).all fun p => (prepare readable p).isOk) = true := by
    decide
  generalize guarded ["https"] = s at hserves hok ⊢
  obtain ⟨a, ha, l, hl, htls, site, t, hsite, ht, hauth⟩ := exists_served hserves
  rw [ha] at hok
  obtain ⟨r, hr⟩ := exists_prepared hok (List.mem_map_of_mem hl)
  let request : RoutedRequest := ⟨"example.com", "GET", "/", none, fun _ => none, fun _ => none, none⟩
  have hselected : (compileListener a l).siteFor request.host = some site := hsite
  obtain ⟨config, roots, rfl, hroots, hv⟩ :=
    (client_auth_guards ha (List.mem_map_of_mem hl) hr hselected ht hauth rfl).1 htls
  cases hroots
  exact ⟨a, ha, compileListener a l, List.mem_map_of_mem hl, config, hr, hv⟩

open Sample in
/-- Named on the plain listener too: every listener is prepared, and the plain one serves the
site to anybody. -/
theorem client_auth_bypassed :
    ∃ a, normalize secureFe (guarded ["http", "https"]) = .ok a ∧
      (∀ p ∈ (compile secureFe.blake3 a secureFe.registry).listeners, ∃ r, prepare readable p = .ok r) ∧
      ∃ p ∈ (compile secureFe.blake3 a secureFe.registry).listeners, ∃ site t,
        p.siteFor "example.com" = some site ∧ site.tls = some t ∧ t.clientAuth = some ⟨true, .file "clients.pem"⟩ ∧
        prepare readable p = .ok none := by
  have hserves : serves (normalize secureFe (guarded ["http", "https"])) false = true := by decide
  have hok : ((tables (normalize secureFe (guarded ["http", "https"]))).all fun p => (prepare readable p).isOk) = true := by
    decide
  generalize guarded ["http", "https"] = s at hserves hok ⊢
  obtain ⟨a, ha, l, hl, htls, site, t, hsite, ht, hauth⟩ := exists_served hserves
  rw [ha] at hok
  refine ⟨a, ha, fun p hp => exists_prepared hok hp, compileListener a l, List.mem_map_of_mem hl, site, t, hsite, ht, hauth, ?_⟩
  exact if_pos htls

end Tls

end Gatel
