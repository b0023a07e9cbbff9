import Gatel.Plan.GlobalDecode
import Gatel.Plan.Ordering

namespace Gatel
open CanonicalSort (sortBy)
open Std (TransCmp)

/-- Report every item whose key was seen before, naming the item seen last. -/
@[grind =] def repeats {α κ : Type} [BEq κ] (key : α → κ) (origin : α → Origin) (report : α → Diagnostic) :
    List (κ × Origin) → List α → Diagnostics
  | _, [] => []
  | seen, x :: rest =>
    (match seen.lookup (key x) with
      | some first => [(report x).withRelated "first declared here" first]
      | none => []) ++ repeats key origin report ((key x, origin x) :: seen) rest

theorem lookup_isSome {κ : Type} [BEq κ] [LawfulBEq κ] (k : κ) (seen : List (κ × Origin)) :
    (seen.lookup k).isSome = true ↔ k ∈ seen.map Prod.fst := by
  induction seen with
  | nil => simp
  | cons p seen ih =>
    obtain ⟨k', o⟩ := p
    by_cases hk : k = k'
    · simp [List.lookup, hk]
    · have hb : (k == k') = false := by simpa using hk
      simp [List.lookup, hb, hk, ih]

theorem repeats_append {α κ : Type} [BEq κ] (key : α → κ) (origin : α → Origin) (report : α → Diagnostic)
    (seen : List (κ × Origin)) (l l' : List α) :
    repeats key origin report seen (l ++ l') = repeats key origin report seen l ++
      repeats key origin report ((l.map fun x => (key x, origin x)).reverse ++ seen) l' := by
  induction l generalizing seen with
  | nil => rfl
  | cons x l ih => simp [repeats, ih]

/-- No report means that no key repeats, nor was seen before. -/
theorem repeats_clean {α κ : Type} [BEq κ] [LawfulBEq κ] {key : α → κ} {origin : α → Origin}
    {report : α → Diagnostic} (hr : ∀ x, (report x).isError = true) (seen : List (κ × Origin)) (l : List α) :
    Diagnostics.hasErrors (repeats key origin report seen l) = false ↔
      (l.map key).Nodup ∧ ∀ x ∈ l, key x ∉ seen.map Prod.fst := by
  induction l generalizing seen with
  | nil => simp [repeats]
  | cons x l ih =>
    have hx := lookup_isSome (key x) seen
    simp only [repeats, Diagnostics.hasErrors_append, Bool.or_eq_false_iff, ih]
    cases hl : seen.lookup (key x) with
    | none =>
      have hn : key x ∉ seen.map Prod.fst := by rw [← hx, hl]; simp
      simp only [Diagnostics.hasErrors_nil, true_and, List.map_cons, List.nodup_cons, List.mem_cons,
        not_or, forall_eq_or_imp]
      constructor
      · rintro ⟨hd, hs⟩
        refine ⟨⟨?_, hd⟩, hn, fun y hy => (hs y hy).2⟩
        intro hm
        obtain ⟨y, hy, he⟩ := List.mem_map.mp hm
        exact (hs y hy).1 he
      · rintro ⟨⟨hm, hd⟩, -, hs⟩
        exact ⟨hd, fun y hy => ⟨fun he => hm (List.mem_map.mpr ⟨y, hy, he⟩), hs y hy⟩⟩
    | some first =>
      have hy : key x ∈ seen.map Prod.fst := by rw [← hx, hl]; rfl
      have he : ((report x).withRelated "first declared here" first).isError = true := hr x
      simp only [Diagnostics.hasErrors_cons, he, Bool.true_or, Bool.true_eq_false, false_and, false_iff,
        not_and]
      intro _ hs
      exact hs x List.mem_cons_self hy

/-- The same over a table that keeps the first occurrence. -/
@[grind =] def firstRepeats (report : DirectiveInstance → Origin → Diagnostic) :
    List (String × Origin) → List DirectiveInstance → Diagnostics
  | _, [] => []
  | seen, x :: rest => match seen.lookup x.metadata.name with
    | some first => report x first :: firstRepeats report seen rest
    | none => firstRepeats report ((x.metadata.name, x.origin) :: seen) rest

theorem firstRepeats_clean {report : DirectiveInstance → Origin → Diagnostic}
    (hr : ∀ x o, (report x o).isError = true) (seen : List (String × Origin)) (l : List DirectiveInstance) :
    Diagnostics.hasErrors (firstRepeats report seen l) = false ↔
      (l.map fun d => d.metadata.name).Nodup ∧ ∀ x ∈ l, x.metadata.name ∉ seen.map Prod.fst := by
  induction l generalizing seen with
  | nil => simp [firstRepeats]
  | cons x l ih =>
    have hx := lookup_isSome x.metadata.name seen
    unfold firstRepeats
    cases hl : seen.lookup x.metadata.name with
    | none =>
      have hn : x.metadata.name ∉ seen.map Prod.fst := by rw [← hx, hl]; simp
      simp only [ih, List.map_cons, List.nodup_cons, List.mem_cons, not_or, forall_eq_or_imp]
      constructor
      · rintro ⟨hd, hs⟩
        refine ⟨⟨?_, hd⟩, hn, fun y hy => (hs y hy).2⟩
        intro hm
        obtain ⟨y, hy, he⟩ := List.mem_map.mp hm
        exact (hs y hy).1 he
      · rintro ⟨⟨hm, hd⟩, -, hs⟩
        exact ⟨hd, fun y hy => ⟨fun he => hm (List.mem_map.mpr ⟨y, hy, he⟩), hs y hy⟩⟩
    | some first =>
      have hy : x.metadata.name ∈ seen.map Prod.fst := by rw [← hx, hl]; rfl
      simp only [Diagnostics.hasErrors_cons, hr, Bool.true_or, Bool.true_eq_false, false_iff, not_and]
      intro _ hs
      exact hs x List.mem_cons_self hy

def rejectDuplicateDirectives (directives : List DirectiveInstance) : Diagnostics :=
  firstRepeats (fun x first => ((Diagnostic.error .duplicate x.origin
    ("`" ++ x.metadata.name ++ "` is declared twice in the same scope")).withRelated
      "first declared here" first).withHelp "combine them, or move one to the other scope") [] directives

theorem rejectDuplicateDirectives_clean (l : List DirectiveInstance) :
    Diagnostics.hasErrors (rejectDuplicateDirectives l) = false ↔
      (l.map fun d => d.metadata.name).Nodup := by
  rw [rejectDuplicateDirectives, firstRepeats_clean (fun _ _ => rfl)]
  simp

def siteReport (site : Site) : Diagnostic :=
  .error .duplicate site.origin "site resource ID is declared more than once"

def routeReport (route : Route) : Diagnostic :=
  .error .duplicate route.origin "route resource ID is declared more than once across the configuration"

/-- Site identities, and route identities across the whole configuration. -/
@[grind =] def checkIds : List (ResourceId × Origin) → List (ResourceId × Origin) → List Site → Diagnostics
  | _, _, [] => []
  | siteIds, routeIds, site :: rest =>
    (match siteIds.lookup site.id with
      | some first => [(siteReport site).withRelated "first declared here" first]
      | none => []) ++
    repeats Route.id Route.origin routeReport routeIds site.routes ++
    checkIds ((site.id, site.origin) :: siteIds)
      ((site.routes.map fun route => (route.id, route.origin)).reverse ++ routeIds) rest

/-- The interleaved walk errs exactly when one of its two tables does. -/
theorem checkIds_hasErrors (siteIds routeIds : List (ResourceId × Origin)) (sites : List Site) :
    Diagnostics.hasErrors (checkIds siteIds routeIds sites) =
      (Diagnostics.hasErrors (repeats Site.id Site.origin siteReport siteIds sites) ||
        Diagnostics.hasErrors (repeats Route.id Route.origin routeReport routeIds
          (sites.flatMap Site.routes))) := by
  induction sites generalizing siteIds routeIds with
  | nil => rfl
  | cons s sites ih =>
    simp only [checkIds, repeats, List.flatMap_cons, repeats_append, Diagnostics.hasErrors_append, ih]
    ac_rfl

theorem checkIds_clean (sites : List Site) :
    Diagnostics.hasErrors (checkIds [] [] sites) = false ↔
      (sites.map Site.id).Nodup ∧ ((sites.flatMap Site.routes).map Route.id).Nodup := by
  rw [checkIds_hasErrors, Bool.or_eq_false_iff, repeats_clean (fun _ => rfl), repeats_clean (fun _ => rfl)]
  simp

@[grind =] def checkListeners : List (String × Origin) → List (SocketAddr × Origin) → List Listener → Diagnostics
  | _, _, [] => []
  | names, binds, l :: rest =>
    (match names.lookup l.name with
      | some first => [(Diagnostic.error .duplicate l.origin
          ("listener `" ++ l.name ++ "` is declared twice")).withRelated "first declared here" first]
      | none => []) ++
    (match binds.lookup l.bind with
      | some first => [(Diagnostic.error .duplicate l.origin
          ("two listeners bind " ++ l.bind.toText)).withRelated "first declared here" first]
      | none => []) ++
    checkListeners ((l.name, l.origin) :: names) ((l.bind, l.origin) :: binds) rest

theorem checkListeners_hasErrors (names : List (String × Origin)) (binds : List (SocketAddr × Origin))
    (listeners : List Listener) :
    Diagnostics.hasErrors (checkListeners names binds listeners) =
      (Diagnostics.hasErrors (repeats Listener.name Listener.origin (fun l => .error .duplicate l.origin
          ("listener `" ++ l.name ++ "` is declared twice")) names listeners) ||
        Diagnostics.hasErrors (repeats Listener.bind Listener.origin (fun l => .error .duplicate l.origin
          ("two listeners bind " ++ l.bind.toText)) binds listeners)) := by
  induction listeners generalizing names binds with
  | nil => rfl
  | cons l listeners ih =>
    simp only [checkListeners, repeats, Diagnostics.hasErrors_append, ih]
    ac_rfl

theorem checkListeners_clean (listeners : List Listener) :
    Diagnostics.hasErrors (checkListeners [] [] listeners) = false ↔
      (listeners.map Listener.name).Nodup ∧ (listeners.map Listener.bind).Nodup := by
  rw [checkListeners_hasErrors, Bool.or_eq_false_iff, repeats_clean (fun _ => rfl),
    repeats_clean (fun _ => rfl)]
  simp

/-- What two routes of a site must not share. -/
def Route.claim (host : HostMatch) (route : Route) : String :=
  route.path.describe ++ "|" ++ route.methods.describe ++ "|" ++
    ",".intercalate (route.matchers.map Matcher.describe) ++ "|" ++ host.describe

def checkClaims (site : Site) : Diagnostics :=
  repeats (Route.claim site.host) Route.origin (fun route => (Diagnostic.error .duplicate route.origin
    ("two routes in site `" ++ site.host.describe ++ "` match exactly the same requests")).withHelp
      "add a `match` condition, or merge them") [] site.routes

def checkUniqueness (spec : Spec) : Diagnostics :=
  checkIds [] [] spec.sites ++ checkListeners [] [] spec.listeners ++
    repeats (fun u : Upstream => u.id.name) (fun u => u.origin) (fun u => .error .duplicate u.origin
      ("upstream `" ++ u.id.name ++ "` is declared twice")) [] spec.upstreams ++
    spec.sites.flatMap checkClaims

theorem checkClaims_clean (site : Site) :
    Diagnostics.hasErrors (checkClaims site) = false ↔ (site.routes.map (Route.claim site.host)).Nodup := by
  rw [checkClaims, repeats_clean (fun _ => rfl)]
  simp

/-- What an accepted configuration never repeats. -/
theorem checkUniqueness_clean (spec : Spec) :
    Diagnostics.hasErrors (checkUniqueness spec) = false ↔
      ((spec.sites.map Site.id).Nodup ∧ ((spec.sites.flatMap Site.routes).map Route.id).Nodup) ∧
      ((spec.listeners.map Listener.name).Nodup ∧ (spec.listeners.map Listener.bind).Nodup) ∧
      (spec.upstreams.map fun u => u.id.name).Nodup ∧
      ∀ site ∈ spec.sites, (site.routes.map (Route.claim site.host)).Nodup := by
  simp only [checkUniqueness, Diagnostics.hasErrors_append, Bool.or_eq_false_iff, checkIds_clean,
    checkListeners_clean, Diagnostics.hasErrors_flatMap]
  rw [repeats_clean (fun _ => rfl), List.any_eq_false]
  simp only [Bool.not_eq_true, checkClaims_clean]
  simp [and_assoc]

def unknownUpstream (spec : Spec) (upstream : ResourceId) (origin : Origin) : Diagnostic :=
  let names := spec.upstreams.map fun u => u.id.name
  let d := Diagnostic.error .unresolvedReference origin ("unknown upstream `" ++ upstream.name ++ "`")
  match didYouMean upstream.name names with
  | some suggestion => d.withHelp ("did you mean `" ++ suggestion ++ "`?")
  | none => if names.isEmpty then d.withHelp "no upstreams are declared; use `proxy \"host:port\"`" else d

def checkDirectiveUpstreams (spec : Spec) (directive : DirectiveInstance) : Diagnostics :=
  (directive.config.upstreams.filter fun u => (spec.upstream u).isNone).map fun u =>
    unknownUpstream spec u directive.origin

def checkAcme (spec : Spec) (site : Site) : Diagnostics :=
  match site.tls with
  | none => []
  | some tls =>
    if tls.source ≠ .acme then []
    else
      (if spec.global.acme.isNone then
        [(Diagnostic.error .unresolvedReference site.origin
          ("site `" ++ site.host.describe ++
            "` asks for `tls acme`, but nothing configured a certificate authority")).withHelp
              "add `acme email=\"...\" agreed=#true` to `global`"] else []) ++
      (match site.host with
        | .exact _ => []
        | _ => [(Diagnostic.error .invalidValue site.origin
            ("site `" ++ site.host.describe ++
              "` cannot use `tls acme`: there is no single host to certify")).withHelp
                "name the site, or use `tls cert=.. key=..` for a certificate you already have"])

def checkProxyProtocol (spec : Spec) : Diagnostics :=
  if spec.global.trustedProxies.isEmpty then
    (spec.listeners.filter fun l => l.proxyProtocol).map fun l =>
      (Diagnostic.error .missingField l.origin ("listener `" ++ l.name ++
        "` reads PROXY headers, but no `trusted-proxy` says whose")).withHelp
          "add `trusted-proxy \"10.0.0.0/8\"` to `global`, naming the balancer's network"
  else []

def unknownListener (spec : Spec) (site : Site) (name : String) : Diagnostic :=
  let names := spec.listeners.map fun l => l.name
  let d := Diagnostic.error .unresolvedReference site.origin
    ("site `" ++ site.host.describe ++ "` refers to unknown listener `" ++ name ++ "`")
  match didYouMean name names with
  | some suggestion => d.withHelp ("did you mean `" ++ suggestion ++ "`?")
  | none => d.withHelp ("declared listeners: " ++ ", ".intercalate names)

def checkServed (spec : Spec) (site : Site) : Diagnostics :=
  let served := spec.listenersFor site
  (if site.tls.isSome && !served.isEmpty && served.all fun l => !l.protocol.isTls then
    [(Diagnostic.error .invalidValue site.origin ("site `" ++ site.host.describe ++
      "` configures TLS but is only served on plaintext listeners")).withHelp
        "add an `https` listener, or point the site at one"] else []) ++
  (if served.isEmpty then
    [(Diagnostic.error .unresolvedReference site.origin ("site `" ++ site.host.describe ++
      "` is not served on any listener")).withHelp (if site.tls.isSome then
        "a site with `tls` needs an `https` listener" else "a site without `tls` needs an `http` listener")]
    else [])

def checkRoute (spec : Spec) (route : Route) : Diagnostics :=
  route.directives.flatMap (checkDirectiveUpstreams spec) ++
    match route.terminal with
    | .proxy upstream =>
      if (spec.upstream upstream).isNone then [unknownUpstream spec upstream route.origin] else []
    | .directive _ => []

def checkSite (spec : Spec) (site : Site) : Diagnostics :=
  (site.listeners.filter fun name => !(spec.listeners.any fun l => l.name == name)).map
      (unknownListener spec site) ++
    checkServed spec site ++ site.directives.flatMap (checkDirectiveUpstreams spec) ++
    site.routes.flatMap (checkRoute spec)

def checkReferences (spec : Spec) : Diagnostics :=
  spec.sites.flatMap (checkAcme spec) ++ checkProxyProtocol spec ++ spec.sites.flatMap (checkSite spec)

/-- A local name that would otherwise be served nowhere gets a development
certificate; any other is refused. -/
def automaticTls (leaves : Leaves) (listeners : List Listener) (site : Site) : Report Site :=
  let tlsNames := (listeners.filter fun l => l.protocol.isTls).map fun l => l.name
  let plainNames := (listeners.filter fun l => !l.protocol.isTls).map fun l => l.name
  let hasPlaintext :=
    if site.listeners.isEmpty then !plainNames.isEmpty else site.listeners.any plainNames.contains
  let onTls := if site.listeners.isEmpty then true else site.listeners.any tlsNames.contains
  if tlsNames.isEmpty || site.tls.isSome || hasPlaintext || !onTls then ⟨site, []⟩
  else match site.host.localName leaves with
    | some _ => ⟨{ site with tls := some ⟨.internal, none, true⟩ }, []⟩
    | none => ⟨site, [(Diagnostic.error .missingField site.origin ("site `" ++ site.host.describe ++
        "` can only be served over TLS, and has no certificate")).withHelp
          "add `tls cert=.. key=..` for one you have, `tls acme` to have one issued,                      or `tls internal` for a development certificate"]⟩

def applyAutomaticTls (leaves : Leaves) (spec : Spec) : Report Spec :=
  let sites := spec.sites.map (automaticTls leaves spec.listeners)
  ⟨{ spec with sites := sites.map Report.value }, sites.flatMap Report.diagnostics⟩

/-- The most specific route first; the identity breaks ties. -/
def compareRoutes (host : HostMatch) (a b : Route) : Ordering :=
  (compareSpecificity (host, a.path, a.methods, a.matchers.length)
    (host, b.path, b.methods, b.matchers.length)).then (compare a.id.name b.id.name)

def compareSites (a b : Site) : Ordering :=
  (comparePair a.host.specificity b.host.specificity).then (compare a.id.name b.id.name)

def sortSite (site : Site) : Site := { site with routes := sortBy (compareRoutes site.host) site.routes }

def sortRoutes (spec : Spec) : Spec :=
  { spec with
    sites := sortBy compareSites (spec.sites.map sortSite)
    listeners := sortBy (compareOn Listener.name) spec.listeners
    upstreams := sortBy (compareOn fun u : Upstream => u.id.name) spec.upstreams }

def errorsOf {α : Type} : Except Diagnostics α → Diagnostics
  | .error ds => ds
  | .ok _ => []

/-- Every chain of a site must compose. -/
def checkOrder (site : Site) : Diagnostics :=
  errorsOf (orderChain site.directives) ++
    site.routes.flatMap fun route => errorsOf (orderRoute (site.directives ++ route.directives) route.terminal)

end Gatel
