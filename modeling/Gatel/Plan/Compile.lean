import Gatel.Plan.Normalize

namespace Gatel
open CanonicalSort (sortBy)
open Std (TransCmp)

/-- A kind of state that outlives the generation that created it. -/
inductive StateKind where
  | endpoints
  | health
  | pool
  | selector
  | directive (name : String)
  | certificate
  deriving DecidableEq, Repr

namespace StateKind

def asStr : StateKind → String
  | .endpoints => "endpoints"
  | .health => "health"
  | .pool => "pool"
  | .selector => "selector"
  | .directive name => name
  | .certificate => "certificate"

/-- Declaration order, then the name a directive's kind carries. -/
def rank : StateKind → Nat
  | .endpoints => 0
  | .health => 1
  | .pool => 2
  | .selector => 3
  | .directive _ => 4
  | .certificate => 5

def directiveName : StateKind → String
  | .directive name => name
  | _ => ""

end StateKind

inductive ResetPolicy where
  | preserve
  | reset
  deriving DecidableEq, Repr

/-- One piece of state a plan needs. -/
structure StateBinding where
  owner : ResourceId
  kind : StateKind
  compatibility : Fingerprint
  policy : ResetPolicy
  deriving DecidableEq

namespace StateBinding

def hashInto (b : StateBinding) (h : Hasher) : Hasher :=
  (((b.owner.hashInto h).updateStr b.kind.asStr).updateFingerprint b.compatibility).updateBool (b.policy == .reset)

def order : StateBinding → StateBinding → Ordering :=
  compareLex (compareOn fun b => b.owner.name) <|
    compareLex (compareOn fun b => b.kind.rank) (compareOn fun b => b.kind.directiveName)

end StateBinding

def DirectiveInstance.stateBinding (d : DirectiveInstance) : Option StateBinding :=
  d.config.state.map fun compatibility => ⟨d.owner, .directive d.metadata.name, compatibility, .preserve⟩

structure RoutePlan where
  id : ResourceId
  path : PathMatch
  methods : MethodMatch
  matchers : List Matcher
  chain : List DirectiveInstance
  terminal : Terminal
  deriving DecidableEq

structure SitePlan where
  id : ResourceId
  host : HostMatch
  tls : Option SiteTls
  routes : List RoutePlan
  fallback : List DirectiveInstance
  deriving DecidableEq

structure ListenerPlan where
  listener : Listener
  sites : List SitePlan
  deriving DecidableEq

/-- The site that claims a host. -/
def ListenerPlan.siteFor (p : ListenerPlan) (host : String) : Option SitePlan :=
  p.sites.find? fun site => site.host.matches host

/-- An immutable execution plan. -/
structure Plan where
  spec : Spec
  listeners : List ListenerPlan
  upstreams : List Upstream
  bindings : List StateBinding
  specHash : Fingerprint
  planHash : Fingerprint

/-- `expect` on a chain that normalization has composed already. -/
def composed (r : Except Diagnostics (List DirectiveInstance)) : List DirectiveInstance :=
  match r with
  | .ok chain => chain
  | .error _ => []

def compileSite (site : Site) : SitePlan where
  id := site.id
  host := site.host
  tls := site.tls
  routes := site.routes.map fun route =>
    { id := route.id
      path := route.path
      methods := route.methods
      matchers := route.matchers
      chain := composed (orderRoute (site.directives ++ route.directives) route.terminal)
      terminal := route.terminal }
  fallback := composed (orderChain site.directives)

def compareSitePlans (a b : SitePlan) : Ordering :=
  (comparePair a.host.specificity b.host.specificity).then (compare a.id.name b.id.name)

def compileListener (spec : Spec) (listener : Listener) : ListenerPlan where
  listener := listener
  sites := sortBy compareSitePlans <| (spec.sites.filter fun site =>
    (spec.listenersFor site).any fun candidate => candidate.name == listener.name).map compileSite

/-- What decides whether existing connections may still be used. -/
def transportHash (blake3 : Digest) (u : Upstream) : Fingerprint :=
  let h := Hasher.new.updateUnordered blake3 u.endpoints fun e h =>
    (h.updateStr e.id).updateStr e.target.describe
  ((h.updateU64 u.protocol.rank).updateOption UpstreamTls.hashInto u.tls).finish blake3

def upstreamBindings (blake3 : Digest) (u : Upstream) : List StateBinding :=
  let transport := transportHash blake3 u
  let selector := ((u.balance.hashInto Hasher.new).updateFingerprint transport).finish blake3
  let health :=
    if u.health.isSome || u.passiveHealth.isSome then
      let h := (Hasher.new.updateOption Health.hashInto u.health).updateOption
        (PassiveHealth.hashInto blake3) u.passiveHealth
      [⟨u.id, .health, (h.updateFingerprint transport).finish blake3, .preserve⟩]
    else []
  [⟨u.id, .endpoints, transport, .preserve⟩, ⟨u.id, .pool, transport, .preserve⟩,
    ⟨u.id, .selector, selector, .preserve⟩] ++ health

def directiveBindings (site : Site) : List StateBinding :=
  site.directives.filterMap DirectiveInstance.stateBinding ++ site.routes.flatMap fun route =>
    route.directives.filterMap DirectiveInstance.stateBinding ++
      match route.terminal with
      | .directive d => d.stateBinding.toList
      | .proxy _ => []

def certificateBinding (blake3 : Digest) (site : Site) : Option StateBinding :=
  site.tls.map fun tls =>
    ⟨site.id, .certificate, (tls.hashInto Hasher.new).finish blake3, .preserve⟩

def collectBindings (blake3 : Digest) (spec : Spec) : List StateBinding :=
  sortBy StateBinding.order <| spec.upstreams.flatMap (upstreamBindings blake3) ++
    spec.sites.flatMap directiveBindings ++ spec.sites.filterMap (certificateBinding blake3)

/-- Compile a spec against the directives this binary contains. -/
def compile (blake3 : Digest) (spec : Spec) (registry : Registry) : Plan :=
  let bindings := collectBindings blake3 spec
  let specHash := spec.fingerprint blake3
  let h := ((Hasher.new.updateStr "gatel.plan.v1").updateFingerprint specHash).updateFingerprint
    (registry.buildHash blake3)
  { spec := spec
    listeners := spec.listeners.map (compileListener spec)
    upstreams := spec.upstreams
    bindings := bindings
    specHash := specHash
    planHash := (h.updateOrdered blake3 bindings StateBinding.hashInto).finish blake3 }

/-- A request as routing sees it; the path is still encoded. -/
structure RoutedRequest where
  host : String
  method : String
  uriPath : String
  query : Option String
  header : String → Option String
  cookie : String → Option String
  clientIp : Option IpAddr

inductive NoMatch where
  | invalidPath
  | host
  | site (id : ResourceId)
  deriving DecidableEq

def RoutePlan.accepts (r : RoutePlan) (context : MatchContext) : Bool :=
  r.path.matches context.path && r.methods.matches context.method &&
    r.matchers.all fun m => m.matches context

/-- `Dispatcher::resolve` over the table of one listener. -/
def ListenerPlan.resolve (leaves : Leaves) (p : ListenerPlan) (request : RoutedRequest) :
    Except NoMatch (SitePlan × RoutePlan) :=
  match leaves.routingPath request.uriPath with
  | none => .error .invalidPath
  | some path =>
    let context : MatchContext := ⟨request.host, request.method, path, request.query, request.header,
      request.cookie, request.clientIp, p.listener.protocol.isTls⟩
    match p.sites.find? fun site => site.host.matches request.host with
    | none => .error .host
    | some site => match site.routes.find? fun route => route.accepts context with
      | none => .error (.site site.id)
      | some route => .ok (site, route)

end Gatel
