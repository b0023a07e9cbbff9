import Gatel.Model.Snapshot
import Gatel.Plan.Validate

namespace Gatel
open CanonicalSort (sortBy)

/-- A decoded resource, what was reported, and the inline upstreams met on the way,
in the order they were met. -/
structure Yield (α : Type) where
  value : Option α
  inline : List Upstream
  diagnostics : Diagnostics

def Yield.fail {α : Type} (ds : Diagnostics) : Yield α := ⟨none, [], ds⟩

namespace Frontend

variable (fe : Frontend)

/-- The first property `proxy` refuses. -/
def proxyProps : Bool → List Property → Option Diagnostic
  | _, [] => none
  | seen, property :: rest =>
    if property.name ≠ "upstream" then
      some (.error .unknownProperty property.origin
        "`proxy` only accepts the upstream property; configure inline upstream options with child nodes")
    else if seen then some (.error .duplicate property.origin "`proxy` upstream is declared twice")
    else proxyProps true rest

/-- The body an inline `proxy` is decoded from: an address is shorthand for a body of
one endpoint. -/
@[grind =] def proxyBody (node : Node) : Decode Node :=
  match node.args.head? with
  | some value => match value.asStr with
    | none => .fail (.error .invalidValue value.origin "`proxy` takes an address string")
    | some address => match node.children with
      | first :: _ => .fail ((Diagnostic.error .invalidValue first.origin
          "`proxy` takes either an inline address or a body").withHelp
            "move the address into an `endpoint` node inside the body")
      | [] => .ok ⟨"proxy", [], [],
          [⟨"endpoint", [⟨.str address, value.origin⟩], [], [], value.origin⟩], node.origin⟩
  | none =>
    if node.children.isEmpty then
      .fail ((Diagnostic.error .argumentCount node.origin
        "`proxy` needs an address, `upstream=`, or a body").withHelp
          "`proxy \"127.0.0.1:9000\"` is the short form")
    else .ok node

/-- The identity of an inline upstream: its site, and everything it decoded to. -/
def inlineId (site : ResourceId) (owner : SourceId) (upstream : Upstream) : ResourceId :=
  let identity := upstream.hashInto fe.blake3 (Hasher.new.updateStr "inline-upstream-policy-v1")
  .derivedOwned fe.blake3 .upstream owner [site.name, (identity.finish fe.blake3).toHex]

def inlineUpstream (node : Node) (site : ResourceId) (owner : SourceId) : Decode Upstream := do
  let body ← proxyBody node
  let addresses := (body.childrenNamed "endpoint").filterMap fun child => child.args.head?.bind Value.asStr
  let seed := anonymousUpstreamId fe.blake3 site owner addresses
  let upstream ← decodeUpstreamBody fe.leaves fe.upstreamNodes body seed owner
  return { upstream with id := fe.inlineId site owner upstream }

/-- Address, named upstream and inline body all lower to an upstream. -/
@[grind =] def proxy (node : Node) (site : ResourceId) (owner : SourceId) : Yield Terminal :=
  match proxyProps false node.props with
  | some d => .fail [d]
  | none =>
    if node.args.length > 1 then
      .fail [.error .argumentCount node.origin
        "`proxy` takes at most one inline address; use endpoint nodes for multiple backends"]
    else match node.prop "upstream" with
      | some property =>
        if node.args ≠ [] then
          .fail [(Diagnostic.error .invalidValue node.origin
            "`proxy` takes either an address or `upstream=`, not both").withHelp
              "an inline address defines a private upstream; `upstream=` refers to a shared one"]
        else match property.value.asStr with
          | none => .fail [.error .invalidValue property.origin "`upstream` must be a name"]
          | some name => match node.children with
            | first :: _ => .fail [.error .unknownNode first.origin
                "`proxy upstream=` refers to an upstream declared elsewhere; it takes no body"]
            | [] => ⟨some (.proxy ⟨.upstream, name⟩), [], []⟩
      | none =>
        let decoded := fe.inlineUpstream node site owner
        ⟨decoded.value.map fun u => .proxy u.id, decoded.value.toList, decoded.diagnostics⟩

/-- The last `id=` stands; anything that is not a string is reported. -/
def idProp (kind : String) (acc : Report (Option String)) (property : Property) : Report (Option String) :=
  if property.name = "id" then match property.value.asStr with
    | some id => ⟨some id, acc.diagnostics⟩
    | none => ⟨acc.value, acc.diagnostics ++ [.error .invalidValue property.origin "`id` must be a string"]⟩
  else ⟨acc.value, acc.diagnostics ++ [.error .unknownProperty property.origin
    ("`" ++ kind ++ "` has no property `" ++ property.name ++ "`")]⟩

/-- What the children of a route have contributed so far. -/
structure RouteBody where
  methods : MethodMatch
  methodOrigin : Option Origin
  matchers : List Matcher
  directives : List DirectiveInstance
  terminals : List (Terminal × Origin)
  inline : List Upstream
  diagnostics : Diagnostics

def routeMethod (b : RouteBody) (child : Node) : RouteBody :=
  match b.methodOrigin with
  | some first => { b with diagnostics := b.diagnostics ++ [(Diagnostic.error .duplicate child.origin
      "`method` may only be declared once").withRelated "first declared here" first] }
  | none =>
    let b := { b with methodOrigin := some child.origin }
    let names := child.args.filterMap Value.asStr
    if names.length ≠ child.args.length then
      { b with diagnostics := b.diagnostics ++ [.error .invalidValue child.origin "methods must be strings"] }
    else match MethodMatch.parse names with
      | .ok parsed => { b with methods := parsed }
      | .error message => { b with diagnostics := b.diagnostics ++ [.error .invalidValue child.origin message] }

def routeDirective (b : RouteBody) (child : Node) : RouteBody :=
  let decoded := fe.registry.decode fe.blake3 child .route
  let b := { b with diagnostics := b.diagnostics ++ decoded.diagnostics }
  match decoded.value with
  | none => b
  | some d =>
    if d.metadata.role.isTerminal then { b with terminals := b.terminals ++ [(.directive d, child.origin)] }
    else { b with directives := b.directives ++ [d] }

def routeChild (site : ResourceId) (owner : SourceId) (b : RouteBody) (child : Node) : RouteBody :=
  if child.name = "method" then routeMethod b child
  else if child.name = "match" then
    let parsed := parseMatchNode fe.leaves child
    { b with matchers := b.matchers ++ parsed.value, diagnostics := b.diagnostics ++ parsed.diagnostics }
  else if child.name = "proxy" then
    let decoded := fe.proxy child site owner
    { b with
      terminals := b.terminals ++ decoded.value.toList.map fun t => (t, child.origin)
      inline := b.inline ++ decoded.inline
      diagnostics := b.diagnostics ++ decoded.diagnostics }
  else fe.routeDirective b child

/-- Exactly one terminal; a terminal that failed to decode has said why already. -/
def soleTerminal (node : Node) (rawPath : String) (b : RouteBody) : Decode Terminal :=
  match b.terminals with
  | [(terminal, _)] => .ok terminal
  | [] =>
    if Diagnostics.hasErrors b.diagnostics then ⟨none, []⟩
    else .fail ((Diagnostic.error .terminalArity node.origin
      ("route `" ++ rawPath ++ "` has nothing to answer with")).withHelp
        "add a terminal such as `proxy`, `respond` or `file-server`")
  | first :: second :: _ =>
    .fail (((Diagnostic.error .terminalArity second.2 ("route `" ++ rawPath ++
      "` has more than one terminal: " ++ ", ".intercalate (b.terminals.map fun t => t.1.name))).withRelated
        "first terminal here" first.2).withHelp
          "a route answers in exactly one way; split it into two routes")

def routeId (site : ResourceId) (host : HostMatch) (owner : SourceId) (path : PathMatch) (b : RouteBody) :
    ResourceId :=
  let parts := [site.name, host.describe, b.methods.describe, path.describe]
  let matched :=
    if b.matchers.isEmpty then []
    else
      let h := (Hasher.new.updateStr "route-matchers-v1").updateUnordered fe.blake3 b.matchers Matcher.hashInto
      [(h.finish fe.blake3).toHex]
  .derivedOwned fe.blake3 .route owner (parts ++ matched)

def ownTerminal (id : ResourceId) : Terminal → Terminal
  | .proxy upstream => .proxy upstream
  | .directive d => .directive (d.own fe.blake3 id)

/-- The directives of a scope in their canonical order, owned by its resource. -/
def ownAll (id : ResourceId) (directives : List DirectiveInstance) : List DirectiveInstance :=
  (sortBy DirectiveInstance.compareKey directives).map (DirectiveInstance.own fe.blake3 id)

/-- An explicit name must be the owner's to give. -/
def ownedName (kind : ResourceKind) (owner : SourceId) (origin : Origin) (explicit : Option String)
    (derived : ResourceId) : Decode ResourceId :=
  match explicit with
  | none => .ok derived
  | some name => if owner.owns name then .ok ⟨kind, name⟩ else .fail (reportOwnership owner name origin)

def routeBody (node : Node) (site : ResourceId) (owner : SourceId) (heading : Diagnostics) : RouteBody :=
  node.children.foldl (fe.routeChild site owner) ⟨.any, none, [], [], [], [], heading⟩

/-- What remains once the children are read: terminal, identity, then the directives. -/
def routeTail (node : Node) (rawPath : String) (site : ResourceId) (host : HostMatch) (owner : SourceId)
    (path : PathMatch) (explicit : Option String) (b : RouteBody) : Decode Route := do
  let terminal ← soleTerminal node rawPath b
  let id ← ownedName .route owner node.origin explicit (fe.routeId site host owner path b)
  Decode.tell (rejectDuplicateDirectives b.directives)
  return ⟨id, path, b.methods, b.matchers, fe.ownAll id b.directives, fe.ownTerminal id terminal, node.origin⟩

@[grind =] def route (node : Node) (site : ResourceId) (host : HostMatch) (owner : SourceId) : Yield Route :=
  match node.args.head?.bind fun v => v.asStr.map fun raw => (v, raw) with
  | none => .fail [(Diagnostic.error .argumentCount node.origin "`route` needs a path").withHelp
      "`route \"/api/*\"` or `route \"/\"`"]
  | some (value, raw) => match PathMatch.parse fe.leaves raw with
    | .error message => .fail [.error .invalidValue value.origin message]
    | .ok path =>
      let props := node.props.foldl (idProp "route") ⟨none, []⟩
      let b := fe.routeBody node site owner props.diagnostics
      let tail := fe.routeTail node raw site host owner path props.value b
      let ds := b.diagnostics ++ tail.diagnostics
      ⟨if Diagnostics.hasErrors ds then none else tail.value, b.inline, ds⟩

structure SiteProps where
  listeners : List String
  explicit : Option String
  diagnostics : Diagnostics

def siteProp (acc : SiteProps) (property : Property) : SiteProps :=
  if property.name = "listener" then match property.value.asStr with
    | some name => { acc with listeners := acc.listeners ++ [name] }
    | none => { acc with diagnostics := acc.diagnostics ++
        [.error .invalidValue property.origin "`listener` must be a name"] }
  else
    let r := idProp "site" ⟨acc.explicit, acc.diagnostics⟩ property
    { acc with explicit := r.value, diagnostics := r.diagnostics }

/-- What the children of a site have contributed so far. -/
structure SiteBody where
  tls : Option SiteTls
  directives : List DirectiveInstance
  routes : List Route
  inline : List Upstream
  diagnostics : Diagnostics

def siteTlsChild (b : SiteBody) (child : Node) : SiteBody :=
  match b.tls with
  | some _ => { b with diagnostics := b.diagnostics ++
      [.error .duplicate child.origin "a site may only declare `tls` once"] }
  | none =>
    let decoded := siteTls child
    { b with tls := decoded.value, diagnostics := b.diagnostics ++ decoded.diagnostics }

def siteDirective (b : SiteBody) (child : Node) : SiteBody :=
  let decoded := fe.registry.decode fe.blake3 child .site
  let b := { b with diagnostics := b.diagnostics ++ decoded.diagnostics }
  match decoded.value with
  | none => b
  | some d =>
    if d.metadata.role.isTerminal then
      { b with diagnostics := b.diagnostics ++ [(Diagnostic.error .invalidScope child.origin
        ("`" ++ d.metadata.name ++ "` is a terminal and belongs in a route")).withHelp
          "a site cannot answer a request by itself"] }
    else { b with directives := b.directives ++ [d] }

def siteChild (id : ResourceId) (host : HostMatch) (owner : SourceId) (b : SiteBody) (child : Node) : SiteBody :=
  if child.name = "route" then
    let decoded := fe.route child id host owner
    { b with
      routes := b.routes ++ decoded.value.toList
      inline := b.inline ++ decoded.inline
      diagnostics := b.diagnostics ++ decoded.diagnostics }
  else if child.name = "tls" then siteTlsChild b child
  else fe.siteDirective b child

def siteBody (node : Node) (id : ResourceId) (host : HostMatch) (owner : SourceId) (heading : Diagnostics) :
    SiteBody :=
  node.children.foldl (fe.siteChild id host owner) ⟨none, [], [], [], heading⟩

/-- A site with no routes is reported only when nothing else explained why. -/
def siteTail (node : Node) (host : HostMatch) (b : SiteBody) : Diagnostics :=
  (if b.routes.isEmpty && !Diagnostics.hasErrors b.diagnostics then
    [(Diagnostic.error .missingField node.origin ("site `" ++ host.describe ++ "` has no routes")).withHelp
      "a site with no routes can never answer a request"] else []) ++
  rejectDuplicateDirectives b.directives

def siteId (host : HostMatch) (owner : SourceId) (listeners : List String) : ResourceId :=
  .derivedOwned fe.blake3 .site owner (host.describe :: listeners)

@[grind =] def site (node : Node) (owner : SourceId) : Yield Site :=
  match node.args.head?.bind fun v => v.asStr.map fun raw => (v, raw) with
  | none => .fail [(Diagnostic.error .argumentCount node.origin "`site` needs a host").withHelp
      "`site \"example.com\"` or `site \"*\"` for any host"]
  | some (value, raw) => match HostMatch.parse raw with
    | .error message => .fail [.error .invalidValue value.origin message]
    | .ok host =>
      let extra := match node.args with
        | _ :: second :: _ => [Diagnostic.error .argumentCount second.origin "`site` takes exactly one host"]
        | _ => []
      let props := node.props.foldl siteProp ⟨[], none, extra⟩
      let named := ownedName .site owner node.origin props.explicit (fe.siteId host owner props.listeners)
      match named.value with
      | none => .fail (props.diagnostics ++ named.diagnostics)
      | some id =>
        let b := fe.siteBody node id host owner props.diagnostics
        let ds := b.diagnostics ++ siteTail node host b
        ⟨if Diagnostics.hasErrors ds then none
          else some ⟨id, owner, host, props.listeners, b.tls, fe.ownAll id b.directives, b.routes, node.origin⟩,
          b.inline, ds⟩

end Frontend

/-- Share an inline upstream whose identity is there already. -/
def shareUpstream (upstreams : List Upstream) (u : Upstream) : List Upstream :=
  if upstreams.any fun existing => existing.id = u.id then upstreams else upstreams ++ [u]

def topLevelNodes : List String := ["global", "site", "upstream"]

/-- The state of the pass over the top-level nodes. -/
structure Pass where
  global : Option (Global × List Listener × Origin)
  sites : List Site
  upstreams : List Upstream
  diagnostics : Diagnostics

namespace Pass

def start : Pass := ⟨none, [], [], []⟩

def said (p : Pass) (ds : Diagnostics) : Pass := { p with diagnostics := p.diagnostics ++ ds }

def globalNode (fe : Frontend) (p : Pass) (owner : SourceId) (node : Node) : Pass :=
  match p.global with
  | some (_, _, first) => p.said [(Diagnostic.error .duplicate node.origin
      "`global` may only be declared once").withRelated "first declared here" first]
  | none =>
    let decoded := fe.global node owner
    { p.said decoded.diagnostics with
      global := decoded.value.map fun parsed => (parsed.1, parsed.2, node.origin) }

def unknownNode (node : Node) : Diagnostic :=
  let d := Diagnostic.error .unknownNode node.origin ("`" ++ node.name ++ "` is not a top-level node")
  match didYouMean node.name topLevelNodes with
  | some suggestion => d.withHelp ("did you mean `" ++ suggestion ++ "`?")
  | none => d.withHelp ("top-level nodes are: " ++ ", ".intercalate topLevelNodes)

/-- One top-level node with the source that declared it. -/
def step (fe : Frontend) (p : Pass) (item : SourceId × Node) : Pass :=
  let (owner, node) := item
  if node.name = "global" ∧ owner.kind ≠ .file then
    p.said [.error .ownershipConflict node.origin "only file sources may declare global host configuration"]
  else if node.name = "global" then p.globalNode fe owner node
  else if node.name = "site" then
    let decoded := fe.site node owner
    { p.said decoded.diagnostics with
      sites := p.sites ++ decoded.value.toList
      upstreams := decoded.inline.foldl shareUpstream p.upstreams }
  else if node.name = "upstream" then
    let decoded := fe.upstream node owner
    { p.said decoded.diagnostics with upstreams := p.upstreams ++ decoded.value.toList }
  else p.said [unknownNode node]

end Pass

/-- The checks that need the whole configuration, and the canonical order. -/
def finishSpec (fe : Frontend) (spec : Spec) : Report Spec :=
  let tls := applyAutomaticTls fe.leaves spec
  let sorted := sortRoutes tls.value
  ⟨sorted, tls.diagnostics ++ checkUniqueness tls.value ++ checkReferences tls.value ++
    sorted.sites.flatMap checkOrder⟩

def missingGlobal : Diagnostic :=
  (Diagnostic.error .missingField (.synthetic "configuration")
    "a configuration needs a `global` block with at least one listener").withHelp
      "write `global \x7b http \":8080\" \x7d`"

/-- Turn a snapshot into a spec, or into the reasons it cannot become one. -/
def normalize (fe : Frontend) (snapshot : Snapshot) : Except Diagnostics Spec :=
  let p := snapshot.nodes.foldl (Pass.step fe) Pass.start
  match p.global with
  | none =>
    .error (Diagnostics.sorted (if Diagnostics.hasErrors p.diagnostics then p.diagnostics
      else p.diagnostics ++ [missingGlobal]))
  | some (global, listeners, _) =>
    let finished := finishSpec fe ⟨global, listeners, p.sites, p.upstreams⟩
    let ds := p.diagnostics ++ finished.diagnostics
    if Diagnostics.hasErrors ds then .error (Diagnostics.sorted ds) else .ok finished.value

end Gatel
