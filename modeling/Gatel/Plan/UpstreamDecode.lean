import Gatel.Plan.Upstream

namespace Gatel
open CanonicalSort (sortBy)
open SecretRef (stripPrefix?)

namespace Target

/-- The first thing wrong with one label of a host name. -/
def checkLabel (host label : String) : Except String Unit :=
  if label = "" then .error ("`" ++ host ++ "` has an empty label")
  else if 63 < label.utf8ByteSize then .error ("`" ++ label ++ "` is longer than a label may be")
  else if label.toList.head? = some '-' ∨ label.toList.getLast? = some '-' then
    .error ("`" ++ label ++ "` may not start or end with `-`")
  else match label.toList.find? fun c => !c.isAlphanum && c != '-' with
    | some bad => .error ("`" ++ host ++ "` cannot contain `" ++ String.singleton bad ++ "`")
    | none => .ok ()

@[grind =] def trimDots (host : String) : String :=
  String.ofList (host.toList.reverse.dropWhile (· == '.')).reverse

/-- A host name the system resolver could be asked about. -/
def checkHost (host : String) : Except String Unit :=
  let trimmed := trimDots host
  if trimmed = "" then .error "a backend needs a host before the port"
  else if 253 < trimmed.utf8ByteSize then .error ("`" ++ host ++ "` is longer than a host name may be")
  else (Text.splitAll '.' trimmed).forM (checkLabel host)

@[grind =] def parse (leaves : Leaves) (text : String) : Except String Target :=
  match stripPrefix? "unix:" text with
  | some path =>
    if path = "" then .error "`unix:` needs a path, as in `unix:/run/app.sock`" else .ok (.unix path)
  | none => match leaves.parseSocketAddr text with
    | .ok addr => .ok (.address addr)
    | .error _ =>
      if text.toList.head? = some '[' then .error ("`" ++ text ++ "` is not a usable `[address]:port`")
      else match Text.rsplitOnce ':' text with
        | none => .error ("`" ++ text ++ "` needs a port, as in `" ++ text ++ ":8080`")
        | some (host, port) => match Text.parseUnsigned 65536 port with
          | none => .error ("`" ++ port ++ "` is not a port number")
          | some 0 => .error ("`" ++ text ++ "` must use a non-zero port")
          | some n => match checkHost host with
            | .error message => .error message
            | .ok () => .ok (.name (Text.lower (trimDots host)) n.toUInt16)

def isName : Target → Bool
  | .name _ _ => true
  | _ => false

def host : Target → Option String
  | .name host _ => some host
  | _ => none

end Target

/-! The record types below are the `FromNode` structures of the upstream decoder. -/

structure EndpointNode where
  address : String
  id : Option String
  weight : U32
  priority : I32

structure TimeoutsNode where
  queue : Option Duration
  connect : Option Duration
  responseHead : Option Duration
  bodyIdle : Option Duration
  overall : Option Duration
  upgradeIdle : Option Duration
  upgradeDuration : Option Duration

structure PoolNode where
  maxPerEndpoint : Option U32
  maxIdlePerEndpoint : Option U32
  idleTimeout : Option Duration
  maxLifetime : Option Duration
  maxWaiters : Option U32
  maxH2StreamsPerConnection : Option U32
  maxH2StreamsPerEndpoint : Option U32

structure RetryNode where
  mode : String
  attempts : U32
  perTry : Duration
  buffer : Option ByteSize
  budgetPercent : U32

structure HealthNode where
  kind : String
  path : Option String
  status : Option UInt16
  host : Option String
  interval : Duration
  timeout : Duration
  healthyThreshold : U32
  unhealthyThreshold : U32
  jitter : Option Duration

structure PassiveHealthNode where
  maxFails : U32
  window : Duration
  cooldown : Duration
  unhealthyStatus : Option String

structure ResolveNode where
  interval : Option Duration
  timeout : Option Duration
  family : Option String

/-- The derived decoders of the upstream's child nodes. -/
structure UpstreamNodes where
  endpoint : Node → Decode EndpointNode
  timeouts : Node → Decode TimeoutsNode
  pool : Node → Decode PoolNode
  retry : Node → Decode RetryNode
  health : Node → Decode HealthNode
  passiveHealth : Node → Decode PassiveHealthNode
  resolve : Node → Decode ResolveNode

namespace UpstreamDecode

/-- A repeated child or property: the report names the one before it. -/
def repeated (seen : List (String × Origin)) (name : String) (origin : Origin) (message : String) :
    Diagnostics :=
  match seen.lookup name with
  | some first => [(Diagnostic.error .duplicate origin message).withRelated "first declared here" first]
  | none => []

/-- The properties of a policy child that is decoded by hand. -/
def shapeProps (child : Node) : List (String × Origin) → List Property → Diagnostics
  | _, [] => []
  | seen, property :: rest =>
    repeated seen property.name property.origin "upstream policy property is declared twice" ++
      (if child.name = "protocol" then
        [.error .unknownProperty property.origin "upstream protocol takes no properties"] else []) ++
      (if child.name = "tls" ∧ property.name = "server-name" ∧ property.value.asStr = none then
        [.error .invalidValue property.origin "upstream TLS server-name must be a string"] else []) ++
      shapeProps child ((property.name, property.origin) :: seen) rest

def shapeChildren : List (String × Origin) → List Node → Diagnostics
  | _, [] => []
  | seen, child :: rest =>
    if child.name = "endpoint" then shapeChildren seen rest
    else
      let again := repeated seen child.name child.origin ("upstream `" ++ child.name ++ "` is declared twice")
      let args := if child.name = "balance" ∨ child.name = "protocol" then some 1
        else if child.name = "tls" then some 0 else none
      let own := match args with
        | none => []
        | some n =>
          (if child.args.length ≠ n then
            [Diagnostic.error .argumentCount child.origin
              ("upstream `" ++ child.name ++ "` takes exactly " ++ toString n ++ " arguments")] else []) ++
          child.children.map (fun nested => Diagnostic.error .unknownNode nested.origin
            ("upstream `" ++ child.name ++ "` takes no child nodes")) ++
          shapeProps child [] child.props
      again ++ own ++ shapeChildren ((child.name, child.origin) :: seen) rest

/-- `shape::validate`. -/
def shape (node : Node) : Diagnostics :=
  node.props.map (fun p => Diagnostic.error .unknownProperty p.origin
    "upstream options must be child nodes, not properties") ++ shapeChildren [] node.children

/-- One `endpoint` child over the endpoints accepted so far. -/
def endpointStep (leaves : Leaves) (nodes : UpstreamNodes) (acc : Report (List Endpoint)) (child : Node) :
    Report (List Endpoint) :=
  let decoded := nodes.endpoint child
  let said (ds : Diagnostics) : Report (List Endpoint) :=
    ⟨acc.value, acc.diagnostics ++ decoded.diagnostics ++ ds⟩
  match decoded.value with
  | none => said []
  | some e => match Target.parse leaves e.address with
    | .error message =>
      said [.error .invalidValue ((child.args.head?.map fun v => v.origin).getD child.origin) message]
    | .ok target =>
      if e.weight = 0 then
        said [.error .invalidValue child.origin
          "`weight` must be at least 1; use a separate upstream to take a backend out"]
      else
        let id := e.id.getD target.describe
        match acc.value.find? fun existing => existing.id == id with
        | some previous =>
          said [(Diagnostic.error .duplicate child.origin ("endpoint `" ++ id ++ "` is declared twice")).withRelated
            "first declared here" previous.origin]
        | none =>
          ⟨acc.value ++ [⟨id, target, e.weight, e.priority, child.origin⟩],
            acc.diagnostics ++ decoded.diagnostics⟩

def endpoints (leaves : Leaves) (nodes : UpstreamNodes) (node : Node) : Report (List Endpoint) :=
  let written := node.childrenNamed "endpoint"
  let decoded := written.foldl (endpointStep leaves nodes) ⟨[], []⟩
  if decoded.value.isEmpty ∧ written.isEmpty then
    ⟨[], decoded.diagnostics ++ [(Diagnostic.error .missingField node.origin
      "an upstream needs at least one `endpoint`").withHelp "write `endpoint \"127.0.0.1:8080\"`"]⟩
  else decoded

/-- The routing key a hash strategy needs. -/
def balanceKey (node : Node) (strategy property : String) : Decode String :=
  match node.prop property with
  | some found => match found.value.asStr with
    | some text =>
      if text = "" then .fail (.error .invalidValue found.origin ("`" ++ property ++ "` must be a non-empty string"))
      else .ok text
    | none => .fail (.error .invalidValue found.origin ("`" ++ property ++ "` must be a non-empty string"))
  | none => .fail (.error .missingField node.origin
      ("`balance \"" ++ strategy ++ "\"` requires the `" ++ property ++ "` property"))

def strategies : List String :=
  ["round-robin", "weighted-round-robin", "random", "two-random-choices", "least-conn", "ip-hash", "uri-hash",
    "header-hash", "cookie-hash", "first"]

def strategy (name : String) (node : Node) : Decode Balance :=
  match name with
  | "round-robin" => .ok .roundRobin
  | "weighted-round-robin" => .ok .weightedRoundRobin
  | "random" => .ok .random
  | "two-random-choices" => .ok .twoRandomChoices
  | "least-conn" => .ok .leastConn
  | "ip-hash" => .ok .ipHash
  | "uri-hash" => .ok .uriHash
  | "header-hash" => do return .headerHash (Text.lower (← balanceKey node name "header"))
  | "cookie-hash" => do return .cookieHash (← balanceKey node name "cookie")
  | "first" => .ok .first
  | other =>
    let d := Diagnostic.error .invalidValue node.origin ("unknown balance strategy `" ++ other ++ "`")
    match didYouMean other strategies with
    | some suggestion => .fail (d.withHelp ("did you mean `" ++ suggestion ++ "`?"))
    | none => .fail (d.withHelp ("known strategies: " ++ ", ".intercalate strategies))

/-- `Balance::parse`: a key on a strategy that ignores it is refused. -/
def balanceParse (name : String) (node : Node) : Decode Balance := do
  let chosen ← strategy name node
  let allowed (property : Property) : Bool := match chosen with
    | .headerHash _ => property.name == "header"
    | .cookieHash _ => property.name == "cookie"
    | _ => false
  Decode.tell ((node.props.filter fun p => !allowed p).map fun p =>
    Diagnostic.error .unknownProperty p.origin ("`balance \"" ++ name ++ "\"` has no property `" ++ p.name ++ "`"))
  return chosen

def balance (node : Node) : Decode Balance :=
  match node.child "balance" with
  | none => .ok .roundRobin
  | some child => match child.args.head?.bind Value.asStr with
    | none => .fail (.error .argumentCount child.origin "`balance` takes the strategy name as its argument")
    | some name => balanceParse name child

def timeoutsCheck (leaves : Leaves) (t : Timeouts) (origin : Origin) : Diagnostics :=
  let stages := t.queue.val + t.connect.val + t.responseHead.val
  (if t.overall.val < stages then
    [Diagnostic.error .invalidValue origin ("`overall` (" ++ leaves.showDuration t.overall ++
      ") is shorter than queue + connect + response-head (" ++ leaves.showDuration stages ++ ")")] else []) ++
  (if t.upgradeDuration < t.upgradeIdle then
    [Diagnostic.error .invalidValue origin "`upgrade-duration` must not be shorter than `upgrade-idle`"] else [])

def timeouts (leaves : Leaves) (nodes : UpstreamNodes) (node : Node) : Decode Timeouts :=
  match node.child "timeouts" with
  | none => .ok .default
  | some child => do
    let d ← nodes.timeouts child
    let base := Timeouts.default
    let t : Timeouts := ⟨d.queue.getD base.queue, d.connect.getD base.connect,
      d.responseHead.getD base.responseHead, d.bodyIdle.getD base.bodyIdle, d.overall.getD base.overall,
      d.upgradeIdle.getD base.upgradeIdle, d.upgradeDuration.getD base.upgradeDuration⟩
    Decode.tell (timeoutsCheck leaves t child.origin)
    return t

def poolCheck (p : Pool) (origin : Origin) : Diagnostics :=
  (if p.maxPerEndpoint = 0 then
    [Diagnostic.error .invalidValue origin "`max-per-endpoint` must be at least 1"] else []) ++
  (if p.maxIdlePerEndpoint > p.maxPerEndpoint then
    [Diagnostic.error .invalidValue origin "`max-idle-per-endpoint` cannot exceed `max-per-endpoint`"] else []) ++
  (if p.maxH2StreamsPerConnection = 0 ∨ p.maxH2StreamsPerEndpoint = 0 then
    [Diagnostic.error .invalidValue origin "HTTP/2 stream limits must be at least 1"] else [])

def pool (nodes : UpstreamNodes) (node : Node) : Decode Pool :=
  match node.child "pool" with
  | none => .ok .default
  | some child => do
    let d ← nodes.pool child
    let base := Pool.default
    let p : Pool := ⟨d.maxPerEndpoint.getD base.maxPerEndpoint, d.maxIdlePerEndpoint.getD base.maxIdlePerEndpoint,
      d.idleTimeout.getD base.idleTimeout, d.maxLifetime.getD base.maxLifetime, d.maxWaiters.getD base.maxWaiters,
      d.maxH2StreamsPerConnection.getD base.maxH2StreamsPerConnection,
      d.maxH2StreamsPerEndpoint.getD base.maxH2StreamsPerEndpoint⟩
    Decode.tell (poolCheck p child.origin)
    return p

def retryMode (mode : String) (origin : Origin) : Decode RetryMode :=
  if mode = "safe" then .ok .safe
  else if mode = "replay" then .ok .replay
  else .fail ((Diagnostic.error .invalidValue origin ("unknown retry mode `" ++ mode ++ "`")).withHelp
    "`safe` retries only pre-send failures, `replay` also replays buffered bodies")

def retry (nodes : UpstreamNodes) (node : Node) : Decode (Option Retry) :=
  match node.child "retry" with
  | none => .ok none
  | some child => do
    let d ← nodes.retry child
    let mode ← retryMode d.mode child.origin
    if mode = .replay ∧ d.buffer = none then
      Decode.fail ((Diagnostic.error .missingField child.origin
        "`retry mode=\"replay\"` requires an explicit `buffer`").withHelp
          "replaying a request can duplicate it, so the cost must be stated")
    else
      Decode.tell <|
        (if d.attempts < 1 ∨ d.attempts > 5 then
          [Diagnostic.error .invalidValue child.origin "`attempts` must be between 1 and 5"] else []) ++
        (if d.budgetPercent > 100 then
          [Diagnostic.error .invalidValue child.origin "retry budget-percent must be between 0 and 100"] else []) ++
        (if d.perTry = 0 then
          [Diagnostic.error .invalidValue child.origin "retry per-try must be nonzero"] else [])
      return some ⟨mode, d.attempts, d.perTry, d.buffer.getD 0, d.budgetPercent⟩

def healthKind (d : HealthNode) (child : Node) : Decode HealthKind :=
  if d.kind = "tcp" ∨ d.kind = "tcp-connect" then do
    Decode.tell (["path", "status", "host"].filterMap fun absent => (child.prop absent).map fun p =>
      Diagnostic.error .unknownProperty p.origin ("`health \"tcp\"` has no property `" ++ absent ++ "`"))
    return .tcpConnect
  else if d.kind = "http" then
    match d.path with
    | none => .fail (.error .missingField child.origin "`health \"http\"` requires a `path`")
    | some path => do
      Decode.tell (if path.toList.head? ≠ some '/' then
        [Diagnostic.error .invalidValue child.origin "health check `path` must start with `/`"] else [])
      return .http path (d.status.getD 200) d.host
  else .fail ((Diagnostic.error .invalidValue child.origin ("unknown health check `" ++ d.kind ++ "`")).withHelp
    "known checks: tcp, http")

def health (nodes : UpstreamNodes) (node : Node) : Decode (Option Health) :=
  match node.child "health" with
  | none => .ok none
  | some child => do
    let d ← nodes.health child
    Decode.tell <|
      (if d.interval = 0 ∨ d.timeout = 0 then
        [Diagnostic.error .invalidValue child.origin "health interval and timeout must be nonzero"] else []) ++
      (if d.healthyThreshold = 0 ∨ d.unhealthyThreshold = 0 then
        [Diagnostic.error .invalidValue child.origin "health thresholds must be at least 1"] else []) ++
      (if d.status.any fun status => status < 100 || status > 599 then
        [Diagnostic.error .invalidValue child.origin "health status must be between 100 and 599"] else [])
    let kind ← healthKind d child
    Decode.tell (if d.timeout > d.interval then
      [Diagnostic.error .invalidValue child.origin "health check `timeout` must not exceed `interval`"] else [])
    return some ⟨kind, d.interval, d.timeout, d.healthyThreshold, d.unhealthyThreshold,
      d.jitter.getD (d.interval / 10)⟩

/-- The statuses of `unhealthy-status`, each wrong part reported. -/
def statuses (raw : String) (origin : Origin) : Report (List UInt16) :=
  let parts := (Text.splitAll ',' raw).map fun part =>
    match Text.parseUnsigned 65536 (Text.trim part) with
    | some n => if 100 ≤ n ∧ n ≤ 599 then Sum.inl n.toUInt16 else Sum.inr part
    | none => Sum.inr part
  ⟨parts.filterMap Sum.getLeft?, (parts.filterMap Sum.getRight?).map fun part =>
    Diagnostic.error .invalidValue origin ("`" ++ part ++ "` is not an HTTP status code")⟩

def passiveHealth (nodes : UpstreamNodes) (node : Node) : Decode (Option PassiveHealth) :=
  match node.child "passive-health" with
  | none => .ok none
  | some child => do
    let d ← nodes.passiveHealth child
    Decode.tell (if d.maxFails = 0 then
      [Diagnostic.error .invalidValue child.origin "passive-health max-fails must be at least 1"] else [])
    match d.unhealthyStatus with
    | none => return some ⟨d.maxFails, d.window, d.cooldown, [502, 503, 504]⟩
    | some raw =>
      let parsed := statuses raw child.origin
      Decode.tell parsed.diagnostics
      return some ⟨d.maxFails, d.window, d.cooldown, parsed.value⟩

def protocol (node : Node) : Decode UpstreamProtocol :=
  match node.child "protocol" with
  | none => .ok .http1
  | some child =>
    let written := child.args.head?.bind Value.asStr
    if written = some "http1" then .ok .http1
    else if written = some "http2" then .ok .http2
    else .fail ((Diagnostic.error .invalidValue child.origin
      ("unknown upstream protocol `" ++ written.getD "" ++ "`")).withHelp "known protocols: http1, http2")

def family (text : String) (origin : Origin) : Decode Family :=
  if text = "any" then .ok .any
  else if text = "ipv4" then .ok .ipv4
  else if text = "ipv6" then .ok .ipv6
  else .fail ((Diagnostic.error .invalidValue origin ("unknown address family `" ++ text ++ "`")).withHelp
    "known families: any, ipv4, ipv6")

def resolve (nodes : UpstreamNodes) (endpoints : List Endpoint) (node : Node) : Decode Resolve :=
  match node.child "resolve" with
  | none => .ok .default
  | some child => do
    let d ← nodes.resolve child
    let base := Resolve.default
    let chosen ← match d.family with
      | some text => family text child.origin
      | none => .ok base.family
    let r : Resolve := ⟨d.interval.getD base.interval, d.timeout.getD base.timeout, chosen⟩
    Decode.tell <|
      (if r.interval = 0 then
        [Diagnostic.error .invalidValue child.origin "`interval` must be longer than nothing"] else []) ++
      (if r.timeout > r.interval then
        [Diagnostic.error .invalidValue child.origin "resolve `timeout` must not exceed `interval`"] else []) ++
      (if !endpoints.any (fun e => e.target.isName) then
        [(Diagnostic.error .invalidValue child.origin
          "`resolve` has nothing to look up: every endpoint is already an address").withHelp
            "write a backend as `name:port` for it to be resolved"] else [])
    return r

/-- The one name every backend shares, if they share one. -/
def soleHost : List Endpoint → Option String
  | [] => none
  | first :: rest => match first.target.host with
    | none => none
    | some host => if rest.all fun e => e.target.host == some host then some host else none

/-- An optional secret reference; a malformed one is reported and left out. -/
def secretProperty (node : Node) (name : String) : Report (Option SecretRef) :=
  match node.prop name with
  | none => ⟨none, []⟩
  | some property => match property.value.asStr with
    | none => ⟨none, []⟩
    | some text => match SecretRef.parse text with
      | .ok reference => ⟨some reference, []⟩
      | .error message => ⟨none, [.error .invalidSecret property.origin message]⟩

def tlsUnknown (property : Property) : Diagnostics :=
  if ["server-name", "ca", "client-cert", "client-key"].contains property.name then []
  else
    let d := Diagnostic.error .unknownProperty property.origin
      ("upstream `tls` has no property `" ++ property.name ++ "`")
    if SecretRef.hasInfix "insecure" property.name || SecretRef.hasInfix "skip" property.name then
      [d.withHelp "certificate verification cannot be disabled; use `tls internal` for development"]
    else [d]

def tls (endpoints : List Endpoint) (node : Node) : Decode (Option UpstreamTls) :=
  match node.child "tls" with
  | none => .ok none
  | some child => do
    let written := (child.prop "server-name").bind fun p => p.value.asStr
    let serverName ← match written.or (soleHost endpoints) with
      | some name => .ok name
      | none => .fail ((Diagnostic.error .missingField child.origin
          "upstream `tls` requires `server-name`").withHelp
            "it is both the SNI value and the name the certificate is checked against;                                  it is only implied when every backend is the same name")
    Decode.tell (child.props.flatMap tlsUnknown)
    let cert := secretProperty child "client-cert"
    let key := secretProperty child "client-key"
    let ca := secretProperty child "ca"
    Decode.tell (cert.diagnostics ++ key.diagnostics ++
      (if cert.value.isSome ≠ key.value.isSome then
        [Diagnostic.error .missingField child.origin
          "`client-cert` and `client-key` must be given together"] else []) ++ ca.diagnostics)
    return some ⟨serverName, ca.value, cert.value, key.value⟩

def knownChildren : List String :=
  ["endpoint", "balance", "timeouts", "pool", "retry", "health", "passive-health", "protocol", "resolve", "tls"]

def unknownChild (child : Node) : Diagnostics :=
  if knownChildren.contains child.name then []
  else
    let d := Diagnostic.error .unknownNode child.origin ("`" ++ child.name ++ "` is not part of an upstream")
    match didYouMean child.name knownChildren with
    | some suggestion => [d.withHelp ("did you mean `" ++ suggestion ++ "`?")]
    | none => [d]

/-- `decode_upstream_body`, without the identity and owner it is given to carry. -/
def body (leaves : Leaves) (nodes : UpstreamNodes) (node : Node) : Decode UpstreamBody :=
  if Diagnostics.hasErrors (shape node) then ⟨none, shape node⟩
  else Decode.strict do
    Decode.tell (shape node)
    let es := endpoints leaves nodes node
    Decode.tell es.diagnostics
    let balance ← balance node
    let timeouts ← timeouts leaves nodes node
    let pool ← pool nodes node
    let retry ← retry nodes node
    let health ← health nodes node
    let passive ← passiveHealth nodes node
    let protocol ← protocol node
    let resolve ← resolve nodes es.value node
    let tls ← tls es.value node
    Decode.tell (node.children.flatMap unknownChild)
    return ⟨es.value, balance, timeouts, pool, retry, health, passive, protocol, tls, resolve, node.origin⟩

end UpstreamDecode

/-- `decode_upstream_body`. -/
def decodeUpstreamBody (leaves : Leaves) (nodes : UpstreamNodes) (node : Node) (id : ResourceId)
    (owner : SourceId) : Decode Upstream := do
  let body ← UpstreamDecode.body leaves nodes node
  return { body with id := id, owner := owner }

/-- The identity an inline body is decoded under. -/
def anonymousUpstreamId (blake3 : Digest) (site : ResourceId) (owner : SourceId) (addresses : List String) :
    ResourceId :=
  .derivedOwned blake3 .upstream owner (site.name :: sortBy compare addresses)

end Gatel
