import Gatel.Plan.Spec
import Gatel.Plan.UpstreamDecode

namespace Gatel
open SecretRef (stripPrefix?)

structure AcmeNode where
  ca : Option String
  email : Option String
  agreed : Bool
  directory : Option String
  renewBefore : Option Duration

structure LimitsNode where
  header : Option ByteSize
  body : Option ByteSize
  handshakeTimeout : Option Duration
  idle : Option Duration
  connections : Option U32

structure BlockingNode where
  jobs : Option U32
  memory : Option ByteSize

structure LogNode where
  level : String
  format : String

/-- The compiler's surroundings: the digest, the directives of this binary, the leaf
parsers and the derived node decoders. Each is a function of the node it is given. -/
structure Frontend where
  blake3 : Digest
  registry : Registry
  leaves : Leaves
  upstreamNodes : UpstreamNodes
  blockingNode : Node → Decode BlockingNode
  limitsNode : Node → Decode LimitsNode
  reloadDrainNode : Node → Decode Duration
  logNode : Node → Decode LogNode
  acmeNode : Node → Decode AcmeNode

/-- A name outside the owner's namespace. -/
def reportOwnership (owner : SourceId) (name : String) (origin : Origin) : Diagnostic :=
  let help := match owner.namespacePrefix with
    | some space => "`" ++ owner.display ++ "` may only name resources under `" ++ space ++ "`"
    | none => "the file configuration owns the root namespace; `/` is reserved for other sources"
  (Diagnostic.error .ownershipConflict origin
    ("`" ++ owner.display ++ "` may not declare `" ++ name ++ "`")).withHelp help

/-- A required certificate part: absent, not a string and malformed are all `none`. -/
def siteSecret (node : Node) (name : String) : Report (Option SecretRef) := UpstreamDecode.secretProperty node name

def certificateSource (node : Node) : Decode CertificateSource :=
  match node.args.head? with
  | some first => match first.asStr with
    | some "internal" => .ok .internal
    | some "acme" => .ok .acme
    | some other => .fail ((Diagnostic.error .invalidValue first.origin
        ("unknown certificate source `" ++ other ++ "`")).withHelp
          "write `tls internal`, `tls acme`, or `tls cert=\"..\" key=\"..\"`")
    | none => manual
  | none => manual
where
  manual : Decode CertificateSource :=
    let cert := siteSecret node "cert"
    let key := siteSecret node "key"
    match cert.value, key.value with
    | some c, some k => ⟨some (.manual c k), cert.diagnostics ++ key.diagnostics⟩
    | _, _ => ⟨none, cert.diagnostics ++ key.diagnostics ++ [(Diagnostic.error .missingField node.origin
        "`tls` needs both `cert` and `key`, or one of `internal` / `acme`").withHelp
          "certificate material is referenced, never inlined"]⟩

def clientAuth (node : Node) : Decode (Option ClientAuth) :=
  match node.child "client-auth" with
  | none => .ok none
  | some child => match (child.prop "ca").bind fun p => p.value.asStr with
    | none => .fail (.error .missingField child.origin "`client-auth` requires a `ca`")
    | some text => match SecretRef.parse text with
      | .error message => .fail (.error .invalidSecret child.origin message)
      | .ok ca =>
        let required := ((child.args.head?.bind Value.asStr).map fun mode => mode == "required").getD true
        .ok (some ⟨required, ca⟩)

/-- A site's `tls` node. -/
def siteTls (node : Node) : Decode SiteTls := do
  let source ← certificateSource node
  let auth ← clientAuth node
  Decode.tell ((node.props.filter fun p => !(["cert", "key"].contains p.name)).map fun p =>
    Diagnostic.error .unknownProperty p.origin ("`tls` has no property `" ++ p.name ++ "`"))
  return ⟨source, auth, false⟩

namespace Frontend

variable (fe : Frontend)

/-- The properties of a listener node: the last `proxy-protocol` stands. -/
def listenerProps (node : Node) : Report Bool :=
  node.props.foldl (fun acc property =>
    if property.name = "proxy-protocol" then match property.value.asBool with
      | some enabled => ⟨enabled, acc.diagnostics⟩
      | none => ⟨acc.value, acc.diagnostics ++ [.error .invalidValue property.origin
          "`proxy-protocol` is `#true` or `#false`"]⟩
    else ⟨acc.value, acc.diagnostics ++ [.error .unknownProperty property.origin
      ("`" ++ node.name ++ "` has no property `" ++ property.name ++ "`")]⟩) ⟨false, []⟩

def listenerAddress (node : Node) (protocol : ListenerProtocol) : Decode (String × Value) :=
  match node.args with
  | [address] => .ok (protocol.asStr, address)
  | [name, address] => match name.asStr with
    | some text => .ok (text, address)
    | none => .fail (.error .invalidValue name.origin "the listener name must be a string")
  | _ => .fail ((Diagnostic.error .argumentCount node.origin
      ("`" ++ node.name ++ "` takes an address, optionally preceded by a name")).withHelp
        "`http \":80\"` or `http \"internal\" \"127.0.0.1:8081\"`")

/-- `http ":80"` names the listener after its protocol. -/
def listener (node : Node) (owner : SourceId) (protocol : ListenerProtocol) : Decode Listener := do
  let props := listenerProps node
  Decode.tell props.diagnostics
  let (name, address) ← listenerAddress node protocol
  let text ← match address.asStr with
    | some text => .ok text
    | none => .fail (.error .invalidValue address.origin "the listener address must be a string")
  let bind ← match fe.leaves.parseSocketAddr text with
    | .ok bind => .ok bind
    | .error message => .fail (.error .invalidValue address.origin message)
  Decode.tell (match node.children with
    | [] => []
    | first :: _ => [.error .unknownNode first.origin
        ("`" ++ node.name ++ "` takes no child nodes; certificates belong to a site")])
  return ⟨⟨.listener, name⟩, owner, name, bind, protocol, props.value, node.origin⟩

def checkAdmin (node : Node) : Decode Unit :=
  match node.args.head?.bind fun v => v.asStr.map fun text => (v, text) with
  | none => .fail ((Diagnostic.error .argumentCount node.origin
      "`admin` takes a unix socket path or a loopback address").withHelp
        "`admin \"unix:/run/gatel/admin.sock\"`")
  | some (value, text) => do
    match stripPrefix? "unix:" text with
    | some _ => Decode.tell []
    | none => match fe.leaves.parseSocketAddr text with
      | .ok address =>
        if address.ip.isLoopback then Decode.tell []
        else .fail ((Diagnostic.error .invalidValue value.origin
          ("the admin API may not listen on " ++ address.ip.toText)).withHelp
            "bind it to a unix socket or a loopback address and put a proxy in front")
      | .error message => .fail (.error .invalidValue value.origin message)
    Decode.tell (UpstreamDecode.secretProperty node "token").diagnostics

/-- The block is validated and then refused: nothing serves an admin API. -/
def admin (node : Node) : Diagnostics :=
  (fe.checkAdmin node).diagnostics ++ [(Diagnostic.error .unknownNode node.origin
    "this build has no admin API").withHelp
      "reload by editing the configuration file or sending SIGHUP; expose status with the `metrics` and `health` directives"]

def singleDuration (node : Node) : Decode Duration :=
  match node.args.head? with
  | none => ⟨none, []⟩
  | some value => match value.asStr with
    | none => ⟨none, []⟩
    | some text => match fe.leaves.parseDuration text with
      | .ok duration => .ok duration
      | .error message => .fail (.error .invalidValue value.origin message)

def acmeChecked (node : Node) (fields : AcmeNode) : Decode Acme :=
  match fields.email.filter fun email => email.toList.contains '@' with
  | none => .fail ((Diagnostic.error .missingField node.origin "`acme` needs an `email`").withHelp
      "the CA writes to it about expiry and problems; a certificate nobody can be                      told about is one that expires quietly")
  | some email =>
    if !fields.agreed then
      .fail ((Diagnostic.error .missingField node.origin "`acme` needs `agreed=#true`").withHelp
        "issuing a certificate accepts the CA's terms of service, and this program                      will not accept them on your behalf")
    else
      let directory := fields.ca.getD Acme.defaultDirectory
      if stripPrefix? "https://" directory = none ∧ stripPrefix? "http://" directory = none then
        .fail (.error .invalidValue node.origin ("`" ++ directory ++ "` is not a directory URL"))
      else
        let renewBefore := fields.renewBefore.getD (.fromSecs (30 * 86400))
        if renewBefore = 0 then
          .fail (.error .invalidValue node.origin
            "`renew-before` of zero would renew only after the certificate had expired")
        else .ok ⟨directory, email, true, fields.directory, renewBefore⟩

def acme (node : Node) : Decode Acme := do
  let fields ← fe.acmeNode node
  acmeChecked node fields

/-- What the children of `global` have set so far. -/
structure GlobalBody where
  global : Global
  listeners : List Listener
  diagnostics : Diagnostics

namespace GlobalBody

def said (b : GlobalBody) (ds : Diagnostics) : GlobalBody := { b with diagnostics := b.diagnostics ++ ds }

/-- Apply what a child decoded to, if it decoded. -/
def take {α : Type} (b : GlobalBody) (r : Decode α) (f : Global → α → Global) : GlobalBody :=
  let b := b.said r.diagnostics
  match r.value with
  | some a => { b with global := f b.global a }
  | none => b

end GlobalBody

def blocking (node : Node) : Decode BlockingLimits := do
  let d ← fe.blockingNode node
  let base := BlockingLimits.default
  let jobs := (d.jobs.map U32.toU64).getD base.jobs
  let memory := d.memory.getD base.memoryBytes
  if jobs < 1 ∨ jobs > 1024 ∨ memory = 0 then
    Decode.fail (.error .invalidValue node.origin "blocking requires 1..1024 jobs and nonzero memory")
  else return ⟨jobs, memory⟩

def reloadDrain (node : Node) : Decode Duration := do
  let duration ← fe.reloadDrainNode node
  if duration > Duration.fromSecs (365 * 24 * 60 * 60) then
    Decode.fail (.error .invalidValue node.origin "reload-drain must not exceed 365 days")
  else return duration

def limits (node : Node) : Decode Limits := do
  let d ← fe.limitsNode node
  let base := Limits.default
  return ⟨d.header.getD base.maxHeader, d.body.getD base.maxBody,
    d.handshakeTimeout.getD base.handshakeTimeout, d.idle.getD base.idleTimeout,
    d.connections.getD base.maxConnections⟩

def log (node : Node) : Decode Log := do
  let d ← fe.logNode node
  Decode.tell (if ["text", "json", "clf"].contains d.format then [] else
    [.error .invalidValue node.origin ("unknown log format `" ++ d.format ++ "`; use text, json or clf")])
  return ⟨d.level, d.format⟩

def trustedProxy (value : Value) : Report (List (IpAddr × Nat)) :=
  match value.asStr with
  | none => ⟨[], [.error .invalidValue value.origin "expected a CIDR string"]⟩
  | some text => match parseCidr fe.leaves text with
    | .ok network => ⟨[network], []⟩
    | .error message => ⟨[], [.error .invalidValue value.origin message]⟩

def globalNodes : List String :=
  ["blocking", "http", "https", "grace-period", "reload-drain", "trusted-proxy", "limits", "log", "admin", "acme"]

def listenerChild (owner : SourceId) (b : GlobalBody) (child : Node) (protocol : ListenerProtocol) : GlobalBody :=
  let decoded := fe.listener child owner protocol
  { b.said decoded.diagnostics with listeners := b.listeners ++ decoded.value.toList }

def globalChild (owner : SourceId) (b : GlobalBody) (child : Node) : GlobalBody :=
  match child.name with
  | "blocking" =>
    if b.global.blocking.isSome then b.said [.error .duplicate child.origin "global blocking is declared twice"]
    else b.take (fe.blocking child) fun g limits => { g with blocking := some limits }
  | "http" => fe.listenerChild owner b child .http
  | "https" => fe.listenerChild owner b child .https
  | "grace-period" => b.take (fe.singleDuration child) fun g duration => { g with gracePeriod := duration }
  | "reload-drain" =>
    if b.global.reloadDrain.isSome then
      b.said [.error .duplicate child.origin "global reload-drain is declared twice"]
    else b.take (fe.reloadDrain child) fun g duration => { g with reloadDrain := some duration }
  | "trusted-proxy" =>
    let parsed := child.args.map fe.trustedProxy
    { b.said (parsed.flatMap Report.diagnostics) with
      global := { b.global with trustedProxies := b.global.trustedProxies ++ parsed.flatMap Report.value } }
  | "limits" => b.take (fe.limits child) fun g limits => { g with limits := limits }
  | "log" => b.take (fe.log child) fun g log => { g with log := log }
  | "admin" => b.said (fe.admin child)
  | "acme" => b.take (fe.acme child) fun g acme => { g with acme := some acme }
  | other =>
    let d := Diagnostic.error .unknownNode child.origin ("`global` has no child node `" ++ other ++ "`")
    match didYouMean other globalNodes with
    | some suggestion => b.said [d.withHelp ("did you mean `" ++ suggestion ++ "`?")]
    | none => b.said [d]

/-- The `global` block. -/
def global (node : Node) (owner : SourceId) : Decode (Global × List Listener) :=
  let heading := (match node.args with
      | [] => []
      | first :: _ => [Diagnostic.error .argumentCount first.origin "`global` takes no arguments"]) ++
    node.props.map fun p => Diagnostic.error .unknownProperty p.origin
      ("`global` has no property `" ++ p.name ++ "`; use child nodes")
  let b := node.children.foldl (fe.globalChild owner) ⟨.default, [], heading⟩
  let b := if b.listeners.isEmpty then
      b.said [(Diagnostic.error .missingField node.origin
        "`global` needs at least one `http` or `https` listener").withHelp "write `http \":8080\"`"]
    else b
  Decode.strict ⟨some (b.global, b.listeners), b.diagnostics⟩

/-- The block is dropped only when something in it was an error. -/
theorem global_none {node : Node} {owner : SourceId} (h : (fe.global node owner).value = none) :
    Diagnostics.hasErrors (fe.global node owner).diagnostics = true := by
  exact Decode.strict_none (by simp) h

/-- A named upstream. -/
def upstream (node : Node) (owner : SourceId) : Decode Upstream :=
  match node.args with
  | [value] => match value.asStr with
    | none => .fail (.error .argumentCount node.origin "`upstream` needs a name")
    | some name =>
      if !owner.owns name then .fail (reportOwnership owner name value.origin)
      else do
        Decode.tell (node.props.map fun p => Diagnostic.error .unknownProperty p.origin
          ("`upstream` has no property `" ++ p.name ++ "`"))
        decodeUpstreamBody fe.leaves fe.upstreamNodes node ⟨.upstream, name⟩ owner
  | _ => .fail (.error .argumentCount node.origin "`upstream` takes exactly one name")

end Frontend

end Gatel
