import Gatel.Plan.Upstream

namespace Gatel

inductive ListenerProtocol where
  | http
  | https
  deriving DecidableEq, Repr

namespace ListenerProtocol

def asStr : ListenerProtocol → String
  | .http => "http"
  | .https => "https"

def isTls : ListenerProtocol → Bool
  | .http => false
  | .https => true

end ListenerProtocol

/-- A socket the gateway listens on. -/
structure Listener where
  id : ResourceId
  owner : SourceId
  name : String
  bind : SocketAddr
  protocol : ListenerProtocol
  proxyProtocol : Bool
  origin : Origin
  deriving DecidableEq

def Listener.hashInto (l : Listener) (h : Hasher) : Hasher :=
  ((((l.id.hashInto h).updateStr l.name).updateStr l.bind.toText).updateStr l.protocol.asStr).updateBool
    l.proxyProtocol

inductive CertificateSource where
  | manual (cert key : SecretRef)
  | internal
  | acme
  deriving DecidableEq

structure ClientAuth where
  required : Bool
  ca : SecretRef
  deriving DecidableEq

structure SiteTls where
  source : CertificateSource
  clientAuth : Option ClientAuth
  /-- The certificate was inferred, not written. Not hashed. -/
  automatic : Bool
  deriving DecidableEq

def SiteTls.hashInto (t : SiteTls) (h : Hasher) : Hasher :=
  let h := match t.source with
    | .manual cert key => key.hashInto (cert.hashInto (h.updateStr "manual"))
    | .internal => h.updateStr "internal"
    | .acme => h.updateStr "acme"
  match t.clientAuth with
  | some auth => auth.ca.hashInto (h.updateBool auth.required)
  | none => h.updateNone

/-- A route's single terminal. -/
inductive Terminal where
  | proxy (upstream : ResourceId)
  | directive (item : DirectiveInstance)
  deriving DecidableEq

namespace Terminal

def name : Terminal → String
  | .proxy _ => "proxy"
  | .directive d => d.metadata.name

def hashInto : Terminal → Hasher → Hasher
  | .proxy upstream, h => upstream.hashInto (h.updateStr "proxy")
  | .directive d, h => d.hashInto (h.updateStr "directive")

end Terminal

structure Route where
  id : ResourceId
  path : PathMatch
  methods : MethodMatch
  matchers : List Matcher
  directives : List DirectiveInstance
  terminal : Terminal
  origin : Origin
  deriving DecidableEq

def Route.hashInto (blake3 : Digest) (r : Route) (h : Hasher) : Hasher :=
  let h := r.methods.hashInto (r.path.hashInto (r.id.hashInto h))
  let h := h.updateOrdered blake3 r.matchers Matcher.hashInto
  r.terminal.hashInto (h.updateOrdered blake3 r.directives DirectiveInstance.hashInto)

structure Site where
  id : ResourceId
  owner : SourceId
  host : HostMatch
  /-- Listener names; empty means every listener whose protocol suits. -/
  listeners : List String
  tls : Option SiteTls
  directives : List DirectiveInstance
  routes : List Route
  origin : Origin
  deriving DecidableEq

def Site.hashInto (blake3 : Digest) (s : Site) (h : Hasher) : Hasher :=
  let h := (s.host.hashInto (s.id.hashInto h)).updateUnordered blake3 s.listeners
    fun name h => h.updateStr name
  let h := h.updateOption SiteTls.hashInto s.tls
  (h.updateOrdered blake3 s.directives DirectiveInstance.hashInto).updateOrdered blake3 s.routes
    (Route.hashInto blake3)

structure Limits where
  maxHeader : ByteSize
  maxBody : ByteSize
  handshakeTimeout : Duration
  idleTimeout : Duration
  maxConnections : U32
  deriving DecidableEq

namespace Limits

def default : Limits := ⟨65536, 16777216, .fromSecs 10, .fromSecs 60, 10000⟩

def hashInto (l : Limits) (h : Hasher) : Hasher :=
  ((((h.updateU64 l.maxHeader).updateU64 l.maxBody).updateDuration l.handshakeTimeout).updateDuration
    l.idleTimeout).updateU64 l.maxConnections.toU64

end Limits

structure Log where
  level : String
  format : String
  deriving DecidableEq

def Log.default : Log := ⟨"info", "text"⟩

structure BlockingLimits where
  jobs : U64
  memoryBytes : U64
  deriving DecidableEq

def BlockingLimits.default : BlockingLimits := ⟨16, 268435456⟩

structure Acme where
  directory : String
  email : String
  agreed : Bool
  directoryPath : Option String
  renewBefore : Duration
  deriving DecidableEq

def Acme.defaultDirectory : String := "https://acme-v02.api.letsencrypt.org/directory"

def Acme.hashInto (a : Acme) (h : Hasher) : Hasher :=
  ((((h.updateStr a.directory).updateStr a.email).updateBool a.agreed).updateOptStr a.directoryPath).updateDuration
    a.renewBefore

/-- Process-wide settings that are not themselves resources. -/
structure Global where
  blocking : Option BlockingLimits
  gracePeriod : Duration
  reloadDrain : Option Duration
  limits : Limits
  trustedProxies : List (IpAddr × Nat)
  acme : Option Acme
  log : Log
  deriving DecidableEq

namespace Global

def default : Global := ⟨none, .fromSecs 30, none, .default, [], none, .default⟩

def hashInto (blake3 : Digest) (g : Global) (h : Hasher) : Hasher :=
  let h := match g.blocking with
    | some limits => ((h.updateStr "blocking-v1").updateU64 limits.jobs).updateU64 limits.memoryBytes
    | none => h.updateNone
  let h := h.updateDuration g.gracePeriod
  let h := match g.reloadDrain with
    | some duration => (h.updateStr "reload-drain-v1").updateDuration duration
    | none => h
  let h := ((g.limits.hashInto h).updateStr g.log.level).updateStr g.log.format
  let h := h.updateUnordered blake3 g.trustedProxies fun network h =>
    (h.updateStr network.1.toText).updateU64 (Fin.ofNat _ network.2)
  h.updateOption Acme.hashInto g.acme

end Global

/-- The whole configuration, normalized. -/
structure Spec where
  global : Global
  listeners : List Listener
  sites : List Site
  upstreams : List Upstream
  deriving DecidableEq

namespace Spec

/-- Did the operator ask for something different? -/
def fingerprint (blake3 : Digest) (s : Spec) : Fingerprint :=
  let h := s.global.hashInto blake3 (Hasher.new.updateStr "gatel.spec.v2")
  let h := h.updateUnordered blake3 s.listeners fun l h => l.hashInto (h.updateStr l.owner.display)
  let h := h.updateUnordered blake3 s.sites fun site h =>
    site.hashInto blake3 (h.updateStr site.owner.display)
  let h := h.updateUnordered blake3 s.upstreams fun u h => u.hashInto blake3 (h.updateStr u.owner.display)
  h.finish blake3

def listener (s : Spec) (name : String) : Option Listener := s.listeners.find? fun l => l.name == name

def upstream (s : Spec) (id : ResourceId) : Option Upstream := s.upstreams.find? fun u => u.id == id

/-- Which listeners a site is served on. -/
def listenersFor (s : Spec) (site : Site) : List Listener :=
  if site.listeners.isEmpty then s.listeners.filter fun l => l.protocol.isTls == site.tls.isSome
  else site.listeners.filterMap s.listener

end Spec

end Gatel
