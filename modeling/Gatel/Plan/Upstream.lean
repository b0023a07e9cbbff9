import Gatel.Plan.Directive
import Gatel.Plan.Matcher

namespace Gatel
open CanonicalSort (sortBy)

/-- A byte count. -/
abbrev ByteSize := U64

def U32.toU64 (n : U32) : U64 := ⟨n.val, by omega⟩

/-- Where a backend is, as the configuration wrote it. -/
inductive Target where
  | address (addr : SocketAddr)
  | name (host : String) (port : UInt16)
  | unix (path : String)
  deriving DecidableEq

namespace Target

def describe : Target → String
  | .address addr => addr.toText
  | .name host port => host ++ ":" ++ toString port.toNat
  | .unix path => "unix:" ++ path

def hashInto (t : Target) (h : Hasher) : Hasher := h.updateStr t.describe

end Target

inductive Balance where
  | roundRobin
  | weightedRoundRobin
  | random
  | twoRandomChoices
  | leastConn
  | ipHash
  | uriHash
  | headerHash (header : String)
  | cookieHash (cookie : String)
  | first
  deriving DecidableEq

namespace Balance

def describe : Balance → String
  | .roundRobin => "round-robin"
  | .weightedRoundRobin => "weighted-round-robin"
  | .random => "random"
  | .twoRandomChoices => "two-random-choices"
  | .leastConn => "least-conn"
  | .ipHash => "ip-hash"
  | .uriHash => "uri-hash"
  | .headerHash header => "header-hash(" ++ header ++ ")"
  | .cookieHash cookie => "cookie-hash(" ++ cookie ++ ")"
  | .first => "first"

def hashInto (b : Balance) (h : Hasher) : Hasher := h.updateStr b.describe

end Balance

/-- One backend. -/
structure Endpoint where
  id : String
  target : Target
  weight : U32
  priority : I32
  origin : Origin
  deriving DecidableEq

def Endpoint.hashInto (e : Endpoint) (h : Hasher) : Hasher :=
  ((e.target.hashInto (h.updateStr e.id)).updateU64 e.weight.toU64).updateI64 e.priority.toI64

/-- Deadlines for one proxied request, stage by stage. -/
structure Timeouts where
  queue : Duration
  connect : Duration
  responseHead : Duration
  bodyIdle : Duration
  overall : Duration
  upgradeIdle : Duration
  upgradeDuration : Duration
  deriving DecidableEq

namespace Timeouts

def default : Timeouts :=
  ⟨.fromSecs 2, .fromSecs 5, .fromSecs 10, .fromSecs 60, .fromSecs 300, .fromSecs 300, .fromSecs 86400⟩

def hashInto (t : Timeouts) (h : Hasher) : Hasher :=
  [t.queue, t.connect, t.responseHead, t.bodyIdle, t.overall, t.upgradeIdle, t.upgradeDuration].foldl
    Hasher.updateDuration h

end Timeouts

structure Pool where
  maxPerEndpoint : U32
  maxIdlePerEndpoint : U32
  idleTimeout : Duration
  maxLifetime : Duration
  maxWaiters : U32
  maxH2StreamsPerConnection : U32
  maxH2StreamsPerEndpoint : U32
  deriving DecidableEq

namespace Pool

def default : Pool := ⟨32, 8, .fromSecs 30, .fromSecs 300, 256, 128, 128⟩

def hashInto (p : Pool) (h : Hasher) : Hasher :=
  let h := (h.updateU64 p.maxPerEndpoint.toU64).updateU64 p.maxIdlePerEndpoint.toU64
  let h := (h.updateDuration p.idleTimeout).updateDuration p.maxLifetime
  ((h.updateU64 p.maxWaiters.toU64).updateU64 p.maxH2StreamsPerConnection.toU64).updateU64
    p.maxH2StreamsPerEndpoint.toU64

end Pool

inductive RetryMode where
  | safe
  | replay
  deriving DecidableEq, Repr

def RetryMode.asStr : RetryMode → String
  | .safe => "safe"
  | .replay => "replay"

structure Retry where
  mode : RetryMode
  attempts : U32
  perTry : Duration
  buffer : ByteSize
  budgetPercent : U32
  deriving DecidableEq

def Retry.hashInto (r : Retry) (h : Hasher) : Hasher :=
  ((((h.updateStr r.mode.asStr).updateU64 r.attempts.toU64).updateDuration r.perTry).updateU64
    r.buffer).updateU64 r.budgetPercent.toU64

inductive HealthKind where
  | tcpConnect
  | http (path : String) (status : UInt16) (host : Option String)
  deriving DecidableEq

structure Health where
  kind : HealthKind
  interval : Duration
  timeout : Duration
  healthyThreshold : U32
  unhealthyThreshold : U32
  jitter : Duration
  deriving DecidableEq

def Health.hashInto (p : Health) (h : Hasher) : Hasher :=
  let h := match p.kind with
    | .tcpConnect => h.updateStr "tcp"
    | .http path status host =>
      (((h.updateStr "http").updateStr path).updateU64 (Fin.ofNat _ status.toNat)).updateOptStr host
  let h := (h.updateDuration p.interval).updateDuration p.timeout
  ((h.updateU64 p.healthyThreshold.toU64).updateU64 p.unhealthyThreshold.toU64).updateDuration p.jitter

structure PassiveHealth where
  maxFails : U32
  window : Duration
  cooldown : Duration
  unhealthyStatus : List UInt16
  deriving DecidableEq

def PassiveHealth.hashInto (blake3 : Digest) (p : PassiveHealth) (h : Hasher) : Hasher :=
  (((h.updateU64 p.maxFails.toU64).updateDuration p.window).updateDuration p.cooldown).updateOrdered blake3
    p.unhealthyStatus fun status h => h.updateU64 (Fin.ofNat _ status.toNat)

inductive UpstreamProtocol where
  | http1
  | http2
  deriving DecidableEq, Repr

def UpstreamProtocol.rank : UpstreamProtocol → U64
  | .http1 => 0
  | .http2 => 1

structure UpstreamTls where
  serverName : String
  ca : Option SecretRef
  clientCert : Option SecretRef
  clientKey : Option SecretRef
  deriving DecidableEq

def UpstreamTls.hashInto (t : UpstreamTls) (h : Hasher) : Hasher :=
  [t.ca, t.clientCert, t.clientKey].foldl (Hasher.updateOption SecretRef.hashInto) (h.updateStr t.serverName)

inductive Family where
  | any
  | ipv4
  | ipv6
  deriving DecidableEq, Repr

def Family.asStr : Family → String
  | .any => "any"
  | .ipv4 => "ipv4"
  | .ipv6 => "ipv6"

/-- How a named backend is looked up again. -/
structure Resolve where
  interval : Duration
  timeout : Duration
  family : Family
  deriving DecidableEq

namespace Resolve

def default : Resolve := ⟨.fromSecs 30, .fromSecs 5, .any⟩

def hashInto (r : Resolve) (h : Hasher) : Hasher :=
  ((h.updateDuration r.interval).updateDuration r.timeout).updateStr r.family.asStr

end Resolve

/-- The policy of an upstream: what its body decodes to. -/
structure UpstreamBody where
  endpoints : List Endpoint
  balance : Balance
  timeouts : Timeouts
  pool : Pool
  retry : Option Retry
  health : Option Health
  passiveHealth : Option PassiveHealth
  protocol : UpstreamProtocol
  tls : Option UpstreamTls
  resolve : Resolve
  origin : Origin
  deriving DecidableEq

/-- A named or anonymous set of backends with the policy for reaching them. -/
structure Upstream extends UpstreamBody where
  id : ResourceId
  owner : SourceId
  deriving DecidableEq

namespace Upstream

def hashInto (blake3 : Digest) (u : Upstream) (h : Hasher) : Hasher :=
  let h := (u.id.hashInto h).updateUnordered blake3 u.endpoints Endpoint.hashInto
  let h := u.pool.hashInto (u.timeouts.hashInto (u.balance.hashInto h))
  let h := h.updateOption Retry.hashInto u.retry
  let h := h.updateOption Health.hashInto u.health
  let h := h.updateOption (PassiveHealth.hashInto blake3) u.passiveHealth
  let h := (h.updateU64 u.protocol.rank).updateOption UpstreamTls.hashInto u.tls
  u.resolve.hashInto h

/-- What of an endpoint reaches a fingerprint: origins do not, and the target by
its text. -/
def endpointCore (e : Endpoint) : String × String × U32 × I32 :=
  (e.id, e.target.describe, e.weight, e.priority)

/-- What of an upstream reaches a fingerprint: its endpoints as an unordered
collection, printed forms for what is hashed printed, no origins. -/
structure Core where
  id : ResourceId
  owner : SourceId
  endpoints : Multiset (String × String × U32 × I32)
  balance : String
  timeouts : Timeouts
  pool : Pool
  retry : Option Retry
  health : Option Health
  passiveHealth : Option PassiveHealth
  protocol : UpstreamProtocol
  tls : Option (String × Option String × Option String × Option String)
  resolve : Resolve

def core (u : Upstream) : Core where
  id := u.id
  owner := u.owner
  endpoints := u.endpoints.map endpointCore
  balance := u.balance.describe
  timeouts := u.timeouts
  pool := u.pool
  retry := u.retry
  health := u.health
  passiveHealth := u.passiveHealth
  protocol := u.protocol
  tls := u.tls.map fun t =>
    (t.serverName, t.ca.map SecretRef.display, t.clientCert.map SecretRef.display,
      t.clientKey.map SecretRef.display)
  resolve := u.resolve

theorem id_of_core {u v : Upstream} (h : u.core = v.core) : u.id = v.id := congrArg Core.id h

theorem owner_of_core {u v : Upstream} (h : u.core = v.core) : u.owner = v.owner := congrArg Core.owner h

theorem updateOption_secret {a b : Option SecretRef} (h : a.map SecretRef.display = b.map SecretRef.display)
    (g : Hasher) : g.updateOption SecretRef.hashInto a = g.updateOption SecretRef.hashInto b := by
  cases a <;> cases b <;> simp_all [Hasher.updateOption, SecretRef.hashInto]

theorem updateOption_tls {u v : Upstream} (h : u.core = v.core) (g : Hasher) :
    g.updateOption UpstreamTls.hashInto u.tls = g.updateOption UpstreamTls.hashInto v.tls := by
  have ht : u.core.tls = v.core.tls := by rw [h]
  simp only [core] at ht
  cases hu : u.tls with
  | none =>
    cases hv : v.tls with
    | none => rfl
    | some t => simp [hu, hv] at ht
  | some t =>
    cases hv : v.tls with
    | none => simp [hu, hv] at ht
    | some t' =>
      simp only [hu, hv, Option.map_some, Option.some.injEq, Prod.mk.injEq] at ht
      obtain ⟨hs, ha, hc, hk⟩ := ht
      show t.hashInto g = t'.hashInto g
      simp only [UpstreamTls.hashInto, List.foldl_cons, List.foldl_nil]
      rw [hs, updateOption_secret ha, updateOption_secret hc, updateOption_secret hk]

theorem endpoints_perm_of_core {u v : Upstream} (h : u.core = v.core) :
    (u.endpoints.map endpointCore).Perm (v.endpoints.map endpointCore) := by
  have he : u.core.endpoints = v.core.endpoints := by rw [h]
  simp only [core, Multiset.coe_eq_coe] at he
  exact he

/-- A map of the endpoints that reads their core only is the same up to order. -/
theorem endpoints_map_perm {β : Type} {u v : Upstream} (h : u.core = v.core)
    (f : String × String × U32 × I32 → β) :
    (u.endpoints.map fun e => f (endpointCore e)).Perm (v.endpoints.map fun e => f (endpointCore e)) := by
  have hp := (endpoints_perm_of_core h).map f
  simpa [List.map_map, Function.comp_def] using hp

theorem hashInto_core (blake3 : Digest) {u v : Upstream} (h : u.core = v.core) (g : Hasher) :
    u.hashInto blake3 g = v.hashInto blake3 g := by
  have hp := endpoints_map_perm h fun c =>
    (((Hasher.new.updateStr c.1).updateStr c.2.1).updateU64 c.2.2.1.toU64).updateI64 c.2.2.2.toI64
  have hi := id_of_core h
  have hb : u.balance.describe = v.balance.describe := congrArg Core.balance h
  have ht : u.timeouts = v.timeouts := congrArg Core.timeouts h
  have hpool : u.pool = v.pool := congrArg Core.pool h
  have hr : u.retry = v.retry := congrArg Core.retry h
  have hh : u.health = v.health := congrArg Core.health h
  have hpass : u.passiveHealth = v.passiveHealth := congrArg Core.passiveHealth h
  have hproto : u.protocol = v.protocol := congrArg Core.protocol h
  have hres : u.resolve = v.resolve := congrArg Core.resolve h
  have he : ∀ g, Hasher.updateUnordered blake3 u.endpoints Endpoint.hashInto g =
      Hasher.updateUnordered blake3 v.endpoints Endpoint.hashInto g :=
    fun g => Hasher.updateUnordered_congr hp g
  unfold hashInto
  simp only [Balance.hashInto, hi, hb, ht, hpool, hr, hh, hpass, hproto, hres, he, updateOption_tls h]

end Upstream

end Gatel
