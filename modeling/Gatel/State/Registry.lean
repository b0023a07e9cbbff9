import Gatel.Plan.Faithful
import Gatel.State.Endpoint

namespace Gatel.State
open Hasher (Apart Codes)
open KeyedMap (Map)
open Run (run run_append)
open Shuffle (Shuffled)

/-! One upstream's runtime: its endpoints, its balancer and its connections, resolved
from the plan's state bindings so that a compatible reload keeps them. -/

/-- What a reload may change about a pool it keeps. -/
structure Policy where
  config : Pool
  resolve : Resolve
  deriving DecidableEq

/-- A pool as a reload sees it. The TLS client is known by its identity. -/
structure ConnectionPool where
  policy : Policy
  protocol : UpstreamProtocol
  tls : Option Fingerprint
  deriving DecidableEq

/-- The values that registrations point to; an object is its place here. -/
structure Heap where
  sets : List EndpointSet
  pools : List ConnectionPool
  selectors : Nat

structure Slot where
  compatibility : Fingerprint
  value : Nat
  deriving DecidableEq

/-- What happened when a binding was resolved. -/
inductive Resolution where
  | created
  | reused
  | replaced
  deriving DecidableEq, Repr

abbrev StateRegistry := Map (ResourceId × StateKind) Slot

/-- Reuse the running instance if it is compatible, and otherwise register a new one. -/
def StateRegistry.bind (slots : StateRegistry) (binding : StateBinding) (fresh : Nat) :
    Nat × Resolution × StateRegistry :=
  let key := (binding.owner, binding.kind)
  match slots.lookup key with
  | some slot =>
    if binding.policy = .preserve ∧ slot.compatibility = binding.compatibility then (slot.value, .reused, slots)
    else (fresh, .replaced, slots.insert key ⟨binding.compatibility, fresh⟩)
  | none => (fresh, .created, slots.insert key ⟨binding.compatibility, fresh⟩)

/-- Registrations and the values behind them. -/
structure Stage where
  slots : StateRegistry
  heap : Heap

/-- Everything a proxy terminal needs to reach one upstream. -/
structure UpstreamRuntime where
  spec : Upstream
  endpoints : Nat
  selector : Nat
  pool : Nat
  deriving DecidableEq

structure UpstreamResolution where
  endpoints : Resolution
  selector : Resolution
  pool : Resolution
  deriving DecidableEq

/-- The TLS client an upstream's files give right now: its identity, or why not. -/
abbrev TlsFiles := UpstreamTls → UpstreamProtocol → Except String Fingerprint

def clientTls (files : TlsFiles) (u : Upstream) : Except String (Option Fingerprint) :=
  match u.tls with
  | none => .ok none
  | some spec => match files spec u.protocol with
    | .ok identity => .ok (some identity)
    | .error error => .error ("upstream `" ++ u.id.name ++ "`: " ++ error)

/-- What makes a pool reusable, the loaded TLS material included. -/
def poolCompatibility (blake3 : Digest) (transport : Fingerprint) : Option Fingerprint → Fingerprint
  | none => transport
  | some identity =>
    (((Hasher.new.updateStr "prepared-pool-tls-v1").updateFingerprint transport).updateFingerprint identity).finish blake3

def Plan.binding (plan : Plan) (u : Upstream) (kind : StateKind) : Option StateBinding :=
  plan.bindings.find? fun b => b.owner = u.id ∧ b.kind = kind

namespace Stage

/-- Register a value, made only when nothing compatible runs. -/
def bindSet (σ : Stage) (b : StateBinding) (make : EndpointSet) : Nat × Resolution × Stage :=
  let (value, resolution, slots) := σ.slots.bind b σ.heap.sets.length
  (value, resolution, ⟨slots,
    if resolution = .reused then σ.heap else { σ.heap with sets := σ.heap.sets ++ [make] }⟩)

def bindSelector (σ : Stage) (b : StateBinding) : Nat × Resolution × Stage :=
  let (value, resolution, slots) := σ.slots.bind b σ.heap.selectors
  (value, resolution, ⟨slots,
    if resolution = .reused then σ.heap else { σ.heap with selectors := σ.heap.selectors + 1 }⟩)

def bindPool (σ : Stage) (b : StateBinding) (make : ConnectionPool) : Nat × Resolution × Stage :=
  let (value, resolution, slots) := σ.slots.bind b σ.heap.pools.length
  (value, resolution, ⟨slots,
    if resolution = .reused then σ.heap else { σ.heap with pools := σ.heap.pools ++ [make] }⟩)

/-- Resolve one upstream against what is already running. -/
def bindUpstream (blake3 : Digest) (plan : Plan) (files : TlsFiles) (σ : Stage) (u : Upstream) :
    Except String (UpstreamRuntime × UpstreamResolution × Stage) :=
  match Plan.binding plan u .endpoints, Plan.binding plan u .selector, Plan.binding plan u .pool with
  | some endpoints, some selector, some pool =>
    match clientTls files u with
    | .error error => .error error
    | .ok tls =>
      let (set, setResolution, σ) := σ.bindSet endpoints (.new u)
      let (cursor, cursorResolution, σ) := σ.bindSelector selector
      let pool := { pool with compatibility := poolCompatibility blake3 pool.compatibility tls }
      let (connections, poolResolution, σ) := σ.bindPool pool ⟨⟨u.pool, u.resolve⟩, u.protocol, tls⟩
      .ok (⟨u, set, cursor, connections⟩, ⟨setResolution, cursorResolution, poolResolution⟩, σ)
  | _, _, _ => .error "compile binds endpoints, selector and pool for every upstream"

/-- Resolve candidate state without changing the policies of reused pools; what was
registered before an error stays registered. -/
@[grind =] def prepare (blake3 : Digest) (plan : Plan) (files : TlsFiles) :
    List Upstream → Stage → Stage × Except String (List (UpstreamRuntime × UpstreamResolution))
  | [], σ => (σ, .ok [])
  | u :: us, σ =>
    match σ.bindUpstream blake3 plan files u with
    | .error error => (σ, .error error)
    | .ok (runtime, resolution, σ) =>
      let (σ, rest) := prepare blake3 plan files us σ
      (σ, rest.map fun rest => (runtime, resolution) :: rest)

end Stage

/-- Take on a reload's numbers. -/
def Heap.adopt (heap : Heap) (r : UpstreamRuntime) : Heap :=
  { heap with pools := heap.pools.modify r.pool fun p => { p with policy := ⟨r.spec.pool, r.spec.resolve⟩ } }

/-- Apply already validated policies only when this generation publishes. -/
def Heap.adoptPolicies (heap : Heap) (runtimes : List UpstreamRuntime) : Heap := runtimes.foldl Heap.adopt heap

/-- The registry of a process and the runtimes it serves with. -/
structure Host where
  stage : Stage
  published : List UpstreamRuntime

/-- What happens to the registry: a plan resolved in place, a candidate prepared beside it
and published or dropped, and calls on an endpoint set that is in use. -/
inductive Load where
  | resolve (plan : Plan) (files : TlsFiles)
  | publish (plan : Plan) (files : TlsFiles)
  | abandon (plan : Plan) (files : TlsFiles)
  | traffic (set : Nat) (call : EndpointSet.Call)

namespace Host

def start : Host := ⟨⟨∅, ⟨[], [], 0⟩⟩, []⟩

def serve (h : Host) (runtimes : List (UpstreamRuntime × UpstreamResolution)) : Host :=
  { stage := { h.stage with heap := h.stage.heap.adoptPolicies (runtimes.map Prod.fst) }
    published := runtimes.map Prod.fst }

def step (blake3 : Digest) (h : Host) : Load → Host
  | .resolve plan files =>
    match h.stage.prepare blake3 plan files plan.upstreams with
    | (stage, .ok runtimes) => { h with stage := stage }.serve runtimes
    | (stage, .error _) => { h with stage := stage }
  | .publish plan files =>
    match h.stage.prepare blake3 plan files plan.upstreams with
    | (staged, .ok runtimes) => { h with stage := staged }.serve runtimes
    | (staged, .error _) => { h with stage := { h.stage with heap := staged.heap } }
  | .abandon plan files =>
    { h with stage := { h.stage with heap := (h.stage.prepare blake3 plan files plan.upstreams).1.heap } }
  | .traffic set call =>
    { h with stage.heap.sets := h.stage.heap.sets.modify set fun s => s.step call }

end Host

/-! What resolving one upstream does. -/

theorem StateRegistry.bind_cases (slots : StateRegistry) (b : StateBinding) (fresh : Nat) :
    (∃ value, slots.lookup (b.owner, b.kind) = some ⟨b.compatibility, value⟩ ∧
      slots.bind b fresh = (value, .reused, slots)) ∨
    (∃ resolution, resolution ≠ .reused ∧
      slots.bind b fresh = (fresh, resolution, slots.insert (b.owner, b.kind) ⟨b.compatibility, fresh⟩) ∧
      (b.policy = .preserve → ∀ value, slots.lookup (b.owner, b.kind) ≠ some ⟨b.compatibility, value⟩)) := by
  unfold bind
  dsimp only
  split
  · rename_i slot hs
    split
    · rename_i hc
      refine Or.inl ⟨slot.value, ?_, rfl⟩
      rw [hs, ← hc.2]
    · rename_i hc
      refine Or.inr ⟨_, by decide, rfl, ?_⟩
      intro hp value he
      rw [hs] at he
      exact hc ⟨hp, by rw [Option.some.inj he]⟩
  · rename_i hs
    refine Or.inr ⟨_, by decide, rfl, ?_⟩
    intro _ value he
    rw [hs] at he
    cases he

/-- One upstream resolved: its slots point to what runs, the others are untouched. -/
structure Bound (blake3 : Digest) (σ : Stage) (u : Upstream) (tls : Option Fingerprint) (r : UpstreamRuntime)
    (σ' : Stage) : Prop where
  spec : r.spec = u
  setSlot : σ'.slots.lookup (u.id, .endpoints) = some ⟨transportHash blake3 u, r.endpoints⟩
  poolSlot : σ'.slots.lookup (u.id, .pool) = some ⟨poolCompatibility blake3 (transportHash blake3 u) tls, r.pool⟩
  others : ∀ key, key.1 ≠ u.id → σ'.slots.lookup key = σ.slots.lookup key
  sets : σ.slots.lookup (u.id, .endpoints) = some ⟨transportHash blake3 u, r.endpoints⟩ ∧ σ'.heap.sets = σ.heap.sets ∨
    r.endpoints = σ.heap.sets.length ∧ σ'.heap.sets = σ.heap.sets ++ [.new u]
  pools : σ.slots.lookup (u.id, .pool) = some ⟨poolCompatibility blake3 (transportHash blake3 u) tls, r.pool⟩ ∧
      σ'.heap.pools = σ.heap.pools ∨
    r.pool = σ.heap.pools.length ∧ σ'.heap.pools = σ.heap.pools ++ [⟨⟨u.pool, u.resolve⟩, u.protocol, tls⟩]
  keepsSet : ∀ value, σ.slots.lookup (u.id, .endpoints) = some ⟨transportHash blake3 u, value⟩ → r.endpoints = value
  keepsPool : ∀ value, σ.slots.lookup (u.id, .pool) =
    some ⟨poolCompatibility blake3 (transportHash blake3 u) tls, value⟩ → r.pool = value

theorem bindSet_cases (σ : Stage) (b : StateBinding) (make : EndpointSet) :
    ∃ value resolution slots sets, σ.bindSet b make = (value, resolution, ⟨slots, { σ.heap with sets := sets }⟩) ∧
      slots.lookup (b.owner, b.kind) = some ⟨b.compatibility, value⟩ ∧
      (∀ key, key ≠ (b.owner, b.kind) → slots.lookup key = σ.slots.lookup key) ∧
      (σ.slots.lookup (b.owner, b.kind) = some ⟨b.compatibility, value⟩ ∧ sets = σ.heap.sets ∨
        value = σ.heap.sets.length ∧ sets = σ.heap.sets ++ [make]) ∧
      (b.policy = .preserve → ∀ kept, σ.slots.lookup (b.owner, b.kind) = some ⟨b.compatibility, kept⟩ → value = kept) := by
  unfold Stage.bindSet
  obtain ⟨value, hl, he⟩ | ⟨resolution, hr, he, hno⟩ := StateRegistry.bind_cases σ.slots b σ.heap.sets.length
  · rw [he]
    refine ⟨value, _, σ.slots, σ.heap.sets, rfl, hl, fun _ _ => rfl, Or.inl ⟨hl, rfl⟩, ?_⟩
    intro _ kept hkept
    rw [hl] at hkept
    cases hkept
    rfl
  · rw [he]
    refine ⟨σ.heap.sets.length, resolution, _, σ.heap.sets ++ [make], ?_, AList.lookup_insert _,
      fun key hk => AList.lookup_insert_ne hk, Or.inr ⟨rfl, rfl⟩, fun hp kept hkept => absurd hkept (hno hp kept)⟩
    simp [hr]

theorem bindPool_cases (σ : Stage) (b : StateBinding) (make : ConnectionPool) :
    ∃ value resolution slots pools, σ.bindPool b make = (value, resolution, ⟨slots, { σ.heap with pools := pools }⟩) ∧
      slots.lookup (b.owner, b.kind) = some ⟨b.compatibility, value⟩ ∧
      (∀ key, key ≠ (b.owner, b.kind) → slots.lookup key = σ.slots.lookup key) ∧
      (σ.slots.lookup (b.owner, b.kind) = some ⟨b.compatibility, value⟩ ∧ pools = σ.heap.pools ∨
        value = σ.heap.pools.length ∧ pools = σ.heap.pools ++ [make]) ∧
      (b.policy = .preserve → ∀ kept, σ.slots.lookup (b.owner, b.kind) = some ⟨b.compatibility, kept⟩ → value = kept) := by
  unfold Stage.bindPool
  obtain ⟨value, hl, he⟩ | ⟨resolution, hr, he, hno⟩ := StateRegistry.bind_cases σ.slots b σ.heap.pools.length
  · rw [he]
    refine ⟨value, _, σ.slots, σ.heap.pools, rfl, hl, fun _ _ => rfl, Or.inl ⟨hl, rfl⟩, ?_⟩
    intro _ kept hkept
    rw [hl] at hkept
    cases hkept
    rfl
  · rw [he]
    refine ⟨σ.heap.pools.length, resolution, _, σ.heap.pools ++ [make], ?_, AList.lookup_insert _,
      fun key hk => AList.lookup_insert_ne hk, Or.inr ⟨rfl, rfl⟩, fun hp kept hkept => absurd hkept (hno hp kept)⟩
    simp [hr]

theorem bindSelector_cases (σ : Stage) (b : StateBinding) :
    ∃ value resolution slots selectors, σ.bindSelector b = (value, resolution, ⟨slots, { σ.heap with selectors := selectors }⟩) ∧
      ∀ key, key ≠ (b.owner, b.kind) → slots.lookup key = σ.slots.lookup key := by
  unfold Stage.bindSelector
  obtain ⟨value, hl, he⟩ | ⟨resolution, hr, he, hno⟩ := StateRegistry.bind_cases σ.slots b σ.heap.selectors
  · rw [he]
    exact ⟨value, _, σ.slots, σ.heap.selectors, rfl, fun _ _ => rfl⟩
  · rw [he]
    refine ⟨σ.heap.selectors, resolution, σ.slots.insert (b.owner, b.kind) ⟨b.compatibility, σ.heap.selectors⟩,
      σ.heap.selectors + 1, ?_, fun key hk => AList.lookup_insert_ne hk⟩
    simp [hr]

/-- A plan that binds all three states of its upstreams, as `compile` does. -/
def Plan.Binds (blake3 : Digest) (plan : Plan) (u : Upstream) : Prop :=
  Plan.binding plan u .endpoints = some ⟨u.id, .endpoints, transportHash blake3 u, .preserve⟩ ∧
  Plan.binding plan u .pool = some ⟨u.id, .pool, transportHash blake3 u, .preserve⟩ ∧
  ∃ compatibility, Plan.binding plan u .selector = some ⟨u.id, .selector, compatibility, .preserve⟩

theorem bindUpstream_cases {blake3 : Digest} {plan : Plan} {u : Upstream} (hb : Plan.Binds blake3 plan u)
    (files : TlsFiles) (σ : Stage) :
    (∃ error, clientTls files u = .error error ∧ σ.bindUpstream blake3 plan files u = .error error) ∨
    ∃ tls r resolution σ', clientTls files u = .ok tls ∧
      σ.bindUpstream blake3 plan files u = .ok (r, resolution, σ') ∧ Bound blake3 σ u tls r σ' := by
  obtain ⟨he, hp, compatibility, hs⟩ := hb
  unfold Stage.bindUpstream
  rw [he, hp, hs]
  dsimp only
  cases htls : clientTls files u with
  | error error => exact Or.inl ⟨error, rfl, rfl⟩
  | ok tls =>
    right
    dsimp only
    obtain ⟨set, rs, slots₁, sets, h₁, hset, hother₁, hsets, hkeepSet⟩ := bindSet_cases σ
      ⟨u.id, .endpoints, transportHash blake3 u, .preserve⟩ (.new u)
    rw [h₁]
    dsimp only
    obtain ⟨cursor, rc, slots₂, selectors, h₂, hother₂⟩ := bindSelector_cases
      ⟨slots₁, { σ.heap with sets := sets }⟩ ⟨u.id, .selector, compatibility, .preserve⟩
    rw [h₂]
    dsimp only
    obtain ⟨pool, rp, slots₃, pools, h₃, hpool, hother₃, hpools, hkeepPool⟩ := bindPool_cases
      ⟨slots₂, { sets := sets, pools := σ.heap.pools, selectors := selectors }⟩
      ⟨u.id, .pool, poolCompatibility blake3 (transportHash blake3 u) tls, .preserve⟩
      ⟨⟨u.pool, u.resolve⟩, u.protocol, tls⟩
    rw [h₃]
    refine ⟨tls, _, _, _, rfl, rfl, rfl, ?_, hpool, ?_, hsets, ?_, hkeepSet rfl, ?_⟩
    · rw [hother₃ _ (by simp), hother₂ _ (by simp)]
      exact hset
    · intro key hk
      have hne : ∀ kind, key ≠ (u.id, kind) := fun kind h => hk (by rw [h])
      rw [hother₃ _ (hne _), hother₂ _ (hne _), hother₁ _ (hne _)]
    · rw [hother₂ _ (by simp), hother₁ _ (by simp)] at hpools
      exact hpools
    · have hkeep := hkeepPool rfl
      rw [hother₂ _ (by simp), hother₁ _ (by simp)] at hkeep
      exact hkeep

end Gatel.State
