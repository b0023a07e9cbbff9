import Gatel.State.Reload

namespace Gatel.State
open Hasher (Apart Codes)
open KeyedMap (Map lookup_retain)
open Run (run run_append)
open Shuffle (Shuffled)

/-! Background workers, kept in step with what is published. -/

def Upstream.hasNames (u : Upstream) : Bool := u.endpoints.any fun e => e.target.isName

/-- A task and the runtime it was started with. -/
structure Worker where
  /-- What the worker was started for. When this changes, it is replaced. -/
  identity : Fingerprint
  runtime : UpstreamRuntime
  deriving DecidableEq

structure Supervisor where
  closed : Bool
  workers : Map ResourceId Worker
  resolvers : Map ResourceId Worker

namespace Supervisor

def endpointWrite (e : Gatel.Endpoint) (h : Hasher) : Hasher := e.target.hashInto (h.updateStr e.id)

/-- What a probe worker is started for; the pool's TLS client is known by its identity. -/
def probeStream (blake3 : Digest) (u : Upstream) (tls : Option Fingerprint) (h : Hasher) : Hasher :=
  let h := (h.updateOption Health.hashInto u.health).updateU64 u.protocol.rank
  let h := tls.elim h fun identity => h.updateFingerprint identity
  (h.updateOption UpstreamTls.hashInto u.tls).updateUnordered blake3 u.endpoints endpointWrite

def workerIdentity (blake3 : Digest) (heap : Heap) (r : UpstreamRuntime) : Fingerprint :=
  (probeStream blake3 r.spec (heap.pools[r.pool]?.bind ConnectionPool.tls) .new).finish blake3

/-- What a resolver is started for: the names it looks up and how it looks them up. -/
def resolveStream (blake3 : Digest) (u : Upstream) (h : Hasher) : Hasher :=
  (u.resolve.hashInto h).updateUnordered blake3 u.endpoints endpointWrite

def resolverIdentity (blake3 : Digest) (r : UpstreamRuntime) : Fingerprint :=
  (resolveStream blake3 r.spec .new).finish blake3

/-- Leave a worker running if it was started for the same thing, or put another in its place. -/
def keepOrStart (workers : Map ResourceId Worker) (wanted : Worker) : Map ResourceId Worker :=
  match workers.lookup wanted.runtime.spec.id with
  | some existing => if existing.identity = wanted.identity then workers else workers.insert wanted.runtime.spec.id wanted
  | none => workers.insert wanted.runtime.spec.id wanted

/-- Start, keep or stop workers so that there is one for each wanted upstream. -/
def follow (workers : Map ResourceId Worker) (wanted : List Worker) : Map ResourceId Worker :=
  KeyedMap.retain (fun id => wanted.any fun w => w.runtime.spec.id == id) (wanted.foldl keepOrStart workers)

def probing (blake3 : Digest) (heap : Heap) (runtimes : List UpstreamRuntime) : List Worker :=
  (runtimes.filter fun r => r.spec.health.isSome).map fun r => ⟨workerIdentity blake3 heap r, r⟩

def resolving (blake3 : Digest) (runtimes : List UpstreamRuntime) : List Worker :=
  (runtimes.filter fun r => Upstream.hasNames r.spec).map fun r => ⟨resolverIdentity blake3 r, r⟩

/-- Called after a commit, never before. -/
def reconcile (blake3 : Digest) (heap : Heap) (s : Supervisor) (runtimes : List UpstreamRuntime) : Supervisor :=
  if s.closed then s
  else
    { s with
      resolvers := follow s.resolvers (resolving blake3 runtimes)
      workers := follow s.workers (probing blake3 heap runtimes) }

/-- Stop every worker, for good. -/
def shutdown (_ : Supervisor) : Supervisor := ⟨true, ∅, ∅⟩

end Supervisor

/-- A process with its background workers. -/
structure Supervised where
  host : Host
  supervisor : Supervisor

/-- A load, reconciled when it publishes, or the end. -/
inductive Event where
  | load (load : Load)
  | shutdown

namespace Supervised

def start : Supervised := ⟨.start, ⟨false, ∅, ∅⟩⟩

def step (blake3 : Digest) (w : Supervised) : Event → Supervised
  | .load load =>
    let host := w.host.step blake3 load
    ⟨host, if load.published?.isSome then w.supervisor.reconcile blake3 host.stage.heap host.published else w.supervisor⟩
  | .shutdown => { w with supervisor := w.supervisor.shutdown }

/-- The worker of each upstream that wants one, and no other, holds what the published
runtime of that upstream holds. -/
def Attends (published : List UpstreamRuntime) (wants : UpstreamRuntime → Bool) (workers : Map ResourceId Worker) : Prop :=
  ∀ id, (workers.lookup id).map (fun w => (w.runtime.endpoints, w.runtime.pool)) =
    (published.find? fun r => decide (r.spec.id = id) && wants r).map fun r => (r.endpoints, r.pool)

end Supervised

/-! What following a list of wanted workers leaves. -/

namespace Supervisor

/-- The worker an upstream has after it was looked at. -/
def settle (workers : Map ResourceId Worker) (wanted : Worker) : Worker :=
  match workers.lookup wanted.runtime.spec.id with
  | some existing => if existing.identity = wanted.identity then existing else wanted
  | none => wanted

theorem lookup_keepOrStart (workers : Map ResourceId Worker) (wanted : Worker) (id : ResourceId) :
    (keepOrStart workers wanted).lookup id =
      if wanted.runtime.spec.id = id then some (settle workers wanted) else workers.lookup id := by
  unfold keepOrStart settle
  by_cases hid : wanted.runtime.spec.id = id
  · subst hid
    cases hl : workers.lookup wanted.runtime.spec.id with
    | none => simp
    | some existing =>
      by_cases he : existing.identity = wanted.identity
      · simp [he, hl]
      · simp [he]
  · rw [if_neg hid]
    split
    · split
      · rfl
      · exact AList.lookup_insert_ne (Ne.symm hid)
    · exact AList.lookup_insert_ne (Ne.symm hid)

theorem lookup_foldl (wanted : List Worker) (hn : (wanted.map fun w => w.runtime.spec.id).Nodup)
    (workers : Map ResourceId Worker) (id : ResourceId) :
    (wanted.foldl keepOrStart workers).lookup id =
      match wanted.find? fun w => w.runtime.spec.id = id with
      | some w => some (settle workers w)
      | none => workers.lookup id := by
  induction wanted generalizing workers with
  | nil => rfl
  | cons w wanted ih =>
    obtain ⟨hnot, hn⟩ := List.nodup_cons.mp hn
    rw [List.foldl_cons, ih hn]
    by_cases hid : w.runtime.spec.id = id
    · subst hid
      have hnone : wanted.find? (fun v => v.runtime.spec.id = w.runtime.spec.id) = none := by
        rw [List.find?_eq_none]
        intro v hv he
        exact hnot (List.mem_map.mpr ⟨v, hv, of_decide_eq_true he⟩)
      simp [hnone, lookup_keepOrStart]
    · simp only [List.find?_cons, hid, decide_false]
      cases hf : wanted.find? fun v => v.runtime.spec.id = id with
      | none => simp [lookup_keepOrStart, hid]
      | some v =>
        have hv : v.runtime.spec.id = id := by simpa using List.find?_some hf
        have hs : settle (keepOrStart workers w) v = settle workers v := by
          rw [settle, settle, lookup_keepOrStart, if_neg]
          rw [hv]
          exact hid
        simp only [hs]

theorem lookup_follow (wanted : List Worker) (hn : (wanted.map fun w => w.runtime.spec.id).Nodup)
    (workers : Map ResourceId Worker) (id : ResourceId) :
    (follow workers wanted).lookup id =
      (wanted.find? fun w => w.runtime.spec.id = id).map (settle workers) := by
  rw [follow, lookup_retain, lookup_foldl wanted hn]
  cases hf : wanted.find? fun w => w.runtime.spec.id = id with
  | none =>
    have hany : (wanted.any fun w => w.runtime.spec.id == id) = false := by
      rw [Bool.eq_false_iff]
      intro h
      obtain ⟨w, hw, he⟩ := List.any_eq_true.mp h
      exact List.find?_eq_none.mp hf w hw (by simpa using he)
    simp [hany]
  | some w =>
    have hw : w.runtime.spec.id = id := by simpa using List.find?_some hf
    have hany : (wanted.any fun w => w.runtime.spec.id == id) = true :=
      List.any_eq_true.mpr ⟨w, List.mem_of_find?_eq_some hf, by simp [hw]⟩
    simp [hany]

end Supervisor

/-- Each worker was started for what the published runtime still is, and holds the same objects. -/
def Tracks (published : List UpstreamRuntime) (wants : UpstreamRuntime → Bool) (identity : UpstreamRuntime → Fingerprint)
    (workers : Map ResourceId Worker) : Prop :=
  ∀ id, match published.find? fun r => decide (r.spec.id = id) && wants r with
    | none => workers.lookup id = none
    | some r => ∃ w, workers.lookup id = some w ∧ w.identity = identity r ∧ w.runtime.endpoints = r.endpoints ∧
        w.runtime.pool = r.pool

theorem Tracks.attends {published : List UpstreamRuntime} {wants : UpstreamRuntime → Bool}
    {identity : UpstreamRuntime → Fingerprint} {workers : Map ResourceId Worker}
    (h : Tracks published wants identity workers) : Supervised.Attends published wants workers := by
  intro id
  have hid := h id
  cases hf : published.find? fun r => decide (r.spec.id = id) && wants r with
  | none =>
    rw [hf] at hid
    simp [hid]
  | some r =>
    rw [hf] at hid
    obtain ⟨w, hw, _, he, hp⟩ := hid
    simp [hw, he, hp]

theorem Tracks.congr {published : List UpstreamRuntime} {wants : UpstreamRuntime → Bool}
    {identity identity' : UpstreamRuntime → Fingerprint} {workers : Map ResourceId Worker}
    (h : Tracks published wants identity workers) (he : ∀ r ∈ published, identity r = identity' r) :
    Tracks published wants identity' workers := by
  intro id
  have hid := h id
  cases hf : published.find? fun r => decide (r.spec.id = id) && wants r with
  | none =>
    rw [hf] at hid
    exact hid
  | some r =>
    rw [hf] at hid
    obtain ⟨w, hw, hi, hsame⟩ := hid
    exact ⟨w, hw, hi.trans (he r (List.mem_of_find?_eq_some hf)), hsame⟩

theorem find?_wanted (published : List UpstreamRuntime) (wants : UpstreamRuntime → Bool)
    (identity : UpstreamRuntime → Fingerprint) (id : ResourceId) :
    (((published.filter wants).map fun r => Worker.mk (identity r) r).find? fun w => w.runtime.spec.id = id) =
      (published.find? fun r => decide (r.spec.id = id) && wants r).map fun r => ⟨identity r, r⟩ := by
  rw [List.find?_map, List.find?_filter]
  congr 1
  apply congrArg (fun p => List.find? p published)
  funext r
  rw [Bool.decide_and, Bool.and_comm]
  simp

/-- Workers follow a publication as long as equal identities mean the same objects. -/
theorem Tracks.follow {old new : List UpstreamRuntime} {wants : UpstreamRuntime → Bool}
    {identity identity' : UpstreamRuntime → Fingerprint} {workers : Map ResourceId Worker}
    (h : Tracks old wants identity workers) (hn : (new.map fun r => r.spec.id).Nodup)
    (hsame : ∀ r ∈ old, ∀ r' ∈ new, r.spec.id = r'.spec.id → wants r = true → wants r' = true →
      identity r = identity' r' → r.endpoints = r'.endpoints ∧ r.pool = r'.pool) :
    Tracks new wants identity' (Supervisor.follow workers ((new.filter wants).map fun r => ⟨identity' r, r⟩)) := by
  intro id
  have hn' : (((new.filter wants).map fun r => Worker.mk (identity' r) r).map fun w => w.runtime.spec.id).Nodup := by
    rw [List.map_map]
    exact (List.filter_sublist.map _).nodup hn
  rw [Supervisor.lookup_follow _ hn', find?_wanted]
  cases hf : new.find? fun r => decide (r.spec.id = id) && wants r with
  | none => rfl
  | some r' =>
    have hr' := List.find?_some hf
    simp only [Bool.and_eq_true, decide_eq_true_eq] at hr'
    refine ⟨_, rfl, ?_⟩
    have hid := h id
    have hl : (Worker.mk (identity' r') r').runtime.spec.id = id := hr'.1
    rw [Supervisor.settle, hl]
    cases ho : old.find? fun r => decide (r.spec.id = id) && wants r with
    | none =>
      rw [ho] at hid
      simp [hid]
    | some r =>
      rw [ho] at hid
      have hr := List.find?_some ho
      simp only [Bool.and_eq_true, decide_eq_true_eq] at hr
      obtain ⟨w, hw, hi, he, hp⟩ := hid
      rw [hw]
      by_cases hiw : w.identity = identity' r'
      · obtain ⟨hee, hpp⟩ := hsame r (List.mem_of_find?_eq_some ho) r' (List.mem_of_find?_eq_some hf)
          (hr.1.trans hr'.1.symm) hr.2 hr'.2 (hi.symm.trans hiw)
        simp [hiw, he, hp, hee, hpp]
      · simp [hiw]

/-! What the identities say. -/

/-- The stream behind a pool's compatibility. -/
def poolStream (blake3 : Digest) (u : Upstream) : Option Fingerprint → Hasher
  | none => transportStream blake3 u .new
  | some identity =>
    ((Hasher.new.updateStr "prepared-pool-tls-v1").updateFingerprint (transportHash blake3 u)).updateFingerprint identity

theorem poolCompatibility_eq (blake3 : Digest) (u : Upstream) (tls : Option Fingerprint) :
    poolCompatibility blake3 (transportHash blake3 u) tls = (poolStream blake3 u tls).finish blake3 := by
  cases tls <;> rfl

/-- Everything hashed for an upstream and the TLS client it loaded is in `D`. -/
structure WatchIn (blake3 : Digest) (D : Set (List UInt8)) (u : Upstream) (tls : Option Fingerprint) : Prop where
  transport : TransportIn blake3 D u
  pool : (poolStream blake3 u tls).written ∈ D
  probe : (Supervisor.probeStream blake3 u tls .new).written ∈ D
  resolver : (Supervisor.resolveStream blake3 u .new).written ∈ D

/-- The same names, looked up the same way. -/
structure SameNames (u v : Upstream) : Prop where
  resolve : u.resolve = v.resolve
  endpoints : (u.endpoints.map fun e => (e.id, e.target.describe)).Perm (v.endpoints.map fun e => (e.id, e.target.describe))

section
variable {blake3 : Digest} {D : Set (List UInt8)}

theorem endpoints_codes (hd : Apart blake3 D) :
    Codes (fun u : Upstream => ∀ e ∈ u.endpoints, (transportWrite e .new).written ∈ D)
      (fun u h => h.updateUnordered blake3 u.endpoints Supervisor.endpointWrite)
      fun u v => (u.endpoints.map fun e => (e.id, e.target.describe)).Perm
        (v.endpoints.map fun e => (e.id, e.target.describe)) := by
  have he : Codes (fun _ => True) Supervisor.endpointWrite
      fun a b : Gatel.Endpoint => (a.id, a.target.describe) = (b.id, b.target.describe) :=
    ((Codes.str.on fun e : Gatel.Endpoint => e.id).seq (Codes.str.on fun e : Gatel.Endpoint => e.target.describe)).imp
      (fun _ _ => ⟨trivial, trivial⟩) (fun _ _ _ _ h => Prod.ext h.1 h.2) fun _ _ h => Prod.mk.injEq .. ▸ h
  refine ((Codes.unordered hd he.ends).on fun u : Upstream => u.endpoints).imp ?_ ?_ ?_
  · intro u h
    simp only [true_and]
    exact h
  · intro u v _ _ h
    exact h.map_perm fun _ _ h => h
  · intro u v h
    exact Shuffled.of_map_perm h

theorem transportHash_congr (hd : Apart blake3 D) {u v : Upstream} (h : SameTransport u v) :
    transportHash blake3 u = transportHash blake3 v := by
  rw [transportHash_eq, transportHash_eq, (transportStream_codes hd).same u v .new h]

theorem sameNames_of_identity (hd : Apart blake3 D) {u v : Upstream} {tls tls' : Option Fingerprint}
    (hu : WatchIn blake3 D u tls) (hv : WatchIn blake3 D v tls')
    (h : (Supervisor.resolveStream blake3 u .new).finish blake3 = (Supervisor.resolveStream blake3 v .new).finish blake3) :
    SameNames u v := by
  have hw : (Supervisor.resolveStream blake3 u .new).written = (Supervisor.resolveStream blake3 v .new).written :=
    hd.inj hu.resolver hv.resolver h
  have hc := (Resolve.codes.on fun u : Upstream => u.resolve).seq (endpoints_codes hd)
  obtain ⟨hr, he⟩ := hc.ends.whole u v ⟨trivial, hu.transport.endpoints⟩ ⟨trivial, hv.transport.endpoints⟩ hw
    (hd.short _ hu.resolver)
  exact ⟨hr, he⟩

theorem probe_codes (hd : Apart blake3 D) :
    Codes (fun x : Upstream × Option Fingerprint => ∀ e ∈ x.1.endpoints, (transportWrite e .new).written ∈ D)
      (fun x => Supervisor.probeStream blake3 x.1 x.2) fun x y => SameTransport x.1 y.1 ∧ x.1.health = y.1.health ∧ x.2 = y.2 := by
  have hhealth := Codes.optionEq Health.codes fun p => ⟨1, p.head, by decide⟩
  have htls := Codes.optionEq UpstreamTls.codes fun t => ⟨1, t.head, by decide⟩
  have hclient := Codes.optionalBefore (t := 8) Codes.fingerprint htls (fun _ => rfl) (by
    intro o
    cases o with
    | none => exact ⟨7, rfl, by decide⟩
    | some t => exact ⟨1, t.head, by decide⟩)
  refine ((((hhealth.on fun x : Upstream × Option Fingerprint => x.1.health).seq
    (Codes.u64.on fun x : Upstream × Option Fingerprint => x.1.protocol.rank)).seq
    (hclient.on fun x : Upstream × Option Fingerprint => (x.2, x.1.tls))).seq
    ((endpoints_codes hd).on fun x : Upstream × Option Fingerprint => x.1)).imp ?_ ?_ ?_
  · intro x h
    simp only [true_and, implies_true, and_true]
    exact h
  · intro x y _ _ h
    obtain ⟨⟨⟨h1, h2⟩, h3, h4⟩, h5⟩ := h
    exact ⟨⟨h5, UpstreamProtocol.rank_inj h2, h4⟩, h1, optionRel_eq.mp h3⟩
  · intro x y h
    obtain ⟨hs, h1, h3⟩ := h
    exact ⟨⟨⟨h1, by rw [hs.protocol]⟩, optionRel_eq.mpr h3, hs.tls⟩, hs.endpoints⟩

theorem sameTransport_of_identity (hd : Apart blake3 D) {u v : Upstream} {tls tls' : Option Fingerprint}
    (hu : WatchIn blake3 D u tls) (hv : WatchIn blake3 D v tls')
    (h : (Supervisor.probeStream blake3 u tls .new).finish blake3 = (Supervisor.probeStream blake3 v tls' .new).finish blake3) :
    SameTransport u v ∧ tls = tls' := by
  have hw : (Supervisor.probeStream blake3 u tls .new).written = (Supervisor.probeStream blake3 v tls' .new).written :=
    hd.inj hu.probe hv.probe h
  obtain ⟨hs, _, ht⟩ := (probe_codes hd).ends.whole (u, tls) (v, tls') hu.transport.endpoints hv.transport.endpoints hw
    (hd.short _ hu.probe)
  exact ⟨hs, ht⟩

theorem tls_of_poolCompatibility (hd : Apart blake3 D) {u v : Upstream} {tls tls' : Option Fingerprint}
    (hu : WatchIn blake3 D u tls) (hv : WatchIn blake3 D v tls')
    (h : poolCompatibility blake3 (transportHash blake3 u) tls = poolCompatibility blake3 (transportHash blake3 v) tls') :
    tls = tls' := by
  rw [poolCompatibility_eq, poolCompatibility_eq] at h
  have hw : (poolStream blake3 u tls).written = (poolStream blake3 v tls').written := hd.inj hu.pool hv.pool h
  -- a transport starts with its endpoints, the prepared form with a text
  have hstart : ∀ w : Upstream, (transportStream blake3 w .new).written.head? = some 9 := by
    intro w
    have htls := Codes.optionEq UpstreamTls.codes fun t => ⟨1, t.head, by decide⟩
    rw [transportStream, htls.append]
    simp [Hasher.updateUnordered, Hasher.updateU64, Hasher.update, Hasher.new]
  cases tls with
  | none =>
    cases tls' with
    | none => rfl
    | some t' =>
      have hs := hstart u
      rw [show (transportStream blake3 u .new).written = _ from hw] at hs
      cases hs
  | some t =>
    cases tls' with
    | none =>
      have hs := hstart v
      rw [← show _ = (transportStream blake3 v .new).written from hw] at hs
      cases hs
    | some t' =>
      have hc := (Codes.str.on fun _ : Fingerprint × Fingerprint => "prepared-pool-tls-v1").seq
        ((Codes.fingerprint.on Prod.fst).seq (Codes.fingerprint.on Prod.snd))
      obtain ⟨_, _, ht⟩ := hc.ends.whole (transportHash blake3 u, t) (transportHash blake3 v, t')
        ⟨trivial, trivial, trivial⟩ ⟨trivial, trivial, trivial⟩ hw (hd.short _ hu.pool)
      rw [show t = t' from ht]

/-- Every registered pool has the TLS client its compatibility was computed with. -/
def PoolsKept (blake3 : Digest) (D : Set (List UInt8)) (σ : Stage) : Prop :=
  ∀ id slot, σ.slots.lookup (id, .pool) = some slot → ∃ u tls, WatchIn blake3 D u tls ∧
    slot.compatibility = poolCompatibility blake3 (transportHash blake3 u) tls ∧
    σ.heap.pools[slot.value]?.map ConnectionPool.tls = some tls

/-- A runtime whose objects are the registered ones. -/
structure Registered (blake3 : Digest) (r : UpstreamRuntime) (tls : Option Fingerprint) (σ : Stage) : Prop where
  setSlot : σ.slots.lookup (r.spec.id, .endpoints) = some ⟨transportHash blake3 r.spec, r.endpoints⟩
  poolSlot : σ.slots.lookup (r.spec.id, .pool) =
    some ⟨poolCompatibility blake3 (transportHash blake3 r.spec) tls, r.pool⟩
  client : σ.heap.pools[r.pool]?.map ConnectionPool.tls = some tls

/-- A runtime resolved against `σ` that took over what was compatible there. -/
structure Attached (blake3 : Digest) (files : TlsFiles) (σ : Stage) (r : UpstreamRuntime) (tls : Option Fingerprint)
    (σ' : Stage) : Prop extends Registered blake3 r tls σ' where
  loaded : clientTls files r.spec = .ok tls
  keepsSet : ∀ value, σ.slots.lookup (r.spec.id, .endpoints) = some ⟨transportHash blake3 r.spec, value⟩ →
    r.endpoints = value
  keepsPool : ∀ value, σ.slots.lookup (r.spec.id, .pool) =
    some ⟨poolCompatibility blake3 (transportHash blake3 r.spec) tls, value⟩ → r.pool = value

theorem map_getElem?_of_start {α β : Type} {l m : List α} (h : l <+: m) {f : α → β} {i : Nat} {b : β}
    (hi : l[i]?.map f = some b) : m[i]?.map f = some b := by
  obtain ⟨a, ha, rfl⟩ := Option.map_eq_some_iff.mp hi
  rw [getElem?_of_start h ha]
  rfl

theorem Bound.client (hd : Apart blake3 D) {σ σ' : Stage} (hk : PoolsKept blake3 D σ) {u : Upstream}
    {tls : Option Fingerprint} {r : UpstreamRuntime} (hb : Bound blake3 σ u tls r σ') (hu : WatchIn blake3 D u tls) :
    σ'.heap.pools[r.pool]?.map ConnectionPool.tls = some tls := by
  obtain ⟨hold, hpools⟩ | ⟨hfresh, hpools⟩ := hb.pools
  · obtain ⟨w, t, hw, hc, ht⟩ := hk _ _ hold
    rw [hpools, ht, tls_of_poolCompatibility hd hu hw hc]
  · rw [hpools, hfresh]
    simp

theorem PoolsKept.bound (hd : Apart blake3 D) {σ σ' : Stage} (hk : PoolsKept blake3 D σ) {u : Upstream}
    {tls : Option Fingerprint} {r : UpstreamRuntime} (hb : Bound blake3 σ u tls r σ') (hu : WatchIn blake3 D u tls) :
    PoolsKept blake3 D σ' := by
  intro id slot hs
  by_cases hid : id = u.id
  · subst hid
    obtain rfl := Option.some.inj (hb.poolSlot.symm.trans hs)
    exact ⟨u, tls, hu, rfl, hb.client hd hk hu⟩
  · rw [hb.others _ hid] at hs
    obtain ⟨w, t, hw, hc, ht⟩ := hk id slot hs
    exact ⟨w, t, hw, hc, map_getElem?_of_start hb.grows.pools ht⟩

theorem prepare_attached (hd : Apart blake3 D) {plan : Plan} (files : TlsFiles) (us : List Upstream)
    (hbinds : ∀ u ∈ us, Plan.Binds blake3 plan u) (hids : (us.map Upstream.id).Nodup)
    (hus : ∀ u ∈ us, ∀ tls, clientTls files u = .ok tls → WatchIn blake3 D u tls) {σ : Stage}
    (hk : PoolsKept blake3 D σ) :
    PoolsKept blake3 D (σ.prepare blake3 plan files us).1 ∧
      (∀ key, (∀ u ∈ us, key.1 ≠ u.id) → (σ.prepare blake3 plan files us).1.slots.lookup key = σ.slots.lookup key) ∧
      ∀ runtimes, (σ.prepare blake3 plan files us).2 = .ok runtimes → (runtimes.map fun x => x.1.spec) = us ∧
        ∀ x ∈ runtimes, ∃ tls, Attached blake3 files σ x.1 tls (σ.prepare blake3 plan files us).1 := by
  induction us generalizing σ with
  | nil =>
    refine ⟨hk, fun _ _ => rfl, ?_⟩
    intro runtimes h
    cases h
    exact ⟨by simp, fun _ hx => by cases hx⟩
  | cons u us ih =>
    obtain ⟨hnot, hids⟩ := List.nodup_cons.mp hids
    have hu := List.mem_cons_self (a := u) (l := us)
    have htail : ∀ {v}, v ∈ us → v ∈ u :: us := List.mem_cons_of_mem u
    obtain ⟨error, htls, hbind⟩ | ⟨tls, r, resolution, σ', htls, hbind, hbound⟩ :=
      bindUpstream_cases (hbinds u hu) files σ
    · simp only [Stage.prepare, hbind]
      exact ⟨hk, fun _ _ => trivial, fun _ h => (by cases h)⟩
    · have hne : ∀ v ∈ us, v.id ≠ u.id := fun v hv he => hnot (he ▸ List.mem_map_of_mem hv)
      have hwatch := hus u hu tls htls
      have hg := (prepare_outcome files us (fun v hv => hbinds v (htail hv)) σ').1
      obtain ⟨hkept, hothers, hdone⟩ := ih (fun v hv => hbinds v (htail hv)) hids (fun v hv => hus v (htail hv))
        (hk.bound hd hbound hwatch)
      simp only [Stage.prepare, hbind]
      generalize σ'.prepare blake3 plan files us = out at hkept hothers hdone hg
      obtain ⟨σ'', rest⟩ := out
      refine ⟨hkept, ?_, ?_⟩
      · intro key hkey
        rw [← hbound.others key (hkey u hu)]
        exact hothers key fun v hv => hkey v (htail hv)
      · intro runtimes h
        cases rest with
        | error error => cases h
        | ok tail =>
          cases h
          obtain ⟨hspecs, hall⟩ := hdone tail rfl
          refine ⟨by simp [hspecs, hbound.spec], ?_⟩
          intro x hx
          obtain rfl | hx := List.mem_cons.mp hx
          · obtain rfl := hbound.spec
            have hkeep : ∀ kind, σ''.slots.lookup (r.spec.id, kind) = σ'.slots.lookup (r.spec.id, kind) :=
              fun kind => hothers (r.spec.id, kind) fun v hv => Ne.symm (hne v hv)
            exact ⟨tls, ⟨(hkeep _).trans hbound.setSlot, (hkeep _).trans hbound.poolSlot,
              map_getElem?_of_start hg.pools (hbound.client hd hk hwatch)⟩, htls, hbound.keepsSet, hbound.keepsPool⟩
          · obtain ⟨t, ht⟩ := hall x hx
            have hmem : x.1.spec ∈ us := by
              rw [← hspecs]
              exact List.mem_map_of_mem hx
            have hold : ∀ kind, σ'.slots.lookup (x.1.spec.id, kind) = σ.slots.lookup (x.1.spec.id, kind) :=
              fun kind => hbound.others (x.1.spec.id, kind) (hne _ hmem)
            refine ⟨t, ht.toRegistered, ht.loaded, ?_, ?_⟩
            · rw [← hold]
              exact ht.keepsSet
            · rw [← hold]
              exact ht.keepsPool

end

/-! Runs of publications. -/

/-- The TLS client an upstream gets from its files. -/
def loadedTls (files : TlsFiles) (u : Upstream) : Option Fingerprint :=
  match clientTls files u with
  | .ok tls => tls
  | .error _ => none

namespace Event

/-- The upstreams a publication serves, each with the TLS client it loaded. -/
@[grind =] def served? : Event → Option (List (Upstream × Option Fingerprint))
  | .load (.resolve plan files) | .load (.publish plan files) =>
    if Load.loads plan files then some (plan.upstreams.map fun u => (u, loadedTls files u)) else none
  | .load (.abandon ..) | .load (.traffic ..) | .shutdown => none

/-- Plans compiled from accepted specs, and whatever is resolved in place is published. -/
def Allowed (fe : Frontend) (D : Set (List UInt8)) : Event → Prop
  | .load l =>
    (∀ plan, l.plan? = some plan → Compiled fe D plan) ∧
    (∀ plan files, l = .resolve plan files ∨ l = .publish plan files →
      ∀ u ∈ plan.upstreams, ∀ tls, clientTls files u = .ok tls → WatchIn fe.blake3 D u tls) ∧
    ∀ plan files, l = .resolve plan files → Load.loads plan files = true
  | .shutdown => True

end Event

/-- What was published last. -/
def serving (events : List Event) : List (Upstream × Option Fingerprint) :=
  events.foldl (fun us e => e.served?.getD us) []

/-- No publication that keeps the names of an upstream and how they are looked up changes
its protocol, its TLS settings or its TLS client. -/
def Settled (events : List Event) : Prop :=
  ∀ before e after, events = before ++ e :: after → ∀ x ∈ serving before, ∀ y ∈ e.served?.getD [],
    x.1.id = y.1.id → Upstream.hasNames x.1 = true → Upstream.hasNames y.1 = true → SameNames x.1 y.1 →
      x.1.protocol = y.1.protocol ∧ x.1.tls = y.1.tls ∧ x.2 = y.2

theorem serving_concat (events : List Event) (e : Event) : serving (events ++ [e]) = e.served?.getD (serving events) := by
  simp [serving]

namespace Supervised

/-- Registry, runtimes and workers in step. -/
structure Consistent (blake3 : Digest) (D : Set (List UInt8)) (events : List Event) (w : Supervised) : Prop where
  pools : PoolsKept blake3 D w.host.stage
  registered : ∀ r ∈ w.host.published, ∃ tls, Registered blake3 r tls w.host.stage ∧ WatchIn blake3 D r.spec tls ∧
    (r.spec, tls) ∈ serving events
  ids : (w.host.published.map fun r => r.spec.id).Nodup
  probes : w.supervisor.closed = false →
    Tracks w.host.published (fun r => r.spec.health.isSome) (Supervisor.workerIdentity blake3 w.host.stage.heap)
      w.supervisor.workers
  resolvers : w.supervisor.closed = false →
    Tracks w.host.published (fun r => Upstream.hasNames r.spec) (Supervisor.resolverIdentity blake3) w.supervisor.resolvers
  stopped : w.supervisor.closed = true → w.supervisor.workers = ∅ ∧ w.supervisor.resolvers = ∅

end Supervised

section
variable {blake3 : Digest} {D : Set (List UInt8)}

theorem PoolsKept.heap {σ : Stage} (h : PoolsKept blake3 D σ) {heap : Heap}
    (hg : ∀ (i : Nat) tls, σ.heap.pools[i]?.map ConnectionPool.tls = some tls → heap.pools[i]?.map ConnectionPool.tls = some tls) :
    PoolsKept blake3 D { σ with heap := heap } := by
  intro id slot hs
  obtain ⟨u, tls, hu, hc, ht⟩ := h id slot hs
  exact ⟨u, tls, hu, hc, hg _ _ ht⟩

theorem Registered.heap {r : UpstreamRuntime} {tls : Option Fingerprint} {σ : Stage} (h : Registered blake3 r tls σ)
    {heap : Heap}
    (hg : ∀ (i : Nat) tls, σ.heap.pools[i]?.map ConnectionPool.tls = some tls → heap.pools[i]?.map ConnectionPool.tls = some tls) :
    Registered blake3 r tls { σ with heap := heap } := ⟨h.setSlot, h.poolSlot, hg _ _ h.client⟩

theorem adoptPolicies_tls (runtimes : List UpstreamRuntime) (heap : Heap) (i : Nat) :
    (heap.adoptPolicies runtimes).pools[i]?.map ConnectionPool.tls = heap.pools[i]?.map ConnectionPool.tls := by
  induction runtimes generalizing heap with
  | nil => rfl
  | cons r rs ih =>
    refine (ih (heap.adopt r)).trans ?_
    simp only [Heap.adopt, List.getElem?_modify]
    cases heap.pools[i]? with
    | none => rfl
    | some p =>
      by_cases h : r.pool = i
      · simp [h]
      · simp [h]

theorem workerIdentity_eq {r : UpstreamRuntime} {tls : Option Fingerprint} {heap : Heap}
    (h : heap.pools[r.pool]?.map ConnectionPool.tls = some tls) :
    Supervisor.workerIdentity blake3 heap r = (Supervisor.probeStream blake3 r.spec tls .new).finish blake3 := by
  obtain ⟨pool, hp, rfl⟩ := Option.map_eq_some_iff.mp h
  simp [Supervisor.workerIdentity, hp]

/-- An upstream whose transport and TLS client are unchanged keeps its objects. -/
theorem Attached.same (hd : Apart blake3 D) {files : TlsFiles} {σ σ' : Stage} {r r' : UpstreamRuntime}
    {tls tls' : Option Fingerprint} (ha : Attached blake3 files σ r' tls' σ') (hr : Registered blake3 r tls σ)
    (hid : r.spec.id = r'.spec.id) (hs : SameTransport r.spec r'.spec) (ht : tls = tls') :
    r.endpoints = r'.endpoints ∧ r.pool = r'.pool := by
  have hhash := transportHash_congr hd hs
  have hset := hr.setSlot
  have hpool := hr.poolSlot
  rw [hid, hhash] at hset
  rw [hid, hhash, ht] at hpool
  exact ⟨(ha.keepsSet _ hset).symm, (ha.keepsPool _ hpool).symm⟩

namespace Supervised

/-- A publication and the reconciliation after it. -/
theorem publish_consistent (hd : Apart blake3 D) {events : List Event} {w : Supervised}
    (hi : Consistent blake3 D events w) {plan : Plan} {files : TlsFiles} (hids : (plan.upstreams.map Upstream.id).Nodup)
    (hus : ∀ u ∈ plan.upstreams, ∀ tls, clientTls files u = .ok tls → WatchIn blake3 D u tls) {σ' : Stage}
    {runtimes : List (UpstreamRuntime × UpstreamResolution)} (hk : PoolsKept blake3 D σ')
    (hspecs : (runtimes.map fun x => x.1.spec) = plan.upstreams)
    (hall : ∀ x ∈ runtimes, ∃ tls, Attached blake3 files w.host.stage x.1 tls σ') {e : Event}
    (hserved : e.served? = some (plan.upstreams.map fun u => (u, loadedTls files u)))
    (hsettled : ∀ x ∈ serving events, ∀ y ∈ plan.upstreams.map fun u => (u, loadedTls files u),
      x.1.id = y.1.id → Upstream.hasNames x.1 = true → Upstream.hasNames y.1 = true → SameNames x.1 y.1 →
        x.1.protocol = y.1.protocol ∧ x.1.tls = y.1.tls ∧ x.2 = y.2) (published : List UpstreamRuntime) :
    Consistent blake3 D (events ++ [e])
      ⟨Host.serve ⟨σ', published⟩ runtimes,
        w.supervisor.reconcile blake3 (Host.serve ⟨σ', published⟩ runtimes).stage.heap
          (Host.serve ⟨σ', published⟩ runtimes).published⟩ := by
  have hspecs : (runtimes.map Prod.fst).map UpstreamRuntime.spec = plan.upstreams := by
    simpa [Function.comp_def] using hspecs
  have hall : ∀ r ∈ runtimes.map Prod.fst, ∃ tls, Attached blake3 files w.host.stage r tls σ' := by
    intro r hr
    obtain ⟨x, hx, rfl⟩ := List.mem_map.mp hr
    exact hall x hx
  have hserving : serving (events ++ [e]) = plan.upstreams.map fun u => (u, loadedTls files u) := by
    rw [serving_concat, hserved]
    rfl
  simp only [Host.serve]
  generalize runtimes.map Prod.fst = rs at hspecs hall
  have hadopt : ∀ (i : Nat) tls, σ'.heap.pools[i]?.map ConnectionPool.tls = some tls →
      (σ'.heap.adoptPolicies rs).pools[i]?.map ConnectionPool.tls = some tls :=
    fun i tls h => (adoptPolicies_tls rs σ'.heap i).trans h
  have hn : (rs.map fun r => r.spec.id).Nodup := by
    rw [← hspecs, List.map_map] at hids
    exact hids
  have hwatch : ∀ {r tls}, r ∈ rs → clientTls files r.spec = .ok tls → WatchIn blake3 D r.spec tls := by
    intro r tls hr hl
    refine hus _ ?_ tls hl
    rw [← hspecs]
    exact List.mem_map_of_mem hr
  have hmem : ∀ {r tls}, r ∈ rs → clientTls files r.spec = .ok tls →
      (r.spec, tls) ∈ plan.upstreams.map fun u => (u, loadedTls files u) := by
    intro r tls hr hl
    refine List.mem_map.mpr ⟨r.spec, ?_, by rw [loadedTls, hl]⟩
    rw [← hspecs]
    exact List.mem_map_of_mem hr
  refine ⟨hk.heap hadopt, ?_, hn, ?_, ?_, ?_⟩
  · intro r hr
    obtain ⟨tls, ha⟩ := hall r hr
    refine ⟨tls, ha.toRegistered.heap hadopt, hwatch hr ha.loaded, ?_⟩
    rw [hserving]
    exact hmem hr ha.loaded
  · intro hopen
    have hopen : w.supervisor.closed = false := by
      revert hopen
      cases hc : w.supervisor.closed <;> simp [Supervisor.reconcile, hc]
    simp only [Supervisor.reconcile, hopen]
    refine (hi.probes hopen).follow hn ?_
    intro r hr r' hr' hid _ _ hident
    obtain ⟨tls, hreg, hw, _⟩ := hi.registered r hr
    obtain ⟨tls', ha⟩ := hall r' hr'
    rw [workerIdentity_eq hreg.client, workerIdentity_eq (hadopt _ _ ha.client)] at hident
    obtain ⟨hs, ht⟩ := sameTransport_of_identity hd hw (hwatch hr' ha.loaded) hident
    exact ha.same hd hreg hid hs ht
  · intro hopen
    have hopen : w.supervisor.closed = false := by
      revert hopen
      cases hc : w.supervisor.closed <;> simp [Supervisor.reconcile, hc]
    simp only [Supervisor.reconcile, hopen]
    refine (hi.resolvers hopen).follow hn ?_
    intro r hr r' hr' hid hnames hnames' hident
    obtain ⟨tls, hreg, hw, hmemr⟩ := hi.registered r hr
    obtain ⟨tls', ha⟩ := hall r' hr'
    have hsame := sameNames_of_identity hd hw (hwatch hr' ha.loaded) hident
    obtain ⟨hp, htls, ht⟩ := hsettled _ hmemr _ (hmem hr' ha.loaded) hid hnames hnames' hsame
    exact ha.same hd hreg hid ⟨hsame.endpoints, hp, htls⟩ ht
  · intro hclosed
    cases hc : w.supervisor.closed with
    | true =>
      simp only [Supervisor.reconcile, hc, if_true]
      exact hi.stopped hc
    | false => simp [Supervisor.reconcile, hc] at hclosed

/-- A load that publishes nothing: objects may be added, none is replaced. -/
theorem idle_consistent {events : List Event} {w : Supervised} (hi : Consistent blake3 D events w) {heap : Heap}
    (hg : w.host.stage.heap.pools <+: heap.pools) {e : Event} (hserved : e.served? = none) :
    Consistent blake3 D (events ++ [e]) { w with host.stage.heap := heap } := by
  have hgrow : ∀ (i : Nat) tls, w.host.stage.heap.pools[i]?.map ConnectionPool.tls = some tls →
      heap.pools[i]?.map ConnectionPool.tls = some tls := fun i tls h => map_getElem?_of_start hg h
  have hserving : serving (events ++ [e]) = serving events := by
    rw [serving_concat, hserved]
    rfl
  refine ⟨hi.pools.heap hgrow, ?_, hi.ids, ?_, hi.resolvers, hi.stopped⟩
  · intro r hr
    obtain ⟨tls, hreg, hw, hmem⟩ := hi.registered r hr
    exact ⟨tls, hreg.heap hgrow, hw, hserving ▸ hmem⟩
  · intro hopen
    refine (hi.probes hopen).congr ?_
    intro r hr
    obtain ⟨tls, hreg, _, _⟩ := hi.registered r hr
    rw [workerIdentity_eq hreg.client, workerIdentity_eq (hgrow _ _ hreg.client)]

end Supervised

end

namespace Supervised
variable {fe : Frontend} {D : Set (List UInt8)}

theorem step_consistent (hd : Apart fe.blake3 D) {events : List Event} {w : Supervised}
    (hi : Consistent fe.blake3 D events w) (e : Event) (ha : e.Allowed fe D)
    (hs : ∀ x ∈ serving events, ∀ y ∈ e.served?.getD [], x.1.id = y.1.id → Upstream.hasNames x.1 = true →
      Upstream.hasNames y.1 = true → SameNames x.1 y.1 → x.1.protocol = y.1.protocol ∧ x.1.tls = y.1.tls ∧ x.2 = y.2) :
    Consistent fe.blake3 D (events ++ [e]) (w.step fe.blake3 e) := by
  cases e with
  | shutdown =>
    refine ⟨hi.pools, ?_, hi.ids, fun h => (by cases h), fun h => (by cases h), fun _ => ⟨rfl, rfl⟩⟩
    rw [serving_concat]
    exact hi.registered
  | load load =>
    obtain ⟨hcomp, hwatch, hpub⟩ := ha
    cases load with
    | resolve plan files =>
      have hc := hcomp plan rfl
      have hloads := hpub plan files rfl
      have hok := (prepare_outcome files plan.upstreams hc.binds w.host.stage).2.mpr (loads_iff.mp hloads)
      obtain ⟨hk, _, hdone⟩ := prepare_attached hd files plan.upstreams hc.binds hc.ids (hwatch plan files (.inl rfl)) hi.pools
      simp only [Event.served?, if_pos hloads] at hs
      simp only [step, Host.step, Load.published?, if_pos hloads]
      generalize w.host.stage.prepare fe.blake3 plan files plan.upstreams = out at hok hk hdone
      obtain ⟨σ', result⟩ := out
      cases result with
      | error error => cases hok
      | ok runtimes =>
        obtain ⟨hspecs, hall⟩ := hdone runtimes rfl
        exact publish_consistent hd hi hc.ids (hwatch plan files (.inl rfl)) hk hspecs hall
          (by simp [Event.served?, hloads]) hs w.host.published
    | publish plan files =>
      have hc := hcomp plan rfl
      have hout := prepare_outcome files plan.upstreams hc.binds w.host.stage
      obtain ⟨hk, _, hdone⟩ := prepare_attached hd files plan.upstreams hc.binds hc.ids (hwatch plan files (.inr rfl)) hi.pools
      simp only [Event.served?] at hs
      simp only [step, Host.step, Load.published?]
      generalize w.host.stage.prepare fe.blake3 plan files plan.upstreams = out at hout hk hdone
      obtain ⟨σ', result⟩ := out
      cases result with
      | error error =>
        have hloads : ¬ Load.loads plan files = true := fun h => by cases hout.2.mpr (loads_iff.mp h)
        simp only [if_neg hloads]
        exact idle_consistent hi hout.1.pools (by simp [Event.served?, hloads])
      | ok runtimes =>
        have hloads : Load.loads plan files = true := loads_iff.mpr (hout.2.mp rfl)
        simp only [if_pos hloads] at hs ⊢
        obtain ⟨hspecs, hall⟩ := hdone runtimes rfl
        exact publish_consistent hd hi hc.ids (hwatch plan files (.inr rfl)) hk hspecs hall
          (by simp [Event.served?, hloads]) hs w.host.published
    | abandon plan files =>
      have hg := (prepare_outcome files plan.upstreams (hcomp plan rfl).binds w.host.stage).1
      exact idle_consistent hi hg.pools rfl
    | traffic set call =>
      have hg : w.host.stage.heap.pools <+: { w.host.stage.heap with
          sets := w.host.stage.heap.sets.modify set fun s => s.step call }.pools := List.prefix_rfl
      exact idle_consistent (e := .load (.traffic set call)) hi hg rfl

theorem run_consistent (hd : Apart fe.blake3 D) (events : List Event) (ha : ∀ e ∈ events, e.Allowed fe D)
    (hs : Settled events) : Consistent fe.blake3 D events (run (step fe.blake3) start events) := by
  induction events using List.reverseRecOn with
  | nil =>
    refine ⟨?_, ?_, List.nodup_nil, fun _ id => rfl, fun _ id => rfl, fun h => by cases h⟩
    · intro id slot h
      cases h
    · intro r hr
      cases hr
  | append_singleton events e ih =>
    rw [run_append]
    refine step_consistent hd (ih (fun x hx => ha x (List.mem_append_left _ hx)) ?_) e (ha e (by simp)) ?_
    · intro before x after he
      exact hs before x (after ++ [e]) (by rw [he]; simp)
    · exact hs events e [] rfl

theorem closed_iff (blake3 : Digest) (events : List Event) :
    (run (step blake3) start events).supervisor.closed = true ↔ .shutdown ∈ events := by
  induction events using List.reverseRecOn with
  | nil => simp [start]
  | append_singleton events e ih =>
    rw [run_append, List.mem_append, ← ih]
    generalize run (step blake3) start events = w
    cases e with
    | shutdown => simp [step, Supervisor.shutdown]
    | load load =>
      have hkeep : (w.step blake3 (.load load)).supervisor.closed = w.supervisor.closed := by
        simp only [step, Supervisor.reconcile]
        split
        · split
          · rfl
          · rfl
        · rfl
      simp [hkeep]

/-- As long as no publication changes the protocol or the TLS of an upstream whose names it
keeps, every worker acts on what is published; after shutdown there is none. -/
theorem workers_attend (fe : Frontend) (D : Set (List UInt8)) (hd : Apart fe.blake3 D) (events : List Event)
    (ha : ∀ e ∈ events, e.Allowed fe D) (hs : Settled events) :
    ∀ before, before <+: events →
      (.shutdown ∉ before →
        Attends (run (step fe.blake3) start before).host.published (fun r => r.spec.health.isSome)
          (run (step fe.blake3) start before).supervisor.workers ∧
        Attends (run (step fe.blake3) start before).host.published (fun r => Upstream.hasNames r.spec)
          (run (step fe.blake3) start before).supervisor.resolvers) ∧
      (.shutdown ∈ before → (run (step fe.blake3) start before).supervisor.workers = ∅ ∧
        (run (step fe.blake3) start before).supervisor.resolvers = ∅) := by
  intro before hb
  obtain ⟨after, rfl⟩ := hb
  have hsettled : Settled before := by
    intro b e a he
    exact hs b e (a ++ after) (by rw [he]; simp)
  have hi := run_consistent hd before (fun e he => ha e (List.mem_append_left _ he)) hsettled
  refine ⟨?_, fun h => hi.stopped ((closed_iff _ _).mpr h)⟩
  intro hopen
  have hclosed : (run (step fe.blake3) start before).supervisor.closed = false := by
    rw [Bool.eq_false_iff]
    exact fun h => hopen ((closed_iff _ _).mp h)
  exact ⟨(hi.probes hclosed).attends, (hi.resolvers hclosed).attends⟩

end Supervised

/-! One backend behind a name, spoken to in either protocol. -/

namespace Sample
open Frontend.Sample

def namedBackend (protocol : UpstreamProtocol) : Upstream := { backend (.name "unix" 80) with protocol := protocol }

def watchTable : List (List UInt8 × Fingerprint) :=
  let endpoint := digest 0x23f49b64770e0587b5ff48d37f322d4d57a0720f82219f36ff2f7f56f21d66f7
  [(words ["unix:80", "unix:80"], endpoint),
    ((transportStream (fun _ => endpoint) (namedBackend .http1) .new).written,
      digest 0x44feadebfe57c5290af97db92adc14a9060293a21826e6e890fe11bc6850f761),
    ((transportStream (fun _ => endpoint) (namedBackend .http2) .new).written,
      digest 0xdf6ba18b76774741c8d25efd8c61e162467b1629739d896ad09e9af0cf49f8d7),
    ((Supervisor.probeStream (fun _ => endpoint) (namedBackend .http1) none .new).written,
      digest 0x94a0453ee8d904abdcc0715bffeb303374557d030102343c99249d0befffc8f6),
    ((Supervisor.probeStream (fun _ => endpoint) (namedBackend .http2) none .new).written,
      digest 0xf47adbf13898134e53b5a015e682b11009e3baf314078e6024253b549341541d),
    ((Supervisor.resolveStream (fun _ => endpoint) (namedBackend .http1) .new).written,
      digest 0x646e06fa0b85af715f508f06607365bc0165db8516fcaedfbe0bae5d70d2da7d)]

def namedFe : Frontend := frontend (digestsOf (watchTable ++ flat))

def watched : Set (List UInt8) := {w | w ∈ watchTable.map Prod.fst}

/-- The backend with what its block says beside the endpoint, and the site in front of it. -/
def namedNodes (children : List Node) : List Node :=
  [globalNode, node "upstream" ["backend"] (node "endpoint" ["UNIX:80"] [] :: children),
    node "site" ["example.com"] [node "route" ["/"] [proxyNode]]]

def namedPlan (protocol : UpstreamProtocol) : Plan :=
  compile namedFe.blake3 ⟨.default, [listener], [site], [namedBackend protocol]⟩ namedFe.registry

def WatchedStreams (p : UpstreamProtocol) : Prop :=
  (transportStream namedFe.blake3 (namedBackend p) .new).written ∈ watchTable.map Prod.fst ∧
    (Supervisor.probeStream namedFe.blake3 (namedBackend p) none .new).written ∈ watchTable.map Prod.fst ∧
    (Supervisor.resolveStream namedFe.blake3 (namedBackend p) .new).written ∈ watchTable.map Prod.fst

instance (p : UpstreamProtocol) : Decidable (WatchedStreams p) := inferInstanceAs (Decidable (_ ∧ _ ∧ _))

theorem watched_evaluated : ((watchTable ++ flat).map Prod.snd).Nodup ∧
    (∀ x ∈ watchTable.map Prod.fst, x.length < 2 ^ 64) ∧ WatchedStreams .http1 ∧ WatchedStreams .http2 := by
  decide

theorem watchApart : Apart namedFe.blake3 watched := by
  have hmem : ∀ x ∈ watchTable.map Prod.fst, x ∈ (watchTable ++ flat).map Prod.fst := by
    intro x hx
    rw [List.map_append]
    exact List.mem_append_left _ hx
  exact ⟨fun x hx y hy => lookup_inj watched_evaluated.1 x (hmem x hx) y (hmem y hy), watched_evaluated.2.1⟩

theorem named_watchIn (protocol : UpstreamProtocol) : WatchIn namedFe.blake3 watched (namedBackend protocol) none := by
  have hendpoint : words ["unix:80", "unix:80"] ∈ watchTable.map Prod.fst := List.mem_cons_self
  have hstreams : ∀ p : UpstreamProtocol, WatchedStreams p := by
    intro p
    cases p with
    | http1 => exact watched_evaluated.2.2.1
    | http2 => exact watched_evaluated.2.2.2
  obtain ⟨ht, hp, hr⟩ := hstreams protocol
  refine ⟨⟨?_, ht⟩, ht, hp, hr⟩
  intro e he
  obtain rfl := List.mem_singleton.mp he
  exact hendpoint

theorem named_normalized :
    (normalize namedFe (snapshot (namedNodes []))).toOption = some ⟨.default, [listener], [site], [namedBackend .http1]⟩ ∧
      (normalize namedFe (snapshot (namedNodes [node "protocol" ["http2"] []]))).toOption =
        some ⟨.default, [listener], [site], [namedBackend .http2]⟩ := by decide +kernel

theorem named_compiled (protocol : UpstreamProtocol) : Compiled namedFe watched (namedPlan protocol) := by
  have hnodes : ∀ p : UpstreamProtocol, ∃ children,
      (normalize namedFe (snapshot (namedNodes children))).toOption =
        some ⟨.default, [listener], [site], [namedBackend p]⟩ := by
    intro p
    cases p with
    | http1 => exact ⟨[], named_normalized.1⟩
    | http2 => exact ⟨[node "protocol" ["http2"] []], named_normalized.2⟩
  obtain ⟨children, h⟩ := hnodes protocol
  refine ⟨_, _, ok_of_toOption h, rfl, ?_⟩
  intro u hu
  obtain rfl := List.mem_singleton.mp hu
  exact (named_watchIn protocol).transport

theorem named_allowed (protocol : UpstreamProtocol) :
    (Event.load (.publish (namedPlan protocol) noFiles)).Allowed namedFe watched := by
  refine ⟨?_, ?_, ?_⟩
  · intro plan hp
    cases hp
    exact named_compiled protocol
  · intro plan files h u hu tls htls
    obtain h | h := h
    · cases h
    · cases h
      obtain rfl := List.mem_singleton.mp hu
      cases htls
      exact named_watchIn protocol
  · intro plan files h
    cases h

end Sample

open Sample in
/-- A reload of the same file keeps the resolver on the serving objects. -/
theorem workers_attend_reloaded :
    Supervised.Attends
      (run (Supervised.step namedFe.blake3) .start
        [.load (.publish (namedPlan .http1) noFiles), .load (.publish (namedPlan .http1) noFiles)]).host.published
      (fun r => Upstream.hasNames r.spec)
      (run (Supervised.step namedFe.blake3) .start
        [.load (.publish (namedPlan .http1) noFiles), .load (.publish (namedPlan .http1) noFiles)]).supervisor.resolvers := by
  refine ((Supervised.workers_attend namedFe watched watchApart
    [.load (.publish (namedPlan .http1) noFiles), .load (.publish (namedPlan .http1) noFiles)] ?_ ?_ _
    List.prefix_rfl).1 (by simp)).2
  · intro e he
    simp only [List.mem_cons, List.not_mem_nil, or_false, or_self] at he
    subst he
    exact named_allowed .http1
  · intro before e after he x hx y hy _ _ _ _
    have hpub : ∀ e' ∈ before ++ e :: after, e'.served? = some [(namedBackend .http1, none)] := by
      intro e' h
      rw [← he] at h
      simp only [List.mem_cons, List.not_mem_nil, or_false, or_self] at h
      subst h
      rfl
    have hserving : ∀ l : List Event, (∀ e' ∈ l, e'.served? = some [(namedBackend .http1, none)]) →
        ∀ z ∈ serving l, z = (namedBackend .http1, none) := by
      intro l hl z hz
      induction l using List.reverseRecOn with
      | nil => cases hz
      | append_singleton l e' _ =>
        rw [serving_concat, hl e' (by simp)] at hz
        exact List.mem_singleton.mp hz
    rw [hpub e (by simp)] at hy
    obtain rfl := List.mem_singleton.mp hy
    obtain rfl := hserving before (fun e' h => hpub e' (List.mem_append_left _ h)) x hx
    exact ⟨rfl, rfl, rfl⟩

open Sample in
/-- A reload that only changes the protocol leaves the resolver on the set and the pool that
were replaced. -/
theorem resolver_left_behind :
    Apart namedFe.blake3 watched ∧
      (∀ e ∈ ([.load (.publish (namedPlan .http1) noFiles), .load (.publish (namedPlan .http2) noFiles)] : List Event),
        e.Allowed namedFe watched) ∧
      ¬ Supervised.Attends
        (run (Supervised.step namedFe.blake3) .start
          [.load (.publish (namedPlan .http1) noFiles), .load (.publish (namedPlan .http2) noFiles)]).host.published
        (fun r => Upstream.hasNames r.spec)
        (run (Supervised.step namedFe.blake3) .start
          [.load (.publish (namedPlan .http1) noFiles), .load (.publish (namedPlan .http2) noFiles)]).supervisor.resolvers := by
  refine ⟨watchApart, ?_, ?_⟩
  · intro e he
    simp only [List.mem_cons, List.not_mem_nil, or_false] at he
    obtain rfl | rfl := he
    · exact named_allowed .http1
    · exact named_allowed .http2
  · intro h
    have hid := h ⟨.upstream, "backend"⟩
    revert hid
    decide

end Gatel.State
