import Gatel.State.Registry

namespace Gatel.State
open CanonicalSort (mem_sortBy)
open Hasher (Apart Codes)
open Run (run run_append)
open Shuffle (Shuffled)

/-! What a compiled plan binds. -/

theorem find?_unique {α : Type} {p : α → Bool} {l : List α} {a : α} (ha : a ∈ l) (hp : p a = true)
    (hu : ∀ b ∈ l, p b = true → b = a) : l.find? p = some a := by
  cases hf : l.find? p with
  | none => exact absurd hp (List.find?_eq_none.mp hf a ha)
  | some b => rw [hu b (List.mem_of_find?_eq_some hf) (List.find?_some hf)]

theorem directiveBindings_kind {site : Site} {b : StateBinding} (h : b ∈ directiveBindings site) :
    ∃ name, b.kind = .directive name := by
  have hone : ∀ (ds : List DirectiveInstance), b ∈ ds.filterMap DirectiveInstance.stateBinding →
      ∃ name, b.kind = .directive name := by
    intro ds hb
    obtain ⟨d, _, hd⟩ := List.mem_filterMap.mp hb
    obtain ⟨_, _, rfl⟩ := Option.map_eq_some_iff.mp hd
    exact ⟨_, rfl⟩
  rw [directiveBindings, List.mem_append, List.mem_flatMap] at h
  obtain h | ⟨route, _, h⟩ := h
  · exact hone _ h
  · rw [List.mem_append] at h
    obtain h | h := h
    · exact hone _ h
    · split at h
      · rename_i d _
        refine hone [d] (List.mem_filterMap.mpr ⟨d, List.mem_singleton_self d, ?_⟩)
        exact Option.mem_toList.mp h
      · cases h

theorem binding_compile (blake3 : Digest) (registry : Registry) {spec : Spec}
    (hn : (spec.upstreams.map fun u => u.id.name).Nodup) {u : Upstream} (hu : u ∈ spec.upstreams)
    {b : StateBinding} (hb : b ∈ upstreamBindings blake3 u) (hkind : ∀ name, b.kind ≠ .directive name)
    (hcert : b.kind ≠ .certificate)
    (hself : ∀ c ∈ upstreamBindings blake3 u, c.kind = b.kind → c = b) :
    Plan.binding (compile blake3 spec registry) u b.kind = some b := by
  have howner : ∀ v, ∀ c ∈ upstreamBindings blake3 v, c.owner = v.id := by
    intro v c hc
    simp only [upstreamBindings] at hc
    split at hc
    · simp only [List.cons_append, List.nil_append, List.mem_cons, List.not_mem_nil, or_false] at hc
      obtain rfl | rfl | rfl | rfl := hc <;> rfl
    · simp only [List.cons_append, List.nil_append, List.mem_cons, List.not_mem_nil, or_false] at hc
      obtain rfl | rfl | rfl := hc <;> rfl
  refine find?_unique ?_ ?_ ?_
  · refine mem_sortBy.mpr (List.mem_append_left _ (List.mem_append_left _ ?_))
    exact List.mem_flatMap.mpr ⟨u, hu, hb⟩
  · simp [howner u b hb]
  · intro c hc hp
    rw [decide_eq_true_iff] at hp
    have hc := mem_sortBy.mp hc
    rw [List.mem_append, List.mem_append] at hc
    obtain (hc | hc) | hc := hc
    · obtain ⟨v, hv, hcv⟩ := List.mem_flatMap.mp hc
      have hid : v.id = u.id := (howner v c hcv).symm.trans hp.1
      obtain rfl := List.inj_on_of_nodup_map hn hv hu (by rw [hid])
      exact hself c hcv hp.2
    · obtain ⟨site, _, hcs⟩ := List.mem_flatMap.mp hc
      obtain ⟨name, hname⟩ := directiveBindings_kind hcs
      exact absurd (hp.2.symm.trans hname) (hkind name)
    · obtain ⟨site, _, hcs⟩ := List.mem_filterMap.mp hc
      obtain ⟨_, _, rfl⟩ := Option.map_eq_some_iff.mp hcs
      exact absurd hp.2.symm hcert

theorem binds_compile (blake3 : Digest) (registry : Registry) {spec : Spec}
    (hn : (spec.upstreams.map fun u => u.id.name).Nodup) {u : Upstream} (hu : u ∈ spec.upstreams) :
    Plan.Binds blake3 (compile blake3 spec registry) u := by
  have hmem : ∀ c ∈ upstreamBindings blake3 u, c.kind = .health ∨
      c = ⟨u.id, .endpoints, transportHash blake3 u, .preserve⟩ ∨ c = ⟨u.id, .pool, transportHash blake3 u, .preserve⟩ ∨
      c = ⟨u.id, .selector, ((u.balance.hashInto Hasher.new).updateFingerprint (transportHash blake3 u)).finish blake3,
        .preserve⟩ := by
    intro c hc
    simp only [upstreamBindings, List.cons_append, List.nil_append, List.mem_cons] at hc
    obtain rfl | rfl | rfl | hc := hc
    · exact Or.inr (Or.inl rfl)
    · exact Or.inr (Or.inr (Or.inl rfl))
    · exact Or.inr (Or.inr (Or.inr rfl))
    · split at hc
      · obtain rfl := List.mem_singleton.mp hc
        exact Or.inl rfl
      · cases hc
  refine ⟨?_, ?_, ((u.balance.hashInto Hasher.new).updateFingerprint (transportHash blake3 u)).finish blake3, ?_⟩
  · refine binding_compile blake3 registry hn hu (b := ⟨u.id, .endpoints, transportHash blake3 u, .preserve⟩)
      (by simp [upstreamBindings]) (by simp) (by simp) ?_
    intro c hc hk
    obtain h | rfl | rfl | rfl := hmem c hc
    · rw [h] at hk
      cases hk
    · rfl
    · cases hk
    · cases hk
  · refine binding_compile blake3 registry hn hu (b := ⟨u.id, .pool, transportHash blake3 u, .preserve⟩)
      (by simp [upstreamBindings]) (by simp) (by simp) ?_
    intro c hc hk
    obtain h | rfl | rfl | rfl := hmem c hc
    · rw [h] at hk
      cases hk
    · cases hk
    · rfl
    · cases hk
  · refine binding_compile blake3 registry hn hu (b := ⟨u.id, .selector, _, .preserve⟩)
      (by simp [upstreamBindings]) (by simp) (by simp) ?_
    intro c hc hk
    obtain h | rfl | rfl | rfl := hmem c hc
    · rw [h] at hk
      cases hk
    · cases hk
    · cases hk
    · rfl

/-! What the compatibility of a slot says about the upstream it was bound for. -/

/-- An endpoint as the transport hash writes it. -/
def transportWrite (e : Gatel.Endpoint) (h : Hasher) : Hasher := (h.updateStr e.id).updateStr e.target.describe

/-- Nothing that decides whether a connection may still be used differs. -/
structure SameTransport (u v : Upstream) : Prop where
  endpoints : (u.endpoints.map fun e => (e.id, e.target.describe)).Perm (v.endpoints.map fun e => (e.id, e.target.describe))
  protocol : u.protocol = v.protocol
  tls : u.tls = v.tls

/-- What a set takes from its upstream and never reads again. -/
structure SamePolicy (u v : Upstream) : Prop where
  weights : (u.endpoints.map fun e => (e.id, e.weight, e.priority)).Perm
    (v.endpoints.map fun e => (e.id, e.weight, e.priority))
  health : u.health = v.health
  passiveHealth : u.passiveHealth = v.passiveHealth

def transportStream (blake3 : Digest) (u : Upstream) (h : Hasher) : Hasher :=
  ((h.updateUnordered blake3 u.endpoints transportWrite).updateU64 u.protocol.rank).updateOption UpstreamTls.hashInto u.tls

theorem transportHash_eq (blake3 : Digest) (u : Upstream) :
    transportHash blake3 u = (transportStream blake3 u .new).finish blake3 := rfl

/-- The streams hashed for a transport are in `D`. -/
structure TransportIn (blake3 : Digest) (D : Set (List UInt8)) (u : Upstream) : Prop where
  endpoints : ∀ e ∈ u.endpoints, (transportWrite e .new).written ∈ D
  whole : (transportStream blake3 u .new).written ∈ D

section
variable {blake3 : Digest} {D : Set (List UInt8)}

theorem transportStream_codes (hd : Apart blake3 D) :
    Codes (fun u : Upstream => ∀ e ∈ u.endpoints, (transportWrite e .new).written ∈ D) (transportStream blake3)
      SameTransport := by
  have he : Codes (fun _ => True) transportWrite
      fun a b : Gatel.Endpoint => (a.id, a.target.describe) = (b.id, b.target.describe) :=
    ((Codes.str.on fun e : Gatel.Endpoint => e.id).seq (Codes.str.on fun e : Gatel.Endpoint => e.target.describe)).imp
      (fun _ _ => ⟨trivial, trivial⟩) (fun _ _ _ _ h => Prod.ext h.1 h.2) fun _ _ h => Prod.mk.injEq .. ▸ h
  have htls := Codes.optionEq UpstreamTls.codes fun t => ⟨1, t.head, by decide⟩
  refine ((((Codes.unordered hd he.ends).on fun u : Upstream => u.endpoints).seq
    (Codes.u64.on fun u : Upstream => u.protocol.rank)).seq (htls.on fun u : Upstream => u.tls)).imp ?_ ?_ ?_
  · intro u h
    simp only [true_and, and_true, implies_true]
    exact h
  · intro a b _ _ h
    obtain ⟨⟨h1, h2⟩, h3⟩ := h
    exact ⟨h1.map_perm fun _ _ h => h, UpstreamProtocol.rank_inj h2, h3⟩
  · intro a b h
    exact ⟨⟨Shuffled.of_map_perm h.endpoints, by rw [h.protocol]⟩, h.tls⟩

theorem sameTransport_of_hash (hd : Apart blake3 D) {u v : Upstream} (hu : TransportIn blake3 D u)
    (hv : TransportIn blake3 D v) (h : transportHash blake3 u = transportHash blake3 v) : SameTransport u v := by
  have hw : (transportStream blake3 u .new).written = (transportStream blake3 v .new).written :=
    hd.inj hu.whole hv.whole h
  exact (transportStream_codes hd).ends.whole u v hu.endpoints hv.endpoints hw (hd.short _ hu.whole)

end

/-! What a slot keeps over reloads. -/

/-- A set that applies what `u` writes. -/
structure Follows (set : EndpointSet) (u : Upstream) : Prop where
  weights : (set.endpoints.map fun e => (e.id, e.weight, e.priority)).Perm
    (u.endpoints.map fun e => (e.id, e.weight, e.priority))
  active : set.active = u.health
  passive : set.passive = u.passiveHealth

namespace Follows

theorem new (u : Upstream) : Follows (.new u) u := by
  refine ⟨List.Perm.of_eq ?_, rfl, rfl⟩
  simp [EndpointSet.new, Endpoint.new, Function.comp_def]

theorem of_samePolicy {set : EndpointSet} {u v : Upstream} (h : Follows set u) (hp : SamePolicy u v) : Follows set v :=
  ⟨h.weights.trans hp.weights, h.active.trans hp.health, h.passive.trans hp.passiveHealth⟩

theorem step {set : EndpointSet} {u : Upstream} (h : Follows set u) (call : EndpointSet.Call) :
    Follows (set.step call) u := by
  obtain ⟨hw, ha, hp⟩ := EndpointSet.step_written set call
  refine ⟨?_, ha.trans h.active, hp.trans h.passive⟩
  have hl : ∀ l : List Endpoint, (l.map fun e => (e.id, e.weight, e.priority)) =
      (l.map Endpoint.written).map fun w => (w.1, w.2.2.1, w.2.2.2) := by
    intro l
    simp [Endpoint.written, Function.comp_def]
  rw [hl, hw, ← hl]
  exact h.weights

end Follows

/-- The upstream last registered under an identity, the newest first. -/
def lastOf (history : List Upstream) (id : ResourceId) : Option Upstream := history.find? fun u => u.id = id

theorem lastOf_cons_ne {u : Upstream} {id : ResourceId} (h : id ≠ u.id) (history : List Upstream) :
    lastOf (u :: history) id = lastOf history id := by
  simp [lastOf, Ne.symm h]

theorem mem_of_lastOf {history : List Upstream} {id : ResourceId} {u : Upstream} (h : lastOf history id = some u) :
    u ∈ history := List.mem_of_find?_eq_some h

/-- Every registered set applies what the upstream it was last resolved for writes, and
no two upstreams share a pool. -/
structure Kept (blake3 : Digest) (σ : Stage) (history : List Upstream) : Prop where
  sets : ∀ id slot, σ.slots.lookup (id, .endpoints) = some slot → ∃ u set, lastOf history id = some u ∧
    slot.compatibility = transportHash blake3 u ∧ σ.heap.sets[slot.value]? = some set ∧ Follows set u
  pools : ∀ id slot, σ.slots.lookup (id, .pool) = some slot → slot.value < σ.heap.pools.length
  apart : ∀ id id' slot slot', σ.slots.lookup (id, .pool) = some slot → σ.slots.lookup (id', .pool) = some slot' →
    slot.value = slot'.value → id = id'

/-- A heap that only grew. -/
structure Heap.Grows (a b : Heap) : Prop where
  sets : a.sets <+: b.sets
  pools : a.pools <+: b.pools

theorem getElem?_of_start {α : Type} {l m : List α} (h : l <+: m) {i : Nat} {a : α} (hi : l[i]? = some a) :
    m[i]? = some a := by
  obtain ⟨t, rfl⟩ := h
  rw [List.getElem?_append_left (List.getElem?_eq_some_iff.mp hi).1, hi]

theorem Kept.grows {blake3 : Digest} {σ : Stage} {history : List Upstream} (h : Kept blake3 σ history) {heap : Heap}
    (hg : σ.heap.Grows heap) : Kept blake3 { σ with heap := heap } history := by
  refine ⟨?_, ?_, h.apart⟩
  · intro id slot hs
    obtain ⟨u, set, hu, hc, hset, hf⟩ := h.sets id slot hs
    exact ⟨u, set, hu, hc, getElem?_of_start hg.sets hset, hf⟩
  · intro id slot hs
    exact (h.pools id slot hs).trans_le hg.pools.length_le

theorem Bound.grows {blake3 : Digest} {σ σ' : Stage} {u : Upstream} {tls : Option Fingerprint} {r : UpstreamRuntime}
    (h : Bound blake3 σ u tls r σ') : σ.heap.Grows σ'.heap := by
  refine ⟨?_, ?_⟩
  · obtain ⟨_, hs⟩ | ⟨_, hs⟩ := h.sets
    · rw [hs]
    · rw [hs]
      exact List.prefix_append ..
  · obtain ⟨_, hs⟩ | ⟨_, hs⟩ := h.pools
    · rw [hs]
    · rw [hs]
      exact List.prefix_append ..

section
variable {blake3 : Digest} {D : Set (List UInt8)}

theorem Kept.bound (hd : Apart blake3 D) {σ σ' : Stage} {history : List Upstream} (hk : Kept blake3 σ history)
    {u : Upstream} {tls : Option Fingerprint} {r : UpstreamRuntime} (hb : Bound blake3 σ u tls r σ')
    (hu : TransportIn blake3 D u) (hh : ∀ w ∈ history, TransportIn blake3 D w)
    (hc : ∀ w, lastOf history u.id = some w → SameTransport w u → SamePolicy w u) :
    Kept blake3 σ' (u :: history) := by
  refine ⟨?_, ?_, ?_⟩
  · intro id slot hs
    by_cases hid : id = u.id
    · subst hid
      obtain rfl := Option.some.inj (hb.setSlot.symm.trans hs)
      refine ⟨u, ?_⟩
      obtain ⟨hold, hsets⟩ | ⟨hfresh, hsets⟩ := hb.sets
      · -- the running set is kept: it was last resolved for the same transport
        obtain ⟨w, set, hw, hhash, hset, hf⟩ := hk.sets _ _ hold
        have hst := sameTransport_of_hash hd (hh w (mem_of_lastOf hw)) hu hhash.symm
        refine ⟨set, by simp [lastOf], rfl, ?_, hf.of_samePolicy (hc w hw hst)⟩
        rw [hsets]
        exact hset
      · refine ⟨.new u, by simp [lastOf], rfl, ?_, Follows.new u⟩
        rw [hsets, hfresh]
        simp
    · rw [hb.others _ hid] at hs
      obtain ⟨w, set, hw, hhash, hset, hf⟩ := hk.sets _ _ hs
      exact ⟨w, set, (lastOf_cons_ne hid history).trans hw, hhash, getElem?_of_start hb.grows.sets hset, hf⟩
  · intro id slot hs
    by_cases hid : id = u.id
    · subst hid
      obtain rfl := Option.some.inj (hb.poolSlot.symm.trans hs)
      obtain ⟨hold, hpools⟩ | ⟨hfresh, hpools⟩ := hb.pools
      · rw [hpools]
        exact hk.pools _ _ hold
      · rw [hpools]
        simp [hfresh]
    · rw [hb.others _ hid] at hs
      exact (hk.pools _ _ hs).trans_le hb.grows.pools.length_le
  · have hother : ∀ id slot, id ≠ u.id → σ'.slots.lookup (id, .pool) = some slot → slot.value ≠ r.pool := by
      intro id slot hid hs
      rw [hb.others _ hid] at hs
      obtain ⟨hold, _⟩ | ⟨hfresh, _⟩ := hb.pools
      · exact fun he => hid (hk.apart _ _ _ _ hs hold he)
      · rw [hfresh]
        exact (hk.pools _ _ hs).ne
    intro id id' slot slot' hs hs' he
    by_cases hid : id = u.id
    · by_cases hid' : id' = u.id
      · rw [hid, hid']
      · subst hid
        obtain rfl := Option.some.inj (hb.poolSlot.symm.trans hs)
        exact absurd he.symm (hother id' slot' hid' hs')
    · by_cases hid' : id' = u.id
      · subst hid'
        obtain rfl := Option.some.inj (hb.poolSlot.symm.trans hs')
        exact absurd he (hother id slot hid hs)
      · rw [hb.others _ hid] at hs
        rw [hb.others _ hid'] at hs'
        exact hk.apart _ _ _ _ hs hs' he

/-- The upstreams a plan registers before the first whose TLS files do not load. -/
def registered (files : TlsFiles) (us : List Upstream) : List Upstream :=
  us.takeWhile fun u => (clientTls files u).isOk

theorem registered_sub {files : TlsFiles} {us : List Upstream} {u : Upstream} (h : u ∈ registered files us) : u ∈ us :=
  (List.takeWhile_sublist _).subset h

theorem Heap.Grows.refl (heap : Heap) : heap.Grows heap := ⟨List.prefix_rfl, List.prefix_rfl⟩

theorem Heap.Grows.trans {a b c : Heap} (h : a.Grows b) (h' : b.Grows c) : a.Grows c :=
  ⟨h.sets.trans h'.sets, h.pools.trans h'.pools⟩

/-- Resolving only adds objects, and succeeds when all TLS files load. -/
theorem prepare_outcome {plan : Plan} (files : TlsFiles) (us : List Upstream)
    (hbinds : ∀ u ∈ us, Plan.Binds blake3 plan u) (σ : Stage) :
    σ.heap.Grows (σ.prepare blake3 plan files us).1.heap ∧
      ((σ.prepare blake3 plan files us).2.isOk = true ↔ ∀ u ∈ us, (clientTls files u).isOk = true) := by
  induction us generalizing σ with
  | nil => exact ⟨.refl _, by simp [Stage.prepare, Except.isOk, Except.toBool]⟩
  | cons u us ih =>
    obtain ⟨error, htls, hbind⟩ | ⟨tls, r, resolution, σ', htls, hbind, hbound⟩ :=
      bindUpstream_cases (hbinds u List.mem_cons_self) files σ
    · simp only [Stage.prepare, hbind]
      refine ⟨.refl _, ?_⟩
      simp [htls, Except.isOk, Except.toBool]
    · obtain ⟨hg, hok⟩ := ih (fun v hv => hbinds v (List.mem_cons_of_mem u hv)) σ'
      simp only [Stage.prepare, hbind]
      refine ⟨hbound.grows.trans hg, ?_⟩
      rw [List.forall_mem_cons, ← hok, htls]
      cases (σ'.prepare blake3 plan files us).2 <;> simp [Except.map, Except.isOk, Except.toBool]

/-- What resolving a plan's upstreams one after another leaves registered. -/
structure Prepared (blake3 : Digest) (files : TlsFiles) (us : List Upstream) (history : List Upstream) (σ : Stage)
    (out : Stage × Except String (List (UpstreamRuntime × UpstreamResolution))) : Prop where
  kept : Kept blake3 out.1 ((registered files us).reverse ++ history)
  others : ∀ key, (∀ u ∈ us, key.1 ≠ u.id) → out.1.slots.lookup key = σ.slots.lookup key
  done : ∀ runtimes, out.2 = .ok runtimes → (runtimes.map fun x => x.1.spec) = us ∧
    ∀ x ∈ runtimes, ∃ compatibility,
      out.1.slots.lookup (x.1.spec.id, .endpoints) = some ⟨transportHash blake3 x.1.spec, x.1.endpoints⟩ ∧
      out.1.slots.lookup (x.1.spec.id, .pool) = some ⟨compatibility, x.1.pool⟩

theorem prepare_prepared (hd : Apart blake3 D) {plan : Plan} (files : TlsFiles) (us : List Upstream)
    (hbinds : ∀ u ∈ us, Plan.Binds blake3 plan u) (hids : (us.map Upstream.id).Nodup)
    (hus : ∀ u ∈ us, TransportIn blake3 D u) {history : List Upstream} {σ : Stage} (hk : Kept blake3 σ history)
    (hh : ∀ w ∈ history, TransportIn blake3 D w)
    (hc : ∀ u ∈ registered files us, ∀ w, lastOf history u.id = some w → SameTransport w u → SamePolicy w u) :
    Prepared blake3 files us history σ (σ.prepare blake3 plan files us) := by
  induction us generalizing σ history with
  | nil =>
    refine ⟨hk, fun _ _ => rfl, ?_⟩
    intro runtimes h
    cases h
    exact ⟨rfl, fun _ hx => by cases hx⟩
  | cons u us ih =>
    obtain ⟨hnot, hids⟩ := List.nodup_cons.mp hids
    have hu := List.mem_cons_self (a := u) (l := us)
    obtain ⟨error, htls, hbind⟩ | ⟨tls, r, resolution, σ', htls, hbind, hbound⟩ :=
      bindUpstream_cases (hbinds u hu) files σ
    · have hno : (clientTls files u).isOk = false := by rw [htls]; rfl
      have hreg : registered files (u :: us) = [] := by simp [registered, hno]
      simp only [Stage.prepare, hbind]
      exact ⟨by rw [hreg]; exact hk, fun _ _ => rfl, fun _ h => (by cases h)⟩
    · have hok : (clientTls files u).isOk = true := by rw [htls]; rfl
      have hreg : registered files (u :: us) = u :: registered files us := by simp [registered, hok]
      have hne : ∀ v ∈ us, v.id ≠ u.id := fun v hv he => hnot (he ▸ List.mem_map_of_mem hv)
      rw [hreg] at hc
      have hrest := ih (fun v hv => hbinds v (List.mem_cons_of_mem u hv)) hids
        (fun v hv => hus v (List.mem_cons_of_mem u hv))
        (hk.bound hd hbound (hus u hu) hh (hc u List.mem_cons_self))
        (by
          intro w hw
          obtain rfl | hw := List.mem_cons.mp hw
          · exact hus w hu
          · exact hh w hw)
        (by
          intro v hv w hw
          rw [lastOf_cons_ne (hne v (registered_sub hv))] at hw
          exact hc v (List.mem_cons_of_mem u hv) w hw)
      simp only [Stage.prepare, hbind]
      generalize hout : σ'.prepare blake3 plan files us = out at hrest
      obtain ⟨σ'', rest⟩ := out
      refine ⟨?_, ?_, ?_⟩
      · rw [hreg, List.reverse_cons, List.append_assoc]
        exact hrest.kept
      · intro key hkey
        rw [← hbound.others key (hkey u hu)]
        exact hrest.others key fun v hv => hkey v (List.mem_cons_of_mem u hv)
      · intro runtimes h
        cases rest with
        | error error => cases h
        | ok tail =>
          cases h
          obtain ⟨hspecs, hslots⟩ := hrest.done tail rfl
          refine ⟨by simp [hspecs, hbound.spec], ?_⟩
          intro x hx
          obtain rfl | hx := List.mem_cons.mp hx
          · have hkeep : ∀ kind, σ''.slots.lookup (u.id, kind) = σ'.slots.lookup (u.id, kind) :=
              fun kind => hrest.others (u.id, kind) fun v hv => Ne.symm (hne v hv)
            refine ⟨poolCompatibility blake3 (transportHash blake3 u) tls, ?_, ?_⟩
            · change σ''.slots.lookup (r.spec.id, .endpoints) = some ⟨transportHash blake3 r.spec, r.endpoints⟩
              rw [hbound.spec, hkeep]
              exact hbound.setSlot
            · change σ''.slots.lookup (r.spec.id, .pool) = _
              rw [hbound.spec, hkeep]
              exact hbound.poolSlot
          · exact hslots x hx

end

/-! Publication: the pools take on the plan's numbers. -/

theorem adopt_other {heap : Heap} {r : UpstreamRuntime} {i : Nat} (h : i ≠ r.pool) :
    (heap.adopt r).pools[i]? = heap.pools[i]? := by
  simp [Heap.adopt, Ne.symm h]

theorem adoptPolicies_sets (runtimes : List UpstreamRuntime) (heap : Heap) :
    (heap.adoptPolicies runtimes).sets = heap.sets := by
  induction runtimes generalizing heap with
  | nil => rfl
  | cons r rs ih => exact ih (heap.adopt r)

theorem adoptPolicies_length (runtimes : List UpstreamRuntime) (heap : Heap) :
    (heap.adoptPolicies runtimes).pools.length = heap.pools.length := by
  induction runtimes generalizing heap with
  | nil => rfl
  | cons r rs ih => exact (ih (heap.adopt r)).trans (by simp [Heap.adopt])

theorem adoptPolicies_other (runtimes : List UpstreamRuntime) (heap : Heap) {i : Nat} (h : ∀ r ∈ runtimes, i ≠ r.pool) :
    (heap.adoptPolicies runtimes).pools[i]? = heap.pools[i]? := by
  induction runtimes generalizing heap with
  | nil => rfl
  | cons r rs ih =>
    refine (ih (heap.adopt r) fun s hs => h s (List.mem_cons_of_mem r hs)).trans ?_
    exact adopt_other (h r List.mem_cons_self)

theorem adoptPolicies_policy (runtimes : List UpstreamRuntime) (heap : Heap)
    (hn : (runtimes.map UpstreamRuntime.pool).Nodup) {r : UpstreamRuntime} (hr : r ∈ runtimes)
    (hv : r.pool < heap.pools.length) :
    ∃ pool, (heap.adoptPolicies runtimes).pools[r.pool]? = some pool ∧ pool.policy = ⟨r.spec.pool, r.spec.resolve⟩ := by
  induction runtimes generalizing heap with
  | nil => cases hr
  | cons s rs ih =>
    obtain ⟨hnot, hn⟩ := List.nodup_cons.mp hn
    obtain rfl | hr := List.mem_cons.mp hr
    · have hrest := adoptPolicies_other rs (heap.adopt r) (i := r.pool)
        fun s hs he => hnot (he ▸ List.mem_map_of_mem hs)
      refine ⟨{ heap.pools[r.pool] with policy := ⟨r.spec.pool, r.spec.resolve⟩ }, hrest.trans ?_, rfl⟩
      simp [Heap.adopt, hv]
    · exact ih (heap.adopt s) hn hr (by simpa [Heap.adopt] using hv)

/-- Every published runtime behaves by its own spec. -/
def Host.Obeys (h : Host) : Prop :=
  ∀ r ∈ h.published,
    (∃ set, h.stage.heap.sets[r.endpoints]? = some set ∧ Follows set r.spec) ∧
    ∃ pool, h.stage.heap.pools[r.pool]? = some pool ∧ pool.policy = ⟨r.spec.pool, r.spec.resolve⟩

theorem Host.Obeys.grows {h : Host} (ho : h.Obeys) {stage : Stage} (hg : h.stage.heap.Grows stage.heap) :
    Host.Obeys { h with stage := stage } := by
  intro r hr
  obtain ⟨⟨set, hset, hf⟩, pool, hpool, hp⟩ := ho r hr
  exact ⟨⟨set, getElem?_of_start hg.sets hset, hf⟩, pool, getElem?_of_start hg.pools hpool, hp⟩

namespace Load

/-- The plan a load resolves. -/
def plan? : Load → Option Plan
  | .resolve plan _ | .publish plan _ | .abandon plan _ => some plan
  | .traffic .. => none

/-- Whether all of a plan's TLS files load. -/
def loads (plan : Plan) (files : TlsFiles) : Bool := plan.upstreams.all fun u => (clientTls files u).isOk

/-- The upstreams whose registrations a load leaves in the process's registry. -/
@[grind =] def bound : Load → List Upstream
  | .resolve plan files => registered files plan.upstreams
  | .publish plan files => if loads plan files then plan.upstreams else []
  | .abandon .. | .traffic .. => []

/-- The upstreams a load publishes. -/
def published? : Load → Option (List Upstream)
  | .resolve plan files | .publish plan files => if loads plan files then some plan.upstreams else none
  | .abandon .. | .traffic .. => none

end Load

/-- Every upstream registered so far, the newest first. -/
def history (run : List Load) : List Upstream := (run.flatMap Load.bound).reverse

/-- What was published last. -/
def currentSpecs (run : List Load) : List Upstream := run.foldl (fun us load => load.published?.getD us) []

/-- No load that keeps an upstream's transport changes its weights, priorities or health
policies. -/
def Steady (run : List Load) : Prop :=
  ∀ before load after, run = before ++ load :: after → ∀ v ∈ load.bound, ∀ u,
    lastOf (history before) v.id = some u → SameTransport u v → SamePolicy u v

/-- Plans compiled from accepted specs whose transports are hashed within `D`. -/
def Compiled (fe : Frontend) (D : Set (List UInt8)) (plan : Plan) : Prop :=
  ∃ snapshot spec, normalize fe snapshot = .ok spec ∧ plan = compile fe.blake3 spec fe.registry ∧
    ∀ u ∈ spec.upstreams, TransportIn fe.blake3 D u

theorem history_concat (run : List Load) (load : Load) : history (run ++ [load]) = load.bound.reverse ++ history run := by
  simp [history]

theorem currentSpecs_concat (run : List Load) (load : Load) :
    currentSpecs (run ++ [load]) = load.published?.getD (currentSpecs run) := by
  simp [currentSpecs]

theorem loads_iff {plan : Plan} {files : TlsFiles} :
    Load.loads plan files = true ↔ ∀ u ∈ plan.upstreams, (clientTls files u).isOk = true := List.all_eq_true

theorem registered_of_loads {plan : Plan} {files : TlsFiles} (h : Load.loads plan files = true) :
    registered files plan.upstreams = plan.upstreams := List.takeWhile_eq_self_iff.mpr (loads_iff.1 h)

/-- A process whose registry and runtimes agree with everything it resolved. -/
structure Consistent (blake3 : Digest) (run : List Load) (h : Host) : Prop where
  kept : Kept blake3 h.stage (history run)
  obeys : h.Obeys
  specs : h.published.map UpstreamRuntime.spec = currentSpecs run

theorem pools_nodup {blake3 : Digest} {σ : Stage} {hist : List Upstream} (hk : Kept blake3 σ hist)
    {rs : List UpstreamRuntime} (hids : (rs.map fun r => r.spec.id).Nodup)
    (hs : ∀ r ∈ rs, ∃ compatibility, σ.slots.lookup (r.spec.id, .pool) = some ⟨compatibility, r.pool⟩) :
    (rs.map UpstreamRuntime.pool).Nodup := by
  induction rs with
  | nil => exact List.nodup_nil
  | cons r rs ih =>
    obtain ⟨hnot, hids⟩ := List.nodup_cons.mp hids
    refine List.nodup_cons.mpr ⟨?_, ih hids fun s h => hs s (List.mem_cons_of_mem r h)⟩
    intro hmem
    obtain ⟨s, hmem, he⟩ := List.mem_map.mp hmem
    obtain ⟨c, hr⟩ := hs r List.mem_cons_self
    obtain ⟨c', hs⟩ := hs s (List.mem_cons_of_mem r hmem)
    exact hnot (List.mem_map.mpr ⟨s, hmem, hk.apart _ _ _ _ hs hr he⟩)

theorem serve_consistent {blake3 : Digest} {files : TlsFiles} {us hist : List Upstream} {σ σ' : Stage}
    {runtimes : List (UpstreamRuntime × UpstreamResolution)} (hids : (us.map Upstream.id).Nodup)
    (hall : registered files us = us) (hp : Prepared blake3 files us hist σ (σ', .ok runtimes))
    (published : List UpstreamRuntime) :
    Kept blake3 (Host.serve ⟨σ', published⟩ runtimes).stage (us.reverse ++ hist) ∧
      (Host.serve ⟨σ', published⟩ runtimes).Obeys ∧
      (Host.serve ⟨σ', published⟩ runtimes).published.map UpstreamRuntime.spec = us := by
  obtain ⟨hspecs, hslots⟩ := hp.done runtimes rfl
  have hkept := hp.kept
  rw [hall] at hkept
  have hspecs : (runtimes.map Prod.fst).map UpstreamRuntime.spec = us := by simpa [Function.comp_def] using hspecs
  have hslots : ∀ r ∈ runtimes.map Prod.fst, ∃ compatibility,
      σ'.slots.lookup (r.spec.id, .endpoints) = some ⟨transportHash blake3 r.spec, r.endpoints⟩ ∧
      σ'.slots.lookup (r.spec.id, .pool) = some ⟨compatibility, r.pool⟩ := by
    intro r hr
    obtain ⟨x, hx, rfl⟩ := List.mem_map.mp hr
    exact hslots x hx
  generalize hrs : runtimes.map Prod.fst = rs at hspecs hslots
  simp only [Host.serve, hrs]
  have hn : (rs.map fun r => r.spec.id).Nodup := by
    rw [← hspecs, List.map_map] at hids
    exact hids
  have hpools := pools_nodup hkept hn fun r hr => ⟨_, (hslots r hr).choose_spec.2⟩
  refine ⟨⟨?_, ?_, hkept.apart⟩, ?_, hspecs⟩
  · intro id slot hs
    simp only [adoptPolicies_sets]
    exact hkept.sets id slot hs
  · intro id slot hs
    simp only [adoptPolicies_length]
    exact hkept.pools id slot hs
  · intro r hr
    obtain ⟨compatibility, hset, hpool⟩ := hslots r hr
    obtain ⟨w, set, hw, _, hat, hf⟩ := hkept.sets _ _ hset
    refine ⟨⟨set, ?_, ?_⟩, adoptPolicies_policy rs σ'.heap hpools hr (hkept.pools _ _ hpool)⟩
    · simp only [adoptPolicies_sets]
      exact hat
    · -- identities are distinct, so the last one registered is the runtime's own
      have hru : r.spec ∈ us := by
        rw [← hspecs]
        exact List.mem_map_of_mem hr
      have hlast : lastOf (us.reverse ++ hist) r.spec.id = some r.spec := by
        rw [lastOf, List.find?_append, find?_unique (List.mem_reverse.mpr hru) (by simp) ?_]
        · rfl
        · intro v hv hid
          exact List.inj_on_of_nodup_map hids (List.mem_reverse.mp hv) hru (of_decide_eq_true hid)
      obtain rfl := Option.some.inj (hlast.symm.trans hw)
      exact hf

section
variable {fe : Frontend} {D : Set (List UInt8)}

theorem Compiled.ids {plan : Plan} (h : Compiled fe D plan) : (plan.upstreams.map Upstream.id).Nodup := by
  obtain ⟨snapshot, spec, hn, rfl, _⟩ := h
  have hnames := (fe.normalize_formed hn).2.upstreams
  have he : (spec.upstreams.map fun u => u.id.name) = (spec.upstreams.map Upstream.id).map ResourceId.name := by simp
  rw [he] at hnames
  exact hnames.of_map

theorem Compiled.binds {plan : Plan} (h : Compiled fe D plan) : ∀ u ∈ plan.upstreams, Plan.Binds fe.blake3 plan u := by
  obtain ⟨snapshot, spec, hn, rfl, _⟩ := h
  intro u hu
  exact binds_compile fe.blake3 fe.registry (fe.normalize_formed hn).2.upstreams hu

theorem Compiled.hashed {plan : Plan} (h : Compiled fe D plan) : ∀ u ∈ plan.upstreams, TransportIn fe.blake3 D u := by
  obtain ⟨snapshot, spec, hn, rfl, hu⟩ := h
  exact hu

theorem bound_sub {load : Load} {u : Upstream} (h : u ∈ load.bound) : ∃ plan, load.plan? = some plan ∧ u ∈ plan.upstreams := by
  cases load with
  | resolve plan files => exact ⟨plan, rfl, registered_sub h⟩
  | publish plan files =>
    simp only [Load.bound] at h
    split at h
    · exact ⟨plan, rfl, h⟩
    · cases h
  | abandon => cases h
  | traffic => cases h

theorem history_hashed {run : List Load} (hc : ∀ load ∈ run, ∀ plan, load.plan? = some plan → Compiled fe D plan) :
    ∀ w ∈ history run, TransportIn fe.blake3 D w := by
  intro w hw
  obtain ⟨load, hload, hw⟩ := List.mem_flatMap.mp (List.mem_reverse.mp hw)
  obtain ⟨plan, hp, hw⟩ := bound_sub hw
  exact (hc load hload plan hp).hashed w hw

/-- One load that changes no policy of what it registers. -/
theorem step_consistent (hd : Apart fe.blake3 D) {run : List Load} {h : Host} (hi : Consistent fe.blake3 run h)
    (hh : ∀ w ∈ history run, TransportIn fe.blake3 D w) (load : Load)
    (hp : ∀ plan, load.plan? = some plan → Compiled fe D plan)
    (hs : ∀ v ∈ load.bound, ∀ u, lastOf (history run) v.id = some u → SameTransport u v → SamePolicy u v) :
    Consistent fe.blake3 (run ++ [load]) (h.step fe.blake3 load) := by
  cases load with
  | resolve plan files =>
    have hc := hp plan rfl
    obtain ⟨hg, hok⟩ := prepare_outcome files plan.upstreams hc.binds h.stage
    have hprep := prepare_prepared hd files plan.upstreams hc.binds hc.ids hc.hashed hi.kept hh hs
    simp only [Host.step]
    generalize h.stage.prepare fe.blake3 plan files plan.upstreams = out at hg hok hprep
    obtain ⟨σ', result⟩ := out
    cases result with
    | ok runtimes =>
      have hall := loads_iff.2 (hok.mp rfl)
      obtain ⟨hk, ho, hspecs⟩ := serve_consistent hc.ids (registered_of_loads hall) hprep h.published
      refine ⟨?_, ho, ?_⟩
      · rw [history_concat, Load.bound, registered_of_loads hall]
        exact hk
      · rw [currentSpecs_concat, Load.published?, if_pos hall]
        exact hspecs
    | error error =>
      have hno : ¬ Load.loads plan files = true := fun hall => by cases hok.mpr (loads_iff.1 hall)
      refine ⟨?_, hi.obeys.grows hg, ?_⟩
      · rw [history_concat]
        exact hprep.kept
      · rw [currentSpecs_concat, Load.published?, if_neg hno]
        exact hi.specs
  | publish plan files =>
    have hc := hp plan rfl
    obtain ⟨hg, hok⟩ := prepare_outcome files plan.upstreams hc.binds h.stage
    have hprep : Load.loads plan files = true → Prepared fe.blake3 files plan.upstreams (history run) h.stage
        (h.stage.prepare fe.blake3 plan files plan.upstreams) := by
      intro hall
      refine prepare_prepared hd files plan.upstreams hc.binds hc.ids hc.hashed hi.kept hh ?_
      rw [registered_of_loads hall]
      rw [Load.bound, if_pos hall] at hs
      exact hs
    simp only [Host.step]
    generalize h.stage.prepare fe.blake3 plan files plan.upstreams = out at hg hok hprep
    obtain ⟨σ', result⟩ := out
    cases result with
    | ok runtimes =>
      have hall := loads_iff.2 (hok.mp rfl)
      obtain ⟨hk, ho, hspecs⟩ := serve_consistent hc.ids (registered_of_loads hall) (hprep hall) h.published
      refine ⟨?_, ho, ?_⟩
      · rw [history_concat, Load.bound, if_pos hall]
        exact hk
      · rw [currentSpecs_concat, Load.published?, if_pos hall]
        exact hspecs
    | error error =>
      have hno : ¬ Load.loads plan files = true := fun hall => by cases hok.mpr (loads_iff.1 hall)
      refine ⟨?_, hi.obeys.grows hg, ?_⟩
      · rw [history_concat, Load.bound, if_neg hno]
        exact hi.kept.grows hg
      · rw [currentSpecs_concat, Load.published?, if_neg hno]
        exact hi.specs
  | abandon plan files =>
    have hg := (prepare_outcome files plan.upstreams (hp plan rfl).binds h.stage).1
    refine ⟨?_, hi.obeys.grows hg, ?_⟩
    · rw [history_concat]
      exact hi.kept.grows hg
    · rw [currentSpecs_concat]
      exact hi.specs
  | traffic set call =>
    have hat : ∀ {i : Nat} {s : EndpointSet} {u : Upstream}, h.stage.heap.sets[i]? = some s → Follows s u →
        ∃ t, (h.stage.heap.sets.modify set fun s => s.step call)[i]? = some t ∧ Follows t u := by
      intro i s u hs hf
      rw [List.getElem?_modify, hs]
      by_cases he : set = i
      · exact ⟨s.step call, by simp [he], hf.step call⟩
      · exact ⟨s, by simp [he], hf⟩
    refine ⟨⟨?_, hi.kept.pools, hi.kept.apart⟩, ?_, ?_⟩
    · intro id slot hslot
      obtain ⟨u, s, hu, hcomp, hset, hf⟩ := hi.kept.sets id slot hslot
      obtain ⟨t, ht, hft⟩ := hat hset hf
      refine ⟨u, t, ?_, hcomp, ht, hft⟩
      rw [history_concat]
      exact hu
    · intro r hr
      obtain ⟨⟨s, hset, hf⟩, hpool⟩ := hi.obeys r hr
      exact ⟨hat hset hf, hpool⟩
    · rw [currentSpecs_concat]
      exact hi.specs

theorem Steady.init {run : List Load} {load : Load} (h : Steady (run ++ [load])) : Steady run := by
  intro before l after he
  exact h before l (after ++ [load]) (by rw [he]; simp)

theorem run_consistent (hd : Apart fe.blake3 D) (loads : List Load)
    (hc : ∀ load ∈ loads, ∀ plan, load.plan? = some plan → Compiled fe D plan) (hs : Steady loads) :
    Consistent fe.blake3 loads (run (Host.step fe.blake3) .start loads) := by
  induction loads using List.reverseRecOn with
  | nil =>
    refine ⟨⟨?_, ?_, ?_⟩, ?_, rfl⟩
    · intro id slot h
      cases h
    · intro id slot h
      cases h
    · intro id id' slot slot' h
      cases h
    · intro r hr
      cases hr
  | append_singleton loads load ih =>
    have hc' : ∀ l ∈ loads, ∀ plan, l.plan? = some plan → Compiled fe D plan :=
      fun l hl => hc l (List.mem_append_left _ hl)
    rw [run_append]
    refine step_consistent hd (ih hc' hs.init) (history_hashed hc') load (hc load (by simp)) ?_
    exact hs loads load [] rfl

/-- As long as no load changes the weights, priorities or health policies of an upstream
whose transport it keeps, every published runtime behaves by the plan published last, and a
candidate that is not published touches nothing it uses. -/
theorem published_obeys (fe : Frontend) (D : Set (List UInt8)) (hd : Apart fe.blake3 D) (loads : List Load)
    (hc : ∀ load ∈ loads, ∀ plan, load.plan? = some plan → Compiled fe D plan) (hs : Steady loads) :
    ∀ before, before <+: loads →
      (run (Host.step fe.blake3) .start before).published.map UpstreamRuntime.spec = currentSpecs before ∧
      (run (Host.step fe.blake3) .start before).Obeys ∧
      ∀ plan files, Compiled fe D plan →
        (run (Host.step fe.blake3) .start (before ++ [.abandon plan files])).published =
          (run (Host.step fe.blake3) .start before).published ∧
        ∀ r ∈ (run (Host.step fe.blake3) .start before).published,
          (run (Host.step fe.blake3) .start (before ++ [.abandon plan files])).stage.heap.sets[r.endpoints]? =
            (run (Host.step fe.blake3) .start before).stage.heap.sets[r.endpoints]? ∧
          (run (Host.step fe.blake3) .start (before ++ [.abandon plan files])).stage.heap.pools[r.pool]? =
            (run (Host.step fe.blake3) .start before).stage.heap.pools[r.pool]? := by
  intro before hb
  obtain ⟨after, rfl⟩ := hb
  have hsteady : Steady before := by
    intro b l a he
    exact hs b l (a ++ after) (by rw [he]; simp)
  have hi := run_consistent hd before (fun l hl => hc l (List.mem_append_left _ hl)) hsteady
  refine ⟨hi.specs, hi.obeys, ?_⟩
  intro plan files hplan
  rw [run_append]
  generalize run (Host.step fe.blake3) .start before = h at hi
  refine ⟨rfl, ?_⟩
  intro r hr
  obtain ⟨⟨set, hset, _⟩, pool, hpool, _⟩ := hi.obeys r hr
  have hg := (prepare_outcome files plan.upstreams hplan.binds h.stage).1
  rw [hset, hpool]
  exact ⟨getElem?_of_start hg.sets hset, getElem?_of_start hg.pools hpool⟩

end

/-! One backend behind a socket, loaded with the default weight and with another. -/

namespace Sample
open Frontend.Sample

/-- `endpoint` with its `weight`. -/
def weighedNode (n : Node) : Decode EndpointNode :=
  match n.args.head?.bind Value.asStr with
  | some address => .ok ⟨address, none, if (n.prop "weight").isSome then 5 else 1, I32.zero⟩
  | none => .fail (.error .argumentCount n.origin "`endpoint` needs an address")

def weighed (weight : U32) : Upstream :=
  { backend (.unix "80") with endpoints := [⟨"unix:80", .unix "80", weight, I32.zero, here⟩] }

def transports : List (List UInt8 × Fingerprint) :=
  let endpoint := digest 0x23f49b64770e0587b5ff48d37f322d4d57a0720f82219f36ff2f7f56f21d66f7
  [(words ["unix:80", "unix:80"], endpoint),
    ((transportStream (fun _ => endpoint) (weighed 1) .new).written,
      digest 0x44feadebfe57c5290af97db92adc14a9060293a21826e6e890fe11bc6850f761)]

def transportDigests : Digest := digestsOf (transports ++ flat)

def weighedFe : Frontend :=
  { frontend transportDigests with upstreamNodes := { (frontend transportDigests).upstreamNodes with endpoint := weighedNode } }

def transported : Set (List UInt8) := {w | w ∈ transports.map Prod.fst}

def five : Property := ⟨"weight", ⟨.int ⟨5, by decide, by decide⟩, here⟩, here⟩

/-- The backend with or without a `weight`, and the site in front of it. -/
def weighedNodes (props : List Property) : List Node :=
  [globalNode, node "upstream" ["backend"] [⟨"endpoint", [text "unix:80"], props, [], here⟩],
    node "site" ["example.com"] [node "route" ["/"] [proxyNode]]]

def weighedPlan (weight : U32) : Plan :=
  compile transportDigests ⟨.default, [listener], [site], [weighed weight]⟩ weighedFe.registry

def noFiles : TlsFiles := fun _ _ => .error "no files"

theorem transports_evaluated : (((transports ++ flat).map Prod.snd).Nodup ∧ ∀ x ∈ transports.map Prod.fst, x.length < 2 ^ 64) ∧
    (transportStream transportDigests (weighed 1) .new).written ∈ transports.map Prod.fst ∧
    (transportStream transportDigests (weighed 5) .new).written ∈ transports.map Prod.fst := by decide

theorem weighed_normalized :
    (normalize weighedFe (snapshot (weighedNodes []))).toOption = some ⟨.default, [listener], [site], [weighed 1]⟩ ∧
      (normalize weighedFe (snapshot (weighedNodes [five]))).toOption = some ⟨.default, [listener], [site], [weighed 5]⟩ := by
  decide +kernel

theorem transportsApart : Apart weighedFe.blake3 transported := by
  have hmem : ∀ x ∈ transports.map Prod.fst, x ∈ (transports ++ flat).map Prod.fst := by
    intro x hx
    rw [List.map_append]
    exact List.mem_append_left _ hx
  obtain ⟨hnodup, hshort⟩ := transports_evaluated.1
  exact ⟨fun x hx y hy => lookup_inj hnodup x (hmem x hx) y (hmem y hy), hshort⟩

theorem weighed_compiled (props : List Property) {weight : U32}
    (h : (normalize weighedFe (snapshot (weighedNodes props))).toOption =
      some ⟨.default, [listener], [site], [weighed weight]⟩)
    (ht : (transportStream transportDigests (weighed weight) .new).written ∈ transports.map Prod.fst) :
    Compiled weighedFe transported (weighedPlan weight) := by
  refine ⟨_, _, ok_of_toOption h, rfl, ?_⟩
  intro u hu
  obtain rfl := List.mem_singleton.mp hu
  refine ⟨?_, ht⟩
  intro e he
  obtain rfl := List.mem_singleton.mp he
  exact List.mem_cons_self

theorem light_compiled : Compiled weighedFe transported (weighedPlan 1) :=
  weighed_compiled [] weighed_normalized.1 transports_evaluated.2.1

theorem heavy_compiled : Compiled weighedFe transported (weighedPlan 5) :=
  weighed_compiled [five] weighed_normalized.2 transports_evaluated.2.2

end Sample

open Sample in
/-- A reload of the same backend, with a candidate of another weight dropped in between. -/
theorem published_obeys_reloaded :
    (run (Host.step weighedFe.blake3) .start
      [.publish (weighedPlan 1) noFiles, .abandon (weighedPlan 5) noFiles, .resolve (weighedPlan 1) noFiles]).Obeys := by
  refine (published_obeys weighedFe transported transportsApart
    [.publish (weighedPlan 1) noFiles, .abandon (weighedPlan 5) noFiles, .resolve (weighedPlan 1) noFiles]
    ?_ ?_ _ List.prefix_rfl).2.1
  · intro load hload plan hp
    simp only [List.mem_cons, List.not_mem_nil, or_false] at hload
    obtain rfl | rfl | rfl := hload
    · cases hp
      exact light_compiled
    · cases hp
      exact heavy_compiled
    · cases hp
      exact light_compiled
  · intro before load after he v hv u hu _
    have hlight : ∀ w ∈ ([.publish (weighedPlan 1) noFiles, .abandon (weighedPlan 5) noFiles,
        .resolve (weighedPlan 1) noFiles] : List Load).flatMap Load.bound, w = weighed 1 := by
      intro w hw
      have hb : ([.publish (weighedPlan 1) noFiles, .abandon (weighedPlan 5) noFiles,
        .resolve (weighedPlan 1) noFiles] : List Load).flatMap Load.bound = [weighed 1, weighed 1] := rfl
      rw [hb] at hw
      simpa using hw
    rw [he, List.flatMap_append, List.flatMap_cons] at hlight
    obtain rfl := hlight v (by simp [hv])
    obtain rfl := hlight u (List.mem_append_left _ (List.mem_reverse.mp (mem_of_lastOf hu)))
    exact ⟨.refl _, rfl, rfl⟩

open Sample in
/-- A reload that only changes a weight keeps the set with the old one. -/
theorem reload_keeps_old_weight :
    Apart weighedFe.blake3 transported ∧ Compiled weighedFe transported (weighedPlan 1) ∧
      Compiled weighedFe transported (weighedPlan 5) ∧
      currentSpecs [.publish (weighedPlan 1) noFiles, .publish (weighedPlan 5) noFiles] = [weighed 5] ∧
      ¬ (run (Host.step weighedFe.blake3) .start
        [.publish (weighedPlan 1) noFiles, .publish (weighedPlan 5) noFiles]).Obeys := by
  refine ⟨transportsApart, light_compiled, heavy_compiled, rfl, ?_⟩
  intro h
  have hstate : (run (Host.step weighedFe.blake3) .start
      [.publish (weighedPlan 1) noFiles, .publish (weighedPlan 5) noFiles]).published = [⟨weighed 5, 0, 0, 0⟩] ∧
      (run (Host.step weighedFe.blake3) .start
        [.publish (weighedPlan 1) noFiles, .publish (weighedPlan 5) noFiles]).stage.heap.sets = [.new (weighed 1)] := by
    decide
  obtain ⟨⟨set, hset, hf⟩, _⟩ := h ⟨weighed 5, 0, 0, 0⟩ (by rw [hstate.1]; exact List.mem_singleton_self _)
  rw [hstate.2] at hset
  obtain rfl := Option.some.inj hset
  have hw := hf.weights
  revert hw
  decide

end Gatel.State
