import Gatel.Model.HashExact
import Gatel.Model.NetText
import Gatel.Plan.Upstream

namespace Gatel
open Hasher (Codes Ends Apart)
open Shuffle (Shuffled)

/-! What the writes of an upstream say about it. -/

theorem append_left_inj {a b c : String} (h : a ++ b = a ++ c) : b = c := by
  have hl := congrArg String.toList h
  rw [String.toList_append, String.toList_append] at hl
  exact toList_inj (List.append_cancel_left hl)

theorem append_right_inj {a b c : String} (h : a ++ c = b ++ c) : a = b := by
  have hl := congrArg String.toList h
  rw [String.toList_append, String.toList_append] at hl
  exact toList_inj (List.append_cancel_right hl)

theorem ResourceKind.asStr_inj {a b : ResourceKind} (h : a.asStr = b.asStr) : a = b := by
  cases a <;> cases b <;> simp_all [ResourceKind.asStr]

theorem ResourceId.codes : Codes (fun _ => True) ResourceId.hashInto (· = ·) := by
  refine ((Codes.str.on fun id : ResourceId => id.kind.asStr).seq (Codes.str.on ResourceId.name)).imp
    (fun _ _ => ⟨trivial, trivial⟩) ?_ ?_
  · intro a b _ _ h
    obtain ⟨hk, hn⟩ := h
    cases a; cases b
    rw [ResourceId.mk.injEq]
    exact ⟨ResourceKind.asStr_inj hk, hn⟩
  · intro a b h
    rw [h]
    exact ⟨rfl, rfl⟩

theorem SecretRef.display_inj {a b : SecretRef} (h : a.display = b.display) : a = b := by
  have hne : ∀ x y : String, "env:" ++ x ≠ "file:" ++ y := by
    intro x y he
    have hl := congrArg (fun s : String => s.toList.head?) he
    simp at hl
  match a, b with
  | .env x, .env y => rw [append_left_inj h]
  | .file x, .file y => rw [append_left_inj h]
  | .env x, .file y => exact absurd h (hne x y)
  | .file x, .env y => exact absurd h.symm (hne y x)

theorem SecretRef.codes : Codes (fun _ => True) SecretRef.hashInto (· = ·) := by
  refine (Codes.str.on SecretRef.display).imp (fun _ h => h) ?_ ?_
  · intro a b _ _ h
    exact SecretRef.display_inj h
  · intro a b h
    rw [h]

/-- Printed alike. -/
def Target.SameText (a b : Target) : Prop := a.describe = b.describe

theorem Balance.describe_inj {a b : Balance} (h : a.describe = b.describe) : a = b := by
  have hinit := congrArg (fun s : String => s.toList.head?) h
  cases a <;> cases b
  case headerHash.headerHash x y => rw [append_left_inj (append_right_inj h)]
  case cookieHash.cookieHash x y => rw [append_left_inj (append_right_inj h)]
  -- no other strategy starts with the letter of a keyed one
  all_goals first | rfl | (simp [describe] at hinit; done) | simp [describe] at h

theorem Balance.codes : Codes (fun _ => True) Balance.hashInto (· = ·) := by
  refine (Codes.str.on Balance.describe).imp (fun _ h => h) ?_ ?_
  · intro a b _ _ h
    exact Balance.describe_inj h
  · intro a b h
    rw [h]

/-- The same backend, its target up to `τ`; the origin is not part of it. -/
structure Endpoint.Agree (τ : Target → Target → Prop) (a b : Endpoint) : Prop where
  id : a.id = b.id
  target : τ a.target b.target
  weight : a.weight = b.weight
  priority : a.priority = b.priority

theorem U32.toU64_inj {a b : U32} (h : a.toU64 = b.toU64) : a = b := by
  simp only [U32.toU64, Fin.mk.injEq] at h
  exact Fin.ext h

theorem I32.toI64_inj {a b : I32} (h : a.toI64 = b.toI64) : a = b := by
  cases a; cases b
  simp only [I32.toI64, I64.mk.injEq] at h
  simpa using h

theorem Endpoint.codes : Codes (fun _ => True) Endpoint.hashInto (Endpoint.Agree Target.SameText) := by
  refine ((((Codes.str.on Endpoint.id).seq (Codes.str.on fun e : Endpoint => e.target.describe)).seq
    (Codes.u64.on fun e : Endpoint => e.weight.toU64)).seq (Codes.i64.on fun e : Endpoint => e.priority.toI64)).imp
      (fun _ _ => ⟨⟨⟨trivial, trivial⟩, trivial⟩, trivial⟩) ?_ ?_
  · intro a b _ _ h
    obtain ⟨⟨⟨hi, ht⟩, hw⟩, hp⟩ := h
    exact ⟨hi, ht, U32.toU64_inj hw, I32.toI64_inj hp⟩
  · intro a b h
    exact ⟨⟨⟨h.id, h.target⟩, by rw [h.weight]⟩, by rw [h.priority]⟩

theorem Timeouts.codes : Codes (fun _ => True) Timeouts.hashInto (· = ·) := by
  refine (((((((Codes.duration.on Timeouts.queue).seq (Codes.duration.on Timeouts.connect)).seq
    (Codes.duration.on Timeouts.responseHead)).seq (Codes.duration.on Timeouts.bodyIdle)).seq
    (Codes.duration.on Timeouts.overall)).seq (Codes.duration.on Timeouts.upgradeIdle)).seq
    (Codes.duration.on Timeouts.upgradeDuration)).imp (fun _ _ => by simp) ?_ ?_
  · intro a b _ _ h
    obtain ⟨⟨⟨⟨⟨⟨h1, h2⟩, h3⟩, h4⟩, h5⟩, h6⟩, h7⟩ := h
    cases a; cases b
    rw [Timeouts.mk.injEq]
    exact ⟨h1, h2, h3, h4, h5, h6, h7⟩
  · intro a b h
    simp [h]

theorem Pool.codes : Codes (fun _ => True) Pool.hashInto (· = ·) := by
  refine (((((((Codes.u64.on fun p : Pool => p.maxPerEndpoint.toU64).seq
    (Codes.u64.on fun p : Pool => p.maxIdlePerEndpoint.toU64)).seq (Codes.duration.on Pool.idleTimeout)).seq
    (Codes.duration.on Pool.maxLifetime)).seq (Codes.u64.on fun p : Pool => p.maxWaiters.toU64)).seq
    (Codes.u64.on fun p : Pool => p.maxH2StreamsPerConnection.toU64)).seq
    (Codes.u64.on fun p : Pool => p.maxH2StreamsPerEndpoint.toU64)).imp (fun _ _ => by simp) ?_ ?_
  · intro a b _ _ h
    obtain ⟨⟨⟨⟨⟨⟨h1, h2⟩, h3⟩, h4⟩, h5⟩, h6⟩, h7⟩ := h
    cases a; cases b
    rw [Pool.mk.injEq]
    exact ⟨U32.toU64_inj h1, U32.toU64_inj h2, h3, h4, U32.toU64_inj h5, U32.toU64_inj h6, U32.toU64_inj h7⟩
  · intro a b h
    simp [h]

theorem RetryMode.asStr_inj {a b : RetryMode} (h : a.asStr = b.asStr) : a = b := by
  cases a <;> cases b <;> simp_all [RetryMode.asStr]

theorem Retry.codes : Codes (fun _ => True) Retry.hashInto (· = ·) := by
  refine (((((Codes.str.on fun r : Retry => r.mode.asStr).seq (Codes.u64.on fun r : Retry => r.attempts.toU64)).seq
    (Codes.duration.on Retry.perTry)).seq (Codes.u64.on Retry.buffer)).seq
    (Codes.u64.on fun r : Retry => r.budgetPercent.toU64)).imp (fun _ _ => by simp) ?_ ?_
  · intro a b _ _ h
    obtain ⟨⟨⟨⟨h1, h2⟩, h3⟩, h4⟩, h5⟩ := h
    cases a; cases b
    rw [Retry.mk.injEq]
    exact ⟨RetryMode.asStr_inj h1, U32.toU64_inj h2, h3, h4, U32.toU64_inj h5⟩
  · intro a b h
    simp [h]

theorem optionRel_eq {α : Type} {a b : Option α} : Option.Rel (· = ·) a b ↔ a = b := by
  constructor
  · intro h
    cases h with
    | none => rfl
    | some h => rw [h]
  · intro h
    subst h
    cases a with
    | none => exact .none
    | some s => exact .some rfl

/-- An optional part that is compared as it is. -/
theorem Codes.optionEq {α : Type} {P : α → Prop} {w : α → Hasher → Hasher} (h : Codes P w (· = ·))
    (ht : ∀ a, ∃ t, (w a .new).written.head? = some t ∧ t ≠ 7) :
    Codes (fun o : Option α => ∀ a ∈ o, P a) (fun o g => Hasher.updateOption w g o) (· = ·) :=
  (h.option ht).imp (fun _ h => h) (fun _ _ _ _ h => optionRel_eq.1 h) fun _ _ h => optionRel_eq.2 h

theorem Codes.optStr : Codes (fun _ => True) (fun o g => Hasher.updateOptStr g o) (· = ·) := by
  have he : (fun (o : Option String) (g : Hasher) => g.updateOptStr o) =
      fun o g => g.updateOption (fun s h => Hasher.updateStr h s) o := by
    funext o g
    cases o <;> rfl
  rw [he]
  exact (Codes.optionEq Codes.str fun s => ⟨1, rfl, by decide⟩).imp (fun _ _ _ _ => trivial) (fun _ _ _ _ h => h)
    fun _ _ h => h

/-- The word a probe starts with. -/
def HealthKind.word : HealthKind → String
  | .tcpConnect => "tcp"
  | .http .. => "http"

def HealthKind.rest : HealthKind → Hasher → Hasher
  | .tcpConnect, h => h
  | .http path status host, h => ((h.updateStr path).updateU64 (Fin.ofNat _ status.toNat)).updateOptStr host

theorem U16.toU64_inj {a b : UInt16} (h : (Fin.ofNat (2 ^ 64) a.toNat) = Fin.ofNat (2 ^ 64) b.toNat) : a = b := by
  have hv := congrArg Fin.val h
  have ha := a.toNat_lt
  have hb := b.toNat_lt
  simp only [Fin.val_ofNat] at hv
  apply UInt16.toNat_inj.mp
  omega

theorem HealthKind.codes : Codes (fun _ => True) (fun k h => HealthKind.rest k (h.updateStr (HealthKind.word k)))
    (· = ·) := by
  have hhttp : Codes (fun _ => True)
      (fun (k : String × UInt16 × Option String) h => HealthKind.rest (.http k.1 k.2.1 k.2.2) h) (· = ·) := by
    refine (((Codes.str.on Prod.fst).seq
      (Codes.u64.on fun k : String × UInt16 × Option String => Fin.ofNat _ k.2.1.toNat)).seq
      (Codes.optStr.on fun k : String × UInt16 × Option String => k.2.2)).imp (fun _ _ => by simp) ?_ ?_
    · intro a b _ _ h
      obtain ⟨⟨h1, h2⟩, h3⟩ := h
      exact Prod.ext h1 (Prod.ext (U16.toU64_inj h2) h3)
    · intro a b h
      simp [h]
  refine ((Codes.str.on HealthKind.word).andThen (v := HealthKind.rest) (S := (· = ·)) ?_ ?_ ?_).imp
    (fun _ h => h) (fun _ _ _ _ h => h.2) ?_
  · intro k g
    cases k with
    | tcpConnect => simp [rest, Hasher.new]
    | http path status host => exact hhttp.append (path, status, host) g
  · intro a b g _ h
    rw [h]
  · intro a b r r' _ _ hw he hl
    cases a with
    | tcpConnect =>
      cases b with
      | tcpConnect => exact ⟨rfl, by simpa [rest, Hasher.new] using he⟩
      | http => simp [word] at hw
    | http path status host =>
      cases b with
      | tcpConnect => simp [word] at hw
      | http path' status' host' =>
        obtain ⟨hk, hr⟩ := hhttp.reads (path, status, host) (path', status', host') r r' trivial trivial he hl
        cases hk
        exact ⟨rfl, hr⟩
  · intro a b h
    exact ⟨by rw [h], h⟩

theorem Health.head (p : Health) : (p.hashInto .new).written.head? = some 1 := by
  obtain ⟨kind, interval, timeout, healthy, unhealthy, jitter⟩ := p
  match kind with
  | .tcpConnect => rfl
  | .http _ _ none => rfl
  | .http _ _ (some _) => rfl

theorem Health.codes : Codes (fun _ => True) Health.hashInto (· = ·) := by
  have he : Health.hashInto = fun p h => ((((((p.kind.rest (h.updateStr p.kind.word)).updateDuration p.interval)
      ).updateDuration p.timeout).updateU64 p.healthyThreshold.toU64).updateU64 p.unhealthyThreshold.toU64
      ).updateDuration p.jitter := by
    funext p h
    unfold Health.hashInto
    cases p.kind <;> rfl
  rw [he]
  refine ((((((HealthKind.codes.on Health.kind).seq (Codes.duration.on Health.interval)).seq
    (Codes.duration.on Health.timeout)).seq (Codes.u64.on fun p : Health => p.healthyThreshold.toU64)).seq
    (Codes.u64.on fun p : Health => p.unhealthyThreshold.toU64)).seq (Codes.duration.on Health.jitter)).imp
    (fun _ _ => by simp) ?_ ?_
  · intro a b _ _ h
    obtain ⟨⟨⟨⟨⟨h1, h2⟩, h3⟩, h4⟩, h5⟩, h6⟩ := h
    cases a; cases b
    rw [Health.mk.injEq]
    exact ⟨h1, h2, h3, U32.toU64_inj h4, U32.toU64_inj h5, h6⟩
  · intro a b h
    simp [h]

def statusWrite (status : UInt16) (h : Hasher) : Hasher := h.updateU64 (Fin.ofNat _ status.toNat)

theorem status_codes : Codes (fun _ => True) statusWrite (· = ·) := by
  refine (Codes.u64.on fun s : UInt16 => Fin.ofNat _ s.toNat).imp (fun _ h => h) ?_ ?_
  · intro a b _ _ h
    exact U16.toU64_inj h
  · intro a b h
    rw [h]

/-- The streams hashed on the way are in `D`. -/
def PassiveHealth.HashedIn (D : Set (List UInt8)) (p : PassiveHealth) : Prop :=
  ∀ s ∈ p.unhealthyStatus, (statusWrite s .new).written ∈ D

variable {blake3 : Digest} {D : Set (List UInt8)}

theorem PassiveHealth.codes (hd : Apart blake3 D) :
    Codes (PassiveHealth.HashedIn D) (PassiveHealth.hashInto blake3) (· = ·) := by
  refine ((((Codes.u64.on fun p : PassiveHealth => p.maxFails.toU64).seq (Codes.duration.on PassiveHealth.window)).seq
    (Codes.duration.on PassiveHealth.cooldown)).seq
    ((Codes.ordered hd status_codes.ends).on PassiveHealth.unhealthyStatus)).imp ?_ ?_ ?_
  · intro p h
    exact ⟨⟨⟨trivial, trivial⟩, trivial⟩, fun s hs => ⟨trivial, h s hs⟩⟩
  · intro a b _ _ h
    obtain ⟨⟨⟨h1, h2⟩, h3⟩, h4⟩ := h
    rw [List.forall₂_eq_eq_eq] at h4
    cases a; cases b
    rw [PassiveHealth.mk.injEq]
    exact ⟨U32.toU64_inj h1, h2, h3, h4⟩
  · intro a b h
    subst h
    exact ⟨⟨⟨rfl, rfl⟩, rfl⟩, List.forall₂_same.mpr fun _ _ => rfl⟩

theorem UpstreamTls.head (t : UpstreamTls) : (t.hashInto .new).written.head? = some 1 := by
  obtain ⟨name, ca, cert, key⟩ := t
  cases ca <;> cases cert <;> cases key <;> rfl

theorem UpstreamTls.codes : Codes (fun _ => True) UpstreamTls.hashInto (· = ·) := by
  have hs : Codes (fun _ => True) (fun o g => Hasher.updateOption SecretRef.hashInto g o) (· = ·) :=
    (Codes.optionEq SecretRef.codes fun s => ⟨1, rfl, by decide⟩).imp (fun _ _ _ _ => trivial) (fun _ _ _ _ h => h)
      fun _ _ h => h
  refine ((((Codes.str.on UpstreamTls.serverName).seq (hs.on UpstreamTls.ca)).seq (hs.on UpstreamTls.clientCert)).seq
    (hs.on UpstreamTls.clientKey)).imp (fun _ _ => by simp) ?_ ?_
  · intro a b _ _ h
    obtain ⟨⟨⟨h1, h2⟩, h3⟩, h4⟩ := h
    cases a; cases b
    rw [UpstreamTls.mk.injEq]
    exact ⟨h1, h2, h3, h4⟩
  · intro a b h
    simp [h]

theorem Family.asStr_inj {a b : Family} (h : a.asStr = b.asStr) : a = b := by
  cases a <;> cases b <;> simp_all [Family.asStr]

theorem Resolve.codes : Codes (fun _ => True) Resolve.hashInto (· = ·) := by
  refine (((Codes.duration.on Resolve.interval).seq (Codes.duration.on Resolve.timeout)).seq
    (Codes.str.on fun r : Resolve => r.family.asStr)).imp (fun _ _ => by simp) ?_ ?_
  · intro a b _ _ h
    obtain ⟨⟨h1, h2⟩, h3⟩ := h
    cases a; cases b
    rw [Resolve.mk.injEq]
    exact ⟨h1, h2, Family.asStr_inj h3⟩
  · intro a b h
    simp [h]

theorem UpstreamProtocol.rank_inj {a b : UpstreamProtocol} (h : a.rank = b.rank) : a = b := by
  cases a <;> cases b <;> simp_all [UpstreamProtocol.rank]

namespace Upstream

/-- The same upstream: its endpoints in any order, their targets up to `τ`, and
every other setting; the origin is not part of it. -/
structure Agree (τ : Target → Target → Prop) (a b : Upstream) : Prop where
  id : a.id = b.id
  endpoints : Shuffled (Endpoint.Agree τ) a.endpoints b.endpoints
  balance : a.balance = b.balance
  timeouts : a.timeouts = b.timeouts
  pool : a.pool = b.pool
  retry : a.retry = b.retry
  health : a.health = b.health
  passiveHealth : a.passiveHealth = b.passiveHealth
  protocol : a.protocol = b.protocol
  tls : a.tls = b.tls
  resolve : a.resolve = b.resolve

/-- The streams hashed on the way are in `D`. -/
structure HashedIn (D : Set (List UInt8)) (u : Upstream) : Prop where
  endpoints : ∀ e ∈ u.endpoints, (e.hashInto .new).written ∈ D
  passive : ∀ p ∈ u.passiveHealth, p.HashedIn D

theorem codes (hd : Apart blake3 D) :
    Codes (HashedIn D) (hashInto blake3) (Agree Target.SameText) := by
  have hretry := Codes.optionEq Retry.codes fun r => ⟨1, rfl, by decide⟩
  have hhealth := Codes.optionEq Health.codes fun p => ⟨1, p.head, by decide⟩
  have hpassive := Codes.optionEq (PassiveHealth.codes hd) fun p => ⟨2, rfl, by decide⟩
  have htls := Codes.optionEq UpstreamTls.codes fun t => ⟨1, t.head, by decide⟩
  refine (((((((((((ResourceId.codes.on Upstream.id).seq
    ((Codes.unordered hd Endpoint.codes.ends).on fun u : Upstream => u.endpoints)).seq
    (Balance.codes.on fun u : Upstream => u.balance)).seq (Timeouts.codes.on fun u : Upstream => u.timeouts)).seq
    (Pool.codes.on fun u : Upstream => u.pool)).seq (hretry.on fun u : Upstream => u.retry)).seq
    (hhealth.on fun u : Upstream => u.health)).seq (hpassive.on fun u : Upstream => u.passiveHealth)).seq
    (Codes.u64.on fun u : Upstream => u.protocol.rank)).seq (htls.on fun u : Upstream => u.tls)).seq
    (Resolve.codes.on fun u : Upstream => u.resolve)).imp ?_ ?_ ?_
  · intro u h
    simp only [true_and, and_true, implies_true]
    exact ⟨h.endpoints, h.passive⟩
  · intro a b _ _ h
    obtain ⟨⟨⟨⟨⟨⟨⟨⟨⟨⟨h1, h2⟩, h3⟩, h4⟩, h5⟩, h6⟩, h7⟩, h8⟩, h9⟩, h10⟩, h11⟩ := h
    exact ⟨h1, h2, h3, h4, h5, h6, h7, h8, UpstreamProtocol.rank_inj h9, h10, h11⟩
  · intro a b h
    obtain ⟨h1, h2, h3, h4, h5, h6, h7, h8, h9, h10, h11⟩ := h
    exact ⟨⟨⟨⟨⟨⟨⟨⟨⟨⟨h1, h2⟩, h3⟩, h4⟩, h5⟩, h6⟩, h7⟩, h8⟩, by rw [h9]⟩, h10⟩, h11⟩

end Upstream

end Gatel
