import Gatel.Plan.FingerprintExact
import Gatel.Plan.Reorder

namespace Gatel
open CanonicalSort (mem_sortBy)
open Hasher (Codes Ends Apart)
open KeepFirst (Event record declared offered)
open Shuffle (Shuffled)

/-! The fingerprint of a whole specification, and exactly what it does not see. -/

namespace Spec

/-- What the fingerprint is the digest of. -/
def write (blake3 : Digest) (s : Spec) (h : Hasher) : Hasher :=
  let h := s.global.hashInto blake3 (h.updateStr "gatel.spec.v2")
  let h := h.updateUnordered blake3 s.listeners fun l h => l.hashInto (h.updateStr l.owner.display)
  let h := h.updateUnordered blake3 s.sites fun site h =>
    site.hashInto blake3 (h.updateStr site.owner.display)
  h.updateUnordered blake3 s.upstreams fun u h => u.hashInto blake3 (h.updateStr u.owner.display)

theorem fingerprint_eq_finish (blake3 : Digest) (s : Spec) :
    s.fingerprint blake3 = (s.write blake3 .new).finish blake3 := rfl

/-- The same configuration, the targets of its endpoints up to `τ`; every collection
hashed as unordered may come in another order. -/
structure Agree (τ : Target → Target → Prop) (a b : Spec) : Prop where
  global : a.global.Agree b.global
  listeners : Shuffled Listener.Agree a.listeners b.listeners
  sites : Shuffled Site.Agree a.sites b.sites
  upstreams : Shuffled (fun u v => u.owner = v.owner ∧ Upstream.Agree τ u v) a.upstreams b.upstreams

structure Formed (registry : Registry) (s : Spec) : Prop where
  global : s.global.Formed
  sites : ∀ site ∈ s.sites, site.Formed registry

/-- Every stream the fingerprint hashes, its own included, is in `D`. -/
structure HashedIn (blake3 : Digest) (D : Set (List UInt8)) (s : Spec) : Prop where
  global : s.global.HashedIn D
  listeners : ∀ l ∈ s.listeners, (l.hashInto (Hasher.new.updateStr l.owner.display)).written ∈ D
  sites : ∀ site ∈ s.sites, site.HashedIn blake3 D ∧
    (site.hashInto blake3 (Hasher.new.updateStr site.owner.display)).written ∈ D
  upstreams : ∀ u ∈ s.upstreams, u.HashedIn D ∧
    (u.hashInto blake3 (Hasher.new.updateStr u.owner.display)).written ∈ D
  whole : (s.write blake3 .new).written ∈ D

variable {blake3 : Digest} {D : Set (List UInt8)}

theorem owned_upstream_codes (hd : Apart blake3 D) :
    Codes (Upstream.HashedIn D) (fun u h => Upstream.hashInto blake3 u (h.updateStr u.owner.display))
      fun u v => u.owner = v.owner ∧ Upstream.Agree Target.SameText u v := by
  refine ((Codes.str.on fun u : Upstream => u.owner.display).seq (Upstream.codes hd)).imp ?_ ?_ ?_
  · exact fun _ h => ⟨trivial, h⟩
  · intro a b _ _ h
    exact ⟨SourceId.display_inj h.1, h.2⟩
  · intro a b h
    exact ⟨by rw [h.1], h.2⟩

theorem ends (registry : Registry) (hd : Apart blake3 D) :
    Ends (fun s => Formed registry s ∧ s.HashedIn blake3 D) (write blake3) (Agree Target.SameText) := by
  refine (((((Codes.str.on fun _ : Spec => "gatel.spec.v2").seq ((Global.codes hd).on Spec.global)).seq
    ((Codes.unordered hd Listener.codes.ends).on Spec.listeners)).seq
    ((Codes.unordered hd (Site.codes registry hd).ends).on Spec.sites)).seq
    ((Codes.unordered hd (owned_upstream_codes hd).ends).on Spec.upstreams)).ends.imp ?_ ?_ ?_
  · intro s h
    obtain ⟨hf, hh⟩ := h
    refine ⟨⟨⟨⟨trivial, hf.global, hh.global⟩, ?_⟩, ?_⟩, hh.upstreams⟩
    · exact fun l hl => ⟨trivial, hh.listeners l hl⟩
    · exact fun site hs => ⟨⟨hf.sites site hs, (hh.sites site hs).1⟩, (hh.sites site hs).2⟩
  · intro a b _ _ h
    obtain ⟨⟨⟨⟨_, h2⟩, h3⟩, h4⟩, h5⟩ := h
    exact ⟨h2, h3, h4, h5⟩
  · intro a b h
    exact ⟨⟨⟨⟨rfl, h.global⟩, h.listeners⟩, h.sites⟩, h.upstreams⟩

/-- The fingerprint sees every field, and of a target what it prints as. -/
theorem fingerprint_eq_iff {registry : Registry} (hd : Apart blake3 D) {a b : Spec} (ha : a.Formed registry)
    (hb : b.Formed registry) (hha : a.HashedIn blake3 D) (hhb : b.HashedIn blake3 D) :
    a.fingerprint blake3 = b.fingerprint blake3 ↔ a.Agree Target.SameText b := by
  rw [fingerprint_eq_finish, fingerprint_eq_finish]
  constructor
  · intro h
    have hw := hd.inj hha.whole hhb.whole h
    exact (ends registry hd).whole a b ⟨ha, hha⟩ ⟨hb, hhb⟩ hw (hd.short _ hha.whole)
  · intro h
    rw [(ends registry hd).same a b .new h]

end Spec

/-! Two targets that print alike are one, unless exactly one of them is a name. -/

theorem SocketAddr.toText_ne_unix (addr : SocketAddr) (path : String) : addr.toText ≠ "unix:" ++ path := by
  intro h
  have hu : 'u' ∈ addr.toText.toList := by
    rw [h]
    simp
  have hip : 'u' ∉ addr.ip.toText.toList := IpAddr.not_mem_toText (by decide) (by decide) (by decide)
  have hdigits : ∀ n : Nat, 'u' ∉ Nat.toDigits 10 n := fun n =>
    Separated.not_mem_toDigits (by decide) (by decide) (by decide)
  unfold SocketAddr.toText at hu
  split at hu
  · simp [hip, hdigits] at hu
  · dsimp only at hu
    split at hu
    · simp [hip, hdigits] at hu
    · simp [hip, hdigits] at hu

theorem Target.name_inj {host host' : String} {port port' : UInt16}
    (h : (Target.name host port).describe = (Target.name host' port').describe) :
    Target.name host port = .name host' port' := by
  have hcolon : ∀ p : UInt16, ':' ∉ (toString p.toNat).toList.reverse := by
    intro p
    rw [List.mem_reverse]
    exact not_mem_toString (by decide)
  have hl := congrArg (fun s : String => s.toList.reverse) h
  simp only [Target.describe, String.toList_append, List.reverse_append] at hl
  -- the port is what stands behind the last colon
  obtain ⟨hp, hh⟩ := Separated.split_inj (hcolon port) (hcolon port') hl
  have hport : port = port' := UInt16.toNat_inj.mp (toString_inj (toList_inj (List.reverse_inj.mp hp)))
  rw [hport, toList_inj (List.reverse_inj.mp hh)]

theorem Target.eq_of_sameText {a b : Target} (h : a.SameText b) (hk : a.isName = b.isName) : a = b := by
  match a, b with
  | .address x, .address y => rw [SocketAddr.toText_inj h]
  | .name x p, .name y q => exact Target.name_inj h
  | .unix x, .unix y => rw [append_left_inj h]
  | .address x, .unix y => exact absurd h (x.toText_ne_unix y)
  | .unix x, .address y => exact absurd h.symm (y.toText_ne_unix x)
  | .address x, .name y q => cases hk
  | .name x p, .address y => cases hk
  | .name x p, .unix y => cases hk
  | .unix x, .name y q => cases hk

/-- One endpoint of both, a name in one and an address or a socket path in the other,
that prints the same text. -/
def Spec.Twinned (a b : Spec) : Prop :=
  ∃ u ∈ a.upstreams, ∃ v ∈ b.upstreams, u.id = v.id ∧ ∃ e ∈ u.endpoints, ∃ e' ∈ v.endpoints,
    e.id = e'.id ∧ e.target.describe = e'.target.describe ∧ e.target.isName ≠ e'.target.isName

/-- Nothing is repeated that a merge or a lookup goes by. -/
structure Spec.Distinct (s : Spec) : Prop where
  upstreams : (s.upstreams.map fun u => u.id.name).Nodup
  endpoints : ∀ u ∈ s.upstreams, u.Distinct

namespace Spec

theorem agree_of_not_twinned {a b : Spec} (h : a.Agree Target.SameText b) (ht : ¬ a.Twinned b) :
    a.Agree (· = ·) b := by
  refine ⟨h.global, h.listeners, h.sites, h.upstreams.imp_mem ?_⟩
  intro u hu v hv huv
  obtain ⟨ho, hag⟩ := huv
  refine ⟨ho, { hag with endpoints := hag.endpoints.imp_mem ?_ }⟩
  intro e he e' he' hee
  refine { hee with target := Target.eq_of_sameText hee.target ?_ }
  by_contra hk
  exact ht ⟨u, hu, v, hv, hag.id, e, he, e', he', hee.id, hee.target, hk⟩

theorem Agree.sameText {a b : Spec} (h : a.Agree (· = ·) b) : a.Agree Target.SameText b := by
  refine ⟨h.global, h.listeners, h.sites, h.upstreams.imp_mem ?_⟩
  intro u _ v _ huv
  refine ⟨huv.1, { huv.2 with endpoints := huv.2.endpoints.imp_mem ?_ }⟩
  intro e _ e' _ hee
  refine { hee with target := ?_ }
  rw [hee.target]
  rfl

/-- In one configuration, identities find the endpoint again. -/
theorem not_twinned_of_agree {a b : Spec} (hb : b.Distinct) (h : a.Agree (· = ·) b) : ¬ a.Twinned b := by
  rintro ⟨u, hu, v, hv, hid, e, he, e', he', heid, _, hk⟩
  obtain ⟨v', hv', ho, hag⟩ := h.upstreams.exists_of_mem hu
  obtain rfl : v' = v := by
    refine List.inj_on_of_nodup_map hb.upstreams hv' hv ?_
    rw [← hag.id, hid]
  obtain ⟨e'', he'', hee⟩ := hag.endpoints.exists_of_mem he
  obtain rfl : e'' = e' := by
    refine List.inj_on_of_nodup_map (hb.endpoints v' hv) he'' he' ?_
    rw [← hee.id, heid]
  exact hk (by rw [hee.target])

end Spec

theorem Site.Decoded.formed {fe : Frontend} {s : Site} (h : s.Decoded fe) : s.Formed fe.registry := by
  obtain ⟨raw, hraw⟩ := h.host
  refine ⟨HostMatch.parsed_of_parse hraw, fun d hd => (h.directives d hd).registered, ?_⟩
  intro r hr
  have hrd := h.routes r hr
  refine ⟨?_, hrd.matchers, fun d hd => (hrd.directives d hd).registered,
    fun d hd => (hrd.terminal d hd).registered⟩
  obtain hm | ⟨names, hm⟩ := hrd.methods
  · rw [hm]
    trivial
  · exact MethodMatch.parsed_of_parse hm

theorem automaticTls_formed {leaves : Leaves} {listeners : List Listener} {registry : Registry} {s : Site}
    (h : s.Formed registry) : (automaticTls leaves listeners s).value.Formed registry := by
  obtain he | he := automaticTls_value leaves listeners s
  · rw [he]
    exact h
  · rw [he]
    exact ⟨h.host, h.directives, h.routes⟩

namespace Frontend

variable (fe : Frontend)

theorem pass_upstreams_distinct (items : List (SourceId × Node)) :
    ∀ u ∈ (items.foldl (Pass.step fe) .start).upstreams, u.Distinct := by
  intro u hu
  rw [(fe.pass_summary items).upstreams] at hu
  obtain hu | hu | hu := KeepFirst.mem_record hu
  · cases hu
  · rw [fe.declared_events] at hu
    obtain ⟨item, _, hi⟩ := List.mem_flatMap.mp hu
    rw [Option.mem_toList] at hi
    unfold upstreamDecoded at hi
    split at hi
    · exact fe.upstream_distinct hi
    · cases hi
  · rw [fe.offered_events] at hu
    obtain ⟨item, _, hi⟩ := List.mem_flatMap.mp hu
    unfold siteOutcome at hi
    split at hi
    · exact (fe.site_inline_distinct hi).2
    · cases hi

/-- What every accepted specification satisfies. -/
theorem normalize_formed {s : Snapshot} {a : Spec} (h : normalize fe s = .ok a) :
    a.Formed fe.registry ∧ a.Distinct := by
  obtain ⟨global, listeners, origin, hg, _, hf, rfl⟩ := fe.normalize_eq_ok.mp h
  have hu := fe.pass_upstreams_distinct s.nodes
  have hs := fe.pass_kinded s.nodes
  rw [(fe.pass_summary s.nodes).global] at hg
  generalize s.nodes.foldl (Pass.step fe) .start = p at hf hu hs
  simp only [finishSpec, Diagnostics.hasErrors_append, Bool.or_eq_false_iff] at hf
  obtain ⟨-, -, hn, -⟩ := (checkUniqueness_clean _).mp hf.1.1.2
  refine ⟨⟨?_, ?_⟩, ?_, ?_⟩
  · obtain ⟨item, _, hi⟩ := List.exists_of_findSome?_eq_some hg
    obtain ⟨g, hv, he⟩ := Option.map_eq_some_iff.mp hi
    cases he
    exact fe.global_formed hv
  · intro site hsite
    simp only [finishSpec, sortRoutes, applyAutomaticTls, mem_sortBy, List.map_map, List.mem_map] at hsite
    obtain ⟨site₀, h₀, rfl⟩ := hsite
    have hf₀ := @automaticTls_formed fe.leaves listeners _ _ (hs site₀ h₀).formed
    exact ⟨hf₀.host, hf₀.directives, fun r hr => hf₀.routes r (mem_sortBy.mp hr)⟩
  · have hp := (CanonicalSort.sortBy_perm (compareOn fun u : Upstream => u.id.name) p.upstreams).map fun u => u.id.name
    exact hp.nodup_iff.mpr hn
  · intro u hm
    exact hu u (mem_sortBy.mp hm)

/-- The fingerprint is faithful, unless the two specifications agree on everything but
an endpoint that prints the same as a name and as an address or a socket path. -/
theorem fingerprint_faithful_iff {s t : Snapshot} {a b : Spec} (ha : normalize fe s = .ok a)
    (hb : normalize fe t = .ok b) {D : Set (List UInt8)} (hd : Hasher.Apart fe.blake3 D)
    (hha : a.HashedIn fe.blake3 D) (hhb : b.HashedIn fe.blake3 D) :
    (a.fingerprint fe.blake3 = b.fingerprint fe.blake3 ↔ a.Agree (· = ·) b) ↔
      ¬ (a.Agree Target.SameText b ∧ a.Twinned b) := by
  obtain ⟨hfa, _⟩ := fe.normalize_formed ha
  obtain ⟨hfb, hdb⟩ := fe.normalize_formed hb
  rw [Spec.fingerprint_eq_iff hd hfa hfb hha hhb]
  constructor
  · rintro hiff ⟨hst, htw⟩
    exact Spec.not_twinned_of_agree hdb (hiff.mp hst) htw
  · intro hno
    refine ⟨fun hst => Spec.agree_of_not_twinned hst fun htw => hno ⟨hst, htw⟩, Spec.Agree.sameText⟩

end Frontend

/-! One site that proxies to a backend declared by its own name. -/

namespace Frontend.Sample

def listener : Listener := ⟨⟨.listener, "http"⟩, .file "gatel.kdl", "http", socket 0 0 0 0 8080, .http, false, here⟩

def route : Route where
  id := ⟨.route, "@22626fafbe1eb0c5"⟩
  path := .exact "/"
  methods := .any
  matchers := []
  directives := []
  terminal := .proxy ⟨.upstream, "backend"⟩
  origin := here

def site : Site where
  id := ⟨.site, "@881ee21c64615aed"⟩
  owner := .file "gatel.kdl"
  host := .exact "example.com"
  listeners := []
  tls := none
  directives := []
  routes := [route]
  origin := here

def backend (target : Target) : Upstream :=
  { seed with id := ⟨.upstream, "backend"⟩, endpoints := [⟨target.describe, target, 1, I32.zero, here⟩] }

def spec (target : Target) : Spec := ⟨.default, [listener], [site], [backend target]⟩

def streamOf (target : Target) (blake3 : Digest) : List UInt8 :=
  ((backend target).hashInto blake3 (Hasher.new.updateStr "file:gatel.kdl")).written

def digestsOf (table : List (List UInt8 × Fingerprint)) : Digest := fun w => (table.lookup w).getD .zero

/-- The digests of what is hashed without a digest in it. -/
def flat : List (List UInt8 × Fingerprint) :=
  [(words ["site", "example.com"], digest 0xdadb29f7f4c9c152e5406c7557d56d32e0517fd28fe43685ed5a61641ce21e88),
    (words ["route", "@881ee21c64615aed", "example.com", "*", "/"],
      digest 0x378a5f4aef0a9f0bde441464ba40a5ee806556585c4fc4f4c5b01ebeaf6f6222),
    ((listener.hashInto (Hasher.new.updateStr "file:gatel.kdl")).written,
      digest 0x719a7382270e1a65b05dc8c25236b59f4011ce9778158b2e2fa779f089f3d7ce),
    ((route.hashInto (fun _ => .zero) .new).written,
      digest 0xf7867ed8ea381633bd806d3184e3f66c9a20a17313211945b011191a9ab88c1c)] ++
  [("80", 0xa29b1158dea64b4f0befdee2b7cafc54b850d28e9b2cfe7e42ba5f02ec85d855),
    ("81", 0xf38992e16392fa801360ec10c50e3fc6a2ed7e43256f4a4f91e3c6feaada5925)].flatMap fun (path, n) =>
      (backend (.unix path)).endpoints.map fun e => ((e.hashInto .new).written, digest n)

/-- The digests of the site and of the backend at either path. -/
def nested : List (List UInt8 × Fingerprint) :=
  [((site.hashInto (digestsOf flat) (Hasher.new.updateStr "file:gatel.kdl")).written,
      digest 0x423d419e0a0a4cd4251ca7453053d6db02c896646593525da2c11dadde510e83),
    (streamOf (.unix "80") (digestsOf flat), digest 0xac9b558329f2ea9508b4a64c89f4e07519cd9ef56a7d7a1122bfbb78758433b2),
    (streamOf (.unix "81") (digestsOf flat), digest 0x676482e3de4c608104121663cf4adbf364ec48f46f656b0b375aab0419c1a9c2)]

def specTable : List (List UInt8 × Fingerprint) :=
  flat ++ nested ++
    [(((spec (.unix "80")).write (digestsOf (flat ++ nested)) .new).written,
        digest 0xd1985e24f5449390f71e216b4dca8d2a9263e6235c52ad95bb1f50d42810d37e),
      (((spec (.unix "81")).write (digestsOf (flat ++ nested)) .new).written,
        digest 0x4aa5fe2231b4f3b5a197760d163ae6d5ddbc0fdb8c8b613ffeab986c7277edd4)]

def specFe : Frontend := frontend (digestsOf specTable)

def hashed : Set (List UInt8) := {w | w ∈ specTable.map Prod.fst}

def proxyNode : Node := ⟨"proxy", [], [⟨"upstream", text "backend", here⟩], [], here⟩

/-- A backend at `address`, with the site in front of it. -/
def backendNodes (address : String) : List Node :=
  [globalNode, node "upstream" ["backend"] [node "endpoint" [address] []],
    node "site" ["example.com"] [node "route" ["/"] [proxyNode]]]

/-- What `HashedIn` asks of a backend at `target`, apart from what it asks of its site. -/
def Written (target : Target) : Prop :=
  (∀ e ∈ (backend target).endpoints, (e.hashInto .new).written ∈ specTable.map Prod.fst) ∧
    streamOf target specFe.blake3 ∈ specTable.map Prod.fst ∧
    ((spec target).write specFe.blake3 .new).written ∈ specTable.map Prod.fst

instance (target : Target) : Decidable (Written target) := inferInstanceAs (Decidable (_ ∧ _ ∧ _))

theorem hashed_evaluated : ((specTable.map Prod.snd).Nodup ∧ ∀ x ∈ specTable.map Prod.fst, x.length < 2 ^ 64) ∧
    ((listener.hashInto (Hasher.new.updateStr listener.owner.display)).written ∈ specTable.map Prod.fst ∧
      (route.hashInto specFe.blake3 .new).written ∈ specTable.map Prod.fst ∧
      (site.hashInto specFe.blake3 (Hasher.new.updateStr site.owner.display)).written ∈ specTable.map Prod.fst) ∧
    Written (.unix "80") ∧ Written (.unix "81") ∧ Written (.name "unix" 80) := by decide +kernel

theorem specApart : Hasher.Apart specFe.blake3 hashed :=
  ⟨fun x hx y hy => lookup_inj hashed_evaluated.1.1 x hx y hy, hashed_evaluated.1.2⟩

theorem hashedIn {target : Target} (h : Written target) : (spec target).HashedIn specFe.blake3 hashed := by
  obtain ⟨he, hu, hw⟩ := h
  obtain ⟨hl, hr, hs⟩ := hashed_evaluated.2.1
  refine ⟨fun n hn => (by cases hn), ?_, ?_, ?_, hw⟩
  · intro l h
    obtain rfl := List.mem_singleton.mp h
    exact hl
  · intro x h
    obtain rfl := List.mem_singleton.mp h
    refine ⟨⟨fun l hl => (by cases hl), fun d hd => (by cases hd), ?_⟩, hs⟩
    intro r h
    obtain rfl := List.mem_singleton.mp h
    exact ⟨⟨fun m hm => (by cases hm), fun d hd => (by cases hd)⟩, hr⟩
  · intro u h
    obtain rfl := List.mem_singleton.mp h
    exact ⟨⟨he, fun p hp => by cases hp⟩, hu⟩

/-- A backend at a socket path, at another one, and at a host named like the scheme. -/
theorem hashedIn_path : (spec (.unix "80")).HashedIn specFe.blake3 hashed := hashedIn hashed_evaluated.2.2.1

theorem hashedIn_moved : (spec (.unix "81")).HashedIn specFe.blake3 hashed := hashedIn hashed_evaluated.2.2.2.1

theorem hashedIn_host : (spec (.name "unix" 80)).HashedIn specFe.blake3 hashed := hashedIn hashed_evaluated.2.2.2.2

theorem ok_of_toOption {r : Except Diagnostics Spec} {a : Spec} (h : r.toOption = some a) : r = .ok a := by
  cases r with
  | error ds => cases h
  | ok b => rw [Option.some.inj h]

/-- The three backends are accepted as they stand, and the host is hashed like the first path. -/
theorem backends_normalized :
    normalize specFe (snapshot (backendNodes "unix:80")) = .ok (spec (.unix "80")) ∧
      normalize specFe (snapshot (backendNodes "unix:81")) = .ok (spec (.unix "81")) ∧
      normalize specFe (snapshot (backendNodes "UNIX:80")) = .ok (spec (.name "unix" 80)) ∧
      (spec (.unix "80")).fingerprint specFe.blake3 = (spec (.name "unix" 80)).fingerprint specFe.blake3 := by
  refine ⟨ok_of_toOption ?_, ok_of_toOption ?_, ok_of_toOption ?_, ?_⟩
  all_goals decide +kernel

end Frontend.Sample

open Frontend.Sample in
/-- A backend moved to another socket path is seen. -/
theorem Frontend.fingerprint_faithful_moved :
    (spec (.unix "80")).fingerprint specFe.blake3 = (spec (.unix "81")).fingerprint specFe.blake3 ↔
      (spec (.unix "80")).Agree (· = ·) (spec (.unix "81")) := by
  obtain ⟨ha, hb, -⟩ := backends_normalized
  refine (fingerprint_faithful_iff specFe ha hb specApart hashedIn_path hashedIn_moved).mpr ?_
  rintro ⟨_, u, hu, v, hv, _, e, he, e', he', hid, _⟩
  obtain rfl := List.mem_singleton.mp hu
  obtain rfl := List.mem_singleton.mp hv
  obtain rfl := List.mem_singleton.mp he
  obtain rfl := List.mem_singleton.mp he'
  revert hid
  decide

open Frontend.Sample in
/-- A socket path and a host named like its scheme have one fingerprint. -/
theorem Frontend.fingerprint_unfaithful :
    normalize specFe (snapshot (backendNodes "unix:80")) = .ok (spec (.unix "80")) ∧
      normalize specFe (snapshot (backendNodes "UNIX:80")) = .ok (spec (.name "unix" 80)) ∧
      Hasher.Apart specFe.blake3 hashed ∧ (spec (.unix "80")).HashedIn specFe.blake3 hashed ∧
      (spec (.name "unix" 80)).HashedIn specFe.blake3 hashed ∧
      ¬ ((spec (.unix "80")).fingerprint specFe.blake3 = (spec (.name "unix" 80)).fingerprint specFe.blake3 ↔
        (spec (.unix "80")).Agree (· = ·) (spec (.name "unix" 80))) := by
  obtain ⟨hpath, -, hhost, hsame⟩ := backends_normalized
  refine ⟨hpath, hhost, specApart, hashedIn_path, hashedIn_host, ?_⟩
  intro h
  have hag := (h.mp hsame).upstreams
  obtain ⟨v, hv, _, huv⟩ := hag.exists_of_mem List.mem_cons_self
  obtain rfl := List.mem_singleton.mp hv
  obtain ⟨e, he, hee⟩ := huv.endpoints.exists_of_mem List.mem_cons_self
  obtain rfl := List.mem_singleton.mp he
  have ht := hee.target
  revert ht
  decide

end Gatel
