import Gatel.Plan.SpecOrder
import Gatel.Plan.PassOrder
import Gatel.Plan.Texts

namespace Gatel
open CanonicalSort (mem_sortBy)

/-! What every value that normalization lets through satisfies. -/

/-- A directive decoded by the registry, owned by the resource it sits on. -/
structure DirectiveInstance.Decoded (fe : Frontend) (resource : ResourceId) (d : DirectiveInstance) : Prop where
  registered : (fe.registry.get d.metadata.name).map Directive.metadata = some d.metadata
  owner : d.owner = .derived fe.blake3 .directive [resource.name, d.metadata.name, d.scope.name]

/-- A condition as the parser builds it: its name holds no `=`. -/
def Matcher.Parsed : Matcher → Prop
  | .header name _ | .query name _ | .cookie name _ => '=' ∉ name.toList
  | .clientIp _ bits => bits ≤ 128
  | .tls _ => True
  | .not _ => False

structure Route.Decoded (fe : Frontend) (r : Route) : Prop where
  kind : r.id.kind = .route
  methods : r.methods = .any ∨ ∃ names, MethodMatch.parse names = .ok r.methods
  matchers : ∀ m ∈ r.matchers, m.Parsed
  directives : ∀ d ∈ r.directives, d.Decoded fe r.id
  terminal : ∀ d, r.terminal = .directive d → d.Decoded fe r.id

structure Site.Decoded (fe : Frontend) (s : Site) : Prop where
  kind : s.id.kind = .site
  host : ∃ raw, HostMatch.parse raw = .ok s.host
  directives : ∀ d ∈ s.directives, d.Decoded fe s.id
  routes : ∀ r ∈ s.routes, r.Decoded fe

/-- An upstream as the decoder builds it: no identity is repeated among its endpoints. -/
def Upstream.Distinct (u : Upstream) : Prop := (u.endpoints.map Endpoint.id).Nodup

/-- Every trusted network has a mask its family allows. -/
def Global.Formed (g : Global) : Prop := ∀ n ∈ g.trustedProxies, n.2 ≤ 128

theorem Site.Decoded.kinded {fe : Frontend} {s : Site} (h : s.Decoded fe) : s.Kinded :=
  ⟨h.kind, fun r hr => (h.routes r hr).kind⟩

theorem Registry.get_name {r : Registry} {name : String} {d : Directive} (h : r.get name = some d) :
    d.metadata.name = name := by
  unfold Registry.get at h
  simpa using List.find?_some h

/-- The instance a node decodes to carries the metadata registered under its name. -/
theorem Registry.decode_registered {r : Registry} {blake3 : Digest} {node : Node} {scope : Scope}
    {d : DirectiveInstance} (h : (r.decode blake3 node scope).value = some d) :
    (r.get d.metadata.name).map Directive.metadata = some d.metadata := by
  unfold Registry.decode at h
  split at h
  · dsimp only at h
    split at h <;> cases h
  · rename_i directive hget
    dsimp only at h
    split at h
    · cases h
    · split at h
      · cases h
      · split at h
        · cases h
        · obtain ⟨config, _, rfl⟩ := Option.map_eq_some_iff.mp h
          dsimp only
          rw [Registry.get_name hget, hget]
          rfl

/-- An address and the length behind it, once they are apart. -/
def cidrOf (leaves : Leaves) (address : String) (n : Nat) : Except String (IpAddr × Nat) := do
  let ip ← match leaves.parseIp address with
    | some ip => .ok ip
    | none => .error ("`" ++ address ++ "` is not an IP address")
  let most := if ip.isIpv4 then 32 else 128
  let bits := if n = 255 then most else n
  if bits > most then .error ("/" ++ toString bits ++ " is too long for " ++ ip.toText)
  else .ok (ip, bits)

theorem parseCidr_bits {leaves : Leaves} {raw : String} {ip : IpAddr} {bits : Nat}
    (h : parseCidr leaves raw = .ok (ip, bits)) : bits ≤ 128 := by
  have hrest : ∀ (address : String) (n : Nat), cidrOf leaves address n = .ok (ip, bits) → bits ≤ 128 := by
    intro address n h
    unfold cidrOf at h
    cases hip : leaves.parseIp address with
    | none =>
      rw [hip] at h
      cases h
    | some ip' =>
      rw [hip] at h
      dsimp only [bind, Except.bind] at h
      have hm : (if ip'.isIpv4 then 32 else 128) ≤ 128 := by split <;> decide
      generalize (if ip'.isIpv4 then 32 else 128) = most at h hm
      generalize (if n = 255 then most else n) = kept at h
      split at h
      · cases h
      · cases h
        omega
  unfold parseCidr at h
  cases hs : Text.splitOnce '/' raw with
  | none =>
    rw [hs] at h
    exact hrest raw 255 h
  | some parts =>
    obtain ⟨address, text⟩ := parts
    rw [hs] at h
    dsimp only at h
    cases hn : Text.parseUnsigned 256 text with
    | none =>
      rw [hn] at h
      cases h
    | some n =>
      rw [hn] at h
      exact hrest address n h

theorem splitOnce_fst {c : Char} {s a b : String} (h : Text.splitOnce c s = some (a, b)) : c ∉ a.toList := by
  unfold Text.splitOnce at h
  split at h
  · rename_i head x tail hs
    cases h
    rw [String.toList_ofList]
    have : head = s.toList.takeWhile (· ≠ c) := by
      have := List.span_eq_takeWhile_dropWhile (fun x => decide (x ≠ c)) s.toList
      rw [this] at hs
      exact (Prod.ext_iff.mp hs).1.symm
    rw [this]
    intro hm
    have := List.mem_takeWhile_imp hm
    simp at this
  · cases h

theorem not_mem_lower {s : String} (h : '=' ∉ s.toList) : '=' ∉ (Text.lower s).toList := by
  rw [Text.lower, String.toList_ofList]
  intro hm
  obtain ⟨c, hc, he⟩ := List.mem_map.mp hm
  refine h ?_
  have hcase : c.toLower = c ∨ (97 ≤ c.toLower.toNat ∧ c.toLower.toNat ≤ 122) := by
    unfold Char.toLower
    split
    · rename_i hu
      have h₁ : 65 ≤ c.val.toNat := hu.1
      have h₂ : c.val.toNat ≤ 90 := hu.2
      have hs : (c.val + ('a'.val - 'A'.val)).toNat = c.val.toNat + 32 := by
        rw [UInt32.toNat_add]
        have : ('a'.val - 'A'.val).toNat = 32 := by decide
        omega
      refine Or.inr ?_
      change 97 ≤ (c.val + ('a'.val - 'A'.val)).toNat ∧ (c.val + ('a'.val - 'A'.val)).toNat ≤ 122
      omega
    · exact Or.inl rfl
  obtain hcase | hcase := hcase
  · rwa [← he, hcase]
  · rw [he] at hcase
    simp at hcase

theorem parseCondition_parsed {leaves : Leaves} {property : Property} {m : Matcher}
    (h : (parseCondition leaves property).value = some m) : m.Parsed := by
  have hbuild : ∀ (name : String) (value : Option String), '=' ∉ name.toList →
      (if name = "" then
        (⟨none, [.error .invalidValue property.origin ("`" ++ property.name ++ "` needs a name")]⟩ :
          Report (Option Matcher))
      else if property.name = "header" then ⟨some (.header (Text.lower name) value), []⟩
      else if property.name = "query" then ⟨some (.query name value), []⟩
      else ⟨some (.cookie name value), []⟩).value = some m → m.Parsed := by
    intro name value hn h
    split at h
    · cases h
    · split at h
      · cases h
        exact not_mem_lower hn
      · split at h
        · cases h
          exact hn
        · cases h
          exact hn
  unfold parseCondition at h
  dsimp only at h
  split at h
  · cases h
  · rename_i text _
    split at h
    · cases hs : Text.splitOnce '=' text with
      | none =>
        rw [hs] at h
        exact hbuild text none (Text.splitOnce_none_iff.mp hs) h
      | some pair =>
        rw [hs] at h
        exact hbuild pair.1 (some pair.2) (splitOnce_fst hs) h
    · split at h
      · split at h
        · rename_i hc
          cases h
          exact parseCidr_bits hc
        · cases h
      · split at h
        · split at h
          · cases h
            trivial
          · cases h
        · split at h <;> cases h

theorem parseMatchNode_parsed {leaves : Leaves} {node : Node} {m : Matcher}
    (h : m ∈ (parseMatchNode leaves node).value) : m.Parsed := by
  simp only [parseMatchNode, mem_sortBy, List.mem_filterMap, List.mem_map] at h
  obtain ⟨_, ⟨property, _, rfl⟩, hv⟩ := h
  exact parseCondition_parsed hv

theorem Decode.strict_eq_some {α : Type} {r : Decode α} {a : α} (h : (Decode.strict r).value = some a) :
    r.value = some a := by
  unfold Decode.strict at h
  split at h
  · cases h
  · exact h

theorem endpointStep_distinct {leaves : Leaves} {nodes : UpstreamNodes} {acc : Report (List Endpoint)} {child : Node}
    (hd : (acc.value.map Endpoint.id).Nodup) :
    ((UpstreamDecode.endpointStep leaves nodes acc child).value.map Endpoint.id).Nodup := by
  unfold UpstreamDecode.endpointStep
  dsimp only
  split
  · exact hd
  · rename_i e _
    split
    · exact hd
    · split
      · exact hd
      · split
        · exact hd
        · rename_i hfind
          rw [List.map_append, List.nodup_append]
          refine ⟨hd, by simp, ?_⟩
          intro x hx y hy
          obtain ⟨e', he', rfl⟩ := List.mem_map.mp hx
          simp only [List.map_cons, List.map_nil, List.mem_singleton] at hy
          have hne := List.find?_eq_none.mp hfind e' he'
          rw [hy]
          simpa using hne

theorem endpoints_distinct (leaves : Leaves) (nodes : UpstreamNodes) (node : Node) :
    ((UpstreamDecode.endpoints leaves nodes node).value.map Endpoint.id).Nodup := by
  have hfold : ∀ (written : List Node) (acc : Report (List Endpoint)), (acc.value.map Endpoint.id).Nodup →
      ((written.foldl (UpstreamDecode.endpointStep leaves nodes) acc).value.map Endpoint.id).Nodup := by
    intro written
    induction written with
    | nil => exact fun acc hd => hd
    | cons child written ih =>
      intro acc hd
      exact ih _ (endpointStep_distinct hd)
  unfold UpstreamDecode.endpoints
  dsimp only
  split
  · exact .nil
  · exact hfold _ _ .nil

theorem decodeUpstreamBody_distinct {leaves : Leaves} {nodes : UpstreamNodes} {node : Node} {id : ResourceId}
    {owner : SourceId} {u : Upstream} (h : (decodeUpstreamBody leaves nodes node id owner).value = some u) :
    u.owner = owner ∧ u.Distinct := by
  obtain ⟨body, hb, h⟩ := Decode.bind_eq_some.mp h
  cases h
  unfold UpstreamDecode.body at hb
  split at hb
  · cases hb
  · have hb := Decode.strict_eq_some hb
    obtain ⟨_, _, hb⟩ := Decode.bind_eq_some.mp hb
    obtain ⟨_, _, hb⟩ := Decode.bind_eq_some.mp hb
    obtain ⟨balance, _, hb⟩ := Decode.bind_eq_some.mp hb
    obtain ⟨timeouts, _, hb⟩ := Decode.bind_eq_some.mp hb
    obtain ⟨pool, _, hb⟩ := Decode.bind_eq_some.mp hb
    obtain ⟨retry, _, hb⟩ := Decode.bind_eq_some.mp hb
    obtain ⟨health, _, hb⟩ := Decode.bind_eq_some.mp hb
    obtain ⟨passive, _, hb⟩ := Decode.bind_eq_some.mp hb
    obtain ⟨protocol, _, hb⟩ := Decode.bind_eq_some.mp hb
    obtain ⟨resolve, _, hb⟩ := Decode.bind_eq_some.mp hb
    obtain ⟨tls, _, hb⟩ := Decode.bind_eq_some.mp hb
    obtain ⟨_, _, hb⟩ := Decode.bind_eq_some.mp hb
    cases hb
    exact ⟨rfl, endpoints_distinct leaves nodes node⟩

namespace Frontend

variable (fe : Frontend)

theorem ownAll_decoded {id : ResourceId} {ds : List DirectiveInstance}
    (h : ∀ d ∈ ds, (fe.registry.get d.metadata.name).map Directive.metadata = some d.metadata) :
    ∀ d ∈ fe.ownAll id ds, d.Decoded fe id := by
  intro d hd
  simp only [ownAll, List.mem_map, mem_sortBy] at hd
  obtain ⟨d', hd', rfl⟩ := hd
  exact ⟨h d' hd', rfl⟩

theorem ownedName_kind {kind : ResourceKind} {owner : SourceId} {origin : Origin} {explicit : Option String}
    {derived id : ResourceId} (hd : derived.kind = kind)
    (h : (ownedName kind owner origin explicit derived).value = some id) : id.kind = kind := by
  unfold ownedName at h
  split at h
  · cases h
    exact hd
  · split at h
    · cases h
      rfl
    · cases h

theorem routeDecoded_registered {child : Node} {d : DirectiveInstance} (h : (fe.routeDecoded child).value = some d) :
    (fe.registry.get d.metadata.name).map Directive.metadata = some d.metadata := by
  unfold routeDecoded at h
  split at h
  · cases h
  · exact Registry.decode_registered h

theorem routeMethods_parsed (children : List Node) :
    routeMethods children = .any ∨ ∃ names, MethodMatch.parse names = .ok (routeMethods children) := by
  cases children with
  | nil => exact Or.inl rfl
  | cons first rest =>
    simp only [routeMethods]
    cases hm : methodsOf first with
    | error message => exact Or.inl rfl
    | ok methods =>
      refine Or.inr ⟨first.args.filterMap Value.asStr, ?_⟩
      unfold methodsOf at hm
      dsimp only at hm
      split at hm
      · cases hm
      · exact hm

theorem ownTerminal_decoded {id : ResourceId} {t : Terminal} {d : DirectiveInstance}
    (ht : ∀ d, t = .directive d → (fe.registry.get d.metadata.name).map Directive.metadata = some d.metadata)
    (h : fe.ownTerminal id t = .directive d) : d.Decoded fe id := by
  cases t with
  | proxy upstream => cases h
  | directive d' =>
    cases h
    exact ⟨ht d' rfl, rfl⟩

/-- A terminal of a route is one its children decoded. -/
theorem routeTerminals_registered {site : ResourceId} {owner : SourceId} {child : Node} {t : Terminal × Origin}
    (h : t ∈ fe.routeTerminals site owner child) (d : DirectiveInstance) (hd : t.1 = .directive d) :
    (fe.registry.get d.metadata.name).map Directive.metadata = some d.metadata := by
  simp only [routeTerminals, List.mem_append, List.mem_map, List.mem_filter, Option.mem_toList] at h
  obtain ⟨t', ht', rfl⟩ | ⟨d', ⟨hd', _⟩, rfl⟩ := h
  · -- `proxy` never answers through a directive
    refine absurd ht' ?_
    dsimp only at hd
    subst hd
    unfold routeProxied
    split
    · unfold proxy
      split
      · exact fun hf => by cases hf
      · split
        · exact fun hf => by cases hf
        · split
          · split
            · exact fun hf => by cases hf
            · split
              · exact fun hf => by cases hf
              · split <;> exact fun hf => by cases hf
          · intro hf
            obtain ⟨u, _, hu⟩ := Option.map_eq_some_iff.mp hf
            cases hu
    · exact fun hf => by cases hf
  · cases hd
    exact fe.routeDecoded_registered hd'

theorem soleTerminal_mem {node : Node} {rawPath : String} {b : RouteBody} {t : Terminal}
    (h : (soleTerminal node rawPath b).value = some t) : ∃ o, (t, o) ∈ b.terminals := by
  unfold soleTerminal at h
  split at h
  · rename_i terminal o hb
    cases h
    exact ⟨o, by rw [hb]; exact List.mem_cons_self⟩
  · split at h <;> cases h
  · cases h

theorem route_decoded {node : Node} {site : ResourceId} {host : HostMatch} {owner : SourceId} {r : Route}
    (h : (fe.route node site host owner).value = some r) : r.Decoded fe := by
  unfold route at h
  split at h
  · cases h
  · rename_i value raw _
    split at h
    · cases h
    · rename_i path _
      dsimp only at h
      split at h
      · cases h
      · have hb := fe.routeBody_summary site owner node (node.props.foldl (idProp "route") ⟨none, []⟩).diagnostics
        generalize fe.routeBody node site owner _ = b at h hb
        unfold routeTail at h
        obtain ⟨terminal, ht, h⟩ := Decode.bind_eq_some.mp h
        obtain ⟨id, hid, h⟩ := Decode.bind_eq_some.mp h
        obtain ⟨_, _, h⟩ := Decode.bind_eq_some.mp h
        cases h
        obtain ⟨o, ho⟩ := soleTerminal_mem ht
        refine ⟨ownedName_kind (by simp [routeId]) hid, ?_, ?_, ?_, ?_⟩
        · dsimp only
          rw [hb.methods]
          exact routeMethods_parsed _
        · intro m hm
          dsimp only at hm
          rw [hb.matchers] at hm
          obtain ⟨child, _, hc⟩ := List.mem_flatMap.mp hm
          unfold routeMatchers at hc
          split at hc
          · exact parseMatchNode_parsed hc
          · cases hc
        · refine fe.ownAll_decoded ?_
          intro d hd
          rw [hb.directives] at hd
          obtain ⟨child, _, hc⟩ := List.mem_flatMap.mp hd
          simp only [routeMiddleware, List.mem_filter, Option.mem_toList] at hc
          exact fe.routeDecoded_registered hc.1
        · intro d hd
          refine fe.ownTerminal_decoded ?_ hd
          intro d' hd'
          rw [hb.terminals] at ho
          obtain ⟨child, _, hc⟩ := List.mem_flatMap.mp ho
          exact fe.routeTerminals_registered hc d' hd'

theorem site_decoded {node : Node} {owner : SourceId} {s : Site} (h : (fe.site node owner).value = some s) :
    s.Decoded fe := by
  unfold site at h
  split at h
  · cases h
  · rename_i value raw _
    split at h
    · cases h
    · rename_i host hhost
      dsimp only at h
      generalize node.props.foldl siteProp _ = props at h
      split at h
      · cases h
      · rename_i id hid
        dsimp only at h
        split at h
        · cases h
        · have hb := fe.siteBody_summary id host owner node props.diagnostics
          cases h
          refine ⟨ownedName_kind (by simp [siteId]) hid, ⟨raw, hhost⟩, ?_, ?_⟩
          · refine fe.ownAll_decoded ?_
            intro d hd
            rw [hb.directives] at hd
            obtain ⟨child, _, hc⟩ := List.mem_flatMap.mp hd
            simp only [siteMiddleware, siteDecoded, List.mem_filter, Option.mem_toList] at hc
            obtain ⟨hc, _⟩ := hc
            split at hc
            · cases hc
            · exact Registry.decode_registered hc
          · intro r hr
            dsimp only at hr
            rw [hb.routes] at hr
            obtain ⟨child, _, hc⟩ := List.mem_flatMap.mp hr
            rw [Option.mem_toList] at hc
            unfold siteRouted at hc
            split at hc
            · exact fe.route_decoded hc
            · cases hc

theorem proxy_inline_distinct {node : Node} {site : ResourceId} {owner : SourceId} {u : Upstream}
    (h : u ∈ (fe.proxy node site owner).inline) : u.owner = owner ∧ u.Distinct := by
  unfold proxy at h
  split at h
  · cases h
  · split at h
    · cases h
    · split at h
      · split at h
        · cases h
        · split at h
          · cases h
          · split at h <;> cases h
      · rw [Option.mem_toList] at h
        obtain ⟨_, _, h⟩ := Decode.bind_eq_some.mp h
        obtain ⟨u₀, hu, h⟩ := Decode.bind_eq_some.mp h
        obtain ⟨ho, hd⟩ := decodeUpstreamBody_distinct hu
        cases h
        exact ⟨ho, hd⟩

theorem route_inline_distinct {node : Node} {site : ResourceId} {host : HostMatch} {owner : SourceId} {u : Upstream}
    (h : u ∈ (fe.route node site host owner).inline) : u.owner = owner ∧ u.Distinct := by
  unfold route at h
  split at h
  · cases h
  · split at h
    · cases h
    · have hb := fe.routeBody_summary site owner node (node.props.foldl (idProp "route") ⟨none, []⟩).diagnostics
      dsimp only at h
      rw [hb.inline] at h
      obtain ⟨child, _, hc⟩ := List.mem_flatMap.mp h
      unfold routeProxied at hc
      split at hc
      · exact fe.proxy_inline_distinct hc
      · cases hc

/-- An inline upstream belongs to the source that wrote it. -/
theorem site_inline_distinct {node : Node} {owner : SourceId} {u : Upstream} (h : u ∈ (fe.site node owner).inline) :
    u.owner = owner ∧ u.Distinct := by
  unfold site at h
  split at h
  · cases h
  · split at h
    · cases h
    · rename_i host _
      dsimp only at h
      generalize node.props.foldl siteProp _ = props at h
      split at h
      · cases h
      · rename_i id _
        have hb := fe.siteBody_summary id host owner node props.diagnostics
        dsimp only at h
        rw [hb.inline] at h
        obtain ⟨child, _, hc⟩ := List.mem_flatMap.mp h
        unfold siteRouted at hc
        split at hc
        · exact fe.route_inline_distinct hc
        · cases hc

theorem upstream_distinct {node : Node} {owner : SourceId} {u : Upstream} (h : (fe.upstream node owner).value = some u) :
    u.Distinct := by
  unfold upstream at h
  split at h
  · split at h
    · cases h
    · split at h
      · cases h
      · obtain ⟨_, _, h⟩ := Decode.bind_eq_some.mp h
        exact (decodeUpstreamBody_distinct h).2
  · cases h

theorem globalChild_formed {owner : SourceId} {b : GlobalBody} {child : Node} (h : b.global.Formed) :
    (fe.globalChild owner b child).global.Formed := by
  have htake : ∀ {α : Type} (r : Decode α) (f : Global → α → Global),
      (∀ g a, (f g a).trustedProxies = g.trustedProxies) → (b.take r f).global.Formed := by
    intro α r f hf
    unfold GlobalBody.take
    dsimp only
    split
    · unfold Global.Formed at h ⊢
      dsimp only
      rw [hf]
      exact h
    · exact h
  unfold globalChild
  split
  · split
    · exact h
    · exact htake _ _ fun _ _ => rfl
  · exact h
  · exact h
  · exact htake _ _ fun _ _ => rfl
  · split
    · exact h
    · exact htake _ _ fun _ _ => rfl
  · intro n hn
    dsimp only at hn
    rw [List.mem_append] at hn
    obtain hn | hn := hn
    · exact h n hn
    · obtain ⟨r, hr, hn⟩ := List.mem_flatMap.mp hn
      obtain ⟨value, _, rfl⟩ := List.mem_map.mp hr
      unfold trustedProxy at hn
      split at hn
      · cases hn
      · split at hn
        · rename_i network hp
          rw [List.mem_singleton] at hn
          subst hn
          exact parseCidr_bits hp
        · cases hn
  · exact htake _ _ fun _ _ => rfl
  · exact htake _ _ fun _ _ => rfl
  · exact h
  · exact htake _ _ fun _ _ => rfl
  · dsimp only
    split
    · exact h
    · exact h

theorem global_formed {node : Node} {owner : SourceId} {g : Global × List Listener}
    (h : (fe.global node owner).value = some g) : g.1.Formed := by
  have hfold : ∀ (children : List Node) (b : GlobalBody), b.global.Formed →
      (children.foldl (fe.globalChild owner) b).global.Formed := by
    intro children
    induction children with
    | nil => exact fun _ hb => hb
    | cons child children ih =>
      intro b hb
      exact ih _ (fe.globalChild_formed hb)
  unfold global at h
  dsimp only at h
  generalize hb : node.children.foldl (fe.globalChild owner) _ = b at h
  have hf : b.global.Formed := by
    rw [← hb]
    exact hfold _ _ fun n hn => by cases hn
  have h := Option.some.inj (Decode.strict_eq_some h)
  rw [← h]
  dsimp only
  split
  · exact hf
  · exact hf

end Frontend

end Gatel
