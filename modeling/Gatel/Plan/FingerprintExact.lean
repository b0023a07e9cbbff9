import Gatel.Plan.Decoded
import Gatel.Plan.UpstreamExact

namespace Gatel
open Hasher (Codes Ends Apart)
open Shuffle (Shuffled)

/-! What the writes of a specification say about it, field by field. -/

theorem SourceId.display_inj {a b : SourceId} (h : a.display = b.display) : a = b := by
  have hinit := congrArg (fun s : String => s.toList.head?) h
  cases a <;> cases b
  case file.file x y => rw [append_left_inj h]
  case kubernetes.kubernetes x y => rw [append_left_inj h]
  case admin.admin => rfl
  all_goals simp [SourceId.display] at hinit

/-- The same socket; the origin is not part of it. -/
structure Listener.Agree (a b : Listener) : Prop where
  id : a.id = b.id
  owner : a.owner = b.owner
  name : a.name = b.name
  bind : a.bind = b.bind
  protocol : a.protocol = b.protocol
  proxyProtocol : a.proxyProtocol = b.proxyProtocol

theorem ListenerProtocol.asStr_inj {a b : ListenerProtocol} (h : a.asStr = b.asStr) : a = b := by
  cases a <;> cases b <;> simp_all [ListenerProtocol.asStr]

theorem Listener.codes : Codes (fun _ => True)
    (fun l h => Listener.hashInto l (h.updateStr l.owner.display)) Listener.Agree := by
  refine ((((((Codes.str.on fun l : Listener => l.owner.display).seq (ResourceId.codes.on Listener.id)).seq
    (Codes.str.on Listener.name)).seq (Codes.str.on fun l : Listener => l.bind.toText)).seq
    (Codes.str.on fun l : Listener => l.protocol.asStr)).seq (Codes.bool.on Listener.proxyProtocol)).imp
    (fun _ _ => by simp) ?_ ?_
  · intro a b _ _ h
    obtain ⟨⟨⟨⟨⟨h1, h2⟩, h3⟩, h4⟩, h5⟩, h6⟩ := h
    exact ⟨h2, SourceId.display_inj h1, h3, SocketAddr.toText_inj h4, ListenerProtocol.asStr_inj h5, h6⟩
  · intro a b h
    obtain ⟨h1, h2, h3, h4, h5, h6⟩ := h
    exact ⟨⟨⟨⟨⟨by rw [h2], h1⟩, h3⟩, by rw [h4]⟩, by rw [h5]⟩, h6⟩

/-- The same certificates; whether they were inferred is not part of it. -/
structure SiteTls.Agree (a b : SiteTls) : Prop where
  source : a.source = b.source
  clientAuth : a.clientAuth = b.clientAuth

/-- The word a certificate source starts with. -/
@[grind =] def CertificateSource.word : CertificateSource → String
  | .manual _ _ => "manual"
  | .internal => "internal"
  | .acme => "acme"

@[grind =] def CertificateSource.rest : CertificateSource → Hasher → Hasher
  | .manual cert key, h => key.hashInto (cert.hashInto h)
  | .internal, h => h
  | .acme, h => h

theorem CertificateSource.codes :
    Codes (fun _ => True) (fun s h => CertificateSource.rest s (h.updateStr (CertificateSource.word s))) (· = ·) := by
  have hmanual : Codes (fun _ => True)
      (fun (p : SecretRef × SecretRef) h => CertificateSource.rest (.manual p.1 p.2) h) (· = ·) := by
    refine ((SecretRef.codes.on Prod.fst).seq (SecretRef.codes.on Prod.snd)).imp (fun _ _ => by simp) ?_ ?_
    · intro a b _ _ h
      exact Prod.ext h.1 h.2
    · intro a b h
      simp [h]
  refine ((Codes.str.on CertificateSource.word).andThen (v := CertificateSource.rest) (S := (· = ·)) ?_ ?_ ?_).imp
    (fun _ h => h) (fun _ _ _ _ h => h.2) ?_
  · intro s g
    cases s with
    | manual cert key => exact hmanual.append (cert, key) g
    | internal => simp [rest, Hasher.new]
    | acme => simp [rest, Hasher.new]
  · intro a b g _ h
    rw [h]
  · intro a b r r' _ _ hw he hl
    cases a with
    | manual cert key =>
      cases b with
      | manual cert' key' =>
        obtain ⟨hk, hr⟩ := hmanual.reads (cert, key) (cert', key') r r' trivial trivial he hl
        cases hk
        exact ⟨rfl, hr⟩
      | internal => simp [word] at hw
      | acme => simp [word] at hw
    | internal =>
      cases b with
      | internal => exact ⟨rfl, by simpa [rest, Hasher.new] using he⟩
      | manual cert' key' => simp [word] at hw
      | acme => simp [word] at hw
    | acme =>
      cases b with
      | acme => exact ⟨rfl, by simpa [rest, Hasher.new] using he⟩
      | manual cert' key' => simp [word] at hw
      | internal => simp [word] at hw
  · intro a b h
    exact ⟨by rw [h], h⟩

theorem ClientAuth.codes : Codes (fun _ => True)
    (fun (a : ClientAuth) h => a.ca.hashInto (Hasher.updateBool h a.required)) (· = ·) := by
  refine ((Codes.bool.on ClientAuth.required).seq (SecretRef.codes.on ClientAuth.ca)).imp (fun _ _ => by simp) ?_ ?_
  · intro a b _ _ h
    cases a; cases b
    rw [ClientAuth.mk.injEq]
    exact h
  · intro a b h
    simp [h]

theorem SiteTls.codes : Codes (fun _ => True) SiteTls.hashInto SiteTls.Agree := by
  have he : SiteTls.hashInto = fun t h =>
      Hasher.updateOption (fun (a : ClientAuth) h => a.ca.hashInto (Hasher.updateBool h a.required))
        (t.source.rest (h.updateStr t.source.word)) t.clientAuth := by
    funext t h
    unfold SiteTls.hashInto
    cases t.source <;> cases t.clientAuth <;> rfl
  rw [he]
  have hauth := Codes.optionEq ClientAuth.codes fun a => ⟨4, rfl, by decide⟩
  refine ((CertificateSource.codes.on SiteTls.source).seq (hauth.on SiteTls.clientAuth)).imp (fun _ _ => by simp) ?_ ?_
  · intro a b _ _ h
    exact ⟨h.1, h.2⟩
  · intro a b h
    exact ⟨h.source, h.clientAuth⟩

theorem SiteTls.head (t : SiteTls) : (t.hashInto .new).written.head? = some 1 := by
  obtain ⟨source, auth, automatic⟩ := t
  cases source <;> cases auth <;> rfl

/-- A host as the parser builds it. -/
@[grind =] def HostMatch.Parsed : HostMatch → Prop
  | .any => True
  | .exact name => '*' ∉ name.toList
  | .suffix tail => tail ≠ ""

theorem HostMatch.parsed_of_parse {raw : String} {m : HostMatch} (h : HostMatch.parse raw = .ok m) : m.Parsed := by
  unfold HostMatch.parse at h
  dsimp only at h
  split at h
  · cases h
    trivial
  · split at h
    · cases h
    · split at h
      · cases h
      · split at h
        · split at h
          · cases h
          · cases h
            simp [Parsed]
        · split at h
          · cases h
          · rename_i hs
            cases h
            simpa [Parsed] using hs

theorem HostMatch.describe_inj {a b : HostMatch} (ha : a.Parsed) (hb : b.Parsed) (h : a.describe = b.describe) :
    a = b := by
  have hstar : ∀ {name tail : String}, '*' ∉ name.toList → name ≠ "*" ++ tail := by
    intro name tail hn he
    refine hn ?_
    rw [he]
    simp
  match a, b with
  | .any, .any => rfl
  | .exact x, .exact y => exact congrArg _ h
  | .suffix x, .suffix y => rw [append_left_inj h]
  | .any, .exact y => exact absurd (h.symm.trans (String.append_empty).symm) (hstar hb)
  | .exact x, .any => exact absurd (h.trans (String.append_empty).symm) (hstar ha)
  | .exact x, .suffix y => exact absurd h (hstar ha)
  | .suffix x, .exact y => exact absurd h.symm (hstar hb)
  | .any, .suffix y => exact absurd (append_left_inj (((String.append_empty).trans h).symm : "*" ++ y = "*" ++ "")) hb
  | .suffix x, .any => exact absurd (append_left_inj ((h.trans (String.append_empty).symm) : "*" ++ x = "*" ++ "")) ha

theorem HostMatch.codes : Codes HostMatch.Parsed HostMatch.hashInto (· = ·) := by
  refine (Codes.str.on HostMatch.describe).imp (fun _ _ => trivial) ?_ ?_
  · intro a b ha hb h
    exact HostMatch.describe_inj ha hb h
  · intro a b h
    rw [h]

def PathMatch.word : PathMatch → String
  | .exact _ => "exact"
  | .under _ => "prefix"

def PathMatch.text : PathMatch → String
  | .exact path => path
  | .under stem => stem

theorem PathMatch.codes : Codes (fun _ => True) PathMatch.hashInto (· = ·) := by
  have he : PathMatch.hashInto = fun m h => (h.updateStr m.word).updateStr m.text := by
    funext m h
    cases m <;> rfl
  rw [he]
  refine ((Codes.str.on PathMatch.word).seq (Codes.str.on PathMatch.text)).imp (fun _ _ => by simp) ?_ ?_
  · intro a b _ _ h
    obtain ⟨hw, ht⟩ := h
    cases a <;> cases b <;> simp_all [PathMatch.word, PathMatch.text]
  · intro a b h
    simp [h]

/-- A method name as the parser builds it. -/
def MethodMatch.Token (m : String) : Prop := m ≠ "" ∧ ∀ c ∈ m.toList, c.isAlpha = true ∨ c = '-'

def MethodMatch.Parsed : MethodMatch → Prop
  | .any => True
  | .only methods => methods ≠ [] ∧ ∀ m ∈ methods, Token m

theorem MethodMatch.token_upper {m : String} (hne : m ≠ "") (h : ∀ c ∈ m.toList, c.isAlpha = true ∨ c = '-') :
    Token (Text.upper m) := by
  refine ⟨?_, ?_⟩
  · intro he
    refine hne (toList_inj ?_)
    have hl := congrArg String.toList he
    simpa [Text.upper] using hl
  · intro c hc
    rw [Text.upper, String.toList_ofList] at hc
    obtain ⟨d, hd, rfl⟩ := List.mem_map.mp hc
    have hall : ∀ n : Fin 128, ((Char.ofNat n).isAlpha = true ∨ Char.ofNat n = '-') →
        ((Char.ofNat n).toUpper.isAlpha = true ∨ (Char.ofNat n).toUpper = '-') := by decide
    have hlt : d.toNat < 128 := by
      obtain ha | rfl := h d hd
      · simp only [Char.isAlpha, Char.isUpper, Char.isLower, Bool.or_eq_true, Bool.and_eq_true, decide_eq_true_eq] at ha
        obtain ⟨_, ha⟩ | ⟨_, ha⟩ := ha
        · exact Nat.lt_of_le_of_lt ha (by decide)
        · exact Nat.lt_of_le_of_lt ha (by decide)
      · decide
    have := hall ⟨d.toNat, hlt⟩
    simp only [Char.ofNat_toNat] at this
    exact this (h d hd)

theorem MethodMatch.parseEach_tokens {raw acc methods : List String} (ha : ∀ m ∈ acc, Token m)
    (h : parseEach raw acc = .ok methods) : ∀ m ∈ methods, Token m := by
  induction raw generalizing acc with
  | nil =>
    cases h
    exact ha
  | cons m raw ih =>
    unfold parseEach at h
    split at h
    · cases h
    · rename_i hm
      simp only [not_or, not_not, List.all_eq_true, Bool.or_eq_true, beq_iff_eq] at hm
      refine ih ?_ h
      split
      · exact ha
      · intro x hx
        rw [List.mem_append, List.mem_singleton] at hx
        obtain hx | rfl := hx
        · exact ha x hx
        · exact token_upper hm.1 hm.2

theorem MethodMatch.parsed_of_parse {names : List String} {m : MethodMatch} (h : MethodMatch.parse names = .ok m) :
    m.Parsed := by
  unfold MethodMatch.parse at h
  split at h
  · split at h
    · cases h
    · cases h
      trivial
  · split at h
    · cases h
    · cases h
      trivial
    · rename_i methods hm hp
      cases h
      have ht := parseEach_tokens (fun m hm => by cases hm) hp
      refine ⟨?_, fun m hm => ht m (CanonicalSort.mem_sortBy.mp hm)⟩
      intro he
      have hl := (CanonicalSort.sortBy_perm compare methods).length_eq
      rw [he] at hl
      exact hm (List.length_eq_zero_iff.mp hl.symm)

theorem MethodMatch.describe_inj {a b : MethodMatch} (ha : a.Parsed) (hb : b.Parsed) (h : a.describe = b.describe) :
    a = b := by
  have hchar : ∀ {m : String} {c : Char}, Token m → c.isAlpha = false → c ≠ '-' → c ∉ m.toList := by
    intro m c ht hc hd hm
    obtain hal | he := ht.2 c hm
    · rw [hc] at hal
      cases hal
    · exact hd he
  have hlist : ∀ l : List String, (" ".intercalate l).toList = [' '].intercalate (l.map String.toList) := by
    intro l
    rw [String.toList_intercalate]
    rfl
  have hstar : ∀ {l : List String}, (∀ m ∈ l, Token m) → l ≠ [] → "*" ≠ " ".intercalate l := by
    intro l ht hne he
    have hm : '*' ∈ (" ".intercalate l).toList := by
      rw [← he]
      simp
    rw [hlist] at hm
    obtain hm | ⟨x, hx, hm⟩ := Separated.mem_intercalate hm
    · cases hm
    · obtain ⟨m, hml, rfl⟩ := List.mem_map.mp hx
      exact hchar (ht m hml) (by decide) (by decide) hm
  match a, b with
  | .any, .any => rfl
  | .any, .only l => exact absurd h (hstar hb.2 hb.1)
  | .only l, .any => exact absurd h.symm (hstar ha.2 ha.1)
  | .only l, .only l' =>
    have hl := congrArg String.toList h
    simp only [describe, hlist] at hl
    have hsp : ∀ l : List String, (∀ m ∈ l, Token m) → ∀ x ∈ l.map String.toList, ' ' ∉ x := by
      intro l ht x hx
      obtain ⟨m, hm, rfl⟩ := List.mem_map.mp hx
      exact hchar (ht m hm) (by decide) (by decide)
    have he := Separated.intercalate_inj (hsp l ha.2) (hsp l' hb.2) (by simpa using ha.1) (by simpa using hb.1) hl
    rw [List.map_injective_iff.mpr (fun _ _ => toList_inj) he]

theorem MethodMatch.codes : Codes MethodMatch.Parsed MethodMatch.hashInto (· = ·) := by
  refine (Codes.str.on MethodMatch.describe).imp (fun _ _ => trivial) ?_ ?_
  · intro a b ha hb h
    exact MethodMatch.describe_inj ha hb h
  · intro a b h
    rw [h]

namespace Matcher

theorem describePair_inj {kind name name' : String} {value value' : Option String} (hn : '=' ∉ name.toList)
    (hn' : '=' ∉ name'.toList) (h : describePair kind name value = describePair kind name' value') :
    name = name' ∧ value = value' := by
  have hnone : ∀ {a b v : String}, '=' ∉ a.toList → kind ++ " " ++ a ≠ kind ++ " " ++ b ++ "=" ++ v := by
    intro a b v ha he
    have hl := congrArg String.toList he
    simp only [String.toList_append, List.append_assoc, List.append_cancel_left_eq] at hl
    rw [hl] at ha
    simp at ha
  match value, value' with
  | none, none => exact ⟨append_left_inj h, rfl⟩
  | none, some v => exact absurd h (hnone hn)
  | some v, none => exact absurd h.symm (hnone hn')
  | some v, some v' =>
    have hl := congrArg String.toList h
    simp only [describePair, String.toList_append, List.append_assoc, List.append_cancel_left_eq] at hl
    obtain ⟨h1, h2⟩ := Separated.split_inj hn hn' hl
    exact ⟨toList_inj h1, by rw [toList_inj h2]⟩

theorem describe_clientIp_inj {ip ip' : IpAddr} {bits bits' : Nat}
    (h : (clientIp ip bits).describe = (clientIp ip' bits').describe) : ip = ip' ∧ bits = bits' := by
  have hslash : ∀ ip : IpAddr, '/' ∉ ip.toText.toList := fun ip =>
    IpAddr.not_mem_toText (by decide) (by decide) (by decide)
  have hl := congrArg String.toList h
  simp only [describe, String.toList_append, List.append_assoc, List.append_cancel_left_eq] at hl
  obtain ⟨h1, h2⟩ := Separated.split_inj (hslash ip) (hslash ip') hl
  exact ⟨IpAddr.toText_inj (toList_inj h1), toString_inj (toList_inj h2)⟩

/-- The two letters that tell the conditions apart. -/
@[grind =] def initials : Matcher → List Char
  | .header .. => ['h', 'e']
  | .query .. => ['q', 'u']
  | .cookie .. => ['c', 'o']
  | .clientIp .. => ['c', 'l']
  | .tls _ => ['t', 'l']
  | .not _ => ['n', 'o']

theorem take_describe (m : Matcher) : m.describe.toList.take 2 = m.initials := by
  cases m with
  | header name value => cases value <;> simp [describe, describePair, initials]
  | query name value => cases value <;> simp [describe, describePair, initials]
  | cookie name value => cases value <;> simp [describe, describePair, initials]
  | clientIp ip bits => simp [describe, initials]
  | tls expected => simp [describe, initials]
  | not inner => simp [describe, initials]

theorem describe_inj {a b : Matcher} (ha : a.Parsed) (hb : b.Parsed) (h : a.describe = b.describe) : a = b := by
  have hinit : a.initials = b.initials := by rw [← take_describe, ← take_describe, h]
  cases a <;> cases b
  case header.header n v n' v' =>
    obtain ⟨rfl, rfl⟩ := describePair_inj ha hb h
    rfl
  case query.query n v n' v' =>
    obtain ⟨rfl, rfl⟩ := describePair_inj ha hb h
    rfl
  case cookie.cookie n v n' v' =>
    obtain ⟨rfl, rfl⟩ := describePair_inj ha hb h
    rfl
  case clientIp.clientIp ip bits ip' bits' =>
    obtain ⟨rfl, rfl⟩ := describe_clientIp_inj h
    rfl
  case tls.tls x y =>
    have ht := append_left_inj h
    revert ht
    cases x <;> cases y <;> decide
  case not.not => exact absurd ha id
  all_goals simp [initials] at hinit

theorem codes : Codes Matcher.Parsed Matcher.hashInto (· = ·) := by
  refine (Codes.str.on Matcher.describe).imp (fun _ _ => trivial) ?_ ?_
  · intro a b ha hb h
    exact describe_inj ha hb h
  · intro a b h
    rw [h]

end Matcher

/-! A directive's metadata is read back by its name: the registry knows the rest. -/

theorem Effect.hash_codes : Codes (fun _ => True) Effect.hash fun a b =>
    List.Forall₂ (fun e e' : Effect => Fin.ofNat (2 ^ 64) e.rank = Fin.ofNat (2 ^ 64) e'.rank)
      ((CanonicalSort.sortBy (compareOn Effect.rank) a).destutter (· ≠ ·))
      ((CanonicalSort.sortBy (compareOn Effect.rank) b).destutter (· ≠ ·)) := by
  refine ((Codes.many (Codes.u64.on fun e : Effect => Fin.ofNat (2 ^ 64) e.rank) fun e => List.cons_ne_nil _ _).on
    fun a : List Effect => (CanonicalSort.sortBy (compareOn Effect.rank) a).destutter (· ≠ ·)).imp ?_ ?_ ?_
  · exact fun _ _ _ _ => trivial
  · exact fun _ _ _ _ h => h
  · exact fun _ _ h => h

theorem DirectiveMeta.hashNames_codes : Codes (fun _ => True) DirectiveMeta.hashNames fun a b =>
    List.Forall₂ (· = ·) ((CanonicalSort.sortBy compare a).destutter (· ≠ ·))
      ((CanonicalSort.sortBy compare b).destutter (· ≠ ·)) := by
  refine ((Codes.many Codes.str fun s => List.cons_ne_nil _ _).on
    fun a : List String => (CanonicalSort.sortBy compare a).destutter (· ≠ ·)).imp ?_ ?_ ?_
  · exact fun _ _ _ _ => trivial
  · exact fun _ _ _ _ h => h
  · exact fun _ _ h => h

/-- The metadata a registry holds under its name. -/
def DirectiveMeta.Registered (registry : Registry) (m : DirectiveMeta) : Prop :=
  (registry.get m.name).map Directive.metadata = some m

/-- Where a role stands in the order of phases. -/
def Role.slot : Role → Nat
  | .middleware phase => phase.rank
  | .terminal => 100

theorem DirectiveMeta.codes (registry : Registry) :
    Codes (DirectiveMeta.Registered registry) DirectiveMeta.hashInto (· = ·) := by
  let role : DirectiveMeta → U64 := fun m => Fin.ofNat _ m.role.slot
  refine ((((((((((Effect.hash_codes.on DirectiveMeta.effects).seq (hashNames_codes.on DirectiveMeta.before)).seq
    (hashNames_codes.on DirectiveMeta.conflicts)).seq (Codes.str.on DirectiveMeta.name)).seq
    (Codes.str.on DirectiveMeta.version)).seq (Codes.bool.on fun m : DirectiveMeta => m.scopes.site)).seq
    (Codes.bool.on fun m : DirectiveMeta => m.scopes.route)).seq (Codes.u64.on role)).seq
    (Codes.i64.on fun m : DirectiveMeta => m.order.toI64)).seq
    (Codes.bool.on fun m : DirectiveMeta => m.failurePolicy == .open)).imp (fun _ _ => by simp) ?_ ?_
  · intro a b ha hb h
    have hname : a.name = b.name := h.1.1.1.1.1.1.2
    unfold DirectiveMeta.Registered at ha hb
    rw [hname, hb] at ha
    exact (Option.some.inj ha).symm
  · intro a b h
    subst h
    simp only [List.forall₂_same, implies_true, and_self]

namespace DirectiveInstance

/-- The same directive: metadata, scope, order and what its configuration writes. -/
structure Agree (a b : DirectiveInstance) : Prop where
  metadata : a.metadata = b.metadata
  scope : a.scope = b.scope
  order : a.order = b.order
  config : a.config.written = b.config.written

theorem scope_rank_inj {a b : Scope} (h : (Fin.ofNat (2 ^ 64) a.rank) = Fin.ofNat (2 ^ 64) b.rank) : a = b := by
  revert h
  cases a <;> cases b <;> decide

theorem ends (registry : Registry) :
    Ends (fun d : DirectiveInstance => d.metadata.Registered registry) hashInto Agree := by
  have hhead : Codes (fun d : DirectiveInstance => d.metadata.Registered registry)
      (fun d h => ((d.metadata.hashInto h).updateU64 (Fin.ofNat _ d.scope.rank)).updateI64 d.order.toI64)
      fun a b => a.metadata = b.metadata ∧ a.scope = b.scope ∧ a.order = b.order := by
    refine ((((DirectiveMeta.codes registry).on DirectiveInstance.metadata).seq
      (Codes.u64.on fun d : DirectiveInstance => Fin.ofNat _ d.scope.rank)).seq
      (Codes.i64.on fun d : DirectiveInstance => d.order.toI64)).imp (fun _ h => by simpa using h) ?_ ?_
    · intro a b _ _ h
      exact ⟨h.1.1, scope_rank_inj h.1.2, I32.toI64_inj h.2⟩
    · intro a b h
      exact ⟨⟨h.1, by rw [h.2.1]⟩, by rw [h.2.2]⟩
  refine (Ends.after (S := fun a b => a.config.written = b.config.written)
    (v := fun (d : DirectiveInstance) (h : Hasher) => (⟨h.written ++ d.config.written⟩ : Hasher)) hhead ?_ ?_ ?_).imp
    (fun _ h => h) ?_ ?_
  · intro d g
    simp [Hasher.new]
  · intro a b g _ h
    rw [h]
  · intro a b _ _ _ h _
    simpa [Hasher.new] using h
  · intro a b _ _ h
    obtain ⟨⟨h1, h2, h3⟩, h4⟩ := h
    exact ⟨h1, h2, h3, h4⟩
  · intro a b h
    exact ⟨⟨h.metadata, h.scope, h.order⟩, h.config⟩

end DirectiveInstance

namespace Terminal

inductive Agree : Terminal → Terminal → Prop where
  | proxy (upstream : ResourceId) : Agree (.proxy upstream) (.proxy upstream)
  | directive {a b : DirectiveInstance} (h : a.Agree b) : Agree (.directive a) (.directive b)

def Registered (registry : Registry) (t : Terminal) : Prop :=
  ∀ d, t = .directive d → d.metadata.Registered registry

def word : Terminal → String
  | .proxy _ => "proxy"
  | .directive _ => "directive"

def rest : Terminal → Hasher → Hasher
  | .proxy upstream, h => upstream.hashInto h
  | .directive d, h => d.hashInto h

theorem hashInto_eq (t : Terminal) (h : Hasher) : t.hashInto h = t.rest (h.updateStr t.word) := by
  cases t <;> rfl

theorem rest_append (registry : Registry) (t : Terminal) (g : Hasher) :
    (t.rest g).written = g.written ++ (t.rest .new).written := by
  cases t with
  | proxy upstream => exact ResourceId.codes.append upstream g
  | directive d => exact (DirectiveInstance.ends registry).append d g

theorem ends (registry : Registry) : Ends (Registered registry) hashInto Agree := by
  have hw : Codes (Registered registry) (fun t h => Hasher.updateStr h (word t)) fun a b => word a = word b :=
    (Codes.str.on word).imp (fun _ _ => trivial) (fun _ _ _ _ h => h) fun _ _ h => h
  have he : hashInto = fun t h => rest t (h.updateStr (word t)) := by
    funext t h
    exact hashInto_eq t h
  rw [he]
  refine (Ends.after (S := Agree) (v := rest) hw (rest_append registry) ?_ ?_).imp (fun _ h => h)
    (fun _ _ _ _ h => h.2) ?_
  · intro a b g _ h
    cases h with
    | proxy upstream => rfl
    | directive h => exact (DirectiveInstance.ends registry).same _ _ g h
  · intro a b ha hb hword he hl
    cases a with
    | proxy u =>
      cases b with
      | proxy u' =>
        obtain rfl := ResourceId.codes.ends.whole u u' trivial trivial he hl
        exact .proxy u
      | directive d => simp [word] at hword
    | directive d =>
      cases b with
      | proxy u' => simp [word] at hword
      | directive d' =>
        exact .directive ((DirectiveInstance.ends registry).whole d d' (ha d rfl) (hb d' rfl) he hl)
  · intro a b h
    refine ⟨?_, h⟩
    cases h <;> rfl

end Terminal

variable {blake3 : Digest} {D : Set (List UInt8)}

namespace Route

/-- The same route: its conditions and directives one by one; the origin is not
part of it. -/
structure Agree (a b : Route) : Prop where
  id : a.id = b.id
  path : a.path = b.path
  methods : a.methods = b.methods
  matchers : a.matchers = b.matchers
  directives : List.Forall₂ DirectiveInstance.Agree a.directives b.directives
  terminal : a.terminal.Agree b.terminal

/-- A route whose parts the parsers and the registry built. -/
structure Formed (registry : Registry) (r : Route) : Prop where
  methods : r.methods.Parsed
  matchers : ∀ m ∈ r.matchers, m.Parsed
  directives : ∀ d ∈ r.directives, d.metadata.Registered registry
  terminal : r.terminal.Registered registry

/-- The streams hashed on the way are in `D`. -/
structure HashedIn (D : Set (List UInt8)) (r : Route) : Prop where
  matchers : ∀ m ∈ r.matchers, (m.hashInto .new).written ∈ D
  directives : ∀ d ∈ r.directives, (d.hashInto .new).written ∈ D

theorem ends (registry : Registry) (hd : Apart blake3 D) :
    Ends (fun r => Formed registry r ∧ r.HashedIn D) (hashInto blake3) Agree := by
  have hdirectives := Codes.ordered hd (DirectiveInstance.ends registry)
  refine (Ends.seq (((((ResourceId.codes.on Route.id).seq (PathMatch.codes.on Route.path)).seq
    (MethodMatch.codes.on Route.methods)).seq ((Codes.ordered hd Matcher.codes.ends).on Route.matchers)).seq
    (hdirectives.on Route.directives)) ((Terminal.ends registry).on Route.terminal)).imp ?_ ?_ ?_
  · intro r h
    obtain ⟨hf, hh⟩ := h
    refine ⟨⟨⟨⟨⟨trivial, trivial⟩, hf.methods⟩, ?_⟩, ?_⟩, hf.terminal⟩
    · exact fun m hm => ⟨hf.matchers m hm, hh.matchers m hm⟩
    · exact fun d hm => ⟨hf.directives d hm, hh.directives d hm⟩
  · intro a b _ _ h
    obtain ⟨⟨⟨⟨⟨h1, h2⟩, h3⟩, h4⟩, h5⟩, h6⟩ := h
    rw [List.forall₂_eq_eq_eq] at h4
    exact ⟨h1, h2, h3, h4, h5, h6⟩
  · intro a b h
    refine ⟨⟨⟨⟨⟨h.id, h.path⟩, h.methods⟩, ?_⟩, h.directives⟩, h.terminal⟩
    rw [List.forall₂_eq_eq_eq]
    exact h.matchers

end Route

namespace Site

/-- The same site: its listener names in any order, its directives and routes one by
one; the origin is not part of it, nor whether its certificate was inferred. -/
structure Agree (a b : Site) : Prop where
  id : a.id = b.id
  owner : a.owner = b.owner
  host : a.host = b.host
  listeners : a.listeners.Perm b.listeners
  tls : Option.Rel SiteTls.Agree a.tls b.tls
  directives : List.Forall₂ DirectiveInstance.Agree a.directives b.directives
  routes : List.Forall₂ Route.Agree a.routes b.routes

structure Formed (registry : Registry) (s : Site) : Prop where
  host : s.host.Parsed
  directives : ∀ d ∈ s.directives, d.metadata.Registered registry
  routes : ∀ r ∈ s.routes, r.Formed registry

/-- The streams hashed on the way are in `D`. -/
structure HashedIn (blake3 : Digest) (D : Set (List UInt8)) (s : Site) : Prop where
  listeners : ∀ l ∈ s.listeners, (Hasher.new.updateStr l).written ∈ D
  directives : ∀ d ∈ s.directives, (d.hashInto .new).written ∈ D
  routes : ∀ r ∈ s.routes, r.HashedIn D ∧ (r.hashInto blake3 .new).written ∈ D

theorem codes (registry : Registry) (hd : Apart blake3 D) :
    Codes (fun s => Formed registry s ∧ s.HashedIn blake3 D)
      (fun s h => hashInto blake3 s (h.updateStr s.owner.display)) Agree := by
  have htls := SiteTls.codes.option fun t => ⟨1, t.head, by decide⟩
  refine (((((((Codes.str.on fun s : Site => s.owner.display).seq (ResourceId.codes.on Site.id)).seq
    (HostMatch.codes.on Site.host)).seq ((Codes.unordered hd Codes.str.ends).on Site.listeners)).seq
    (htls.on Site.tls)).seq ((Codes.ordered hd (DirectiveInstance.ends registry)).on Site.directives)).seq
    ((Codes.ordered hd (Route.ends registry hd)).on Site.routes)).imp ?_ ?_ ?_
  · intro s h
    obtain ⟨hf, hh⟩ := h
    refine ⟨⟨⟨⟨⟨⟨trivial, trivial⟩, hf.host⟩, ?_⟩, fun _ _ => trivial⟩, ?_⟩, ?_⟩
    · exact fun l hl => ⟨trivial, hh.listeners l hl⟩
    · exact fun d hm => ⟨hf.directives d hm, hh.directives d hm⟩
    · exact fun r hr => ⟨⟨hf.routes r hr, (hh.routes r hr).1⟩, (hh.routes r hr).2⟩
  · intro a b _ _ h
    obtain ⟨⟨⟨⟨⟨⟨h1, h2⟩, h3⟩, h4⟩, h5⟩, h6⟩, h7⟩ := h
    exact ⟨h2, SourceId.display_inj h1, h3, h4.perm_of_eq, h5, h6, h7⟩
  · intro a b h
    have hl := Shuffled.of_perm (r := (· = ·)) (fun _ => rfl) h.listeners
    exact ⟨⟨⟨⟨⟨⟨by rw [h.owner], h.id⟩, h.host⟩, hl⟩, h.tls⟩, h.directives⟩, h.routes⟩

end Site

theorem Limits.codes : Codes (fun _ => True) Limits.hashInto (· = ·) := by
  refine (((((Codes.u64.on Limits.maxHeader).seq (Codes.u64.on Limits.maxBody)).seq
    (Codes.duration.on Limits.handshakeTimeout)).seq (Codes.duration.on Limits.idleTimeout)).seq
    (Codes.u64.on fun l : Limits => l.maxConnections.toU64)).imp (fun _ _ => by simp) ?_ ?_
  · intro a b _ _ h
    obtain ⟨⟨⟨⟨h1, h2⟩, h3⟩, h4⟩, h5⟩ := h
    cases a; cases b
    rw [Limits.mk.injEq]
    exact ⟨h1, h2, h3, h4, U32.toU64_inj h5⟩
  · intro a b h
    simp [h]

theorem Acme.codes : Codes (fun _ => True) Acme.hashInto (· = ·) := by
  refine (((((Codes.str.on Acme.directory).seq (Codes.str.on Acme.email)).seq (Codes.bool.on Acme.agreed)).seq
    (Codes.optStr.on Acme.directoryPath)).seq (Codes.duration.on Acme.renewBefore)).imp (fun _ _ => by simp) ?_ ?_
  · intro a b _ _ h
    obtain ⟨⟨⟨⟨h1, h2⟩, h3⟩, h4⟩, h5⟩ := h
    cases a; cases b
    rw [Acme.mk.injEq]
    exact ⟨h1, h2, h3, h4, h5⟩
  · intro a b h
    simp [h]

theorem BlockingLimits.codes : Codes (fun _ => True) (fun (l : BlockingLimits) (h : Hasher) =>
    ((h.updateStr "blocking-v1").updateU64 l.jobs).updateU64 l.memoryBytes) (· = ·) := by
  refine (((Codes.str.on fun _ : BlockingLimits => "blocking-v1").seq (Codes.u64.on BlockingLimits.jobs)).seq
    (Codes.u64.on BlockingLimits.memoryBytes)).imp (fun _ _ => by simp) ?_ ?_
  · intro a b _ _ h
    cases a; cases b
    rw [BlockingLimits.mk.injEq]
    exact ⟨h.1.2, h.2⟩
  · intro a b h
    simp [h]

namespace Global

/-- The optional drain and the limits behind it. -/
def drained (p : Option Duration × Limits) (h : Hasher) : Hasher :=
  p.2.hashInto (match p.1 with
    | some duration => (h.updateStr "reload-drain-v1").updateDuration duration
    | none => h)

-- no mark of absence is written: the limits start with a number, the drain with a word
theorem drained_codes : Codes (fun _ => True) drained (· = ·) := by
  have hsome : Codes (fun _ => True) (fun (p : Duration × Limits) h => drained (some p.1, p.2) h) (· = ·) := by
    refine (((Codes.str.on fun _ : Duration × Limits => "reload-drain-v1").seq (Codes.duration.on Prod.fst)).seq
      (Limits.codes.on Prod.snd)).imp (fun _ _ => by simp) ?_ ?_
    · intro a b _ _ h
      exact Prod.ext h.1.2 h.2
    · intro a b h
      simp [h]
  have htag : ∀ (d : Duration) (l l' : Limits) (r r' : List UInt8),
      (drained (some d, l) .new).written ++ r ≠ (drained (none, l') .new).written ++ r' := by
    intro d l l' r r' he
    have hh := congrArg List.head? he
    revert hh
    simp [drained, Limits.hashInto, Hasher.updateStr, Hasher.updateU64, Hasher.updateDuration, Hasher.update,
      Hasher.new]
  refine ⟨?_, ?_, ?_⟩
  · intro p g
    obtain ⟨drain, limits⟩ := p
    cases drain with
    | none => exact Limits.codes.append limits g
    | some d => exact hsome.append (d, limits) g
  · intro a b g h
    rw [h]
  · intro a b r r' _ _ he hl
    obtain ⟨drain, limits⟩ := a
    obtain ⟨drain', limits'⟩ := b
    cases drain with
    | none =>
      cases drain' with
      | none =>
        obtain ⟨hk, hr⟩ := Limits.codes.reads limits limits' r r' trivial trivial he hl
        exact ⟨by rw [hk], hr⟩
      | some d' => exact absurd he.symm (htag d' limits' limits r' r)
    | some d =>
      cases drain' with
      | none => exact absurd he (htag d limits limits' r r')
      | some d' =>
        obtain ⟨hk, hr⟩ := hsome.reads (d, limits) (d', limits') r r' trivial trivial he hl
        cases hk
        exact ⟨rfl, hr⟩

def networkWrite (network : IpAddr × Nat) (h : Hasher) : Hasher :=
  (h.updateStr network.1.toText).updateU64 (Fin.ofNat _ network.2)

theorem network_codes : Codes (fun n => n.2 ≤ 128) networkWrite (· = ·) := by
  refine ((Codes.str.on fun n : IpAddr × Nat => n.1.toText).seq
    (Codes.u64.on fun n : IpAddr × Nat => Fin.ofNat _ n.2)).imp (fun _ _ => by simp) ?_ ?_
  · intro a b ha hb h
    have hv := congrArg Fin.val h.2
    simp only [Fin.val_ofNat] at hv
    rw [Nat.mod_eq_of_lt (by omega), Nat.mod_eq_of_lt (by omega)] at hv
    exact Prod.ext (IpAddr.toText_inj h.1) hv
  · intro a b h
    simp [h]

/-- The same settings, the trusted networks in any order. -/
structure Agree (a b : Global) : Prop where
  blocking : a.blocking = b.blocking
  gracePeriod : a.gracePeriod = b.gracePeriod
  reloadDrain : a.reloadDrain = b.reloadDrain
  limits : a.limits = b.limits
  log : a.log = b.log
  trustedProxies : a.trustedProxies.Perm b.trustedProxies
  acme : a.acme = b.acme

/-- The streams hashed on the way are in `D`. -/
def HashedIn (D : Set (List UInt8)) (g : Global) : Prop := ∀ n ∈ g.trustedProxies, (networkWrite n .new).written ∈ D

theorem codes (hd : Apart blake3 D) :
    Codes (fun g => Formed g ∧ g.HashedIn D) (hashInto blake3) Agree := by
  have he : hashInto blake3 = fun g h =>
      Hasher.updateOption Acme.hashInto (Hasher.updateUnordered blake3 g.trustedProxies networkWrite
        (((drained (g.reloadDrain, g.limits) ((Hasher.updateOption (fun (l : BlockingLimits) (h : Hasher) =>
          ((h.updateStr "blocking-v1").updateU64 l.jobs).updateU64 l.memoryBytes) h g.blocking).updateDuration
            g.gracePeriod)).updateStr g.log.level).updateStr g.log.format)) g.acme := by
    funext g h
    obtain ⟨blocking, grace, drain, limits, proxies, acme, log⟩ := g
    cases blocking <;> cases drain <;> rfl
  rw [he]
  have hblocking := Codes.optionEq BlockingLimits.codes fun l => ⟨1, rfl, by decide⟩
  have hacme := Codes.optionEq Acme.codes fun a => ⟨1, by obtain ⟨_, _, _, _ | _, _⟩ := a <;> rfl, by decide⟩
  refine (((((((hblocking.on Global.blocking).seq (Codes.duration.on Global.gracePeriod)).seq
    (drained_codes.on fun g : Global => (g.reloadDrain, g.limits))).seq
    (Codes.str.on fun g : Global => g.log.level)).seq (Codes.str.on fun g : Global => g.log.format)).seq
    ((Codes.unordered hd network_codes.ends).on Global.trustedProxies)).seq (hacme.on Global.acme)).imp ?_ ?_ ?_
  · intro g h
    refine ⟨⟨⟨⟨⟨⟨fun _ _ => trivial, trivial⟩, trivial⟩, trivial⟩, trivial⟩, ?_⟩, fun _ _ => trivial⟩
    exact fun n hn => ⟨h.1 n hn, h.2 n hn⟩
  · intro a b _ _ h
    obtain ⟨⟨⟨⟨⟨⟨h1, h2⟩, h3⟩, h4⟩, h5⟩, h6⟩, h7⟩ := h
    obtain ⟨h31, h32⟩ := Prod.mk.inj h3
    refine ⟨h1, h2, h31, h32, ?_, h6.perm_of_eq, h7⟩
    cases hx : a.log; cases hy : b.log
    rw [hx, hy] at h4 h5
    rw [Log.mk.injEq]
    exact ⟨h4, h5⟩
  · intro a b h
    have hp := Shuffled.of_perm (r := (· = ·)) (fun _ => rfl) h.trustedProxies
    exact ⟨⟨⟨⟨⟨⟨h.blocking, h.gracePeriod⟩, by rw [h.reloadDrain, h.limits]⟩, by rw [h.log]⟩, by rw [h.log]⟩, hp⟩,
      h.acme⟩

end Global

end Gatel
