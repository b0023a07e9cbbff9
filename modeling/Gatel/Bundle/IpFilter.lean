import Gatel.Model.NetBits
import Gatel.Plan.Decoded
import Gatel.Plan.Texts
import Gatel.Server.ClientAddress

namespace Gatel

theorem Dispatcher.inNetwork_iff (ip network : IpAddr) (n : Nat) :
    Dispatcher.inNetwork ip network n = true ↔ ip.Shares network n := by
  rw [IpAddr.Shares]
  cases ip <;> cases network
  case v4.v4 a b =>
    rw [Dispatcher.inNetwork, beq_iff_eq, @IpAddr.masked_octets (.v4 a) (.v4 b) rfl]
    exact (and_iff_right rfl).symm
  case v6.v6 a b =>
    rw [Dispatcher.inNetwork, beq_iff_eq, @IpAddr.masked_octets (.v6 a) (.v6 b) rfl]
    exact (and_iff_right rfl).symm
  all_goals simp [Dispatcher.inNetwork, IpAddr.isIpv4]

theorem IpAddr.inNetwork_iff (ip network : IpAddr) {n : Nat} (hn : n ≤ network.width) :
    ip.inNetwork network n = true ↔ ip.Shares network n := by
  rw [← Dispatcher.inNetwork_iff]
  cases ip <;> cases network
  case v4.v4 | v6.v6 =>
    simp only [IpAddr.width, IpAddr.isIpv4, if_true, Bool.false_eq_true, if_false] at hn
    simp only [IpAddr.inNetwork, Dispatcher.inNetwork, decide_eq_true hn, Bool.true_and]
  all_goals rfl

namespace IpFilter

structure Network where
  address : IpAddr
  bits : Nat
  deriving DecidableEq

/-- A v4 rule says nothing about a v6 client. -/
def Network.contains (network : Network) (ip : IpAddr) : Bool :=
  match ip, network.address with
  | .v4 _, .v4 _ => IpAddr.masked ip.octets network.bits == IpAddr.masked network.address.octets network.bits
  | .v6 _, .v6 _ => IpAddr.masked ip.octets network.bits == IpAddr.masked network.address.octets network.bits
  | _, _ => false

theorem Network.contains_eq (network : Network) (ip : IpAddr) :
    network.contains ip = Dispatcher.inNetwork ip network.address network.bits := by
  obtain ⟨address, bits⟩ := network
  cases ip <;> cases address <;> rfl

structure IpFilterHandler where
  allow : List Network
  deny : List Network

/-- Deny wins over allow, and an allow list that exists excludes everything it does not name. -/
def IpFilterHandler.permits (f : IpFilterHandler) (ip : IpAddr) : Bool :=
  if f.deny.any fun network => network.contains ip then false
  else f.allow.isEmpty || f.allow.any fun network => network.contains ip

/-- Whether the rest of the chain is called; a request with no address is refused. -/
def IpFilterHandler.handle (f : IpFilterHandler) (clientIp : Option IpAddr) : Bool := clientIp.any f.permits

/-- A client is let through exactly when no denied network shares its leading bits and, where
networks are allowed, one of them does. -/
theorem IpFilterHandler.permits_iff (f : IpFilterHandler) (ip : IpAddr) :
    f.permits ip = true ↔ (∀ d ∈ f.deny, ¬ ip.Shares d.address d.bits) ∧
      (f.allow = [] ∨ ∃ a ∈ f.allow, ip.Shares a.address a.bits) := by
  have hany : ∀ networks : List Network,
      (networks.any fun network => network.contains ip) = true ↔ ∃ w ∈ networks, ip.Shares w.address w.bits := by
    intro networks
    rw [List.any_eq_true]
    simp only [Network.contains_eq, Dispatcher.inNetwork_iff]
  rw [permits]
  split
  · rename_i hdeny
    obtain ⟨d, hd, hs⟩ := (hany _).mp hdeny
    exact ⟨fun h => absurd h Bool.false_ne_true, fun h => absurd hs (h.1 d hd)⟩
  · rename_i hdeny
    have hnone : ∀ d ∈ f.deny, ¬ ip.Shares d.address d.bits := fun d hd hs => hdeny ((hany _).mpr ⟨d, hd, hs⟩)
    rw [Bool.or_eq_true, hany, List.isEmpty_iff]
    exact ⟨fun h => ⟨hnone, h⟩, fun h => h.2⟩

end IpFilter

/-! The text of a network. -/

/-- An address and, behind the first slash, a text. -/
def Slashed (raw address text : String) : Prop := '/' ∉ address.toList ∧ raw.toList = address.toList ++ '/' :: text.toList

theorem Slashed.unique {raw a b a' b' : String} (h : Slashed raw a b) (h' : Slashed raw a' b') : a = a' ∧ b = b' := by
  have he := Text.splitOnce_iff.mpr h
  rw [Text.splitOnce_iff.mpr h'] at he
  obtain ⟨ha, hb⟩ := Prod.mk.inj (Option.some.inj he)
  exact ⟨ha.symm, hb.symm⟩

variable {leaves : Leaves} {raw address text : String} {ip : IpAddr} {n m : Nat}

/-- What `parse_cidr` does once it has read a length. -/
theorem parseCidr_checked : (do
      let ip ← match leaves.parseIp address with
        | some ip => .ok ip
        | none => .error ("`" ++ address ++ "` is not an IP address")
      let most := if ip.isIpv4 then 32 else 128
      let bits := if m = 255 then most else m
      if bits > most then .error ("/" ++ toString bits ++ " is too long for " ++ ip.toText)
      else .ok (ip, bits) : Except String (IpAddr × Nat)) = .ok (ip, n) ↔
    leaves.parseIp address = some ip ∧ n = (if m = 255 then ip.width else m) ∧ n ≤ ip.width := by
  cases hip : leaves.parseIp address with
  | none =>
    constructor
    · intro h
      cases h
    · exact fun h => absurd h.1 (by simp)
  | some found =>
    change (if (if m = 255 then found.width else m) > found.width then _ else Except.ok (found, if m = 255 then found.width else m)) =
      .ok (ip, n) ↔ _
    generalize hk : (if m = 255 then found.width else m) = kept
    split
    · rename_i hlong
      constructor
      · intro h
        cases h
      · rintro ⟨hfound, hn, hle⟩
        cases hfound
        rw [hk] at hn
        exact absurd hlong (by omega)
    · rename_i hfits
      constructor
      · intro h
        cases h
        exact ⟨rfl, hk.symm, by omega⟩
      · rintro ⟨hfound, hn, _⟩
        cases hfound
        rw [hn, hk]

theorem parseCidr_slashed (hs : Slashed raw address text) : parseCidr leaves raw = .ok (ip, n) ↔
    ∃ m, Text.parseUnsigned 256 text = some m ∧ leaves.parseIp address = some ip ∧
      n = (if m = 255 then ip.width else m) ∧ n ≤ ip.width := by
  unfold parseCidr
  rw [Text.splitOnce_iff.mpr hs]
  cases hm : Text.parseUnsigned 256 text with
  | none =>
    constructor
    · intro h
      simp only [hm] at h
      cases h
    · rintro ⟨m, h, _⟩
      cases h
  | some m =>
    simp only [hm]
    refine Iff.trans parseCidr_checked ⟨fun h => ⟨m, rfl, h⟩, ?_⟩
    rintro ⟨m', hm', h⟩
    cases hm'
    exact h

theorem parseCidr_bare (h : '/' ∉ raw.toList) : parseCidr leaves raw = .ok (ip, n) ↔
    leaves.parseIp raw = some ip ∧ n = ip.width := by
  have hnone : Text.splitOnce '/' raw = none := by
    cases hs : Text.splitOnce '/' raw with
    | none => rfl
    | some parts => exact absurd (by rw [(Text.splitOnce_iff.mp hs).2]; simp) h
  unfold parseCidr
  rw [hnone]
  refine Iff.trans parseCidr_checked ⟨fun h => ⟨h.1, h.2.1⟩, ?_⟩
  rintro ⟨hip, rfl⟩
  exact ⟨hip, rfl, le_rfl⟩

/-- A network as it should be written: an address, or an address and a length in digits. -/
def Written (leaves : Leaves) (raw : String) (ip : IpAddr) (n : Nat) : Prop :=
  ('/' ∉ raw.toList ∧ leaves.parseIp raw = some ip ∧ n = ip.width) ∨
    ∃ address text : String, Slashed raw address text ∧ leaves.parseIp address = some ip ∧ Decimal text.toList n ∧ n ≤ ip.width

/-- A length that is taken for none, or one with a sign. -/
def Slip (leaves : Leaves) (raw : String) : Prop :=
  ∃ (address text : String) (ip : IpAddr), Slashed raw address text ∧ leaves.parseIp address = some ip ∧
    (Decimal text.toList 255 ∨
      ∃ (digits : List Char) (n : Nat), text.toList = '+' :: digits ∧ Decimal digits n ∧ (n ≤ ip.width ∨ n = 255))

theorem width_le (ip : IpAddr) : ip.width ≤ 128 := by
  rw [IpAddr.width]
  split <;> decide

theorem Decimal.unique {digits : List Char} (h : Decimal digits n) (h' : Decimal digits m) : n = m := h.2.2.symm.trans h'.2.2

theorem Decimal.no_sign {digits : List Char} : ¬ Decimal ('+' :: digits) n := fun h =>
  absurd (h.2.1 '+' List.mem_cons_self) (by decide)

/-- The lengths that `parse_cidr` returns fit the family. -/
theorem parseCidr_width (h : parseCidr leaves raw = .ok (ip, n)) : n ≤ ip.width := by
  cases hs : Text.splitOnce '/' raw with
  | none => exact ((parseCidr_bare (Text.splitOnce_none_iff.mp hs)).mp h).2.le
  | some parts =>
    obtain ⟨m, _, _, _, hle⟩ := (parseCidr_slashed (Text.splitOnce_iff.mp hs)).mp h
    exact hle

theorem parseCidr_of_written (h : Written leaves raw ip n) : parseCidr leaves raw = .ok (ip, n) := by
  rcases h with ⟨hbare, h⟩ | ⟨address, text, hs, hip, hdec, hle⟩
  · exact (parseCidr_bare hbare).mpr h
  · have hmost := width_le ip
    refine (parseCidr_slashed hs).mpr ⟨n, Text.parseUnsigned_iff.mpr ⟨by omega, .inl hdec⟩, hip, ?_, hle⟩
    rw [if_neg (by omega)]

theorem written_of_parseCidr (hslip : ¬ Slip leaves raw) (h : parseCidr leaves raw = .ok (ip, n)) : Written leaves raw ip n := by
  cases hs : Text.splitOnce '/' raw with
  | none => exact .inl ⟨Text.splitOnce_none_iff.mp hs, (parseCidr_bare (Text.splitOnce_none_iff.mp hs)).mp h⟩
  | some parts =>
    obtain ⟨address, text⟩ := parts
    have hslashed := Text.splitOnce_iff.mp hs
    obtain ⟨m, hm, hip, hn, hle⟩ := (parseCidr_slashed hslashed).mp h
    obtain ⟨hlt, hdec | ⟨digits, htext, hdec⟩⟩ := Text.parseUnsigned_iff.mp hm
    · by_cases hfull : m = 255
      · subst hfull
        exact absurd ⟨address, text, ip, hslashed, hip, .inl hdec⟩ hslip
      · rw [if_neg hfull] at hn
        subst hn
        exact .inr ⟨address, text, hslashed, hip, hdec, hle⟩
    · refine absurd ⟨address, text, ip, hslashed, hip, .inr ⟨digits, m, htext, hdec, ?_⟩⟩ hslip
      by_cases hfull : m = 255
      · exact .inr hfull
      · rw [if_neg hfull] at hn
        exact .inl (hn ▸ hle)

/-- A slip is accepted, and is nothing that should be written. -/
theorem Slip.accepted (h : Slip leaves raw) : ∃ (ip : IpAddr) (n : Nat), parseCidr leaves raw = .ok (ip, n) ∧ ¬ Written leaves raw ip n := by
  obtain ⟨address, text, ip, hs, hip, hslip⟩ := h
  have hsplit : ∀ {n : Nat}, Written leaves raw ip n → Decimal text.toList n ∧ n ≤ ip.width := by
    rintro n (⟨hbare, _⟩ | ⟨address', text', hs', _, hdec, hle⟩)
    · exact absurd (by rw [hs.2]; simp) hbare
    · obtain ⟨_, rfl⟩ := hs.unique hs'
      exact ⟨hdec, hle⟩
  have hmost := width_le ip
  rcases hslip with hdec | ⟨digits, m, htext, hdec, hm⟩
  · refine ⟨ip, ip.width, (parseCidr_slashed hs).mpr
      ⟨255, Text.parseUnsigned_iff.mpr ⟨by omega, .inl hdec⟩, hip, rfl, le_rfl⟩, fun hw => ?_⟩
    have hsame := hdec.unique (hsplit hw).1
    omega
  · refine ⟨ip, if m = 255 then ip.width else m, (parseCidr_slashed hs).mpr
      ⟨m, Text.parseUnsigned_iff.mpr ⟨by omega, .inr ⟨digits, htext, hdec⟩⟩, hip, rfl, ?_⟩, fun hw => ?_⟩
    · split <;> omega
    · have hd := (hsplit hw).1
      rw [htext] at hd
      exact hd.no_sign

/-- The three membership tests are one relation on everything `parse_cidr` returns, and it accepts
exactly what should be written unless a length is 255 or has a sign. -/
theorem cidr_iff (leaves : Leaves) (raw : String) :
    ((∀ (network : IpAddr) (n : Nat), (∃ text, parseCidr leaves text = .ok (network, n)) → ∀ ip : IpAddr,
        (ip.inNetwork network n = true ↔ ip.Shares network n) ∧
        (Dispatcher.inNetwork ip network n = true ↔ ip.Shares network n) ∧
        ((IpFilter.Network.mk network n).contains ip = true ↔ ip.Shares network n)) ∧
      ∀ (network : IpAddr) (n : Nat), parseCidr leaves raw = .ok (network, n) ↔ Written leaves raw network n) ↔
      ¬ Slip leaves raw := by
  constructor
  · rintro ⟨_, hparse⟩ hslip
    obtain ⟨ip, n, hok, hnot⟩ := hslip.accepted
    exact hnot ((hparse ip n).mp hok)
  · intro hslip
    refine ⟨?_, fun network n => ⟨written_of_parseCidr hslip, parseCidr_of_written⟩⟩
    rintro network n ⟨text, hok⟩ ip
    refine ⟨IpAddr.inNetwork_iff ip network (parseCidr_width hok), Dispatcher.inNetwork_iff ip network n, ?_⟩
    rw [IpFilter.Network.contains_eq]
    exact Dispatcher.inNetwork_iff ip network n

/-- Addresses as the standard library reads them; nothing else is asked for here. -/
def addressLeaves : Leaves := ⟨some, IpAddr.parse, fun _ => none, fun _ => .error "", fun _ => ""⟩

/-- `10.0.0.0/255` is taken for a single host. -/
theorem cidr_too_long : ¬ ∀ (raw : String) (network : IpAddr) (n : Nat),
    parseCidr addressLeaves raw = .ok (network, n) ↔ Written addressLeaves raw network n := by
  intro h
  have hslip : Slip addressLeaves "10.0.0.0/255" :=
    ⟨"10.0.0.0", "255", .v4 #v[10, 0, 0, 0], ⟨by decide, rfl⟩, by decide,
      .inl ⟨by decide, List.all_eq_true.mp (by decide), rfl⟩⟩
  obtain ⟨ip, n, hok, hnot⟩ := hslip.accepted
  exact hnot ((h _ ip n).mp hok)

end Gatel
