import Gatel.Plan.Selection
import Gatel.Plan.Texts
import Gatel.Proxy.RequestHost
import Gatel.State.Reload

namespace Gatel
open SecretRef (stripPrefix?)

/-- What is relied on of socket-address parsing: an address reads back from its text, and only numeric text is one. -/
structure NumericSockets (leaves : Leaves) : Prop where
  shown : ∀ addr : SocketAddr, leaves.parseSocket addr.toText = some addr
  numeric : ∀ text addr, leaves.parseSocket text = some addr → text.toList.head? = some '[' ∨
    ∃ port, addr.ip.isIpv4 = true ∧ text = addr.ip.toText ++ ":" ++ port ∧ Text.parseUnsigned 65536 port = some addr.port.toNat

namespace Target

variable {leaves : Leaves} {text host port : String} {t : Target}

/-! Reading a target. -/

theorem stripPrefix?_iff {pre text rest : String} : stripPrefix? pre text = some rest ↔ text = pre ++ rest := by
  unfold stripPrefix?
  constructor
  · intro h
    split at h
    · rename_i hpre
      obtain ⟨tail, htail⟩ := List.isPrefixOf_iff_prefix.mp hpre
      cases h
      apply String.toList_inj.mp
      rw [String.toList_append, String.toList_ofList, ← htail, List.drop_left]
    · cases h
  · rintro rfl
    have hpre : pre.toList.isPrefixOf (pre ++ rest).toList = true :=
      List.isPrefixOf_iff_prefix.mpr ⟨rest.toList, String.toList_append.symm⟩
    rw [if_pos hpre, String.toList_append, List.drop_left, String.ofList_toList]

/-- A text that reads as a name with a port. -/
structure Named (leaves : Leaves) (text host port : String) (n : Nat) : Prop where
  noPath : stripPrefix? "unix:" text = none
  notNumeric : ∀ addr, leaves.parseSocketAddr text ≠ .ok addr
  noBracket : text.toList.head? ≠ some '['
  split : Text.rsplitOnce ':' text = some (host, port)
  number : Text.parseUnsigned 65536 port = some n
  nonzero : n ≠ 0
  usable : checkHost host = .ok ()

theorem parse_path {path : String} (hpath : stripPrefix? "unix:" text = some path) (hne : path ≠ "") :
    parse leaves text = .ok (.unix path) := by
  simp [parse, hpath, hne]

theorem parse_address {addr : SocketAddr} (hpath : stripPrefix? "unix:" text = none)
    (h : leaves.parseSocketAddr text = .ok addr) : parse leaves text = .ok (.address addr) := by
  simp [parse, hpath, h]

theorem Named.parse {n : Nat} (h : Named leaves text host port n) :
    parse leaves text = .ok (.name (Text.lower (trimDots host)) n.toUInt16) := by
  obtain ⟨m, rfl⟩ : ∃ m, n = m + 1 := Nat.exists_eq_succ_of_ne_zero h.nonzero
  cases haddr : leaves.parseSocketAddr text with
  | ok addr => exact absurd haddr (h.notNumeric addr)
  | error message => simp [Target.parse, h.noPath, haddr, h.noBracket, h.split, h.number, h.usable]

theorem parse_cases (h : parse leaves text = .ok t) :
    (∃ path, stripPrefix? "unix:" text = some path ∧ path ≠ "" ∧ t = .unix path) ∨
    (∃ addr, stripPrefix? "unix:" text = none ∧ leaves.parseSocketAddr text = .ok addr ∧ t = .address addr) ∨
    ∃ host port n, Named leaves text host port n ∧ t = .name (Text.lower (trimDots host)) n.toUInt16 := by
  unfold parse at h
  split at h
  · rename_i path hpath
    split at h
    · cases h
    · rename_i hne
      exact .inl ⟨path, hpath, hne, (Except.ok.inj h).symm⟩
  · rename_i hpath
    split at h
    · rename_i addr haddr
      exact .inr (.inl ⟨addr, hpath, haddr, (Except.ok.inj h).symm⟩)
    · rename_i message haddr
      split at h
      · cases h
      · rename_i hbracket
        split at h
        · cases h
        · rename_i host port hsplit
          split at h
          · cases h
          · cases h
          · rename_i n hzero hnumber
            split at h
            · cases h
            · rename_i husable
              refine .inr (.inr ⟨host, port, n, ⟨hpath, ?_, hbracket, hsplit, hnumber, ?_, husable⟩, (Except.ok.inj h).symm⟩)
              · intro addr he
                rw [haddr] at he
                cases he
              · exact fun he => hzero he

/-! Host names and how they are kept. -/

/-- The text a name is kept as. -/
@[grind =] def normal (host : String) : String := Text.lower (trimDots host)

def HostChar (c : Char) : Prop := c.isAlphanum = true ∨ c = '-' ∨ c = '.'

def LabelOk (label : List Char) : Prop :=
  label ≠ [] ∧ (String.ofList label).utf8ByteSize ≤ 63 ∧ label.head? ≠ some '-' ∧ label.getLast? ≠ some '-' ∧
    ∀ c ∈ label, c.isAlphanum = true ∨ c = '-'

def Usable (name : String) : Prop :=
  name ≠ "" ∧ name.utf8ByteSize ≤ 253 ∧ ∀ label ∈ name.toList.splitOn '.', LabelOk label

theorem checkLabel_iff {label : List Char} : checkLabel host (String.ofList label) = .ok () ↔ LabelOk label := by
  unfold checkLabel LabelOk
  have hempty : String.ofList label = "" ↔ label = [] := by
    rw [← String.toList_inj, String.toList_ofList]
    rfl
  rw [String.toList_ofList]
  by_cases hnil : label = []
  · simp [hnil]
  · by_cases hlong : 63 < (String.ofList label).utf8ByteSize
    · simp [hempty, hnil, hlong, Nat.not_le.mpr hlong]
    · by_cases hdash : label.head? = some '-' ∨ label.getLast? = some '-'
      · rcases hdash with hdash | hdash <;> simp [hempty, hnil, hlong, hdash]
      · obtain ⟨hhead, hlast⟩ := not_or.mp hdash
        cases hfind : label.find? fun c => !c.isAlphanum && c != '-' with
        | some bad =>
          have hbad := List.find?_some hfind
          have hmem := List.mem_of_find?_eq_some hfind
          simp only [hempty, hnil, hlong, hhead, hlast, if_false, or_self]
          constructor
          · exact fun h => nomatch h
          · intro h
            rcases h.2.2.2.2 bad hmem with halnum | hminus <;> simp_all
        | none =>
          have hall := List.find?_eq_none.mp hfind
          simp only [hempty, hnil, hlong, hhead, hlast, if_false, or_self, true_iff]
          refine ⟨hnil, Nat.not_lt.mp hlong, hhead, hlast, ?_⟩
          intro c hc
          by_contra hno
          obtain ⟨halnum, hminus⟩ := not_or.mp hno
          exact hall c hc (by simp [halnum, hminus])

theorem forM_ok {α : Type} {f : α → Except String Unit} {l : List α} : l.forM f = .ok () ↔ ∀ a ∈ l, f a = .ok () := by
  induction l with
  | nil => simp [pure, Except.pure]
  | cons a l ih =>
    change (f a >>= fun _ => l.forM f) = .ok () ↔ _
    rw [List.forall_mem_cons, ← ih]
    cases ha : f a with
    | error message => simp [bind, Except.bind]
    | ok u => simp [bind, Except.bind]

theorem checkHost_iff : checkHost host = .ok () ↔ Usable (trimDots host) := by
  unfold checkHost Usable
  dsimp only
  by_cases hnil : trimDots host = ""
  · simp [hnil]
  · by_cases hlong : 253 < (trimDots host).utf8ByteSize
    · simp [hnil, hlong, Nat.not_le.mpr hlong]
    · rw [if_neg hnil, if_neg hlong, forM_ok, Text.splitAll]
      constructor
      · intro h
        refine ⟨hnil, Nat.not_lt.mp hlong, ?_⟩
        intro label hlabel
        exact checkLabel_iff.1 (h _ (List.mem_map.mpr ⟨label, hlabel, rfl⟩))
      · intro h label hlabel
        obtain ⟨chars, hchars, rfl⟩ := List.mem_map.mp hlabel
        exact checkLabel_iff.2 (h.2.2 chars hchars)

theorem toLower_dot {c : Char} : c.toLower = '.' ↔ c = '.' := by
  constructor
  · exact Proxy.toLower_eq (by decide)
  · rintro rfl
    rfl

theorem toLower_dash {c : Char} : c.toLower = '-' ↔ c = '-' := by
  constructor
  · exact Proxy.toLower_eq (by decide)
  · rintro rfl
    rfl

theorem isAlphanum_toLower (c : Char) : c.toLower.isAlphanum = c.isAlphanum := by
  by_cases hupper : 65 ≤ c.toNat ∧ c.toNat ≤ 90
  · have hnat := Proxy.toNat_toLower hupper.1 hupper.2
    have hlow : c.toLower.isLower = true := by
      simp only [Char.isLower, Bool.and_eq_true, decide_eq_true_eq, ge_iff_le, UInt32.le_iff_toNat_le]
      change 97 ≤ c.toLower.toNat ∧ c.toLower.toNat ≤ 122
      omega
    have hup : c.isUpper = true := by
      simp only [Char.isUpper, decide_eq_true_eq, ge_iff_le, UInt32.le_iff_toNat_le]
      exact hupper
    simp [Char.isAlphanum, Char.isAlpha, hlow, hup]
  · rw [Proxy.toLower_of_not_upper hupper]

theorem labelOk_lower {label : List Char} : LabelOk (label.map Char.toLower) ↔ LabelOk label := by
  have hsize := Text.utf8ByteSize_lower (String.ofList label)
  rw [Text.lower, String.toList_ofList] at hsize
  unfold LabelOk
  rw [hsize, List.head?_map, List.getLast?_map]
  simp only [ne_eq, List.map_eq_nil_iff, Option.map_eq_some_iff, toLower_dash, exists_eq_right, List.forall_mem_map,
    isAlphanum_toLower]

theorem usable_lower (name : String) : Usable (Text.lower name) ↔ Usable name := by
  have hempty : Text.lower name = "" ↔ name = "" := by
    rw [← String.toList_inj, ← String.toList_inj, Text.lower, String.toList_ofList]
    exact List.map_eq_nil_iff
  have hsplit : (Text.lower name).toList.splitOn '.' = (name.toList.splitOn '.').map (List.map Char.toLower) := by
    rw [Text.lower, String.toList_ofList]
    exact Text.splitOn_map (f := Char.toLower) (a := '.') fun c _ hc => toLower_dot.1 hc
  unfold Usable
  rw [Text.utf8ByteSize_lower, hsplit]
  simp only [ne_eq, hempty, List.forall_mem_map, labelOk_lower]

theorem trimDots_lower (host : String) : trimDots (Text.lower host) = Text.lower (trimDots host) := by
  have hdots : ((· == '.') ∘ Char.toLower) = fun c : Char => c == '.' := by
    funext c
    rw [Function.comp_apply, Bool.eq_iff_iff, beq_iff_eq, beq_iff_eq, toLower_dot]
  unfold trimDots Text.lower
  rw [String.toList_ofList, String.toList_ofList, ← List.map_reverse, List.dropWhile_map, hdots, List.map_reverse]

theorem trimDots_dot (host : String) : trimDots (host ++ ".") = trimDots host := by
  simp [trimDots]

/-- The dots at its end and what is left. -/
theorem trimDots_split (host : String) : ∃ dots : List Char, (∀ c ∈ dots, c = '.') ∧
    host.toList = (trimDots host).toList ++ dots := by
  refine ⟨(host.toList.reverse.takeWhile (· == '.')).reverse, ?_, ?_⟩
  · intro c hc
    have hdot := List.mem_takeWhile_imp (List.mem_reverse.mp hc)
    exact beq_iff_eq.mp hdot
  · rw [trimDots, String.toList_ofList, ← List.reverse_append, List.takeWhile_append_dropWhile, List.reverse_reverse]

theorem trimDots_trimDots (host : String) : trimDots (trimDots host) = trimDots host := by
  unfold trimDots
  rw [String.toList_ofList, List.reverse_reverse, List.dropWhile_idempotent]

theorem normal_normal (host : String) : normal (normal host) = normal host := by
  rw [normal, normal, trimDots_lower, trimDots_trimDots, HostMatch.lower_lower]

/-- Two spellings that differ in letter case or in one dot at the end. -/
def Respelt (host host' : String) : Prop :=
  Text.lower host' = Text.lower host ∨ Text.lower host' = Text.lower host ++ "." ∨ Text.lower host = Text.lower host' ++ "."

theorem normal_respelt {host host' : String} (h : Respelt host host') : normal host' = normal host := by
  unfold normal
  rw [← trimDots_lower, ← trimDots_lower]
  rcases h with h | h | h
  · rw [h]
  · rw [h, trimDots_dot]
  · rw [h, trimDots_dot]

theorem checkHost_normal : checkHost host = .ok () ↔ Usable (normal host) := by
  rw [checkHost_iff, normal, usable_lower]

theorem Usable.chars {name : String} (h : Usable name) : ∀ c ∈ name.toList, HostChar c := by
  intro c hc
  have hjoin : ['.'].intercalate (name.toList.splitOn '.') = name.toList := List.intercalate_splitOn '.'
  rw [← hjoin] at hc
  rcases Separated.mem_intercalate hc with hdot | ⟨label, hlabel, hc⟩
  · exact .inr (.inr hdot)
  · rcases (h.2.2 label hlabel).2.2.2.2 c hc with halnum | hdash
    · exact .inl halnum
    · exact .inr (.inl hdash)

theorem HostChar.ne {c d : Char} (h : HostChar c) (hd : ¬ HostChar d) : c ≠ d := fun he => hd (he ▸ h)

theorem not_hostChar : ¬ HostChar ':' ∧ ¬ HostChar '[' := by
  unfold HostChar
  decide

theorem host_chars (h : checkHost host = .ok ()) : ∀ c ∈ host.toList, HostChar c := by
  intro c hc
  obtain ⟨dots, hdots, hsplit⟩ := trimDots_split host
  rw [hsplit] at hc
  rcases List.mem_append.mp hc with hc | hc
  · exact (checkHost_iff.1 h).chars c hc
  · exact .inr (.inr (hdots c hc))

theorem host_ne_empty (h : checkHost host = .ok ()) : host ≠ "" := by
  rintro rfl
  exact (checkHost_iff.1 h).1 rfl

theorem no_colon {host : String} (h : ∀ c ∈ host.toList, HostChar c) : ':' ∉ host.toList :=
  fun hc => not_hostChar.1 (h _ hc)

theorem head_of_host (hne : host ≠ "") (h : ∀ c ∈ host.toList, HostChar c) (rest : String) :
    ∃ c, (host ++ rest).toList.head? = some c ∧ HostChar c := by
  cases hl : host.toList with
  | nil => exact absurd (String.toList_inj.mp (hl.trans rfl)) hne
  | cons c l => exact ⟨c, by simp [hl], h c (by simp [hl])⟩

theorem parseUnsigned_toString {limit n : Nat} (h : n < limit) : Text.parseUnsigned limit (toString n) = some n := by
  have hl : (toString n).toList = Nat.toDigits 10 n := Nat.toList_repr
  rw [Text.parseUnsigned_iff, hl]
  refine ⟨h, .inl ⟨Nat.toDigits_ne_nil, fun c hc => Nat.isDigit_of_mem_toDigits (by decide) (by decide) hc, ?_⟩⟩
  have hten := Nat.ofDigitChars_ten_toDigits (n := n)
  rw [Nat.ofDigitChars_eq_foldl] at hten
  simpa [Nat.mul_comm] using hten

theorem port_no_colon {n : Nat} (h : Text.parseUnsigned 65536 port = some n) : ':' ∉ port.toList := by
  intro hc
  obtain ⟨-, hdec | ⟨digits, hplus, hdec⟩⟩ := Text.parseUnsigned_iff.mp h
  · exact absurd (hdec.2.1 _ hc) (by decide)
  · rw [hplus] at hc
    exact absurd (hdec.2.1 _ ((List.mem_cons.mp hc).resolve_left (by decide))) (by decide)

theorem parseSocketAddr_iff {addr : SocketAddr} (h : text.toList.head? ≠ some ':') :
    leaves.parseSocketAddr text = .ok addr ↔ leaves.parseSocket text = some addr ∧ addr.port ≠ 0 := by
  have hno : stripPrefix? ":" text = none := by
    cases hstrip : stripPrefix? ":" text with
    | none => rfl
    | some rest =>
      rw [stripPrefix?_iff.1 hstrip] at h
      exact absurd (by simp) h
  unfold Leaves.parseSocketAddr
  rw [hno]
  dsimp only
  cases leaves.parseSocket text with
  | none => simp
  | some found =>
    by_cases hzero : found.port = 0
    · simp only [if_pos hzero, Option.some.injEq, reduceCtorEq, false_iff]
      rintro ⟨rfl, hne⟩
      exact hne hzero
    · simp only [if_neg hzero, Except.ok.injEq, Option.some.injEq]
      exact ⟨fun he => ⟨he, he ▸ hzero⟩, fun he => he.1⟩

theorem stripPrefix_unix (h : ∀ c ∈ host.toList, HostChar c) :
    stripPrefix? "unix:" (host ++ ":" ++ port) = none ↔ host ≠ "unix" := by
  constructor
  · rintro hnone rfl
    rw [show ("unix" ++ ":" ++ port : String) = "unix:" ++ port from rfl, stripPrefix?_iff.2 rfl] at hnone
    cases hnone
  · intro hne
    cases hstrip : stripPrefix? "unix:" (host ++ ":" ++ port) with
    | none => rfl
    | some rest =>
      have htext := congrArg String.toList (stripPrefix?_iff.1 hstrip)
      have hsplit : host.toList ++ ':' :: port.toList = "unix".toList ++ ':' :: rest.toList := by simpa using htext
      exact absurd (String.toList_inj.mp (Separated.split_inj (no_colon h) (by decide) hsplit).1) hne

/-- A name with a port is numeric only as an IPv4 address. -/
theorem numeric_name (hl : NumericSockets leaves) {addr : SocketAddr} (hne : host ≠ "") (h : ∀ c ∈ host.toList, HostChar c)
    (hsock : leaves.parseSocket (host ++ ":" ++ port) = some addr) :
    addr.ip.isIpv4 = true ∧ host = addr.ip.toText ∧ Text.parseUnsigned 65536 port = some addr.port.toNat := by
  rcases hl.numeric _ _ hsock with hbracket | ⟨port', hv4, htext, hport⟩
  · obtain ⟨c, hc, hok⟩ := head_of_host hne h (":" ++ port)
    rw [← String.append_assoc, hbracket] at hc
    exact absurd (Option.some.inj hc ▸ hok) not_hostChar.2
  · have hno : ':' ∉ addr.ip.toText.toList := by
      cases hip : addr.ip with
      | v4 octets => exact IpAddr.not_mem_showV4 (by decide) (by decide)
      | v6 segments =>
        rw [hip] at hv4
        cases hv4
    have hsplit : host.toList ++ ':' :: port.toList = addr.ip.toText.toList ++ ':' :: port'.toList := by
      simpa using congrArg String.toList htext
    obtain ⟨hhost, hp⟩ := Separated.split_inj (no_colon h) hno hsplit
    rw [String.toList_inj.mp hp]
    exact ⟨hv4, String.toList_inj.mp hhost, hport⟩

theorem named_of {n : Nat} (hport : Text.parseUnsigned 65536 port = some n) (hn : n ≠ 0) (husable : checkHost host = .ok ())
    (hunix : host ≠ "unix") (hsock : leaves.parseSocket (host ++ ":" ++ port) = none) :
    Named leaves (host ++ ":" ++ port) host port n := by
  have hchars := host_chars husable
  obtain ⟨c, hc, hok⟩ := head_of_host (host_ne_empty husable) hchars (":" ++ port)
  rw [← String.append_assoc] at hc
  refine ⟨(stripPrefix_unix hchars).mpr hunix, ?_, ?_, ?_, hport, hn, husable⟩
  · intro addr haddr
    rw [parseSocketAddr_iff (by rw [hc]; exact fun he => not_hostChar.1 (Option.some.inj he ▸ hok)), hsock] at haddr
    cases haddr.1
  · rw [hc]
    exact fun he => not_hostChar.2 (Option.some.inj he ▸ hok)
  · exact Text.rsplitOnce_iff.mpr ⟨port_no_colon hport, by simp⟩

theorem Named.eq {n : Nat} (h : Named leaves text host port n) : text = host ++ ":" ++ port := by
  apply String.toList_inj.mp
  simpa using (Text.rsplitOnce_iff.mp h.split).2

/-- A name with a port whose text is no address keeps its text away from the parser. -/
theorem Named.unread {n : Nat} (hl : NumericSockets leaves) (h : Named leaves text host port n) :
    host ≠ "unix" ∧ leaves.parseSocket (host ++ ":" ++ port) = none := by
  have hchars := host_chars h.usable
  have hpath := h.noPath
  rw [h.eq] at hpath
  refine ⟨(stripPrefix_unix hchars).mp hpath, ?_⟩
  cases hsock : leaves.parseSocket (host ++ ":" ++ port) with
  | none => rfl
  | some addr =>
    obtain ⟨-, -, hport⟩ := numeric_name hl (host_ne_empty h.usable) hchars hsock
    rw [h.number] at hport
    obtain ⟨c, hc, hok⟩ := head_of_host (host_ne_empty h.usable) hchars (":" ++ port)
    rw [← String.append_assoc] at hc
    have haddr : leaves.parseSocketAddr (host ++ ":" ++ port) = .ok addr := by
      rw [parseSocketAddr_iff (by rw [hc]; exact fun he => not_hostChar.1 (Option.some.inj he ▸ hok))]
      refine ⟨hsock, ?_⟩
      intro hzero
      rw [hzero] at hport
      exact h.nonzero (Option.some.inj hport)
    rw [← h.eq] at haddr
    exact absurd haddr (h.notNumeric addr)

theorem normal_usable (h : checkHost host = .ok ()) : checkHost (normal host) = .ok () := by
  rw [checkHost_normal, normal_normal]
  exact checkHost_normal.1 h

/-! Which text is whose. -/

/-- Two targets that nothing confuses: not their texts, not what is hashed of them alone or in a transport. -/
structure Told (t t' : Target) : Prop where
  text : t.describe ≠ t'.describe
  hashed : (t.hashInto .new).written ≠ (t'.hashInto .new).written
  transport : ∀ e e' : Endpoint, e.target = t → e'.target = t' → e.id = t.describe → e'.id = t'.describe →
    (State.transportWrite e .new).written ≠ (State.transportWrite e' .new).written

/-- What a parsed text promises. -/
structure Faithful (leaves : Leaves) (text : String) (t : Target) : Prop where
  back : parse leaves t.describe = .ok t
  alone : ∀ text' t', parse leaves text' = .ok t' → t' ≠ t → Told t t'
  respelt : t.isName = true → ∀ host host' port, text = host ++ ":" ++ port → Respelt host host' →
    parse leaves (host' ++ ":" ++ port) = .ok t

/-- The text of a target that no other target takes: no socket path that is a port, no IPv4 address, no name that its normal form
makes a socket path or an address of. -/
structure Own (leaves : Leaves) (text : String) : Prop where
  path : ∀ path, stripPrefix? "unix:" text = some path → ∀ n, 0 < n → n < 65536 → path ≠ toString n
  numeric : stripPrefix? "unix:" text = none → ∀ addr, leaves.parseSocketAddr text = .ok addr → addr.ip.isIpv4 = false
  name : ∀ host port n, Named leaves text host port n →
    normal host ≠ "unix" ∧ leaves.parseSocket (normal host ++ ":" ++ toString n) = none

theorem updateStr_written (h : Hasher) (value : String) :
    (h.updateStr value).written = h.written ++ (1 :: LittleEndian.bytes 8 (utf8 value).length ++ utf8 value) := by
  simp [Hasher.updateStr, Hasher.update]

theorem told_iff {t t' : Target} : Told t t' ↔ t.describe ≠ t'.describe := by
  constructor
  · exact fun h => h.text
  · intro h
    refine ⟨h, ?_, ?_⟩
    · intro he
      rw [hashInto, hashInto, updateStr_written, updateStr_written] at he
      have hlen := congrArg List.length he
      simp only [List.length_append, List.length_cons, LittleEndian.length_bytes, Nat.add_left_cancel_iff] at hlen
      rw [hlen] at he
      exact h (Hasher.utf8_injective (List.append_cancel_left (List.append_cancel_left he)))
    · intro e e' ht ht' hid hid' he
      rw [State.transportWrite, State.transportWrite, ht, ht', hid, hid'] at he
      simp only [updateStr_written] at he
      have hlen := congrArg List.length he
      simp only [List.length_append, List.length_cons, LittleEndian.length_bytes] at hlen
      have heq : (utf8 t.describe).length = (utf8 t'.describe).length := by omega
      rw [heq] at he
      have htail := List.append_inj_right' he (by simp [heq])
      exact h (Hasher.utf8_injective (List.append_cancel_left htail))

theorem Named.describe {n : Nat} (h : Named leaves text host port n) :
    (Target.name (Text.lower (trimDots host)) n.toUInt16).describe = normal host ++ ":" ++ toString n := by
  have hlt := (Text.parseUnsigned_iff.mp h.number).1
  rw [Target.describe, UInt16.toNat_ofNat_of_lt' hlt]
  rfl

theorem Named.number_lt {n : Nat} (h : Named leaves text host port n) : n < 65536 := (Text.parseUnsigned_iff.mp h.number).1

theorem Named.port_toNat {n : Nat} (h : Named leaves text host port n) : n.toUInt16.toNat = n :=
  UInt16.toNat_ofNat_of_lt' h.number_lt

/-- The normal form of a name reads as the name, unless it reads as something else. -/
theorem Named.back {n : Nat} (h : Named leaves text host port n)
    (hown : normal host ≠ "unix" ∧ leaves.parseSocket (normal host ++ ":" ++ toString n) = none) :
    Named leaves (normal host ++ ":" ++ toString n) (normal host) (toString n) n :=
  named_of (parseUnsigned_toString h.number_lt) h.nonzero (normal_usable h.usable) hown.1 hown.2

theorem toText_v4 {addr : SocketAddr} (h : addr.ip.isIpv4 = true) :
    addr.toText = addr.ip.toText ++ ":" ++ toString addr.port.toNat := by
  unfold SocketAddr.toText
  cases hip : addr.ip with
  | v4 octets => rfl
  | v6 segments =>
    rw [hip] at h
    cases h

theorem toText_v6 {addr : SocketAddr} (h : addr.ip.isIpv4 = false) : addr.toText.toList.head? = some '[' := by
  unfold SocketAddr.toText
  cases hip : addr.ip with
  | v4 octets =>
    rw [hip] at h
    cases h
  | v6 segments => simp

/-! The text of an IPv4 address, which is that of a host name as well. -/

theorem digits_of (b : UInt8) : (∀ c ∈ Nat.toDigits 10 b.toNat, c.isDigit = true) ∧ Nat.toDigits 10 b.toNat ≠ [] ∧
    (Nat.toDigits 10 b.toNat).length ≤ 3 := by
  refine ⟨fun c hc => Nat.isDigit_of_mem_toDigits (by decide) (by decide) hc, Nat.toDigits_ne_nil, ?_⟩
  rw [Nat.length_toDigits_le_iff (by decide) (by decide)]
  exact lt_trans b.toNat_lt (by decide)

theorem showV4_toList (octets : Vector UInt8 4) : ∃ a b c d : UInt8, (IpAddr.v4 octets).toText.toList =
    ['.'].intercalate ([a, b, c, d].map fun o => Nat.toDigits 10 o.toNat) := by
  refine ⟨octets[0], octets[1], octets[2], octets[3], ?_⟩
  have hlist : octets.toList = [octets[0], octets[1], octets[2], octets[3]] := by
    apply List.ext_getElem (by simp)
    intro i hi _
    simp only [Vector.length_toList] at hi
    rcases i with _ | _ | _ | _ | i
    · simp
    · simp
    · simp
    · simp
    · omega
  have hdigits : ∀ n : Nat, (toString n).toList = Nat.toDigits 10 n := fun n => Nat.toList_repr
  rw [IpAddr.toText, IpAddr.toList_showV4, hlist]
  simp only [hdigits]

theorem digit_facts {c : Char} (h : c.isDigit = true) : c.toNat ≤ 127 ∧ c.isAlphanum = true ∧ c ≠ '-' ∧ c ≠ '.' ∧ c ≠ ':' ∧
    c.toLower = c := by
  have hrange : 48 ≤ c.toNat ∧ c.toNat ≤ 57 := by
    simp only [Char.isDigit, Bool.and_eq_true, decide_eq_true_eq, ge_iff_le, UInt32.le_iff_toNat_le] at h
    exact h
  refine ⟨by omega, by simp [Char.isAlphanum, h], ?_, ?_, ?_, Proxy.toLower_of_not_upper (by omega)⟩
  · rintro rfl
    cases h
  · rintro rfl
    cases h
  · rintro rfl
    cases h

/-- What an IPv4 address is written with. -/
structure Dotted (name : String) : Prop where
  chars : ∀ c ∈ name.toList, c.isDigit = true ∨ c = '.'
  ends : ∃ last, name.toList.getLast? = some last ∧ last.isDigit = true
  usable : Usable name

theorem labelOk_digits (b : UInt8) : LabelOk (Nat.toDigits 10 b.toNat) := by
  obtain ⟨hdigits, hne, hlen⟩ := digits_of b
  refine ⟨hne, ?_, ?_, ?_, fun c hc => .inl (digit_facts (hdigits c hc)).2.1⟩
  · rw [Text.utf8ByteSize_of_ascii fun c hc => (digit_facts (hdigits c hc)).1]
    omega
  · exact fun he => (digit_facts (hdigits _ (List.mem_of_mem_head? he))).2.2.1 rfl
  · exact fun he => (digit_facts (hdigits _ (List.mem_of_mem_getLast? he))).2.2.1 rfl

theorem dotted (octets : Vector UInt8 4) : Dotted (IpAddr.v4 octets).toText := by
  obtain ⟨a, b, c, d, htext⟩ := showV4_toList octets
  have hchars : ∀ x ∈ (IpAddr.v4 octets).toText.toList, x.isDigit = true ∨ x = '.' := by
    intro x hx
    rw [htext] at hx
    rcases Separated.mem_intercalate hx with hdot | ⟨part, hpart, hx⟩
    · exact .inr hdot
    · obtain ⟨o, -, rfl⟩ := List.mem_map.mp hpart
      exact .inl ((digits_of o).1 x hx)
  have hascii : ∀ x ∈ (IpAddr.v4 octets).toText.toList, x.toNat ≤ 127 := by
    intro x hx
    rcases hchars x hx with hdigit | rfl
    · exact (digit_facts hdigit).1
    · decide
  have hnodot : ∀ o : UInt8, '.' ∉ Nat.toDigits 10 o.toNat := fun o hdot => (digit_facts ((digits_of o).1 _ hdot)).2.2.2.1 rfl
  refine ⟨hchars, ?_, ?_, ?_, ?_⟩
  · obtain ⟨hdigits, hne, -⟩ := digits_of d
    refine ⟨(Nat.toDigits 10 d.toNat).getLast hne, ?_, hdigits _ (List.getLast_mem hne)⟩
    rw [htext]
    simp [List.getLast?_append, List.getLast?_cons, List.getLast?_eq_some_getLast hne]
  · intro he
    rw [he] at htext
    simp at htext
  · rw [← String.ofList_toList (s := (IpAddr.v4 octets).toText), Text.utf8ByteSize_of_ascii hascii, htext]
    have ha := (digits_of a).2.2
    have hb := (digits_of b).2.2
    have hc := (digits_of c).2.2
    have hd := (digits_of d).2.2
    simp
    omega
  · rw [htext, List.splitOn_intercalate '.' (by simp [hnodot]) (by simp)]
    intro label hlabel
    obtain ⟨o, -, rfl⟩ := List.mem_map.mp hlabel
    exact labelOk_digits o

theorem Dotted.lower {name : String} (h : Dotted name) : Text.lower name = name := by
  have hmap : name.toList.map Char.toLower = name.toList := by
    conv_rhs => rw [← List.map_id name.toList]
    apply List.map_congr_left
    intro c hc
    rcases h.chars c hc with hdigit | rfl
    · exact (digit_facts hdigit).2.2.2.2.2
    · rfl
  rw [Text.lower, hmap, String.ofList_toList]

theorem Dotted.last_ne {name : String} (h : Dotted name) : name.toList.getLast? ≠ some '.' := by
  obtain ⟨last, hlast, hdigit⟩ := h.ends
  rw [hlast]
  exact fun he => (digit_facts hdigit).2.2.2.1 (Option.some.inj he)

theorem Dotted.trimDots {name : String} (h : Dotted name) : trimDots name = name := by
  obtain ⟨last, hlast, hdigit⟩ := h.ends
  have hrev : name.toList.reverse.head? = some last := by rw [List.head?_reverse, hlast]
  obtain ⟨rest, hrest⟩ := List.head?_eq_some_iff.mp hrev
  have hne : (last == '.') = false := beq_eq_false_iff_ne.mpr (digit_facts hdigit).2.2.2.1
  rw [Target.trimDots, hrest, List.dropWhile_cons, hne, if_neg Bool.false_ne_true, ← hrest, List.reverse_reverse,
    String.ofList_toList]

theorem Dotted.normal_dot {name : String} (h : Dotted name) : normal (name ++ ".") = name := by
  rw [normal, trimDots_dot, h.trimDots, h.lower]

theorem address_head (addr : SocketAddr) : addr.toText.toList.head? ≠ some ':' := by
  cases hip : addr.ip with
  | v6 segments =>
    rw [toText_v6 (by rw [hip]; rfl)]
    decide
  | v4 octets =>
    have hd := dotted octets
    obtain ⟨c, hc, hok⟩ := head_of_host hd.usable.1 hd.usable.chars (":" ++ toString addr.port.toNat)
    rw [toText_v4 (by rw [hip]; rfl), hip, String.append_assoc, hc]
    exact fun he => not_hostChar.1 (Option.some.inj he ▸ hok)

theorem address_back (hl : NumericSockets leaves) {addr : SocketAddr} (h : addr.port ≠ 0) :
    parse leaves addr.toText = .ok (.address addr) := by
  apply parse_address
  · cases hstrip : stripPrefix? "unix:" addr.toText with
    | none => rfl
    | some path => exact absurd (stripPrefix?_iff.1 hstrip) (addr.toText_ne_unix path)
  · exact (parseSocketAddr_iff (address_head addr)).mpr ⟨hl.shown addr, h⟩

/-- An IPv4 address with a dot behind it reads as a name. -/
theorem address_twin (hl : NumericSockets leaves) {addr : SocketAddr} (hv : addr.ip.isIpv4 = true) (h : addr.port ≠ 0) :
    parse leaves (addr.ip.toText ++ "." ++ ":" ++ toString addr.port.toNat) = .ok (.name addr.ip.toText addr.port) := by
  cases hip : addr.ip with
  | v6 segments =>
    rw [hip] at hv
    cases hv
  | v4 octets =>
    have hd := dotted octets
    have husable : checkHost ((IpAddr.v4 octets).toText ++ ".") = .ok () := by
      rw [checkHost_normal, hd.normal_dot]
      exact hd.usable
    have hlast : ((IpAddr.v4 octets).toText ++ ".").toList.getLast? = some '.' := by simp
    have hunix : (IpAddr.v4 octets).toText ++ "." ≠ "unix" := by
      intro he
      rw [he] at hlast
      revert hlast
      decide
    have hsock : leaves.parseSocket ((IpAddr.v4 octets).toText ++ "." ++ ":" ++ toString addr.port.toNat) = none := by
      cases hsock : leaves.parseSocket ((IpAddr.v4 octets).toText ++ "." ++ ":" ++ toString addr.port.toNat) with
      | none => rfl
      | some found =>
        obtain ⟨hv4, htext, -⟩ := numeric_name hl (host_ne_empty husable) (host_chars husable) hsock
        cases hfound : found.ip with
        | v6 segments =>
          rw [hfound] at hv4
          cases hv4
        | v4 others =>
          rw [htext, hfound] at hlast
          exact absurd hlast (dotted others).last_ne
    have hzero : addr.port.toNat ≠ 0 := fun he => h (UInt16.toNat_inj.mp he)
    have hparsed := (named_of (parseUnsigned_toString addr.port.toNat_lt) hzero husable hunix hsock).parse
    have hnormal := hd.normal_dot
    rw [normal] at hnormal
    rw [hparsed, hnormal]
    exact congrArg (fun n => Except.ok (Target.name (IpAddr.v4 octets).toText n)) UInt16.ofNat_toNat

theorem parseSocketAddr_port {addr : SocketAddr} (h : leaves.parseSocketAddr text = .ok addr) : addr.port ≠ 0 := by
  unfold Leaves.parseSocketAddr at h
  dsimp only at h
  split at h
  · cases h
  · split at h
    · cases h
    · rename_i hne
      cases h
      exact hne

/-- A name with a letter in it is no address. -/
theorem unread_of_letter (hl : NumericSockets leaves) (husable : checkHost host = .ok ()) {c : Char} (hc : c ∈ host.toList)
    (hdigit : c.isDigit = false) (hdot : c ≠ '.') : leaves.parseSocket (host ++ ":" ++ port) = none := by
  cases hsock : leaves.parseSocket (host ++ ":" ++ port) with
  | none => rfl
  | some addr =>
    obtain ⟨hv4, htext, -⟩ := numeric_name hl (host_ne_empty husable) (host_chars husable) hsock
    cases hip : addr.ip with
    | v6 segments =>
      rw [hip] at hv4
      cases hv4
    | v4 octets =>
      rw [htext, hip] at hc
      rcases (dotted octets).chars c hc with hread | hread
      · rw [hdigit] at hread
        cases hread
      · exact absurd hread hdot

/-- The scheme in upper case reads as a name. -/
theorem scheme_twin (hl : NumericSockets leaves) {n : Nat} (hpos : 0 < n) (hlt : n < 65536) :
    parse leaves ("UNIX" ++ ":" ++ toString n) = .ok (.name "unix" n.toUInt16) := by
  have husable : checkHost "UNIX" = .ok () := by decide
  have hsock : leaves.parseSocket ("UNIX" ++ ":" ++ toString n) = none :=
    unread_of_letter hl husable (by decide : 'U' ∈ "UNIX".toList) (by decide) (by decide)
  have hnormal : Text.lower (trimDots "UNIX") = "unix" := by decide
  have hparsed := (named_of (parseUnsigned_toString hlt) hpos.ne' husable (by decide) hsock).parse
  rwa [hnormal] at hparsed

/-- The texts of different kinds that agree, and the only ways they can. -/
theorem unix_name {path name : String} {n : Nat} (h : ∀ c ∈ name.toList, HostChar c)
    (he : "unix:" ++ path = name ++ ":" ++ toString n) : name = "unix" ∧ path = toString n := by
  have hsplit : "unix".toList ++ ':' :: path.toList = name.toList ++ ':' :: (toString n).toList := by
    simpa using congrArg String.toList he
  obtain ⟨hname, hpath⟩ := Separated.split_inj (by decide) (no_colon h) hsplit
  exact ⟨(String.toList_inj.mp hname).symm, String.toList_inj.mp hpath⟩

theorem faithful_path (hl : NumericSockets leaves) {path : String} (hpath : stripPrefix? "unix:" text = some path) (hne : path ≠ "") :
    Faithful leaves text (.unix path) ↔ Own leaves text := by
  have htext : text = "unix:" ++ path := stripPrefix?_iff.1 hpath
  constructor
  · intro h
    refine ⟨?_, ?_, ?_⟩
    · intro path' hpath' n hpos hlt he
      obtain rfl := Option.some.inj (hpath.symm.trans hpath')
      have htwin := h.alone _ _ (scheme_twin hl hpos hlt) (by simp)
      apply htwin.text
      rw [he, Target.describe, Target.describe, UInt16.toNat_ofNat_of_lt' hlt]
      rfl
    · intro hno
      rw [hpath] at hno
      cases hno
    · intro host port n hnamed
      have hno := hnamed.noPath
      rw [hpath] at hno
      cases hno
  · intro h
    refine ⟨?_, ?_, fun hname => by cases hname⟩
    · rw [Target.describe, ← htext]
      exact parse_path hpath hne
    · intro text' t' hparse hother
      rw [told_iff]
      intro he
      rcases parse_cases hparse with ⟨path', -, -, rfl⟩ | ⟨addr, -, -, rfl⟩ | ⟨host, port, n, hnamed, rfl⟩
      · exact hother (by rw [append_left_inj he])
      · exact addr.toText_ne_unix path he.symm
      · rw [hnamed.describe] at he
        obtain ⟨-, hport⟩ := unix_name (checkHost_normal.1 hnamed.usable).chars he
        exact h.path path hpath n (Nat.pos_of_ne_zero hnamed.nonzero) hnamed.number_lt hport

theorem faithful_address (hl : NumericSockets leaves) {addr : SocketAddr} (hpath : stripPrefix? "unix:" text = none)
    (haddr : leaves.parseSocketAddr text = .ok addr) : Faithful leaves text (.address addr) ↔ Own leaves text := by
  have hport := parseSocketAddr_port haddr
  constructor
  · intro h
    refine ⟨?_, ?_, ?_⟩
    · intro path hno
      rw [hpath] at hno
      cases hno
    · intro _ addr' haddr'
      obtain rfl := Except.ok.inj (haddr.symm.trans haddr')
      rw [← Bool.not_eq_true]
      intro hv
      have htwin := h.alone _ _ (address_twin hl hv hport) (by simp)
      exact htwin.text (toText_v4 hv)
    · intro host port n hnamed
      exact absurd haddr (hnamed.notNumeric addr)
  · intro h
    refine ⟨address_back hl hport, ?_, fun hname => nomatch hname⟩
    intro text' t' hparse hother
    rw [told_iff]
    intro he
    rcases parse_cases hparse with ⟨path', -, -, rfl⟩ | ⟨addr', -, -, rfl⟩ | ⟨host, port, n, hnamed, rfl⟩
    · exact addr.toText_ne_unix path' he
    · exact hother (by rw [SocketAddr.toText_inj he])
    · rw [hnamed.describe] at he
      have hbracket := toText_v6 (h.numeric hpath addr haddr)
      have husable := checkHost_normal.1 hnamed.usable
      obtain ⟨c, hc, hok⟩ := head_of_host husable.1 husable.chars (":" ++ toString n)
      rw [← String.append_assoc, ← he, Target.describe, hbracket] at hc
      exact not_hostChar.2 (Option.some.inj hc ▸ hok)

theorem Named.host_eq {n : Nat} (h : Named leaves text host port n) {host' port' : String} (he : text = host' ++ ":" ++ port') :
    host' = host ∧ port' = port := by
  have hsplit : host'.toList ++ ':' :: port'.toList = host.toList ++ ':' :: port.toList := by
    simpa using congrArg String.toList (he.symm.trans h.eq)
  have hcolon : ':' ∉ host'.toList := by
    intro hmem
    obtain ⟨pre, post, hpre, hno⟩ := List.eq_append_cons_of_mem hmem
    rw [hpre, List.append_assoc, List.cons_append] at hsplit
    obtain ⟨-, hpost⟩ := Separated.split_inj hno (no_colon (host_chars h.usable)) hsplit
    exact port_no_colon h.number (hpost ▸ by simp)
  obtain ⟨hhost, hport⟩ := Separated.split_inj hcolon (no_colon (host_chars h.usable)) hsplit
  exact ⟨String.toList_inj.mp hhost, String.toList_inj.mp hport⟩

theorem faithful_name (hl : NumericSockets leaves) {n : Nat} (hnamed : Named leaves text host port n) :
    Faithful leaves text (.name (normal host) n.toUInt16) ↔ Own leaves text := by
  have husable := checkHost_normal.1 hnamed.usable
  constructor
  · intro h
    refine ⟨?_, ?_, ?_⟩
    · intro path hno
      rw [hnamed.noPath] at hno
      cases hno
    · intro _ addr haddr
      exact absurd haddr (hnamed.notNumeric addr)
    · intro host' port' n' hnamed'
      obtain ⟨rfl, rfl⟩ := hnamed.host_eq hnamed'.eq
      obtain rfl := Option.some.inj (hnamed.number.symm.trans hnamed'.number)
      have hback := h.back
      rw [show (Target.name (normal host') n.toUInt16).describe = _ from hnamed.describe] at hback
      have hunix : normal host' ≠ "unix" := by
        intro he
        rw [he, parse_path (stripPrefix?_iff.2 (rfl : "unix" ++ ":" ++ toString n = "unix:" ++ toString n))
          (by intro hnil; exact absurd (congrArg String.toList hnil) (by simp [Nat.toList_repr]))] at hback
        cases hback
      refine ⟨hunix, ?_⟩
      cases hsock : leaves.parseSocket (normal host' ++ ":" ++ toString n) with
      | none => rfl
      | some addr =>
        obtain ⟨-, -, hport⟩ := numeric_name hl husable.1 husable.chars hsock
        rw [parseUnsigned_toString hnamed.number_lt] at hport
        obtain ⟨c, hc, hok⟩ := head_of_host husable.1 husable.chars (":" ++ toString n)
        rw [← String.append_assoc] at hc
        have haddr : leaves.parseSocketAddr (normal host' ++ ":" ++ toString n) = .ok addr := by
          rw [parseSocketAddr_iff (by rw [hc]; exact fun he => not_hostChar.1 (Option.some.inj he ▸ hok))]
          refine ⟨hsock, fun hzero => ?_⟩
          rw [hzero] at hport
          exact hnamed.nonzero (Option.some.inj hport)
        rw [parse_address ((stripPrefix_unix husable.chars).mpr hunix) haddr] at hback
        cases hback
  · intro h
    obtain ⟨hunix, hsock⟩ := h.name host port n hnamed
    refine ⟨?_, ?_, ?_⟩
    · rw [show (Target.name (normal host) n.toUInt16).describe = _ from hnamed.describe,
        (hnamed.back ⟨hunix, hsock⟩).parse]
      exact congrArg (fun name => Except.ok (Target.name name n.toUInt16)) (normal_normal host)
    · intro text' t' hparse hother
      rw [told_iff]
      intro he
      rcases parse_cases hparse with ⟨path, -, -, rfl⟩ | ⟨addr, -, -, rfl⟩ | ⟨host', port', n', hnamed', rfl⟩
      · rw [show (Target.name (normal host) n.toUInt16).describe = _ from hnamed.describe] at he
        exact hunix (unix_name husable.chars he.symm).1
      · rw [show (Target.name (normal host) n.toUInt16).describe = _ from hnamed.describe] at he
        have hshown := hl.shown addr
        rw [show addr.toText = _ from he.symm, hsock] at hshown
        cases hshown
      · exact hother (Target.name_inj he).symm
    · intro _ host₁ host' port₁ htext hrespelt
      obtain ⟨rfl, rfl⟩ := hnamed.host_eq htext
      have hnormal := normal_respelt hrespelt
      have husable' : checkHost host' = .ok () := by
        rw [checkHost_normal, hnormal]
        exact husable
      have hunix' : host' ≠ "unix" := by
        rintro rfl
        exact hunix (hnormal.symm.trans (by decide))
      have hsock' : leaves.parseSocket (host' ++ ":" ++ port₁) = none := by
        cases hread : leaves.parseSocket (host' ++ ":" ++ port₁) with
        | none => rfl
        | some addr =>
          obtain ⟨hv4, htext', hport⟩ := numeric_name hl (host_ne_empty husable') (host_chars husable') hread
          have hn : n = addr.port.toNat := Option.some.inj (hnamed.number.symm.trans hport)
          have hdotted : Dotted host' := by
            cases hip : addr.ip with
            | v6 segments =>
              rw [hip] at hv4
              cases hv4
            | v4 octets =>
              rw [htext', hip]
              exact dotted octets
          have hshown := hl.shown addr
          have hkept : normal host' = host' := by rw [normal, hdotted.trimDots, hdotted.lower]
          rw [toText_v4 hv4, ← htext', ← hkept, hnormal, ← hn, hsock] at hshown
          cases hshown
      rw [(named_of hnamed.number hnamed.nonzero husable' hunix' hsock').parse]
      exact congrArg (fun name => Except.ok (Target.name name n.toUInt16)) hnormal

/-- Target text is an identity exactly where no other kind of target is written like it. -/
theorem faithful_iff (hl : NumericSockets leaves) (h : parse leaves text = .ok t) : Faithful leaves text t ↔ Own leaves text := by
  rcases parse_cases h with ⟨path, hpath, hne, rfl⟩ | ⟨addr, hpath, haddr, rfl⟩ | ⟨host, port, n, hnamed, rfl⟩
  · exact faithful_path hl hpath hne
  · exact faithful_address hl hpath haddr
  · exact faithful_name hl hnamed

/-- Socket addresses in their own text, and nothing else. -/
noncomputable def canonicalSockets : Leaves where
  routingPath _ := none
  parseIp _ := none
  parseSocket text := open Classical in if h : ∃ addr : SocketAddr, addr.toText = text then some h.choose else none
  parseDuration _ := .error ""
  showDuration _ := ""

theorem canonicalSockets_read {text : String} {addr : SocketAddr} (h : canonicalSockets.parseSocket text = some addr) :
    addr.toText = text := by
  unfold canonicalSockets at h
  dsimp only at h
  split at h
  · rename_i hex
    exact Option.some.inj h ▸ hex.choose_spec
  · cases h

theorem canonicalSockets_numeric : NumericSockets canonicalSockets := by
  constructor
  · intro addr
    have hex : ∃ other : SocketAddr, other.toText = addr.toText := ⟨addr, rfl⟩
    unfold canonicalSockets
    dsimp only
    rw [dif_pos hex, SocketAddr.toText_inj hex.choose_spec]
  · intro text addr h
    have htext := canonicalSockets_read h
    cases hv : addr.ip.isIpv4 with
    | false =>
      left
      rw [← htext]
      exact toText_v6 hv
    | true => exact .inr ⟨_, rfl, htext ▸ toText_v4 hv, parseUnsigned_toString addr.port.toNat_lt⟩

theorem api_named : Named canonicalSockets ("api" ++ ":" ++ "8080") "api" "8080" 8080 :=
  named_of (by decide) (by decide) (by decide) (by decide)
    (unread_of_letter canonicalSockets_numeric (by decide) (by decide : 'p' ∈ "api".toList) (by decide) (by decide))

theorem faithful_iff_api : Faithful canonicalSockets "api:8080" (.name "api" 8080) ↔ Own canonicalSockets "api:8080" :=
  faithful_iff canonicalSockets_numeric api_named.parse

/-- A name that is kept as the scheme of a socket path reads back as one. -/
theorem scheme_reads_back_as_path : NumericSockets canonicalSockets ∧
    parse canonicalSockets "UNIX:80" = .ok (.name "unix" 80) ∧
      parse canonicalSockets (Target.name "unix" 80).describe = .ok (.unix "80") := by
  refine ⟨canonicalSockets_numeric, scheme_twin (n := 80) canonicalSockets_numeric (by decide) (by decide), ?_⟩
  exact parse_path (by decide) (by decide)

end Target
end Gatel
