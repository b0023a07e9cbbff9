import Gatel.Lib.Utf8
import Gatel.Model.NetText
import Gatel.Plan.RequestPath
import Gatel.Plan.Texts
import Gatel.Server.ClientAddress

namespace Gatel

def SocketAddr.new (ip : IpAddr) (port : UInt16) : SocketAddr := ⟨ip, port, 0, fun _ => rfl⟩

namespace ProxyProtocol

def signature : List UInt8 := [0x0D, 0x0A, 0x0D, 0x0A, 0x00, 0x0D, 0x0A, 0x51, 0x55, 0x49, 0x54, 0x0A]

def v1Max : Nat := 107

def crlf : List UInt8 := [13, 10]

inductive Claim where
  | client (address : SocketAddr)
  | «local»
  deriving DecidableEq

/-- What a read meets behind the bytes that have come in time. -/
inductive Ending where
  | failed (error : String)
  | silent

structure Stream where
  ending : Ending
  timeout : String

def Stream.short (s : Stream) (what : String) : String :=
  match s.ending with
  | .failed error => s!"{what}: {error}"
  | .silent => s!"no PROXY header within {s.timeout}"

def readExact (s : Stream) (what : String) (n : Nat) (input : List UInt8) : Except String (Vector UInt8 n × List UInt8) :=
  if h : n ≤ input.length then .ok (⟨(input.take n).toArray, by simp [h]⟩, input.drop n) else .error (s.short what)

/-- The loop over the bytes of the line. -/
@[grind =] def readLine (s : Stream) (line : List UInt8) : List UInt8 → Except String (List UInt8 × List UInt8)
  | [] =>
    if line.length > v1Max then .error "the PROXY header line is longer than the protocol allows"
    else .error (s.short "the PROXY header line did not end")
  | byte :: input =>
    if line.length > v1Max then .error "the PROXY header line is longer than the protocol allows"
    else if crlf.isSuffixOf (line ++ [byte]) then .ok (line ++ [byte], input)
    else readLine s (line ++ [byte]) input

/-- The fields behind the transport. -/
@[grind =] def tcp (family : String) : List String → Except String Claim
  | [] => .error "the PROXY header has no source address"
  | [_] => .error "the PROXY header has no destination"
  | [_, _] => .error "the PROXY header has no source port"
  | [_, _, _] => .error "the PROXY header has no destination port"
  | [source, _, port, _] =>
    match IpAddr.parse source with
    | none => .error s!"`{source}` is not an address"
    | some address =>
      if decide (family = "TCP4") ≠ address.isIpv4 then .error s!"the PROXY header says {family} and carries {source}"
      else match Text.parseUnsigned 65536 port with
        | none => .error s!"`{port}` is not a port"
        | some port => .ok (.client (SocketAddr.new address port.toUInt16))
  | _ => .error "the PROXY header line has trailing text"

def fields (line : List UInt8) : Except String Claim :=
  match String.fromUTF8? ⟨line.toArray⟩ with
  | none => .error "the PROXY header line is not text"
  | some line =>
    match (Text.splitAll ' ' line).tail with
    | [] => .error "the PROXY header names an unknown transport ``"
    | transport :: parts =>
      if transport = "UNKNOWN" then .ok .local
      else if transport = "TCP4" ∨ transport = "TCP6" then tcp transport parts
      else .error s!"the PROXY header names an unknown transport `{transport}`"

def version1 (s : Stream) (seen input : List UInt8) : Except String (Claim × List UInt8) :=
  if ¬ (utf8 "PROXY ").isPrefixOf seen then .error "the connection did not begin with a PROXY header"
  else do
    let (line, input) ← readLine s seen input
    let claim ← fields (line.take (line.length - 2))
    return (claim, input)

/-- `u16::from_be_bytes`. -/
def word (high low : UInt8) : UInt16 := (high.toNat * 256 + low.toNat).toUInt16

/-- What the block holds for this command and family. -/
@[grind =] def block {n : Nat} (command family : UInt8) (block : Vector UInt8 n) : Except String Claim :=
  if command = 0 then .ok .local
  else if command ≠ 1 then .error s!"PROXY v2 command {command.toNat} is not supported"
  else if family = 0 ∨ family = 3 then .ok .local
  else if family = 1 then
    if h : n < 12 then .error "the PROXY v2 IPv4 block is too short"
    else .ok (.client (SocketAddr.new (.v4 #v[block[0], block[1], block[2], block[3]]) (word block[8] block[9])))
  else if family = 2 then
    if h : n < 36 then .error "the PROXY v2 IPv6 block is too short"
    else .ok (.client (SocketAddr.new (.v6 (Vector.ofFn fun i => word block[2 * i.val] block[2 * i.val + 1]))
      (word block[32] block[33])))
  else .error s!"PROXY v2 address family {family.toNat} is not supported"

def version2 (s : Stream) (input : List UInt8) : Except String (Claim × List UInt8) := do
  let (rest, input) ← readExact s "the PROXY v2 header is incomplete" 4 input
  if rest[0] >>> 4 ≠ 2 then .error s!"PROXY header version {(rest[0] >>> 4).toNat} is not supported"
  else do
    let (address, input) ← readExact s "the PROXY v2 address block is incomplete" (word rest[2] rest[3]).toNat input
    let claim ← block (rest[0] &&& 0x0F) (rest[1] >>> 4) address
    return (claim, input)

/-- What the header said, and what is left for whoever speaks next. -/
def read (s : Stream) (input : List UInt8) : Except String (Claim × List UInt8) := do
  let (head, input) ← readExact s "the connection ended before a PROXY header" signature.length input
  if head.toList = signature then version2 s input else version1 s head.toList input


/-! Reading a number of bytes. -/

variable {s : Stream}

theorem readExact_ok {what : String} {n : Nat} {input rest : List UInt8} {v : Vector UInt8 n} :
    readExact s what n input = .ok (v, rest) ↔ input = v.toList ++ rest := by
  rw [readExact]
  constructor
  · intro h
    split at h
    · obtain ⟨rfl, rfl⟩ := Prod.mk.inj (Except.ok.inj h)
      simp
    · cases h
  · intro h
    have hlen : v.toList.length = n := by simp
    subst h
    rw [dif_pos (by simp)]
    congr 2
    · apply Vector.toList_inj.mp
      simp
    · simp

theorem bind_ok {α β : Type} {x : Except String α} {f : α → Except String β} {b : β} :
    (x >>= f) = .ok b ↔ ∃ a, x = .ok a ∧ f a = .ok b := by
  cases x <;> simp [bind, Except.bind]

/-! Reading a line. -/

/-- A line up to its first end. -/
def Ended (line : List UInt8) : Prop := crlf <:+ line ∧ ¬ crlf <:+: line.dropLast

theorem Ended.no_end {line more : List UInt8} (h : Ended (line ++ more)) (hm : more ≠ []) : ¬ crlf <:+: line := by
  intro hin
  apply h.2
  rw [List.dropLast_append_of_ne_nil hm]
  exact hin.trans (List.prefix_append line _).isInfix

/-- A line has one first end. -/
theorem Ended.eq {l l' rest rest' : List UInt8} (h : Ended l) (h' : Ended l') (he : l ++ rest = l' ++ rest') : l = l' := by
  have hno : ∀ {a b : List UInt8}, Ended a → Ended b → a <+: b → a = b := by
    rintro a b ha hb ⟨more, rfl⟩
    cases more with
    | nil => simp
    | cons x more => exact absurd ha.1.isInfix (hb.no_end (List.cons_ne_nil x more))
  rcases List.prefix_or_prefix_of_prefix (List.prefix_append l rest) (he ▸ List.prefix_append l' rest') with hp | hp
  · exact hno h h' hp
  · exact (hno h' h hp).symm

theorem readLine_shape {line input l rest : List UInt8} (h : readLine s line input = .ok (l, rest)) :
    ∃ more, more ≠ [] ∧ l = line ++ more ∧ input = more ++ rest ∧ l.length ≤ v1Max + 1 ∧ crlf <:+ l := by
  induction input generalizing line with
  | nil =>
    rw [readLine] at h
    split at h <;> cases h
  | cons byte input ih =>
    rw [readLine] at h
    split at h
    · cases h
    · rename_i hshort
      split at h
      · rename_i hend
        obtain ⟨rfl, rfl⟩ := Prod.mk.inj (Except.ok.inj h)
        refine ⟨[byte], List.cons_ne_nil _ _, rfl, rfl, ?_, List.isSuffixOf_iff_suffix.mp hend⟩
        rw [List.length_append, List.length_singleton]
        omega
      · obtain ⟨more, _, rfl, rfl, hlen, hend⟩ := ih h
        refine ⟨byte :: more, List.cons_ne_nil _ _, ?_, rfl, hlen, hend⟩
        rw [List.append_assoc, List.singleton_append]

theorem readLine_ended {line input l rest : List UInt8} (hline : ¬ crlf <:+: line) (h : readLine s line input = .ok (l, rest)) :
    Ended l := by
  induction input generalizing line with
  | nil =>
    rw [readLine] at h
    split at h <;> cases h
  | cons byte input ih =>
    rw [readLine] at h
    split at h
    · cases h
    · split at h
      · rename_i hend
        obtain ⟨rfl, rfl⟩ := Prod.mk.inj (Except.ok.inj h)
        exact ⟨List.isSuffixOf_iff_suffix.mp hend, by rwa [List.dropLast_concat]⟩
      · rename_i hend
        apply ih ?_ h
        intro hin
        rcases List.infix_concat_iff.mp hin with hsuffix | hinfix
        · exact hend (List.isSuffixOf_iff_suffix.mpr hsuffix)
        · exact hline hinfix

/-- A line that is short enough and has its end is read whole, and nothing behind it. -/
theorem readLine_of_ended {line more : List UInt8} (hm : more ≠ []) (hl : (line ++ more).length ≤ v1Max + 1)
    (he : Ended (line ++ more)) (rest : List UInt8) : readLine s line (more ++ rest) = .ok (line ++ more, rest) := by
  induction more generalizing line with
  | nil => exact absurd rfl hm
  | cons byte more ih =>
    have hshort : ¬ line.length > v1Max := by
      rw [List.length_append, List.length_cons] at hl
      omega
    have hcons : line ++ byte :: more = (line ++ [byte]) ++ more := by simp
    rw [List.cons_append, readLine, if_neg hshort, hcons]
    cases more with
    | nil =>
      rw [hcons] at he
      rw [List.append_nil] at he
      rw [if_pos (List.isSuffixOf_iff_suffix.mpr he.1), List.append_nil, List.nil_append]
    | cons x more =>
      rw [hcons] at he hl
      have hno : ¬ crlf <:+ line ++ [byte] := fun h => he.no_end (List.cons_ne_nil x more) h.isInfix
      rw [if_neg fun h => hno (List.isSuffixOf_iff_suffix.mp h)]
      exact ih (List.cons_ne_nil x more) hl he

/-! The text of a line. -/

/-- A line without its end, and whom it speaks for. -/
inductive Says : String → Claim → Prop where
  | unknown {text : String} {parts : List String} (h : Text.splitAll ' ' text = "PROXY" :: "UNKNOWN" :: parts) :
    Says text .local
  | tcp {text source destination port destinationPort : String} {ip : IpAddr} {n : Nat}
    (h : Text.splitAll ' ' text = ["PROXY", if ip.isIpv4 then "TCP4" else "TCP6", source, destination, port, destinationPort])
    (hip : IpAddr.parse source = some ip) (hport : Text.parseUnsigned 65536 port = some n) :
    Says text (.client (SocketAddr.new ip n.toUInt16))

def Version1 (header : List UInt8) (claim : Claim) : Prop :=
  ∃ text, header = utf8 text ++ crlf ∧ ¬ crlf <:+: utf8 text ∧ Says text claim

theorem tcp_ok {family : String} {parts : List String} {claim : Claim} :
    tcp family parts = .ok claim ↔ ∃ source destination port destinationPort ip n,
      parts = [source, destination, port, destinationPort] ∧ IpAddr.parse source = some ip ∧
      decide (family = "TCP4") = ip.isIpv4 ∧ Text.parseUnsigned 65536 port = some n ∧
      claim = .client (SocketAddr.new ip n.toUInt16) := by
  constructor
  · intro h
    match parts with
    | [] | [_] | [_, _] | [_, _, _] | _ :: _ :: _ :: _ :: _ :: _ => cases h
    | [source, destination, port, destinationPort] =>
      rw [tcp] at h
      cases hip : IpAddr.parse source with
      | none =>
        rw [hip] at h
        cases h
      | some ip =>
        rw [hip] at h
        dsimp only at h
        split at h
        · cases h
        · rename_i hfam
          cases hn : Text.parseUnsigned 65536 port with
          | none =>
            rw [hn] at h
            cases h
          | some n =>
            rw [hn] at h
            exact ⟨source, destination, port, destinationPort, ip, n, rfl, hip, not_not.mp hfam, hn, (Except.ok.inj h).symm⟩
  · intro h
    obtain ⟨source, destination, port, destinationPort, ip, n, rfl, hip, hfam, hn, rfl⟩ := h
    simp [tcp, hip, hfam, hn]

theorem toList_of_splitAll {text a b : String} {parts : List String} (h : Text.splitAll ' ' text = a :: b :: parts) :
    text.toList = a.toList ++ ' ' :: [' '].intercalate ((b :: parts).map String.toList) := by
  have hall : (Text.splitAll ' ' text).map String.toList = text.toList.splitOn ' ' := by
    simp [Text.splitAll, Function.comp_def]
  have hsplit : [' '].intercalate (text.toList.splitOn ' ') = text.toList := List.intercalate_splitOn ' '
  rw [← hsplit, ← hall, h]
  simp

theorem utf8_front {text lead : String} {tail : List Char} (h : text.toList = lead.toList ++ tail) :
    utf8 text = utf8 lead ++ tail.flatMap String.utf8EncodeChar := by
  rw [utf8_eq_flatMap, utf8_eq_flatMap, h, List.flatMap_append]

theorem length_le_encoded (l : List Char) : l.length ≤ (l.flatMap String.utf8EncodeChar).length := by
  induction l with
  | nil => simp
  | cons c l ih =>
    have hpos := c.utf8Size_pos
    rw [List.flatMap_cons, List.length_append, List.length_cons, String.length_utf8EncodeChar]
    omega

theorem length_keyword : (utf8 "PROXY ").length = 6 := by decide

/-- What all accepted lines begin with. -/
theorem Says.front {text : String} {claim : Claim} (h : Says text claim) :
    ∃ lead tail, utf8 text = lead ++ tail ∧ utf8 "PROXY " <+: lead ∧ 13 ∉ lead ∧ 11 ≤ lead.length ∧
      13 ≤ (utf8 text).length := by
  cases h with
  | @unknown parts h =>
    obtain ⟨tail, htail⟩ : ∃ tail, text.toList = "PROXY UNKNOWN".toList ++ tail := by
      rw [toList_of_splitAll h]
      cases parts with
      | nil => exact ⟨[], by decide⟩
      | cons part parts => exact ⟨' ' :: [' '].intercalate ((part :: parts).map String.toList), by simp⟩
    have hbytes := utf8_front htail
    refine ⟨_, _, hbytes, by decide, by decide, by decide, ?_⟩
    have hlen : (utf8 "PROXY UNKNOWN").length = 13 := by decide
    rw [hbytes, List.length_append, hlen]
    omega
  | @tcp source destination port destinationPort ip n h hip hport =>
    have hlead : ∀ lead : String, lead.toList = "PROXY ".toList ++ (if ip.isIpv4 then "TCP4" else "TCP6").toList ++ [' '] →
        utf8 "PROXY " <+: utf8 lead → 13 ∉ utf8 lead → (utf8 lead).length = 11 →
        ∃ lead tail, utf8 text = lead ++ tail ∧ utf8 "PROXY " <+: lead ∧ 13 ∉ lead ∧ 11 ≤ lead.length ∧
          13 ≤ (utf8 text).length := by
      intro lead hl hp hno hlen
      have htext : text.toList = lead.toList ++ (source.toList ++ ' ' :: (destination.toList ++ ' ' ::
          (port.toList ++ ' ' :: destinationPort.toList))) := by
        rw [toList_of_splitAll h, hl]
        simp
      have hbytes := utf8_front htext
      refine ⟨_, _, hbytes, hp, hno, hlen.ge, ?_⟩
      have htail := length_le_encoded (source.toList ++ ' ' :: (destination.toList ++ ' ' ::
          (port.toList ++ ' ' :: destinationPort.toList)))
      rw [hbytes, List.length_append, hlen]
      simp only [List.length_append, List.length_cons] at htail
      omega
    by_cases hv : ip.isIpv4 = true
    · exact hlead "PROXY TCP4 " (by rw [if_pos hv]; decide) (by decide) (by decide) (by decide)
    · exact hlead "PROXY TCP6 " (by rw [if_neg hv]; decide) (by decide) (by decide) (by decide)

/-- What a line that begins as a header splits into. -/
theorem splitAll_header {text : String} (h : utf8 "PROXY " <+: utf8 text) :
    ∃ parts, Text.splitAll ' ' text = "PROXY" :: parts := by
  obtain ⟨bytes, hbytes⟩ := h
  rw [utf8_eq_flatMap, utf8_eq_flatMap] at hbytes
  have hascii : ∀ c ∈ "PROXY ".toList, c.toNat < 128 := by simp
  obtain ⟨rest, hrest, -⟩ := Utf8.flatMap_eq_append hascii hbytes.symm
  have hlead : "PROXY ".toList = "PROXY".toList ++ [' '] := by decide
  rw [hlead, List.append_assoc, List.singleton_append] at hrest
  refine ⟨(rest.splitOn ' ').map String.ofList, ?_⟩
  rw [Text.splitAll, hrest, List.splitOn_append_cons_self_of_not_mem (by decide), List.map_cons, String.ofList_toList]

theorem fields_ok {line : List UInt8} {claim : Claim} (hline : utf8 "PROXY " <+: line) :
    fields line = .ok claim ↔ ∃ text, line = utf8 text ∧ Says text claim := by
  have hread : ∀ text, utf8 text = line → ∀ parts, Text.splitAll ' ' text = "PROXY" :: parts →
      (Says text claim ↔ fields line = .ok claim) := by
    intro text htext parts hparts
    rw [fields, fromUTF8?_eq_some.mpr htext]
    dsimp only
    rw [hparts, List.tail_cons]
    constructor
    · intro h
      cases h with
      | unknown h =>
        obtain ⟨-, rfl⟩ := List.cons.inj (hparts.symm.trans h)
        simp
      | @tcp source destination port destinationPort ip n h hip hport =>
        obtain ⟨-, rfl⟩ := List.cons.inj (hparts.symm.trans h)
        by_cases hv : ip.isIpv4 = true <;>
          simp [hv, tcp_ok, hip, hport]
    · intro h
      cases parts with
      | nil => cases h
      | cons transport parts =>
        dsimp only at h
        split at h
        · rename_i hu
          rw [← Except.ok.inj h]
          exact .unknown (hu ▸ hparts)
        · split at h
          · rename_i htcp
            obtain ⟨source, destination, port, destinationPort, ip, n, rfl, hip, hfam, hn, rfl⟩ := tcp_ok.1 h
            have hname : transport = if ip.isIpv4 then "TCP4" else "TCP6" := by
              rcases htcp with rfl | rfl
              · simpa using hfam
              · simpa using hfam
            exact .tcp (hname ▸ hparts) hip hn
          · cases h
  constructor
  · intro h
    have hsome : ∃ text, utf8 text = line := by
      rw [fields] at h
      cases ht : String.fromUTF8? ⟨line.toArray⟩ with
      | none =>
        rw [ht] at h
        cases h
      | some text => exact ⟨text, fromUTF8?_eq_some.mp ht⟩
    obtain ⟨text, rfl⟩ := hsome
    obtain ⟨parts, hparts⟩ := splitAll_header hline
    exact ⟨text, rfl, (hread text rfl parts hparts).mpr h⟩
  · rintro ⟨text, rfl, h⟩
    obtain ⟨parts, hparts⟩ := splitAll_header hline
    exact (hread text rfl parts hparts).mp h

/-! The text form. -/

theorem mem_of_crlf {l : List UInt8} (h : crlf <:+: l) : 13 ∈ l.dropLast := by
  obtain ⟨a, b, rfl⟩ := h
  have hsplit : a ++ crlf ++ b = (a ++ [13]) ++ (10 :: b) := by simp [crlf]
  rw [hsplit, List.dropLast_append_of_ne_nil (List.cons_ne_nil 10 b)]
  simp

theorem crlf_ne : crlf ≠ [] := List.cons_ne_nil 13 [10]

theorem Version1.ended {header : List UInt8} {claim : Claim} (h : Version1 header claim) : Ended header := by
  obtain ⟨text, rfl, hno, -⟩ := h
  refine ⟨List.suffix_append _ _, ?_⟩
  have hlast : (utf8 text ++ crlf).dropLast = utf8 text ++ [13] := by
    rw [List.dropLast_append_of_ne_nil crlf_ne]
    rfl
  rw [hlast]
  intro hin
  rcases List.infix_concat_iff.mp hin with hsuffix | hinfix
  · have hend := hsuffix.getLast (List.cons_ne_nil _ _)
    simp [crlf] at hend
  · exact hno hinfix

theorem version1_header {head input rest : List UInt8} {claim : Claim} (hhead : head.length = 12)
    (h : version1 s head input = .ok (claim, rest)) :
    ∃ header, head ++ input = header ++ rest ∧ Version1 header claim ∧ header.length ≤ v1Max + 1 := by
  rw [version1] at h
  split at h
  · cases h
  · rename_i hlead
    have hlead := List.isPrefixOf_iff_prefix.mp (not_not.mp hlead)
    obtain ⟨⟨l, left⟩, hl, h⟩ := bind_ok.1 h
    obtain ⟨claim', hc, h⟩ := bind_ok.1 h
    obtain ⟨rfl, rfl⟩ := Prod.mk.inj (Except.ok.inj h)
    obtain ⟨more, hm, rfl, rfl, hlen, hend⟩ := readLine_shape hl
    have hmore : 1 ≤ more.length := List.length_pos_of_ne_nil hm
    have hlong : (head ++ more).length = 12 + more.length := by rw [List.length_append, hhead]
    obtain ⟨line, hline⟩ := hend
    have hlen' : (head ++ more).length = line.length + 2 := by rw [← hline, List.length_append]; rfl
    have htake : (head ++ more).take ((head ++ more).length - 2) = line := by
      rw [hlen', ← hline]
      simp
    rw [htake] at hc
    have hprefix : utf8 "PROXY " <+: line := by
      have hsix := length_keyword
      apply List.prefix_of_prefix_length_le (hlead.trans (List.prefix_append head more)) (hline ▸ List.prefix_append line crlf)
      omega
    obtain ⟨text, rfl, hsays⟩ := (fields_ok hprefix).mp hc
    have hno : ¬ crlf <:+: head := by
      intro hin
      obtain ⟨lead, tail, htext, -, hnone, heleven, -⟩ := hsays.front
      apply hnone
      have hfront : head.dropLast = lead.take 11 := by
        have htwo : (head ++ more).take 11 = (utf8 text ++ crlf).take 11 := by rw [hline]
        rw [htext, List.append_assoc, List.take_append_of_le_length heleven,
          List.take_append_of_le_length (by omega)] at htwo
        rw [← htwo, List.dropLast_eq_take, hhead]
      exact List.mem_of_mem_take (hfront ▸ mem_of_crlf hin)
    have hended := readLine_ended hno hl
    refine ⟨head ++ more, (List.append_assoc _ _ _).symm, ⟨text, hline.symm, ?_, hsays⟩, hlen⟩
    intro hin
    apply hended.2
    rw [← hline, List.dropLast_append_of_ne_nil crlf_ne]
    exact hin.trans (List.prefix_append _ _).isInfix

theorem version1_of_header {header : List UInt8} {claim : Claim} (h : Version1 header claim) (hlen : header.length ≤ v1Max + 1)
    (rest : List UInt8) : ∃ head more, header = head ++ more ∧ head.length = 12 ∧ utf8 "PROXY " <+: head ∧
      version1 s head (more ++ rest) = .ok (claim, rest) := by
  have hended := h.ended
  obtain ⟨text, rfl, hno, hsays⟩ := h
  obtain ⟨lead, tail, htext, hlead, -, heleven, hthirteen⟩ := hsays.front
  have hp : utf8 "PROXY " <+: utf8 text := htext ▸ hlead.trans (List.prefix_append lead tail)
  have hlong : (utf8 text ++ crlf).length = (utf8 text).length + 2 := List.length_append
  have hhead : utf8 "PROXY " <+: (utf8 text ++ crlf).take 12 := by
    have hsix := length_keyword
    apply List.prefix_of_prefix_length_le (hp.trans (List.prefix_append _ crlf)) (List.take_prefix 12 _)
    rw [List.length_take]
    omega
  have hmore : (utf8 text ++ crlf).drop 12 ≠ [] := by
    intro he
    have hz := congrArg List.length he
    rw [List.length_drop, List.length_nil] at hz
    omega
  refine ⟨_, _, (List.take_append_drop 12 _).symm, ?_, hhead, ?_⟩
  · rw [List.length_take]
    omega
  · have hread := readLine_of_ended (s := s) hmore (by rwa [List.take_append_drop]) (by rwa [List.take_append_drop]) rest
    rw [List.take_append_drop] at hread
    rw [version1, if_neg (not_not.mpr (List.isPrefixOf_iff_prefix.mpr hhead)), bind_ok]
    refine ⟨_, hread, bind_ok.2 ⟨claim, ?_, rfl⟩⟩
    have htake : (utf8 text ++ crlf).take ((utf8 text ++ crlf).length - 2) = utf8 text := by
      rw [hlong]
      simp
    rw [htake]
    exact (fields_ok hp).mpr ⟨text, rfl, hsays⟩

/-! The binary form. -/

/-- A number as the header has it. -/
@[grind =] def wordBytes (w : UInt16) : List UInt8 := [(w >>> 8).toUInt8, w.toUInt8]

theorem word_toNat (high low : UInt8) : (word high low).toNat = high.toNat * 256 + low.toNat := by
  have hh := high.toNat_lt
  have hl := low.toNat_lt
  rw [word, UInt16.toNat_ofNat']
  omega

theorem wordBytes_word (high low : UInt8) : wordBytes (word high low) = [high, low] := by
  have hw := word_toNat high low
  have hl := low.toNat_lt
  have hh := high.toNat_lt
  rw [wordBytes]
  congr 1
  · apply UInt8.toNat_inj.mp
    rw [UInt16.toNat_toUInt8, UInt16.toNat_shiftRight, hw]
    simp [Nat.shiftRight_eq_div_pow]
    omega
  · congr 1
    apply UInt8.toNat_inj.mp
    rw [UInt16.toNat_toUInt8, hw]
    omega

theorem wordBytes_inj {a b : UInt16} (h : wordBytes a = wordBytes b) : a = b := by
  obtain ⟨hh, hl⟩ := List.cons.inj h
  exact IpAddr.octets_inj hh (List.cons.inj hl).1

theorem word_wordBytes (w : UInt16) : word (w >>> 8).toUInt8 w.toUInt8 = w :=
  wordBytes_inj (wordBytes_word _ _)

theorem nibbles (b : UInt8) : b.toNat = 16 * (b >>> 4).toNat + (b &&& 0x0F).toNat := by
  rw [UInt8.toNat_shiftRight, UInt8.toNat_and]
  have hand : b.toNat &&& (0x0F : UInt8).toNat = b.toNat % 16 := Nat.and_two_pow_sub_one_eq_mod b.toNat 4
  rw [hand]
  simp [Nat.shiftRight_eq_div_pow]
  omega

/-- The fixed part of a binary header and its block. -/
@[grind =] def framed (first second : UInt8) (block : List UInt8) : List UInt8 :=
  signature ++ [first, second] ++ wordBytes block.length.toUInt16 ++ block

/-- A binary header of a family the protocol has, and whom it speaks for. -/
inductive Version2 : List UInt8 → Claim → Prop where
  | own (second : UInt8) {block : List UInt8} (hlen : block.length < 2 ^ 16) : Version2 (framed 0x20 second block) .local
  | unaddressed {second : UInt8} {block : List UInt8} (hlen : block.length < 2 ^ 16)
    (hfam : second >>> 4 = 0 ∨ second >>> 4 = 3) : Version2 (framed 0x21 second block) .local
  | addressed {second : UInt8} {ip : IpAddr} {destination tlvs : List UInt8} {port destinationPort : UInt16}
    (hlen : (ip.octets ++ destination ++ wordBytes port ++ wordBytes destinationPort ++ tlvs).length < 2 ^ 16)
    (hfam : second >>> 4 = if ip.isIpv4 then 1 else 2) (hdestination : destination.length = ip.octets.length) :
    Version2 (framed 0x21 second (ip.octets ++ destination ++ wordBytes port ++ wordBytes destinationPort ++ tlvs))
      (.client (SocketAddr.new ip port))

theorem octets_segments (m : Nat) (l : List UInt8) (h : 2 * m ≤ l.length) :
    (List.ofFn fun i : Fin m => word (getElem l (2 * i.val) (by omega)) (getElem l (2 * i.val + 1) (by omega))).flatMap wordBytes =
      l.take (2 * m) := by
  induction m generalizing l with
  | zero => simp
  | succ m ih =>
    match l, h with
    | high :: low :: l, h =>
      have hl : 2 * m ≤ l.length := by
        simp only [List.length_cons] at h
        omega
      have htail : (fun i : Fin m => word
          (getElem (high :: low :: l) (2 * i.succ.val) (by simp only [Fin.val_succ, List.length_cons]; omega))
          (getElem (high :: low :: l) (2 * i.succ.val + 1) (by simp only [Fin.val_succ, List.length_cons]; omega))) =
          fun i : Fin m => word (getElem l (2 * i.val) (by omega)) (getElem l (2 * i.val + 1) (by omega)) := by
        funext i
        simp [Nat.mul_add]
      rw [List.ofFn_succ, List.flatMap_cons]
      have htake : (high :: low :: l).take (2 * (m + 1)) = [high, low] ++ l.take (2 * m) := by
        rw [Nat.mul_add]
        simp
      rw [htake, ← ih l hl, ← htail]
      congr 1
      exact wordBytes_word high low

theorem drop_pair {l : List UInt8} {i : Nat} (h : i + 2 ≤ l.length) :
    l.drop i = wordBytes (word (getElem l i (by omega)) (getElem l (i + 1) (by omega))) ++ l.drop (i + 2) := by
  rw [List.drop_eq_getElem_cons (by omega), List.drop_eq_getElem_cons (by omega), wordBytes_word]
  rfl

/-- An address block holds the source, as long as its family has it, and behind as much of the destination the port. -/
theorem block_address {n : Nat} {family : UInt8} (v : Vector UInt8 n) {k : Nat} (hfam : family = 1 ∧ k = 4 ∨ family = 2 ∧ k = 16)
    (h : 2 * k + 4 ≤ n) : ∃ ip port, block 1 family v = .ok (.client (SocketAddr.new ip port)) ∧
      family = (if ip.isIpv4 then 1 else 2) ∧ v.toList.take k = ip.octets ∧ ∃ left, v.toList.drop (2 * k) = wordBytes port ++ left := by
  have hlen : v.toList.length = n := by simp
  rcases hfam with ⟨rfl, rfl⟩ | ⟨rfl, rfl⟩
  · have hports := drop_pair (l := v.toList) (i := 8) (by omega)
    refine ⟨.v4 #v[v[0], v[1], v[2], v[3]], word v[8] v[9], ?_, rfl, ?_, _, hports⟩
    · simp [block, show ¬ n < 12 by omega]
    · have hsplit : v.toList = v[0] :: v[1] :: v[2] :: v[3] :: v.toList.drop 4 := by
        rw [← List.drop_zero (l := v.toList)]
        rw [drop_pair (by omega), drop_pair (by omega), wordBytes_word, wordBytes_word]
        simp
      rw [hsplit]
      rfl
  · have hports := drop_pair (l := v.toList) (i := 32) (by omega)
    refine ⟨.v6 (Vector.ofFn fun i => word v[2 * i.val] v[2 * i.val + 1]), word v[32] v[33], ?_, rfl, ?_, _, hports⟩
    · simp [block, show ¬ n < 36 by omega]
    · rw [← octets_segments 8 v.toList (by omega), IpAddr.octets, Vector.toList_ofFn]
      rfl

theorem block_version2 {n : Nat} {first second : UInt8} {v : Vector UInt8 n} {claim : Claim} (hn : n < 2 ^ 16)
    (hv : first >>> 4 = 2) (h : block (first &&& 0x0F) (second >>> 4) v = .ok claim) :
    Version2 (framed first second v.toList) claim := by
  have hlen : v.toList.length = n := by simp
  have hfirst := nibbles first
  rw [hv] at hfirst
  by_cases hown : first &&& 0x0F = 0
  · rw [hown] at hfirst
    rw [UInt8.toNat_inj.mp (hfirst.trans (rfl : _ = (0x20 : UInt8).toNat))]
    rw [block, if_pos hown] at h
    rw [← Except.ok.inj h]
    exact .own second (by omega)
  · by_cases hproxy : first &&& 0x0F = 1
    · rw [hproxy] at hfirst h
      rw [UInt8.toNat_inj.mp (hfirst.trans (rfl : _ = (0x21 : UInt8).toNat))]
      by_cases hnone : second >>> 4 = 0 ∨ second >>> 4 = 3
      · have hlocal : block 1 (second >>> 4) v = .ok .local := by simp [block, hnone]
        rw [← Except.ok.inj (hlocal.symm.trans h)]
        exact .unaddressed (by omega) hnone
      · have hfam : ∃ k, (second >>> 4 = 1 ∧ k = 4 ∨ second >>> 4 = 2 ∧ k = 16) ∧ 2 * k + 4 ≤ n := by
          simp only [block, if_neg hnone] at h
          by_cases hfour : second >>> 4 = 1
          · refine ⟨4, .inl ⟨hfour, rfl⟩, ?_⟩
            by_contra hshort
            simp [hfour, show n < 12 by omega] at h
          · by_cases hsix : second >>> 4 = 2
            · refine ⟨16, .inr ⟨hsix, rfl⟩, ?_⟩
              by_contra hshort
              simp [hsix, show n < 36 by omega] at h
            · simp [hfour, hsix] at h
        obtain ⟨k, hk, hshort⟩ := hfam
        obtain ⟨ip, port, hok, hfamily, hsource, left, hport⟩ := block_address v hk hshort
        rw [← Except.ok.inj (hok.symm.trans h)]
        have hoct : ip.octets.length = k := by
          rw [← hsource, List.length_take]
          omega
        have hleft : 2 ≤ left.length := by
          have hl := congrArg List.length hport
          simp only [List.length_drop, List.length_append, wordBytes, List.length_cons, List.length_nil] at hl
          omega
        have hpair := drop_pair (l := left) (i := 0) hleft
        rw [List.drop_zero] at hpair
        have hsplit : v.toList = ip.octets ++ (v.toList.drop k).take k ++ wordBytes port ++
            wordBytes (word left[0] left[1]) ++ left.drop 2 := by
          rw [List.append_assoc _ (wordBytes _), ← hpair, List.append_assoc, ← hport, ← hsource, List.append_assoc]
          rw [two_mul, ← List.drop_drop, List.take_append_drop, List.take_append_drop]
        rw [hsplit] at hlen ⊢
        refine .addressed (by omega) hfamily ?_
        rw [List.length_take, List.length_drop, hoct, Vector.length_toList]
        omega
    · simp [block, hown, hproxy] at h

theorem octets_eq {a b : IpAddr} (hfam : a.isIpv4 = b.isIpv4) (h : a.octets = b.octets) : a = b := by
  have hwords : ∀ l m : List UInt16, l.flatMap wordBytes = m.flatMap wordBytes → l = m := by
    intro l
    induction l with
    | nil =>
      intro m hm
      cases m with
      | nil => rfl
      | cons w m => cases hm
    | cons w l ih =>
      intro m hm
      cases m with
      | nil => cases hm
      | cons w' m =>
        rw [List.flatMap_cons, List.flatMap_cons] at hm
        obtain ⟨hw, hrest⟩ := List.append_inj hm rfl
        rw [wordBytes_inj hw, ih m hrest]
  cases a with
  | v4 a =>
    cases b with
    | v4 b => rw [Vector.toList_inj.mp h]
    | v6 b => cases hfam
  | v6 a =>
    cases b with
    | v4 b => cases hfam
    | v6 b => rw [Vector.toList_inj.mp (hwords a.toList b.toList h)]

/-- Every binary header is a fixed part and a block that is accepted. -/
theorem Version2.block {header : List UInt8} {claim : Claim} (h : Version2 header claim) :
    ∃ n first second, ∃ v : Vector UInt8 n, n < 2 ^ 16 ∧ header = framed first second v.toList ∧ first >>> 4 = 2 ∧
      ProxyProtocol.block (first &&& 0x0F) (second >>> 4) v = .ok claim := by
  cases h with
  | @own second block hlen => exact ⟨block.length, 0x20, second, ⟨block.toArray, by simp⟩, hlen, by simp, rfl, rfl⟩
  | @unaddressed second block hlen hfam =>
    refine ⟨block.length, 0x21, second, ⟨block.toArray, by simp⟩, hlen, by simp, rfl, ?_⟩
    have hproxy : (0x21 : UInt8) &&& 0x0F = 1 := rfl
    rw [hproxy]
    simp [ProxyProtocol.block, hfam]
  | @addressed second ip destination tlvs port destinationPort hlen hfam hdestination =>
    have hblock : ∀ l : List UInt8, l = ip.octets ++ destination ++ wordBytes port ++ wordBytes destinationPort ++ tlvs →
        ProxyProtocol.block 1 (second >>> 4) (⟨l.toArray, by simp⟩ : Vector UInt8 l.length) =
          .ok (.client (SocketAddr.new ip port)) := by
      intro l hl
      have htake : l.take ip.octets.length = ip.octets := by
        rw [hl]
        simp
      have hdrop : l.drop (2 * ip.octets.length) = wordBytes port ++ (wordBytes destinationPort ++ tlvs) := by
        rw [hl, two_mul, ← List.drop_drop]
        simp [← hdestination]
      have hlong : 2 * ip.octets.length + 4 ≤ l.length := by
        have hw : ∀ w, (wordBytes w).length = 2 := fun w => rfl
        rw [hl]
        simp only [List.length_append, hw]
        omega
      have hk : second >>> 4 = 1 ∧ ip.octets.length = 4 ∨ second >>> 4 = 2 ∧ ip.octets.length = 16 := by
        cases ip with
        | v4 octets => exact .inl ⟨hfam, by simp [IpAddr.octets]⟩
        | v6 segments => exact .inr ⟨hfam, by simp [IpAddr.octets, List.length_flatMap]⟩
      obtain ⟨ip', port', hok, hfam', hsource, left, hport⟩ := block_address ⟨l.toArray, by simp⟩ hk hlong
      have hip : ip' = ip := by
        apply octets_eq
        · rw [hfam] at hfam'
          cases h : ip.isIpv4 <;> cases h' : ip'.isIpv4 <;> simp [h, h'] at hfam' ⊢
        · exact hsource.symm.trans htake
      have hports : port' = port := wordBytes_inj (List.append_inj (hport.symm.trans hdrop) rfl).1
      rw [hok, hip, hports]
    generalize hl : ip.octets ++ destination ++ wordBytes port ++ wordBytes destinationPort ++ tlvs = l at hlen ⊢
    exact ⟨l.length, 0x21, second, ⟨l.toArray, by simp⟩, hlen, by simp, rfl, hblock l hl.symm⟩

/-- Reading a fixed part and its block. -/
theorem version2_framed {n : Nat} {first second : UInt8} (v : Vector UInt8 n) (hn : n < 2 ^ 16) (hv : first >>> 4 = 2)
    (rest : List UInt8) : version2 s ([first, second] ++ wordBytes n.toUInt16 ++ v.toList ++ rest) =
      (block (first &&& 0x0F) (second >>> 4) v).map fun claim => (claim, rest) := by
  have hhead : readExact s "the PROXY v2 header is incomplete" 4
      ([first, second] ++ wordBytes n.toUInt16 ++ v.toList ++ rest) =
      .ok (#v[first, second, (n.toUInt16 >>> 8).toUInt8, n.toUInt16.toUInt8], v.toList ++ rest) := by
    rw [readExact_ok]
    simp [wordBytes]
  have hword : (word (n.toUInt16 >>> 8).toUInt8 n.toUInt16.toUInt8).toNat = n := by
    rw [word_wordBytes, UInt16.toNat_ofNat']
    omega
  rw [version2, hhead]
  simp only [bind, Except.bind, Vector.getElem_mk, List.getElem_toArray, List.getElem_cons_zero, List.getElem_cons_succ, hv,
    ne_eq, not_true_eq_false, ↓reduceIte]
  generalize (word (n.toUInt16 >>> 8).toUInt8 n.toUInt16.toUInt8).toNat = m at hword
  subst hword
  rw [readExact_ok.2 rfl]
  dsimp only
  cases block (first &&& 0x0F) (second >>> 4) v with
  | error e => rfl
  | ok claim => rfl

theorem version2_header {input rest : List UInt8} {claim : Claim} (h : version2 s input = .ok (claim, rest)) :
    ∃ header, signature ++ input = header ++ rest ∧ Version2 header claim := by
  rw [version2, bind_ok] at h
  obtain ⟨⟨r, left⟩, hr, h⟩ := h
  dsimp only at h
  split at h
  · cases h
  · rename_i hv
    obtain ⟨⟨v, left'⟩, hb, h⟩ := bind_ok.1 h
    obtain ⟨claim', hc, h⟩ := bind_ok.1 h
    obtain ⟨rfl, rfl⟩ := Prod.mk.inj (Except.ok.inj h)
    obtain rfl := readExact_ok.1 hr
    obtain rfl := readExact_ok.1 hb
    have hn := (word r[2] r[3]).toNat_lt
    refine ⟨_, ?_, block_version2 hn (not_not.mp hv) hc⟩
    have hfour : r.toList = [r[0], r[1]] ++ wordBytes (word r[2] r[3]) := by
      rw [wordBytes_word, ← List.drop_zero (l := r.toList), drop_pair (by simp), drop_pair (by simp), wordBytes_word,
        wordBytes_word]
      simp
    rw [hfour, framed, Vector.length_toList]
    simp

theorem version2_of_header {header : List UInt8} {claim : Claim} (h : Version2 header claim) (rest : List UInt8) :
    ∃ more, header = signature ++ more ∧ version2 s (more ++ rest) = .ok (claim, rest) := by
  obtain ⟨n, first, second, v, hn, rfl, hv, hblock⟩ := h.block
  refine ⟨[first, second] ++ wordBytes n.toUInt16 ++ v.toList, ?_, ?_⟩
  · simp [framed]
  · rw [version2_framed v hn hv, hblock]
    rfl

/-! Both forms. -/

/-- A header of the protocol. -/
def Header (header : List UInt8) (claim : Claim) : Prop :=
  Version1 header claim ∧ header.length ≤ v1Max ∨ Version2 header claim

/-- What is read is a header, and nothing but a header is read. -/
theorem read_ok {input rest : List UInt8} {claim : Claim} : read s input = .ok (claim, rest) ↔
    ∃ header, input = header ++ rest ∧ (Version1 header claim ∧ header.length ≤ v1Max + 1 ∨ Version2 header claim) := by
  rw [read, bind_ok]
  constructor
  · intro h
    obtain ⟨⟨head, left⟩, hhead, h⟩ := h
    obtain rfl := readExact_ok.1 hhead
    dsimp only at h
    split at h
    · rename_i hsig
      obtain ⟨header, he, hv⟩ := version2_header h
      rw [hsig]
      exact ⟨header, he, .inr hv⟩
    · have htwelve : head.toList.length = 12 := by
        rw [Vector.length_toList]
        rfl
      obtain ⟨header, he, hv, hlen⟩ := version1_header htwelve h
      exact ⟨header, he, .inl ⟨hv, hlen⟩⟩
  · rintro ⟨header, rfl, ⟨hv, hlen⟩ | hv⟩
    · obtain ⟨head, more, rfl, htwelve, hlead, hread⟩ := version1_of_header (s := s) hv hlen rest
      refine ⟨(⟨head.toArray, by simpa [signature] using htwelve⟩, more ++ rest), ?_, ?_⟩
      · rw [readExact_ok]
        simp
      · have hsig : head ≠ signature := by
          rintro rfl
          exact absurd hlead (by decide)
        simpa [hsig] using hread
    · obtain ⟨more, rfl, hread⟩ := version2_of_header (s := s) hv rest
      refine ⟨(⟨signature.toArray, rfl⟩, more ++ rest), ?_, ?_⟩
      · rw [readExact_ok]
        simp
      · simpa using hread

theorem read_header {header : List UInt8} {claim : Claim} (h : Header header claim) (rest : List UInt8) :
    read s (header ++ rest) = .ok (claim, rest) := by
  apply read_ok.2
  rcases h with ⟨h, hlen⟩ | h
  · exact ⟨header, rfl, .inl ⟨h, by omega⟩⟩
  · exact ⟨header, rfl, .inr h⟩

theorem refused {input : List UInt8} (h : ∀ claim rest, read s input ≠ .ok (claim, rest)) : ∃ e, read s input = .error e := by
  cases hr : read s input with
  | error e => exact ⟨e, rfl⟩
  | ok out => exact absurd hr (h out.1 out.2)

/-- A header that has not come whole is not believed. -/
theorem read_partial {input header : List UInt8} {claim : Claim} (h : Header header claim) (hp : input <+: header)
    (hne : input ≠ header) : ∃ e, read s input = .error e := by
  apply refused
  intro claim' rest hr
  obtain ⟨more, rfl⟩ := hp
  obtain ⟨header', rfl, hv⟩ := read_ok.1 hr
  have hlong : read s (header' ++ rest ++ more) = .ok (claim', rest ++ more) :=
    read_ok.2 ⟨header', List.append_assoc _ _ _, hv⟩
  have hwhole := read_header (s := s) h []
  rw [List.append_nil, hlong] at hwhole
  obtain ⟨-, hnil⟩ := Prod.mk.inj (Except.ok.inj hwhole)
  apply hne
  rw [(List.append_eq_nil_iff.mp hnil).2, List.append_nil]

theorem Version2.not_text {header : List UInt8} {claim : Claim} (h : Version2 header claim) (rest : List UInt8) :
    ¬ utf8 "PROXY " <+: header ++ rest := by
  have hframed : ∀ first second block, ¬ utf8 "PROXY " <+: framed first second block ++ rest := by
    intro first second block hp
    obtain ⟨tail, htail⟩ := hp
    have hhead := congrArg List.head? htail
    have hp : (utf8 "PROXY ").head? = some 80 := by decide
    rw [List.head?_append, hp] at hhead
    simp [framed, signature] at hhead
  cases h with
  | own second => exact hframed _ _ _
  | unaddressed => exact hframed _ _ _
  | addressed => exact hframed _ _ _

theorem read_text {input rest : List UInt8} {claim : Claim} (hp : utf8 "PROXY " <+: input)
    (h : read s input = .ok (claim, rest)) :
    ∃ header, input = header ++ rest ∧ Version1 header claim ∧ header.length ≤ v1Max + 1 := by
  obtain ⟨header, rfl, ⟨hv, hlen⟩ | hv⟩ := read_ok.1 h
  · exact ⟨header, rfl, hv, hlen⟩
  · exact absurd hp (hv.not_text rest)

/-- What a listener relies on, of the first bytes of a connection. -/
structure ReadExactly (s : Stream) (input : List UInt8) : Prop where
  whole : ∀ header claim rest, Header header claim → input = header ++ rest → read s input = .ok (claim, rest)
  truncated : ∀ header claim, Header header claim → input <+: header → input ≠ header → ∃ e, read s input = .error e
  long : utf8 "PROXY " <+: input → ¬ crlf <:+: input.take v1Max → ∃ e, read s input = .error e
  named : ∀ a rest, utf8 "PROXY " <+: input → read s input = .ok (.client a, rest) →
    ∃ text family source destination port destinationPort, input = utf8 text ++ crlf ++ rest ∧
      Text.splitAll ' ' text = ["PROXY", family, source, destination, port, destinationPort] ∧
      IpAddr.parse source = some a.ip ∧ (family = "TCP4" ∧ a.ip.isIpv4 = true ∨ family = "TCP6" ∧ a.ip.isIpv4 = false)

/-- Only a line one byte too long is read where it should not be. -/
theorem readExactly_iff (s : Stream) (input : List UInt8) : ReadExactly s input ↔
    ¬ ∃ header claim rest, Version1 header claim ∧ header.length = v1Max + 1 ∧ input = header ++ rest := by
  constructor
  · rintro h ⟨header, claim, rest, hv, hlen, rfl⟩
    have hread : read s (header ++ rest) = .ok (claim, rest) := read_ok.2 ⟨header, rfl, .inl ⟨hv, hlen.le⟩⟩
    have hended := hv.ended
    have hlead : utf8 "PROXY " <+: header := by
      obtain ⟨text, rfl, -, hsays⟩ := hv
      obtain ⟨lead, tail, htext, hlead, -⟩ := hsays.front
      rw [htext, List.append_assoc]
      exact hlead.trans (List.prefix_append lead _)
    have hno : ¬ crlf <:+: (header ++ rest).take v1Max := by
      have htake : (header ++ rest).take v1Max = header.dropLast := by
        rw [List.take_append_of_le_length (by omega), List.dropLast_eq_take, hlen]
        rfl
      rw [htake]
      exact hended.2
    obtain ⟨e, he⟩ := h.long (hlead.trans (List.prefix_append header rest)) hno
    rw [hread] at he
    cases he
  · intro hshort
    refine ⟨?_, ?_, ?_, ?_⟩
    · rintro header claim rest h rfl
      exact read_header h rest
    · intro header claim h hp hne
      exact read_partial h hp hne
    · intro hp hno
      apply refused
      intro claim rest hr
      obtain ⟨header, rfl, hv, hlen⟩ := read_text hp hr
      by_cases hexact : header.length = v1Max + 1
      · exact hshort ⟨header, claim, rest, hv, hexact, rfl⟩
      · apply hno
        rw [List.take_append, List.take_of_length_le (by omega)]
        exact hv.ended.1.isInfix.trans (List.prefix_append header _).isInfix
    · intro a rest hp hr
      obtain ⟨header, rfl, ⟨text, rfl, -, hsays⟩, -⟩ := read_text hp hr
      cases hsays with
      | @tcp source destination port destinationPort ip n h hip hport =>
        refine ⟨text, _, source, destination, port, destinationPort, rfl, h, hip, ?_⟩
        cases hv : ip.isIpv4 with
        | true => exact .inl ⟨rfl, hv⟩
        | false => exact .inr ⟨rfl, hv⟩

def padded : String := "PROXY UNKNOWN " ++ String.ofList (List.replicate 92 'x')

/-- A line of 108 bytes is believed. -/
theorem long_line_read : ¬ ReadExactly ⟨.failed "early eof", "5s"⟩ (utf8 padded ++ crlf) := by
  intro h
  obtain ⟨e, he⟩ := h.long (List.isPrefixOf_iff_prefix.mp (by decide +kernel)) (by decide +kernel)
  have hread : read ⟨.failed "early eof", "5s"⟩ (utf8 padded ++ crlf) = .ok (.local, []) := by decide +kernel
  rw [hread] at he
  cases he

end ProxyProtocol
end Gatel
