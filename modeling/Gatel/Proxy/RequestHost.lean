import Gatel.Plan.Compile
import Gatel.Plan.Texts
import Gatel.Proxy.Outbound

namespace Gatel

namespace Proxy

/-! The host an authority names. -/

/-- The characters of a registered name; an IPv4 address is spelled with some of them. -/
def isNameChar (c : Char) : Bool :=
  c.isAlphanum || ['-', '.', '_', '~', '%', '!', '$', '&', '\'', '(', ')', '*', '+', ',', ';', '='].contains c

/-- The characters of an IPv6 address. -/
def isLiteralChar (c : Char) : Bool :=
  c.isDigit || ['a', 'b', 'c', 'd', 'e', 'f', 'A', 'B', 'C', 'D', 'E', 'F', ':', '.'].contains c

/-- A registered name, or an IPv6 address, which is written in brackets. -/
inductive Host where
  | name (chars : List Char) (ok : ∀ c ∈ chars, isNameChar c = true)
  | literal (chars : List Char) (ok : ∀ c ∈ chars, isLiteralChar c = true) (colons : 2 ≤ chars.count ':')

namespace Host

@[grind =] def bare : Host → List Char
  | .name chars _ => chars
  | .literal chars _ _ => chars

@[grind =] def text : Host → List Char
  | .name chars _ => chars
  | .literal chars _ _ => '[' :: chars ++ [']']

def isLiteral : Host → Bool
  | .name _ _ => false
  | .literal _ _ _ => true

end Host

/-- A host with a port, which may be left out or empty. -/
structure Authority where
  host : Host
  port : Option (List Char)
  digits : ∀ p ∈ port, ∀ c ∈ p, c.isDigit = true

theorem Authority.no_digits : ∀ p ∈ (none : Option (List Char)), ∀ c ∈ p, c.isDigit = true := by simp

def Authority.text (a : Authority) : List Char := a.host.text ++ a.port.elim [] fun p => ':' :: p

/-- Spaces and tabs, all a readable field can have for blanks. -/
def Blank (l : List Char) : Prop := ∀ c ∈ l, c = ' ' ∨ c = '\t'

/-- `request_host`, from the text it reads. -/
def hostOf (raw : String) : String :=
  let withoutPort := match Text.rsplitOnce ':' raw with
    | some (head, tail) => if !Text.endsWith head "]" && tail.toList.all Char.isDigit then head else raw
    | none => raw
  let trimmed := (Text.trim withoutPort).toList.dropWhile (· = '[')
  Text.lower (String.ofList (trimmed.reverse.dropWhile (· = ']')).reverse)

theorem Request.host_eq (r : Request) :
    r.host = hostOf ((((r.headers.get "host").bind HeaderValue.toStr).or r.uriHost).getD "") := rfl

variable {l lead trail : List Char}

theorem Blank.isWhitespace (h : Blank l) : ∀ c ∈ l, Text.isWhitespace c = true := by
  intro c hc
  rcases h c hc with rfl | rfl <;> decide

theorem Blank.not_mem (h : Blank l) {c : Char} (hs : c ≠ ' ') (ht : c ≠ '\t') : c ∉ l := by
  intro hc
  rcases h c hc with rfl | rfl
  · exact hs rfl
  · exact ht rfl

theorem not_literalChar {c : Char} (hc : c = '[' ∨ c = ']') : isLiteralChar c = false := by
  rcases hc with rfl | rfl <;> decide

/-- Printed ASCII but a blank. -/
def Printed (c : Char) : Prop := 32 < c.toNat ∧ c.toNat < 127

theorem printed_of_alphanum {c : Char} (h : c.isAlphanum = true) : Printed c := by
  simp only [Char.isAlphanum, Char.isAlpha, Char.isUpper, Char.isLower, Char.isDigit, Bool.or_eq_true,
    Bool.and_eq_true, decide_eq_true_iff, ge_iff_le, UInt32.le_iff_toNat_le] at h
  change 32 < c.val.toNat ∧ c.val.toNat < 127
  rcases h with (⟨hl, hu⟩ | ⟨hl, hu⟩) | ⟨hl, hu⟩
  · exact ⟨lt_of_lt_of_le (by decide) hl, lt_of_le_of_lt hu (by decide)⟩
  · exact ⟨lt_of_lt_of_le (by decide) hl, lt_of_le_of_lt hu (by decide)⟩
  · exact ⟨lt_of_lt_of_le (by decide) hl, lt_of_le_of_lt hu (by decide)⟩

theorem printed_of_digit {c : Char} (h : c.isDigit = true) : Printed c :=
  printed_of_alphanum (by rw [Char.isAlphanum, h, Bool.or_true])

theorem printed_of_mem {c : Char} {marks : List Char} (hall : marks.all fun d => 32 < d.toNat && d.toNat < 127)
    (h : marks.contains c = true) : Printed c := by
  have hc := List.all_eq_true.mp hall c (List.contains_iff_mem.mp h)
  simpa [Printed] using hc

theorem printed_of_nameChar {c : Char} (h : isNameChar c = true) : Printed c := by
  rcases (Bool.or_eq_true _ _).mp h with ha | hm
  · exact printed_of_alphanum ha
  · exact printed_of_mem (by decide) hm

theorem printed_of_literalChar {c : Char} (h : isLiteralChar c = true) : Printed c := by
  rcases (Bool.or_eq_true _ _).mp h with hd | hm
  · exact printed_of_digit hd
  · exact printed_of_mem (by decide) hm

theorem Printed.not_blank {c : Char} (h : Printed c) : Text.isWhitespace c = false := by
  obtain ⟨hlow, hhigh⟩ := h
  simp only [Text.isWhitespace, Bool.or_eq_false_iff, Bool.and_eq_false_iff, decide_eq_false_iff_not, beq_eq_false_iff_ne]
  omega

theorem token_chars {name : String} (h : HeaderName.isValid name = true) :
    ∀ c ∈ name.toList, Printed c ∧ c ≠ ',' ∧ c ≠ ';' ∧ c ≠ '=' := by
  simp only [HeaderName.isValid, Bool.and_eq_true, List.all_eq_true] at h
  intro c hc
  have hmark : ∀ d ∈ [',', ';', '='], (d.isAlphanum || "!#$%&'*+-.^_`|~".toList.contains d) = false := by simp
  have hne : ∀ d ∈ [',', ';', '='], c ≠ d := by
    rintro d hd rfl
    exact absurd (h.2 c hc) (by rw [hmark c hd]; exact Bool.false_ne_true)
  refine ⟨?_, hne _ (by simp), hne _ (by simp), hne _ (by simp)⟩
  rcases (Bool.or_eq_true _ _).mp (h.2 c hc) with ha | hm
  · exact printed_of_alphanum ha
  · exact printed_of_mem (by decide) hm

theorem Host.printed (h : Host) : ∀ c ∈ h.text, Printed c := by
  intro c hc
  cases h with
  | name chars ok => exact printed_of_nameChar (ok c hc)
  | literal chars ok _ =>
    rcases List.mem_append.mp hc with hc | hc
    · obtain rfl | hc := List.mem_cons.mp hc
      · exact ⟨by decide, by decide⟩
      · exact printed_of_literalChar (ok c hc)
    · obtain rfl := List.mem_singleton.mp hc
      exact ⟨by decide, by decide⟩

theorem Authority.printed (a : Authority) : ∀ c ∈ a.text, Printed c := by
  intro c hc
  rcases List.mem_append.mp hc with hc | hc
  · exact a.host.printed c hc
  · cases hp : a.port with
    | none =>
      rw [hp] at hc
      cases hc
    | some p =>
      rw [hp] at hc
      obtain rfl | hc := List.mem_cons.mp hc
      · exact ⟨by decide, by decide⟩
      · exact printed_of_digit (a.digits p hp c hc)

theorem Host.bare_not_mem (h : Host) {c : Char} (hc : c = '[' ∨ c = ']') : c ∉ h.bare := by
  intro hin
  cases h with
  | name chars ok =>
    have hok := ok c hin
    rcases hc with rfl | rfl <;> exact absurd hok (by decide)
  | literal chars ok _ =>
    have hok := ok c hin
    rcases hc with rfl | rfl <;> exact absurd hok (by decide)

theorem dropWhile_not_mem {c : Char} {l : List Char} (h : c ∉ l) : l.dropWhile (· = c) = l := by
  cases l with
  | nil => rfl
  | cons d l =>
    have hd : ¬ d = c := fun he => h (he ▸ List.mem_cons_self)
    rw [List.dropWhile_cons, if_neg (by simpa using hd)]

/-- Brackets around a host go. -/
theorem Host.text_unbracketed (h : Host) :
    (((h.text).dropWhile (· = '[')).reverse.dropWhile (· = ']')).reverse = h.bare := by
  have hbare : ∀ c ∈ h.bare, decide (c = '[') = false ∧ decide (c = ']') = false := by
    intro c hc
    constructor
    · exact decide_eq_false fun he => h.bare_not_mem (.inl he) hc
    · exact decide_eq_false fun he => h.bare_not_mem (.inr he) hc
  cases h with
  | name chars ok =>
    have hstrip := @Text.strip_around _ (· = '[') (· = ']') [] chars [] (by simp) (by simp) hbare
    rwa [List.nil_append, List.append_nil] at hstrip
  | literal chars ok colons => exact @Text.strip_around _ (· = '[') (· = ']') ['['] chars [']'] (by simp) (by simp) hbare

/-- The last step of `request_host`: blanks and brackets go, letters become small. -/
def cleaned (text : String) : String :=
  Text.lower (String.ofList (((Text.trim text).toList.dropWhile (· = '[')).reverse.dropWhile (· = ']')).reverse)

theorem hostOf_eq (raw : String) : hostOf raw = cleaned (match Text.rsplitOnce ':' raw with
    | some (head, tail) => if !Text.endsWith head "]" && tail.toList.all Char.isDigit then head else raw
    | none => raw) := rfl

theorem cleaned_around {core : List Char} (hl : Blank lead) (ht : Blank trail) (hc : ∀ c ∈ core, Printed c) :
    cleaned (String.ofList (lead ++ core ++ trail)) =
      Text.lower (String.ofList ((core.dropWhile (· = '[')).reverse.dropWhile (· = ']')).reverse) := by
  rw [cleaned, Text.trim_around hl.isWhitespace ht.isWhitespace fun c hc' => (hc c hc').not_blank, String.toList_ofList]

theorem cleaned_host (hl : Blank lead) (ht : Blank trail) (h : Host) :
    cleaned (String.ofList (lead ++ h.text ++ trail)) = Text.lower (String.ofList h.bare) := by
  rw [cleaned_around hl ht h.printed, h.text_unbracketed]

/-- What is left of an authority whose port was not taken off. -/
def Authority.withPort (a : Authority) (port : List Char) : List Char :=
  a.host.bare ++ (if a.host.isLiteral then [']'] else []) ++ ':' :: port

theorem digit_ne {c : Char} (h : c.isDigit = true) : c ≠ ':' ∧ c ≠ '[' ∧ c ≠ ']' ∧ c ≠ ' ' ∧ c ≠ '\t' := by
  refine ⟨?_, ?_, ?_, ?_, ?_⟩
  all_goals
    rintro rfl
    exact absurd h (by decide)

theorem Authority.port_not_mem (a : Authority) {p : List Char} (hp : a.port = some p) {c : Char}
    (hc : c = ':' ∨ c = '[' ∨ c = ']') : c ∉ p := by
  intro hin
  have hd := digit_ne (a.digits p hp c hin)
  rcases hc with rfl | rfl | rfl
  · exact hd.1 rfl
  · exact hd.2.1 rfl
  · exact hd.2.2.1 rfl

theorem Authority.text_eq (a : Authority) {p : List Char} (hp : a.port = some p) : a.text = a.host.text ++ ':' :: p := by
  rw [Authority.text, hp]
  rfl

theorem cleaned_port (hl : Blank lead) (ht : Blank trail) (a : Authority) {p : List Char} (hp : a.port = some p) :
    cleaned (String.ofList (lead ++ a.text ++ trail)) = Text.lower (String.ofList (a.withPort p)) := by
  have hno : ∀ {c : Char}, c = '[' ∨ c = ']' → c ∉ ':' :: p := by
    intro c hc hin
    obtain rfl | hin := List.mem_cons.mp hin
    · rcases hc with hc | hc <;> exact absurd hc (by decide)
    · exact a.port_not_mem hp (.inr hc) hin
  have hback : ∀ front : List Char, ((front ++ ':' :: p).reverse.dropWhile (· = ']')).reverse = front ++ ':' :: p := by
    intro front
    have hlast : (front ++ ':' :: p).reverse.dropWhile (· = ']') = (front ++ ':' :: p).reverse := by
      rw [List.reverse_append]
      cases hr : (':' :: p).reverse with
      | nil => simp at hr
      | cons d rest =>
        have hd : d ∈ ':' :: p := List.mem_reverse.mp (hr ▸ List.mem_cons_self)
        have hne : ¬ d = ']' := fun he => hno (.inr he) hd
        rw [List.cons_append, List.dropWhile_cons, if_neg (by simpa using hne)]
    rw [hlast, List.reverse_reverse]
  rw [cleaned_around hl ht a.printed, a.text_eq hp, Authority.withPort]
  have hbare := a.host.bare_not_mem (c := '[') (.inl rfl)
  cases hh : a.host with
  | name chars ok =>
    rw [hh] at hbare
    have hfront : (chars ++ ':' :: p).dropWhile (· = '[') = chars ++ ':' :: p := by
      refine dropWhile_not_mem fun hin => ?_
      rcases List.mem_append.mp hin with hin | hin
      · exact hbare hin
      · exact hno (.inl rfl) hin
    simp only [Host.text, Host.bare, Host.isLiteral, Bool.false_eq_true, if_false, List.append_nil]
    rw [hfront, hback]
  | literal chars ok colons =>
    rw [hh] at hbare
    have hfront : (chars ++ [']'] ++ ':' :: p).dropWhile (· = '[') = chars ++ [']'] ++ ':' :: p := by
      refine dropWhile_not_mem fun hin => ?_
      rcases List.mem_append.mp hin with hin | hin
      · rcases List.mem_append.mp hin with hin | hin
        · exact hbare hin
        · exact absurd (List.mem_singleton.mp hin) (by decide)
      · exact hno (.inl rfl) hin
    simp only [Host.text, Host.bare, Host.isLiteral, if_true]
    rw [List.cons_append, List.cons_append, List.dropWhile_cons, if_pos (by decide), hfront, hback]

/-! Where `request_host` takes the port off. -/

theorem mem_of_endsWith {l : List Char} (h : Text.endsWith (String.ofList l) "]" = true) : ']' ∈ l := by
  have hpre : [']'] <+: l.reverse := by
    have hb : "]".toList = [']'] := rfl
    rw [Text.endsWith, hb, String.toList_ofList] at h
    exact List.isPrefixOf_iff_prefix.mp h
  exact List.mem_reverse.mp (hpre.subset (List.mem_singleton_self _))

theorem Host.colon_not_mem {chars : List Char} (ok : ∀ c ∈ chars, isNameChar c = true) : ':' ∉ chars := fun h =>
  absurd (ok _ h) (by decide)

/-- The port goes where nothing follows it and no bracket stands before it. -/
theorem hostOf_right (hl : Blank lead) (ht : Blank trail) (a : Authority)
    (h : a.port = none ∨ (a.host.isLiteral = false ∧ trail = [])) :
    hostOf (String.ofList (lead ++ a.text ++ trail)) = Text.lower (String.ofList a.host.bare) := by
  have hlead : ':' ∉ lead := hl.not_mem (by decide) (by decide)
  have htrail : ':' ∉ trail := ht.not_mem (by decide) (by decide)
  cases hp : a.port with
  | none =>
    have htext : a.text = a.host.text := by rw [Authority.text, hp]; simp
    rw [htext, hostOf_eq]
    have hclean := cleaned_host hl ht a.host
    cases hh : a.host with
    | name chars ok =>
      rw [hh] at hclean
      have hnone : ':' ∉ lead ++ Host.text (.name chars ok) ++ trail := by
        intro hin
        rcases List.mem_append.mp hin with hin | hin
        · rcases List.mem_append.mp hin with hin | hin
          · exact hlead hin
          · exact Host.colon_not_mem ok hin
        · exact htrail hin
      rw [Text.rsplitOnce_none hnone]
      exact hclean
    | literal chars ok colons =>
      rw [hh] at hclean
      -- the last colon is one of the literal's, and a bracket follows it
      have hmem : ':' ∈ chars.reverse := by
        rw [List.mem_reverse, ← List.count_pos_iff]
        omega
      obtain ⟨after, before, hsplit, hlast⟩ := List.eq_append_cons_of_mem hmem
      have hchars : chars = before.reverse ++ ':' :: after.reverse := by
        have := congrArg List.reverse hsplit
        simpa using this
      have hraw : lead ++ Host.text (.literal chars ok colons) ++ trail =
          (lead ++ '[' :: before.reverse) ++ ':' :: (after.reverse ++ ']' :: trail) := by
        rw [Host.text, hchars]
        simp
      have htail : ':' ∉ after.reverse ++ ']' :: trail := by
        intro hin
        rcases List.mem_append.mp hin with hin | hin
        · exact hlast (List.mem_reverse.mp hin)
        · obtain hin | hin := List.mem_cons.mp hin
          · exact absurd hin (by decide)
          · exact htrail hin
      have hdigits : (after.reverse ++ ']' :: trail).all Char.isDigit = false := by
        rw [List.all_eq_false]
        exact ⟨']', by simp, by decide⟩
      rw [hraw] at hclean ⊢
      rw [Text.rsplitOnce_last _ htail]
      simp only [String.toList_ofList, hdigits, Bool.and_false, Bool.false_eq_true, if_false]
      exact hclean
  | some p =>
    obtain ⟨hname, rfl⟩ := h.resolve_left fun hnone => by rw [hp] at hnone; cases hnone
    rw [hostOf_eq, a.text_eq hp]
    have hclean := cleaned_host hl ht a.host
    have hbrackets := a.host.bare_not_mem (c := ']') (.inr rfl)
    cases hh : a.host with
    | literal chars ok colons =>
      rw [hh] at hname
      cases hname
    | name chars ok =>
      rw [hh] at hclean hbrackets
      have hend : Text.endsWith (String.ofList (lead ++ chars)) "]" = false := by
        refine Bool.eq_false_iff.mpr fun hend => ?_
        rcases List.mem_append.mp (mem_of_endsWith hend) with hin | hin
        · exact hl.not_mem (by decide) (by decide) hin
        · exact hbrackets hin
      have hdigits : p.all Char.isDigit = true := List.all_eq_true.mpr (a.digits p hp)
      rw [List.append_nil, Host.text, ← List.append_assoc, Text.rsplitOnce_last _ (a.port_not_mem hp (.inl rfl))]
      simp only [String.toList_ofList, hend, hdigits, Bool.not_false, Bool.and_self, if_true]
      rw [List.append_nil] at hclean
      exact hclean

/-- Elsewhere it stays, behind what is left of the brackets. -/
theorem hostOf_wrong (hl : Blank lead) (ht : Blank trail) (a : Authority) {p : List Char} (hp : a.port = some p)
    (h : a.host.isLiteral = true ∨ trail ≠ []) :
    hostOf (String.ofList (lead ++ a.text ++ trail)) = Text.lower (String.ofList (a.withPort p)) := by
  have hclean := cleaned_port hl ht a hp
  have hraw : lead ++ a.text ++ trail = (lead ++ a.host.text) ++ ':' :: (p ++ trail) := by
    rw [a.text_eq hp]
    simp
  have htail : ':' ∉ p ++ trail := by
    intro hin
    rcases List.mem_append.mp hin with hin | hin
    · exact a.port_not_mem hp (.inl rfl) hin
    · exact ht.not_mem (by decide) (by decide) hin
  have hkeep : (!Text.endsWith (String.ofList (lead ++ a.host.text)) "]" && (p ++ trail).all Char.isDigit) = false := by
    rw [Bool.and_eq_false_iff]
    rcases h with hlit | hne
    · left
      cases hh : a.host with
      | name chars ok =>
        rw [hh] at hlit
        cases hlit
      | literal chars ok colons =>
        have hb : "]".toList = [']'] := rfl
        rw [Text.endsWith, hb, String.toList_ofList, Host.text]
        simp
    · right
      obtain ⟨c, rest, rfl⟩ := List.exists_cons_of_ne_nil hne
      rw [List.all_eq_false]
      refine ⟨c, by simp, ?_⟩
      rcases ht c List.mem_cons_self with rfl | rfl <;> decide
  rw [hraw] at hclean ⊢
  rw [hostOf_eq, Text.rsplitOnce_last _ htail]
  simp only [String.toList_ofList, hkeep, Bool.false_eq_true, if_false]
  exact hclean

theorem toNat_toLower {c : Char} (hlow : 65 ≤ c.toNat) (hhigh : c.toNat ≤ 90) : c.toLower.toNat = c.toNat + 32 := by
  have hupper : c.val ≥ 'A'.val ∧ c.val ≤ 'Z'.val := ⟨hlow, hhigh⟩
  rw [Char.toLower, dif_pos hupper]
  change (c.val + ('a'.val - 'A'.val)).toNat = c.toNat + 32
  rw [UInt32.toNat_add]
  change (c.toNat + 32) % 2 ^ 32 = c.toNat + 32
  omega

theorem toLower_of_not_upper {c : Char} (h : ¬ (65 ≤ c.toNat ∧ c.toNat ≤ 90)) : c.toLower = c := by
  have hupper : ¬ (c.val ≥ 'A'.val ∧ c.val ≤ 'Z'.val) := h
  rw [Char.toLower, dif_neg hupper]

/-- Letters become letters; what is none was none. -/
theorem toLower_eq {c d : Char} (hd : d.toNat < 97) (h : c.toLower = d) : c = d := by
  by_cases hupper : 65 ≤ c.toNat ∧ c.toNat ≤ 90
  · have hnat := toNat_toLower hupper.1 hupper.2
    rw [h] at hnat
    omega
  · rwa [toLower_of_not_upper hupper] at h

theorem mem_map_toLower {c : Char} (hc : c.toNat < 97) (hl : c.toLower = c) {l : List Char} : c ∈ l.map Char.toLower ↔ c ∈ l := by
  rw [List.mem_map]
  constructor
  · rintro ⟨d, hd, hdc⟩
    obtain rfl := toLower_eq hc hdc
    exact hd
  · exact fun h => ⟨c, h, hl⟩

theorem count_map_toLower {c : Char} (hc : c.toNat < 97) (hl : c.toLower = c) (l : List Char) :
    (l.map Char.toLower).count c = l.count c := by
  induction l with
  | nil => rfl
  | cons d l ih =>
    have hiff : d.toLower = c ↔ d = c := ⟨toLower_eq hc, fun h => h ▸ hl⟩
    simp only [List.map_cons, List.count_cons, ih, beq_iff_eq, hiff]

theorem map_toLower_of_lower {l m : List Char} (h : Text.lower (String.ofList l) = Text.lower (String.ofList m)) :
    l.map Char.toLower = m.map Char.toLower := by
  simp only [Text.lower, String.toList_ofList] at h
  exact String.ofList_injective h

/-- The host of an authority as sites are looked up by it. -/
def Host.lowered (h : Host) : String := Text.lower (String.ofList h.bare)

/-- A host left with its port is no host at all. -/
theorem withPort_ne (a : Authority) (p : List Char) (h : Host) (hp : ':' ∉ p) :
    Text.lower (String.ofList (a.withPort p)) ≠ h.lowered := by
  intro heq
  have hmap := map_toLower_of_lower heq
  cases hh : a.host with
  | literal chars ok colons =>
    have hmem : ']' ∈ (a.withPort p).map Char.toLower := by
      rw [mem_map_toLower (by decide) (by decide), Authority.withPort, hh]
      simp [Host.isLiteral]
    rw [hmap, mem_map_toLower (by decide) (by decide)] at hmem
    exact h.bare_not_mem (.inr rfl) hmem
  | name chars ok =>
    have hone : (a.withPort p).count ':' = 1 := by
      rw [Authority.withPort, hh]
      simp only [Host.bare, Host.isLiteral, Bool.false_eq_true, if_false, List.append_nil, List.count_append,
        List.count_cons_self, List.count_eq_zero.mpr (Host.colon_not_mem ok), List.count_eq_zero.mpr hp]
    have hcount := congrArg (List.count ':') hmap
    rw [count_map_toLower (by decide) (by decide), count_map_toLower (by decide) (by decide), hone] at hcount
    cases h with
    | name chars' ok' =>
      rw [Host.bare, List.count_eq_zero.mpr (Host.colon_not_mem ok')] at hcount
      cases hcount
    | literal chars' ok' colons' =>
      rw [Host.bare] at hcount
      omega

/-! What `request_host` answers. -/

/-- The Host field, where it reads as text. -/
def Request.hostField (r : Request) : Option String := (r.headers.get "host").bind HeaderValue.toStr

/-- The authority of a request, in its Host field or else in its URI. -/
def Request.Names (r : Request) (a : Authority) : Prop :=
  r.hostField = some (String.ofList a.text) ∨ (r.hostField = none ∧ r.uriHost = some (String.ofList a.host.text))

theorem Request.host_of_field {r : Request} {text : String} (h : r.hostField = some text) : r.host = hostOf text := by
  rw [Request.host_eq]
  change hostOf ((r.hostField.or r.uriHost).getD "") = hostOf text
  rw [h]
  rfl

theorem hostOf_host (h : Host) : hostOf (String.ofList h.text) = h.lowered := by
  have hright := @hostOf_right [] [] (fun _ hc => absurd hc List.not_mem_nil) (fun _ hc => absurd hc List.not_mem_nil)
    ⟨h, none, by simp⟩ (.inl rfl)
  simpa [Authority.text, Host.lowered] using hright

theorem Request.host_of_uri {r : Request} (h : r.hostField = none) {x : Host}
    (hu : r.uriHost = some (String.ofList x.text)) : r.host = x.lowered := by
  rw [Request.host_eq, ← hostOf_host]
  change hostOf ((r.hostField.or r.uriHost).getD "") = _
  rw [h, hu]
  rfl

/-- What `request_host` makes of a text with blanks around its authority. -/
theorem hostOf_iff (hl : Blank lead) (ht : Blank trail) (a : Authority) (x : Host) :
    hostOf (String.ofList (lead ++ a.text ++ trail)) = x.lowered ↔
      (a.port = none ∨ (a.host.isLiteral = false ∧ trail = [])) ∧ a.host.lowered = x.lowered := by
  by_cases hgood : a.port = none ∨ (a.host.isLiteral = false ∧ trail = [])
  · rw [hostOf_right hl ht a hgood]
    exact ⟨fun he => ⟨hgood, he⟩, fun he => he.2⟩
  · obtain ⟨hport, hbad⟩ := not_or.mp hgood
    obtain ⟨p, hp⟩ := Option.ne_none_iff_exists'.mp hport
    have hbad' : a.host.isLiteral = true ∨ trail ≠ [] := by
      by_cases hlit : a.host.isLiteral = true
      · exact .inl hlit
      · exact .inr fun hnil => hbad ⟨Bool.eq_false_iff.mpr hlit, hnil⟩
    rw [hostOf_wrong hl ht a hp hbad']
    exact ⟨fun he => absurd he (withPort_ne a p x (a.port_not_mem hp (.inl rfl))), fun he => absurd he.1 hgood⟩

/-- A request is looked up by the host of its authority, whatever the port, unless a bracketed
literal has a port in the Host field. -/
theorem request_host_iff {r : Request} {a : Authority} (h : r.Names a) :
    (r.host = a.host.lowered ∧ ∀ p : ListenerPlan, p.siteFor r.host = p.siteFor a.host.lowered) ↔
      ¬ (r.hostField.isSome = true ∧ a.host.isLiteral = true ∧ a.port.isSome = true) := by
  have hnil : Blank [] := fun _ hc => absurd hc List.not_mem_nil
  have hiff : r.host = a.host.lowered ↔ ¬ (r.hostField.isSome = true ∧ a.host.isLiteral = true ∧ a.port.isSome = true) := by
    rcases h with hfield | ⟨hfield, hu⟩
    · have hf : r.host = hostOf (String.ofList ([] ++ a.text ++ [])) := by simpa using Request.host_of_field hfield
      rw [hf, hostOf_iff hnil hnil, hfield]
      cases a.port <;> cases a.host.isLiteral <;> simp
    · rw [hfield]
      simp [Request.host_of_uri hfield hu]
  rw [← hiff]
  exact ⟨fun h => h.1, fun h => ⟨h, fun _ => by rw [h]⟩⟩

theorem digits_8080 : ∀ p ∈ some "8080".toList, ∀ c ∈ p, c.isDigit = true := by
  rintro p ⟨rfl⟩
  exact List.all_eq_true.mp (by decide)

theorem request_host_iff_port :
    ∃ (r : Request) (a : Authority), r.Names a ∧ a.port = some "8080".toList ∧
      ((r.host = a.host.lowered ∧ ∀ p : ListenerPlan, p.siteFor r.host = p.siteFor a.host.lowered) ↔
        ¬ (r.hostField.isSome = true ∧ a.host.isLiteral = true ∧ a.port.isSome = true)) :=
  let r : Request := ⟨"GET", some "/", none, [("host", "Example.com:8080".toUTF8.toList)], none⟩
  let a : Authority := ⟨.name "Example.com".toList (List.all_eq_true.mp (by decide)), some "8080".toList, digits_8080⟩
  have h : r.Names a := .inl (by decide +kernel)
  ⟨r, a, h, rfl, request_host_iff h⟩

/-- A bracketed literal keeps its port: `[::1]:8080` is looked up as `::1]:8080`. -/
theorem request_host_keeps_port : ¬ ∀ (r : Request) (a : Authority), r.Names a → r.host = a.host.lowered := by
  intro h
  have hhost := h ⟨"GET", some "/", none, [("host", "[::1]:8080".toUTF8.toList)], none⟩
    ⟨.literal "::1".toList (List.all_eq_true.mp (by decide)) (by decide), some "8080".toList, digits_8080⟩
    (.inl (by decide +kernel))
  exact absurd hhost (by decide +kernel)

end Proxy
end Gatel
