import Mathlib

/-! JSON text and what a consumer reads out of it. -/

inductive Json where
  | null
  | bool (value : Bool)
  | number (literal : List Char)
  | string (value : List Char)
  | array (items : List Json)
  | object (members : List (List Char × Json))

namespace Json

def isSpace (c : Char) : Bool := c = ' ' || c = '\t' || c = '\n' || c = '\r'

def skip (text : List Char) : List Char := text.dropWhile isSpace

def hexValue (c : Char) : Option ℕ :=
  if '0' ≤ c ∧ c ≤ '9' then some (c.toNat - 48)
  else if 'a' ≤ c ∧ c ≤ 'f' then some (c.toNat - 87)
  else if 'A' ≤ c ∧ c ≤ 'F' then some (c.toNat - 55)
  else none

/-- The four digits behind a `u`. -/
def codeUnit (a b c d : Char) : Option ℕ := do
  some (((← hexValue a) * 16 + (← hexValue b)) * 256 + (← hexValue c) * 16 + (← hexValue d))

def isHigh (unit : ℕ) : Bool := 0xd800 ≤ unit && unit < 0xdc00

def isLow (unit : ℕ) : Bool := 0xdc00 ≤ unit && unit < 0xe000

def escape (c : Char) : Option Char :=
  match c with
  | '"' => some '"'
  | '\\' => some '\\'
  | '/' => some '/'
  | 'b' => some '\x08'
  | 'f' => some '\x0c'
  | 'n' => some '\n'
  | 'r' => some '\r'
  | 't' => some '\t'
  | _ => none

@[grind =] def push (c : Char) (read : Option (List Char × List Char)) : Option (List Char × List Char) :=
  read.map fun (value, rest) => (c :: value, rest)

/-- From behind the opening quote. A surrogate half that stands alone is no text. -/
@[grind =] def readString : List Char → Option (List Char × List Char)
  | [] => none
  | '"' :: rest => some ([], rest)
  | '\\' :: 'u' :: a :: b :: c :: d :: '\\' :: 'u' :: e :: f :: g :: h :: rest => do
    let unit ← codeUnit a b c d
    if isHigh unit then
      let low ← codeUnit e f g h
      if isLow low then push (Char.ofNat (0x10000 + (unit - 0xd800) * 1024 + (low - 0xdc00))) (readString rest) else none
    else if isLow unit then none
    else push (Char.ofNat unit) (readString ('\\' :: 'u' :: e :: f :: g :: h :: rest))
  | '\\' :: 'u' :: a :: b :: c :: d :: rest => do
    let unit ← codeUnit a b c d
    if isHigh unit || isLow unit then none else push (Char.ofNat unit) (readString rest)
  | '\\' :: c :: rest => do
    let meant ← escape c
    push meant (readString rest)
  | c :: rest => if c < ' ' || c = '\\' then none else push c (readString rest)

def isExponent : List Char → Bool
  | '+' :: digits | '-' :: digits | digits => digits ≠ [] && digits.all Char.isDigit

/-- What may stand behind the whole part of a number. -/
@[grind =] def isFraction : List Char → Bool
  | [] => true
  | '.' :: rest =>
    let behind := rest.dropWhile Char.isDigit
    rest.takeWhile Char.isDigit ≠ [] && match behind with
      | [] => true
      | 'e' :: exponent | 'E' :: exponent => isExponent exponent
      | _ => false
  | 'e' :: exponent | 'E' :: exponent => isExponent exponent
  | _ => false

def isWhole (text : List Char) : Bool :=
  let digits := text.takeWhile Char.isDigit
  digits ≠ [] && (digits.head? ≠ some '0' || digits.length = 1) && isFraction (text.dropWhile Char.isDigit)

def isNumber : List Char → Bool
  | '-' :: rest => isWhole rest
  | text => isWhole text

def numeric (c : Char) : Bool := c.isDigit || ['+', '-', '.', 'e', 'E'].contains c

def readNumber (text : List Char) : Option (Json × List Char) :=
  let literal := text.takeWhile numeric
  if isNumber literal then some (.number literal, text.dropWhile numeric) else none

mutual

/-- One value, nested no deeper than the bound. -/
@[grind =] def readValue : ℕ → List Char → Option (Json × List Char)
  | 0, _ => none
  | n + 1, text =>
    match skip text with
    | '"' :: rest => (readString rest).map fun (value, rest) => (.string value, rest)
    | '\x7b' :: rest =>
      match skip rest with
      | '\x7d' :: rest => some (.object [], rest)
      | rest => (readMembers n rest).map fun (members, rest) => (.object members, rest)
    | '[' :: rest =>
      match skip rest with
      | ']' :: rest => some (.array [], rest)
      | rest => (readItems n rest).map fun (items, rest) => (.array items, rest)
    | 't' :: 'r' :: 'u' :: 'e' :: rest => some (.bool true, rest)
    | 'f' :: 'a' :: 'l' :: 's' :: 'e' :: rest => some (.bool false, rest)
    | 'n' :: 'u' :: 'l' :: 'l' :: rest => some (.null, rest)
    | rest => readNumber rest

@[grind =] def readMembers : ℕ → List Char → Option (List (List Char × Json) × List Char)
  | 0, _ => none
  | n + 1, text =>
    match skip text with
    | '"' :: rest => do
      let (name, rest) ← readString rest
      match skip rest with
      | ':' :: rest => do
        let (value, rest) ← readValue n rest
        match skip rest with
        | ',' :: rest => do
          let (members, rest) ← readMembers n rest
          some ((name, value) :: members, rest)
        | '\x7d' :: rest => some ([(name, value)], rest)
        | _ => none
      | _ => none
    | _ => none

def readItems : ℕ → List Char → Option (List Json × List Char)
  | 0, _ => none
  | n + 1, text => do
    let (value, rest) ← readValue n text
    match skip rest with
    | ',' :: rest => do
      let (items, rest) ← readItems n rest
      some (value :: items, rest)
    | ']' :: rest => some ([value], rest)
    | _ => none

end

/-- A whole text that is one value. -/
def parse (text : List Char) : Option Json := do
  let (value, rest) ← readValue (text.length + 1) text
  if skip rest = [] then some value else none

theorem readString_plain {c : Char} (rest : List Char) (hspace : ' ' ≤ c) (hquote : c ≠ '"') (hback : c ≠ '\\') :
    readString (c :: rest) = push c (readString rest) := by
  rw [readString]
  · simp [hback, not_lt.mpr hspace]
  all_goals grind

theorem readString_escape {c d : Char} (rest : List Char) (hu : c ≠ 'u') (h : escape c = some d) :
    readString ('\\' :: c :: rest) = push d (readString rest) := by
  rw [readString]
  · simp [h]
  all_goals grind

theorem readString_unit {a b c d : Char} {n : ℕ} (rest : List Char) (h : codeUnit a b c d = some n)
    (hhigh : isHigh n = false) (hlow : isLow n = false) :
    readString ('\\' :: 'u' :: a :: b :: c :: d :: rest) = push (Char.ofNat n) (readString rest) := by
  by_cases hpair : ∃ e f g i rest', rest = '\\' :: 'u' :: e :: f :: g :: i :: rest'
  · obtain ⟨e, f, g, i, rest', rfl⟩ := hpair
    rw [readString]
    simp [h, hhigh, hlow]
  · rw [readString]
    · simp [h, hhigh, hlow]
    · intro e f g i rest' he
      exact hpair ⟨e, f, g, i, rest', he⟩

/-- What ends a number. -/
def Ended (rest : List Char) : Prop := ∀ c, rest.head? = some c → numeric c = false

/-- The text is read as the value whatever comes behind it. -/
def Reads (value : Json) (text : List Char) : Prop :=
  ∀ n, text.length < n → ∀ rest, Ended rest → readValue n (text ++ rest) = some (value, rest)

theorem skip_cons {c : Char} (rest : List Char) (h : isSpace c = false) : skip (c :: rest) = c :: rest := by
  simp [skip, h]

theorem reads_string {text value : List Char}
    (h : ∀ rest, readString (text ++ '"' :: rest) = some (value, rest)) :
    Reads (.string value) ('"' :: (text ++ ['"'])) := by
  intro n hn rest _
  cases n with
  | zero => omega
  | succ n => simp [readValue, skip_cons _ (by decide : isSpace '"' = false), h rest]

theorem takeWhile_numeric {text rest : List Char} (htext : ∀ c ∈ text, numeric c = true) (hrest : Ended rest) :
    (text ++ rest).takeWhile numeric = text ∧ (text ++ rest).dropWhile numeric = rest := by
  rw [List.takeWhile_append_of_pos htext, List.dropWhile_append_of_pos htext]
  cases rest with
  | nil => simp
  | cons c rest => simp [hrest c rfl]

theorem isNumber_digits {digits : List Char} (hne : digits ≠ []) (hall : ∀ c ∈ digits, c.isDigit = true)
    (hzero : digits.head? = some '0' → digits.length = 1) : isNumber digits = true := by
  cases digits with
  | nil => exact absurd rfl hne
  | cons c digits =>
    have hc : c ≠ '-' := by
      rintro rfl
      exact absurd (hall '-' (List.mem_cons_self ..)) (by decide)
    have htake : (c :: digits).takeWhile Char.isDigit = c :: digits := List.takeWhile_eq_self_iff.mpr hall
    have hdrop : (c :: digits).dropWhile Char.isDigit = [] := List.dropWhile_eq_nil_iff.mpr hall
    rw [isNumber]
    · rw [isWhole, htake, hdrop]
      by_cases hlead : c = '0'
      · have hlen := hzero (by rw [List.head?_cons, hlead])
        simp [isFraction, hlen]
      · simp [isFraction, hlead]
    · simp [hc]

theorem reads_digits {digits : List Char} (hne : digits ≠ []) (hall : ∀ c ∈ digits, c.isDigit = true)
    (hzero : digits.head? = some '0' → digits.length = 1) : Reads (.number digits) digits := by
  intro n hn rest hrest
  cases n with
  | zero => omega
  | succ n =>
    have hnumeric : ∀ c ∈ digits, numeric c = true := by
      intro c hc
      simp [numeric, hall c hc]
    obtain ⟨htake, hdrop⟩ := takeWhile_numeric hnumeric hrest
    have hread : readNumber (digits ++ rest) = some (.number digits, rest) := by
      simp [readNumber, htake, hdrop, isNumber_digits hne hall hzero]
    cases digits with
    | nil => exact absurd rfl hne
    | cons c digits =>
      have hdigit := hall c (List.mem_cons_self ..)
      have hother : ∀ d : Char, d.isDigit = false → c ≠ d := by
        rintro d hd rfl
        exact absurd hdigit (by simp [hd])
      have hspace : isSpace c = false := by
        simp [isSpace, hother ' ' rfl, hother '\t' rfl, hother '\n' rfl, hother '\r' rfl]
      rw [List.cons_append, readValue, skip_cons _ hspace]
      split
      all_goals simp_all

/-- A member as it is written, without its comma. -/
@[grind =] def member (name text : List Char) : List Char := '"' :: (name ++ '"' :: ':' :: text)

/-- A name that stands for itself between its quotes. -/
def Plain (name : List Char) : Prop := ∀ c ∈ name, ' ' ≤ c ∧ c ≠ '"' ∧ c ≠ '\\'

theorem readString_name {name : List Char} (h : Plain name) (rest : List Char) :
    readString (name ++ '"' :: rest) = some (name, rest) := by
  induction name with
  | nil => rw [List.nil_append, readString]
  | cons c name ih =>
    obtain ⟨hspace, hquote, hback⟩ := h c (List.mem_cons_self ..)
    have hname := ih fun d hd => h d (List.mem_cons_of_mem _ hd)
    rw [List.cons_append, readString_plain _ hspace hquote hback, hname]
    rfl

theorem skip_quote (rest : List Char) : skip ('"' :: rest) = '"' :: rest := skip_cons rest (by decide)

theorem skip_colon (rest : List Char) : skip (':' :: rest) = ':' :: rest := skip_cons rest (by decide)

theorem skip_comma (rest : List Char) : skip (',' :: rest) = ',' :: rest := skip_cons rest (by decide)

theorem skip_close (rest : List Char) : skip ('\x7d' :: rest) = '\x7d' :: rest := skip_cons rest (by decide)

/-- One member with what is behind it. -/
theorem readMembers_member {name text rest : List Char} {value : Json} (hname : Plain name) (hvalue : Reads value text) {n : ℕ}
    (hn : text.length < n) (hrest : Ended rest) : readMembers (n + 1) (member name text ++ rest) =
      match skip rest with
      | ',' :: rest => (readMembers n rest).bind fun (members, rest) => some ((name, value) :: members, rest)
      | '\x7d' :: rest => some ([(name, value)], rest)
      | _ => none := by
  have hread := hvalue n hn rest hrest
  simp only [member, List.cons_append, List.append_assoc, readMembers, skip_quote, readString_name hname, skip_colon,
    Option.bind_eq_bind, Option.bind_some, hread]

theorem readMembers_eq {ms : List (List Char × Json × List Char)} (hne : ms ≠ [])
    (h : ∀ m ∈ ms, Plain m.1 ∧ Reads m.2.1 m.2.2) (n : ℕ) (rest : List Char)
    (hn : ([','].intercalate (ms.map fun m => member m.1 m.2.2)).length < n) :
    readMembers n ([','].intercalate (ms.map fun m => member m.1 m.2.2) ++ '\x7d' :: rest) =
      some (ms.map fun m => (m.1, m.2.1), rest) := by
  induction ms generalizing n with
  | nil => exact absurd rfl hne
  | cons m ms ih =>
    obtain ⟨hname, hvalue⟩ := h m (List.mem_cons_self ..)
    have hms := fun m' hm' => h m' (List.mem_cons_of_mem m hm')
    cases n with
    | zero => omega
    | succ n =>
      cases ms with
      | nil =>
        simp only [List.map_cons, List.map_nil, List.intercalate_singleton] at hn ⊢
        have htext : m.2.2.length < n := by
          simp only [member, List.length_cons, List.length_append] at hn
          omega
        rw [readMembers_member hname hvalue htext (by simp [Ended, numeric]), skip_close]
        rfl
      | cons m' ms =>
        simp only [List.map_cons, List.intercalate_cons_cons, List.append_assoc, List.cons_append, List.nil_append,
          List.length_append, List.length_cons] at hn ih ⊢
        have htext : m.2.2.length < n := by
          simp only [member, List.length_cons, List.length_append] at hn
          omega
        have hrest := ih (by simp) hms n (by simp only [member, List.length_cons, List.length_append] at hn ⊢; omega)
        rw [readMembers_member hname hvalue htext (by simp [Ended, numeric]), skip_comma]
        simp only [hrest, Option.bind_some]

theorem reads_object {ms : List (List Char × Json × List Char)} (hne : ms ≠ [])
    (h : ∀ m ∈ ms, Plain m.1 ∧ Reads m.2.1 m.2.2) :
    Reads (.object (ms.map fun m => (m.1, m.2.1)))
      ('\x7b' :: ([','].intercalate (ms.map fun m => member m.1 m.2.2) ++ ['\x7d'])) := by
  intro n hn rest _
  cases n with
  | zero => omega
  | succ n =>
    have hread := readMembers_eq hne h n rest (by simp only [List.length_cons, List.length_append] at hn; omega)
    have hhead : ∃ body, [','].intercalate (ms.map fun m => member m.1 m.2.2) = '"' :: body := by
      cases ms with
      | nil => exact absurd rfl hne
      | cons m ms =>
        cases ms with
        | nil => exact ⟨_, by rw [List.map_cons, List.map_nil, List.intercalate_singleton, member]⟩
        | cons m' ms => exact ⟨_, by rw [List.map_cons, List.map_cons, List.intercalate_cons_cons, member]; rfl⟩
    obtain ⟨body, hbody⟩ := hhead
    rw [hbody] at hread ⊢
    simp only [List.cons_append, List.append_assoc, List.nil_append] at hread ⊢
    rw [readValue, skip_cons _ (by decide)]
    simp only [skip_quote]
    change ((readMembers n ('"' :: (body ++ '\x7d' :: rest))).map fun (members, rest) => (object members, rest)) = _
    rw [hread]
    rfl

theorem parse_of_reads {value : Json} {text : List Char} (h : Reads value text) : parse text = some value := by
  have hread := h (text.length + 1) (Nat.lt_succ_self _) [] (by simp [Ended])
  rw [List.append_nil] at hread
  rw [parse, hread]
  rfl

end Json
