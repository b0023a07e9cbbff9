import Gatel.Bundle.AccessLog
import Gatel.Lib.Json
import Gatel.Model.NetText
import Gatel.Plan.Texts

namespace Gatel.AccessLog

def Outcome.asStr : Outcome → String
  | .completed => "completed"
  | .failed => "body_error"
  | .cancelled => "cancelled"

/-- Which shape a line takes. -/
inductive Format where
  | text
  | json
  | clf
  deriving DecidableEq

/-- A time as a calendar names it, in UTC. -/
structure Civil where
  year : Int
  month : Nat
  day : Nat
  hour : Nat
  minute : Nat
  second : Nat
  deriving DecidableEq

/-- What is relied on of the calendar: every second has a name of its own. -/
structure Calendar where
  civil : Nat → Civil
  month : ∀ second, 1 ≤ (civil second).month ∧ (civil second).month ≤ 12
  injective : Function.Injective civil

/-- A number in at least so many digits. -/
def pad (width n : Nat) : String := String.ofList (List.leftpad width '0' (Nat.toDigits 10 n))

def padInt (width : Nat) (n : Int) : String := if n < 0 then "-" ++ pad (width - 1) n.natAbs else pad width n.natAbs

def months : List String := ["Jan", "Feb", "Mar", "Apr", "May", "Jun", "Jul", "Aug", "Sep", "Oct", "Nov", "Dec"]

/-- RFC 3339, in UTC. -/
def timestamp (c : Civil) : String :=
  String.join [padInt 4 c.year, "-", pad 2 c.month, "-", pad 2 c.day, "T", pad 2 c.hour, ":", pad 2 c.minute, ":",
    pad 2 c.second, "Z"]

/-- The common log format's timestamp. -/
def clfTime (c : Civil) : String :=
  String.join [pad 2 c.day, "/", months.getD (c.month - 1) "", "/", padInt 4 c.year, ":", pad 2 c.hour, ":", pad 2 c.minute, ":",
    pad 2 c.second, " +0000"]

def hex4 (n : Nat) : String := String.ofList (List.leftpad 4 '0' (Nat.toDigits 16 n))

def escapeChar (character : Char) : String :=
  if character = '"' then "\\\""
  else if character = '\\' then "\\\\"
  else if character = '\n' then "\\n"
  else if character = '\r' then "\\r"
  else if character = '\t' then "\\t"
  else if character < ' ' then "\\u" ++ hex4 character.toNat
  else String.singleton character

/-- A JSON string, escaped by hand. -/
def string (value : String) : String := "\"" ++ String.join (value.toList.map escapeChar) ++ "\""

def field (name value : String) : String := "\"" ++ name ++ "\":" ++ string value

/-- A field whose value stands without quotes. -/
def numberField (name : String) (value : Nat) : String := "\"" ++ name ++ "\":" ++ toString value

namespace Record

/-- The second it arrived in; times are in nanoseconds. -/
def second (r : Record) : Nat := r.at' / 1000000000

def millis (r : Record) : Nat := r.duration / 1000000

def text (r : Record) : String :=
  String.join [r.method, " ", r.path, " ", toString r.status.toNat, " ", toString r.millis, "ms ", toString r.bytes, "B ",
    r.outcome.asStr]

def json (cal : Calendar) (r : Record) : String :=
  String.join (["\x7b", field "time" (timestamp (cal.civil r.second)), ",", field "method" r.method, ",", field "path" r.path,
    ",", numberField "status" r.status.toNat, ",", numberField "duration_ms" r.millis, ",", numberField "bytes" r.bytes, ",",
    field "outcome" r.outcome.asStr, ",", field "site" r.site, ",", field "route" r.route] ++
    (r.client.toList.flatMap fun client => [",", field "client" client.toText]) ++ ["\x7d"])

def clientText (r : Record) : String := (r.client.map IpAddr.toText).getD "-"

/-- The format writes `-` rather than 0 for a response with no body. -/
def size (r : Record) : String := if r.bytes = 0 then "-" else toString r.bytes

def clf (cal : Calendar) (r : Record) : String :=
  String.join [r.clientText, " - - [", clfTime (cal.civil r.second), "] \"", r.method, " ", r.path, " ", r.version, "\" ",
    toString r.status.toNat, " ", r.size]

def render (cal : Calendar) (r : Record) : Format → String
  | .text => r.text
  | .json => r.json cal
  | .clf => r.clf cal

end Record

def OneLine (line : String) : Prop := '\n' ∉ line.toList ∧ '\r' ∉ line.toList

/-- A character of an HTTP token. -/
def tokenChar (c : Char) : Bool := c.isAlphanum || "!#$%&'*+-.^_`|~".toList.contains c

/-- What the access log can be given: a token, a target without blanks or controls and one of the versions. -/
structure Sent (r : Record) : Prop where
  method : ∀ c ∈ r.method.toList, tokenChar c = true
  path : ∀ c ∈ r.path.toList, ' ' < c
  version : ∃ v : Version, r.version = v.text

/-- The members of the object a record stands for. -/
def Record.members (cal : Calendar) (r : Record) : List (List Char × Json) :=
  [("time".toList, .string (timestamp (cal.civil r.second)).toList), ("method".toList, .string r.method.toList),
    ("path".toList, .string r.path.toList), ("status".toList, .number (toString r.status.toNat).toList),
    ("duration_ms".toList, .number (toString r.millis).toList), ("bytes".toList, .number (toString r.bytes).toList),
    ("outcome".toList, .string r.outcome.asStr.toList), ("site".toList, .string r.site.toList),
    ("route".toList, .string r.route.toList)] ++
    r.client.toList.map fun client => ("client".toList, .string client.toText.toList)

/-- The records say the same of everything the common log format shows. -/
def Record.Agrees (r r' : Record) : Prop :=
  r.client = r'.client ∧ r.second = r'.second ∧ r.method = r'.method ∧ r.path = r'.path ∧ r.version = r'.version ∧
    r.status = r'.status ∧ r.bytes = r'.bytes

/-- Between the first two quotes stands the request, and behind them status and size. -/
def Record.Quoted (r : Record) (line : String) : Prop :=
  ∃ before behind, Text.splitOnce '"' line = some (before, behind) ∧
    Text.splitOnce '"' behind =
      some (r.method ++ " " ++ r.path ++ " " ++ r.version, " " ++ toString r.status.toNat ++ " " ++ r.size)

/-! What characters the pieces of a line hold. -/

/-- No control character. -/
@[grind =] def Shown (s : String) : Prop := ∀ c ∈ s.toList, ' ' ≤ c

theorem shown_append {s t : String} : Shown (s ++ t) ↔ Shown s ∧ Shown t := by
  simp [Shown, or_imp, forall_and]

theorem Shown.oneLine {s : String} (h : Shown s) : OneLine s :=
  ⟨fun hc => absurd (h _ hc) (by decide), fun hc => absurd (h _ hc) (by decide)⟩

theorem shown_of_digits {s : String} (h : ∀ c ∈ s.toList, c.isDigit = true) : Shown s := by
  intro c hc
  have hdigit := h c hc
  simp only [Char.isDigit, Bool.and_eq_true, decide_eq_true_eq] at hdigit
  exact le_trans (by decide) hdigit.1

theorem digits_toString (n : Nat) : ∀ c ∈ (toString n).toList, c.isDigit = true := by
  intro c hc
  rw [Nat.toString_eq_repr, Nat.toList_repr] at hc
  exact Nat.isDigit_of_mem_toDigits (by decide) (by decide) hc

theorem digits_pad (width n : Nat) : ∀ c ∈ (pad width n).toList, c.isDigit = true := by
  intro c hc
  rw [pad, String.toList_ofList, List.leftpad, List.mem_append] at hc
  obtain hc | hc := hc
  · rw [List.eq_of_mem_replicate hc]
    rfl
  · exact Nat.isDigit_of_mem_toDigits (by decide) (by decide) hc

theorem mem_padInt {width : Nat} {n : Int} {c : Char} (h : c ∈ (padInt width n).toList) : c = '-' ∨ c.isDigit = true := by
  unfold padInt at h
  split at h
  · rw [String.toList_append, List.mem_append] at h
    exact h.imp (by simp) (digits_pad _ _ c)
  · exact .inr (digits_pad _ _ c h)

theorem not_mem_padInt {width : Nat} {n : Int} {c : Char} (hminus : c ≠ '-') (hdigit : c.isDigit = false) :
    c ∉ (padInt width n).toList := by
  intro h
  obtain he | hd := mem_padInt h
  · exact hminus he
  · simp [hdigit] at hd

theorem not_mem_pad {width n : Nat} {c : Char} (h : c.isDigit = false) : c ∉ (pad width n).toList :=
  fun hc => by simpa [h] using digits_pad width n c hc

theorem shown_padInt (width : Nat) (n : Int) : Shown (padInt width n) := by
  unfold padInt
  split
  · exact shown_append.2 ⟨by simp [Shown], shown_of_digits (digits_pad _ _)⟩
  · exact shown_of_digits (digits_pad _ _)

/-- Padding does not change what the digits say. -/
theorem pad_inj {width m n : Nat} (h : pad width m = pad width n) : m = n := by
  have hvalue : ∀ k, Nat.ofDigitChars 10 (pad width k).toList 0 = k := by
    intro k
    rw [pad, String.toList_ofList, List.leftpad, Nat.ofDigitChars_append, Nat.ofDigitChars_replicate_zero, Nat.mul_zero,
      Nat.ofDigitChars_ten_toDigits]
  rw [← hvalue m, h, hvalue n]

theorem padInt_inj {width : Nat} {m n : Int} (h : padInt width m = padInt width n) : m = n := by
  have hsign : ∀ k j : Nat, "-" ++ pad (width - 1) k ≠ pad width j := by
    intro k j he
    have hminus : '-' ∈ (pad width j).toList := by
      rw [← he]
      simp
    exact not_mem_pad (by decide) hminus
  unfold padInt at h
  split at h <;> split at h
  · have hl := congrArg String.toList h
    rw [String.toList_append, String.toList_append] at hl
    have habs := pad_inj (toList_inj (List.append_cancel_left hl))
    omega
  · exact absurd h (hsign _ _)
  · exact absurd h.symm (hsign _ _)
  · have habs := pad_inj h
    omega

theorem months_mem (i : Nat) : months.getD i "" ∈ "" :: months := by
  rw [List.getD_eq_getElem?_getD]
  cases hi : months[i]? with
  | none => exact List.mem_cons_self ..
  | some m => exact List.mem_cons_of_mem _ (List.mem_of_getElem? hi)

theorem shown_month (i : Nat) : Shown (months.getD i "") := by
  have hall : ∀ m ∈ "" :: months, Shown m := by simp [months, Shown]
  exact hall _ (months_mem i)

theorem not_mem_month {c : Char} (h : c.isAlpha = false) (i : Nat) : c ∉ (months.getD i "").toList := by
  have hall : ∀ m ∈ "" :: months, ∀ d ∈ m.toList, d.isAlpha = true := by simp [months]
  intro hc
  simpa [h] using hall _ (months_mem i) c hc

theorem shown_timestamp (c : Civil) : Shown (timestamp c) := by
  have hpad : ∀ width n, Shown (pad width n) := fun width n => shown_of_digits (digits_pad _ _)
  have hmark : Shown "-" ∧ Shown "T" ∧ Shown ":" ∧ Shown "Z" := by simp [Shown]
  simp [timestamp, shown_append, hpad, shown_padInt, hmark]

theorem shown_clfTime (c : Civil) : Shown (clfTime c) := by
  have hpad : ∀ width n, Shown (pad width n) := fun width n => shown_of_digits (digits_pad _ _)
  have hmark : Shown "/" ∧ Shown ":" ∧ Shown " +0000" := by simp [Shown]
  have hnone : Shown "" := by simp [Shown]
  simp only [clfTime, String.join_cons, String.join_nil, shown_append, hpad, shown_padInt, hmark, shown_month, hnone, and_self]

theorem month_inj {i j : Nat} (hi : i < 12) (hj : j < 12) (h : months.getD i "" = months.getD j "") : i = j := by
  have hnodup : months.Nodup := by simp [months]
  have hlen : months.length = 12 := rfl
  rw [List.getD_eq_getElem months "" (hlen ▸ hi), List.getD_eq_getElem months "" (hlen ▸ hj)] at h
  exact hnodup.getElem_inj_iff.mp h

theorem clfTime_toList (c : Civil) : (clfTime c).toList =
    (pad 2 c.day).toList ++ '/' :: ((months.getD (c.month - 1) "").toList ++ '/' :: ((padInt 4 c.year).toList ++
      ':' :: ((pad 2 c.hour).toList ++ ':' :: ((pad 2 c.minute).toList ++ ':' :: ((pad 2 c.second).toList ++ " +0000".toList))))) := by
  simp [clfTime]

theorem quote_not_mem_clfTime (c : Civil) : '"' ∉ (clfTime c).toList := by
  have hpad : ∀ width n, '"' ∉ (pad width n).toList := fun _ _ => not_mem_pad (by decide)
  have hyear : '"' ∉ (padInt 4 c.year).toList := not_mem_padInt (by decide) (by decide)
  have hmonth := not_mem_month (c := '"') (by decide) (c.month - 1)
  simp [clfTime_toList, hpad, hyear, hmonth, -List.getD_eq_getElem?_getD]

theorem clfTime_inj {c d : Civil} (hc : 1 ≤ c.month ∧ c.month ≤ 12) (hd : 1 ≤ d.month ∧ d.month ≤ 12)
    (h : clfTime c = clfTime d) : c = d := by
  have hslash : ∀ n, '/' ∉ (pad 2 n).toList := fun _ => not_mem_pad (by decide)
  have hcolon : ∀ n, ':' ∉ (pad 2 n).toList := fun _ => not_mem_pad (by decide)
  have hmonth : ∀ i, '/' ∉ (months.getD i "").toList := not_mem_month (by decide)
  have hyear : ∀ n, ':' ∉ (padInt 4 n).toList := fun _ => not_mem_padInt (by decide) (by decide)
  have hl := congrArg String.toList h
  rw [clfTime_toList, clfTime_toList] at hl
  obtain ⟨hday, hl⟩ := Separated.split_inj (hslash _) (hslash _) hl
  obtain ⟨hm, hl⟩ := Separated.split_inj (hmonth _) (hmonth _) hl
  obtain ⟨hy, hl⟩ := Separated.split_inj (hyear _) (hyear _) hl
  obtain ⟨hhour, hl⟩ := Separated.split_inj (hcolon _) (hcolon _) hl
  obtain ⟨hminute, hl⟩ := Separated.split_inj (hcolon _) (hcolon _) hl
  have hsecond := pad_inj (toList_inj (List.append_cancel_right hl))
  have hindex := month_inj (by omega) (by omega) (toList_inj hm)
  have hmonths : c.month = d.month := by omega
  cases c
  cases d
  simp only [Civil.mk.injEq]
  exact ⟨padInt_inj (toList_inj hy), hmonths, pad_inj (toList_inj hday), pad_inj (toList_inj hhour),
    pad_inj (toList_inj hminute), hsecond⟩

/-! Each renderer. -/

theorem hex4_control : ∀ n < 32, (hex4 n).toList = ['0', '0', (n / 16).digitChar, (n % 16).digitChar] ∧
    Json.codeUnit '0' '0' (n / 16).digitChar (n % 16).digitChar = some n ∧ ' ' ≤ (n / 16).digitChar ∧ ' ' ≤ (n % 16).digitChar := by
  decide +kernel

theorem shown_escapeChar (c : Char) : Shown (escapeChar c) := by
  unfold escapeChar
  split
  · simp [Shown]
  split
  · simp [Shown]
  split
  · simp [Shown]
  split
  · simp [Shown]
  split
  · simp [Shown]
  split
  · rename_i hcontrol
    obtain ⟨hhex, _, hhigh, hlow⟩ := hex4_control c.toNat hcontrol
    refine shown_append.2 ⟨by simp [Shown], ?_⟩
    simp [Shown, hhex, hhigh, hlow]
  · rename_i hcontrol
    simpa [Shown] using hcontrol

theorem shown_string (value : String) : Shown (string value) := by
  have hbody : Shown (String.join (value.toList.map escapeChar)) := by
    intro c hc
    rw [String.toList_join, List.mem_flatMap] at hc
    obtain ⟨piece, hpiece, hc⟩ := hc
    obtain ⟨d, _, rfl⟩ := List.mem_map.mp hpiece
    exact shown_escapeChar d c hc
  exact shown_append.2 ⟨shown_append.2 ⟨by simp [Shown], hbody⟩, by simp [Shown]⟩

theorem readString_escapeChar (c : Char) (rest : List Char) :
    Json.readString ((escapeChar c).toList ++ rest) = Json.push c (Json.readString rest) := by
  have hescape : ∀ d e : Char, d ≠ 'u' → Json.escape d = some e →
      Json.readString (['\\', d] ++ rest) = Json.push e (Json.readString rest) := fun d e => Json.readString_escape rest
  unfold escapeChar
  split
  · rename_i h
    simpa [h] using hescape '"' '"' (by decide) rfl
  split
  · rename_i h
    simpa [h] using hescape '\\' '\\' (by decide) rfl
  split
  · rename_i h
    simpa [h] using hescape 'n' '\n' (by decide) rfl
  split
  · rename_i h
    simpa [h] using hescape 'r' '\r' (by decide) rfl
  split
  · rename_i h
    simpa [h] using hescape 't' '\t' (by decide) rfl
  rename_i hquote hback _ _ _
  split
  · rename_i hcontrol
    have hlt : c.toNat < 32 := hcontrol
    obtain ⟨hhex, hunit, _⟩ := hex4_control c.toNat hlt
    have hhigh : Json.isHigh c.toNat = false := by
      simp only [Json.isHigh, Bool.and_eq_false_iff, decide_eq_false_iff_not]
      omega
    have hlow : Json.isLow c.toNat = false := by
      simp only [Json.isLow, Bool.and_eq_false_iff, decide_eq_false_iff_not]
      omega
    have hread := Json.readString_unit rest hunit hhigh hlow
    rw [Char.ofNat_toNat] at hread
    simpa [hhex] using hread
  · rename_i hcontrol
    simpa using Json.readString_plain rest (not_lt.mp hcontrol) hquote hback

theorem reads_string (value : String) : Json.Reads (.string value.toList) (string value).toList := by
  have hread : ∀ l rest : List Char, Json.readString ((l.map escapeChar).flatMap String.toList ++ '"' :: rest) = some (l, rest) := by
    intro l rest
    induction l with
    | nil => rw [List.map_nil, List.flatMap_nil, List.nil_append, Json.readString]
    | cons c l ih =>
      rw [List.map_cons, List.flatMap_cons, List.append_assoc, readString_escapeChar, ih]
      rfl
  have hstring : (string value).toList = '"' :: ((value.toList.map escapeChar).flatMap String.toList ++ ['"']) := by
    simp [string]
  rw [hstring]
  exact Json.reads_string (hread value.toList)

theorem shown_toString (n : Nat) : Shown (toString n) := shown_of_digits (digits_toString n)

/-- Only zero starts with a zero. -/
theorem toDigits_lead (n : Nat) (h : (Nat.toDigits 10 n).head? = some '0') : (Nat.toDigits 10 n).length = 1 := by
  induction n using Nat.strong_induction_on with
  | _ n ih =>
    by_cases hlt : n < 10
    · simp [Nat.toDigits_of_lt_base hlt]
    · have hdigits := Nat.toDigits_of_base_le (b := 10) (by decide) (not_lt.mp hlt)
      have hne : Nat.toDigits 10 (n / 10) ≠ [] := Nat.toDigits_ne_nil
      rw [hdigits, List.head?_append_of_ne_nil _ hne] at h
      have hone := ih (n / 10) (by omega) h
      have hsmall : n / 10 < 10 := by
        have hle := (Nat.length_toDigits_le_iff (b := 10) (n := n / 10) (k := 1) (by decide) (by decide)).mp (by omega)
        simpa using hle
      rw [Nat.toDigits_of_lt_base hsmall] at h
      have hpos : 1 ≤ n / 10 := by omega
      interval_cases hd : n / 10 <;> simp at h

theorem reads_toString (n : Nat) : Json.Reads (.number (toString n).toList) (toString n).toList := by
  have hrepr : (toString n).toList = Nat.toDigits 10 n := by rw [Nat.toString_eq_repr, Nat.toList_repr]
  refine Json.reads_digits ?_ (digits_toString n) ?_
  · rw [hrepr]
    exact Nat.toDigits_ne_nil
  · rw [hrepr]
    exact toDigits_lead n

namespace Record
variable (cal : Calendar)

/-- Each member's text beside what it is read as. -/
def written (r : Record) : List (String × Json × String) :=
  [("time", .string (timestamp (cal.civil r.second)).toList, string (timestamp (cal.civil r.second))),
    ("method", .string r.method.toList, string r.method), ("path", .string r.path.toList, string r.path),
    ("status", .number (toString r.status.toNat).toList, toString r.status.toNat),
    ("duration_ms", .number (toString r.millis).toList, toString r.millis),
    ("bytes", .number (toString r.bytes).toList, toString r.bytes),
    ("outcome", .string r.outcome.asStr.toList, string r.outcome.asStr), ("site", .string r.site.toList, string r.site),
    ("route", .string r.route.toList, string r.route)] ++
    r.client.toList.map fun client => ("client", .string client.toText.toList, string client.toText)

/-- A member as it is written, without its comma. -/
def member (m : String × Json × String) : String := "\"" ++ m.1 ++ "\":" ++ m.2.2

theorem json_eq (r : Record) : r.json cal = "\x7b" ++ ",".intercalate ((r.written cal).map member) ++ "\x7d" := by
  rcases hc : r.client with _ | client
  · simp only [json, hc, written, member, field, numberField, Option.toList_none, List.map_nil, List.flatMap_nil, List.append_nil,
      List.cons_append, List.nil_append, List.map_cons, String.join_cons, String.join_nil, String.intercalate_cons_cons,
      String.intercalate_singleton, String.append_assoc, String.append_empty]
  · simp only [json, hc, written, member, field, numberField, Option.toList_some, List.map_nil, List.map_cons, List.flatMap_cons,
      List.flatMap_nil, List.cons_append, List.nil_append, String.join_cons, String.join_nil, String.intercalate_cons_cons,
      String.intercalate_singleton, String.append_assoc, String.append_empty]

theorem json_toList (r : Record) : (r.json cal).toList =
    '\x7b' :: ([','].intercalate ((r.written cal).map fun m => Json.member m.1.toList m.2.2.toList) ++ ['\x7d']) := by
  have hmember : ∀ m, (member m).toList = Json.member m.1.toList m.2.2.toList := by
    intro m
    simp [member, Json.member]
  simp [json_eq, String.toList_intercalate, Function.comp_def, hmember]

theorem written_reads (r : Record) (w : String × Json × String) (hw : w ∈ r.written cal) :
    Json.Plain w.1.toList ∧ Json.Reads w.2.1 w.2.2.toList ∧ Shown w.2.2 := by
  simp only [written, List.cons_append, List.nil_append, List.mem_cons, List.mem_map, Option.mem_toList] at hw
  obtain rfl | rfl | rfl | rfl | rfl | rfl | rfl | rfl | rfl | ⟨client, _, rfl⟩ := hw
  · exact ⟨by simp [Json.Plain], reads_string _, shown_string _⟩
  · exact ⟨by simp [Json.Plain], reads_string _, shown_string _⟩
  · exact ⟨by simp [Json.Plain], reads_string _, shown_string _⟩
  · exact ⟨by simp [Json.Plain], reads_toString _, shown_toString _⟩
  · exact ⟨by simp [Json.Plain], reads_toString _, shown_toString _⟩
  · exact ⟨by simp [Json.Plain], reads_toString _, shown_toString _⟩
  · exact ⟨by simp [Json.Plain], reads_string _, shown_string _⟩
  · exact ⟨by simp [Json.Plain], reads_string _, shown_string _⟩
  · exact ⟨by simp [Json.Plain], reads_string _, shown_string _⟩
  · exact ⟨by simp [Json.Plain], reads_string _, shown_string _⟩

theorem parse_json (r : Record) : Json.parse (r.json cal).toList = some (.object (r.members cal)) := by
  have hmembers : r.members cal = ((r.written cal).map fun m => (m.1.toList, m.2.1, m.2.2.toList)).map fun m => (m.1, m.2.1) := by
    simp only [members, written, List.map_append, List.map_cons, List.map_nil, List.map_map, Function.comp_def]
  have htext : (r.json cal).toList = '\x7b' ::
      ([','].intercalate (((r.written cal).map fun m => (m.1.toList, m.2.1, m.2.2.toList)).map fun m => Json.member m.1 m.2.2) ++
        ['\x7d']) := by
    rw [json_toList, List.map_map]
    rfl
  rw [hmembers, htext]
  refine Json.parse_of_reads (Json.reads_object (by simp [written]) ?_)
  intro m hm
  obtain ⟨w, hw, rfl⟩ := List.mem_map.mp hm
  obtain ⟨hplain, hreads, _⟩ := written_reads cal r w hw
  exact ⟨hplain, hreads⟩

/-- What stands before the first quote the renderer writes. -/
def opening (r : Record) : String := String.join [r.clientText, " - - [", clfTime (cal.civil r.second), "] "]

theorem clf_toList (r : Record) : (r.clf cal).toList = (r.opening cal).toList ++
    '"' :: ((r.method ++ " " ++ r.path ++ " " ++ r.version).toList ++
      '"' :: (" " ++ toString r.status.toNat ++ " " ++ r.size).toList) := by
  simp [clf, opening]

theorem not_mem_clientText (r : Record) {c : Char} (hmarks : c ≠ '.' ∧ c ≠ ':' ∧ c ≠ '-')
    (hc : ∀ d : Fin 16, c ≠ d.val.digitChar) : c ∉ r.clientText.toList := by
  obtain ⟨hdot, hcolon, hdash⟩ := hmarks
  rw [clientText]
  cases r.client with
  | none => simpa using hdash
  | some client => simpa using IpAddr.not_mem_toText hdot hcolon hc

theorem quote_not_mem_opening (r : Record) : '"' ∉ (r.opening cal).toList := by
  have hclient : '"' ∉ r.clientText.toList := r.not_mem_clientText (by decide) (by decide)
  have htime := quote_not_mem_clfTime (cal.civil r.second)
  simp [opening, hclient, htime]

end Record

theorem tokenChar_spec {c : Char} (h : tokenChar c = true) : ' ' < c ∧ c ≠ '"' := by
  rw [tokenChar, Bool.or_eq_true] at h
  obtain h | h := h
  · have hlow : ∀ d : Char, d.isAlphanum = true → ' ' < d := by
      intro d hd
      simp only [Char.isAlphanum, Char.isAlpha, Char.isUpper, Char.isLower, Char.isDigit, Bool.or_eq_true, Bool.and_eq_true,
        decide_eq_true_eq] at hd
      obtain (⟨hd, _⟩ | ⟨hd, _⟩) | ⟨hd, _⟩ := hd
      · exact lt_of_lt_of_le (by decide : ' ' < 'A') hd
      · exact lt_of_lt_of_le (by decide : ' ' < 'a') hd
      · exact lt_of_lt_of_le (by decide : ' ' < '0') hd
    refine ⟨hlow c h, ?_⟩
    rintro rfl
    exact absurd h (by decide)
  · have hmarks : ∀ d ∈ "!#$%&'*+-.^_`|~".toList, ' ' < d ∧ d ≠ '"' := by simp
    exact hmarks c (List.contains_iff_mem.mp h)

theorem version_chars (v : Version) : ∀ c ∈ v.text.toList, ' ' < c ∧ c ≠ '"' := by
  cases v <;> simp [Version.text]

namespace Record
variable (cal : Calendar) {r r' : Record}

theorem request_quote (h : Sent r) : '"' ∈ (r.method ++ " " ++ r.path ++ " " ++ r.version).toList ↔ '"' ∈ r.path.toList := by
  obtain ⟨v, hv⟩ := h.version
  have hversion : '"' ∉ r.version.toList := fun hc => (version_chars v _ (hv ▸ hc)).2 rfl
  have hmethod : '"' ∉ r.method.toList := fun hc => (tokenChar_spec (h.method _ hc)).2 rfl
  simp [hversion, hmethod]

/-- The request stands whole between the first two quotes exactly when its path has none. -/
theorem quoted_iff (h : Sent r) : r.Quoted (r.clf cal) ↔ '"' ∉ r.path.toList := by
  rw [← request_quote h]
  constructor
  · rintro ⟨before, behind, _, hbehind⟩
    exact (Text.splitOnce_iff.mp hbehind).1
  · intro hrequest
    refine ⟨r.opening cal, String.ofList ((r.method ++ " " ++ r.path ++ " " ++ r.version).toList ++
      '"' :: (" " ++ toString r.status.toNat ++ " " ++ r.size).toList), ?_, ?_⟩
    · exact Text.splitOnce_iff.mpr ⟨r.quote_not_mem_opening cal, by rw [clf_toList, String.toList_ofList]⟩
    · exact Text.splitOnce_iff.mpr ⟨hrequest, String.toList_ofList⟩

theorem size_inj (h : r.size = r'.size) : r.bytes = r'.bytes := by
  have hdash : ∀ n : Nat, toString n ≠ "-" := by
    intro n he
    have hdigit := digits_toString n '-' (by simp [he])
    simp at hdigit
  unfold size at h
  split at h <;> split at h
  · omega
  · exact absurd h.symm (hdash _)
  · exact absurd h (hdash _)
  · exact toString_inj h

theorem clientText_inj (h : r.clientText = r'.clientText) : r.client = r'.client := by
  have hdash : ∀ client : IpAddr, client.toText ≠ "-" := by
    intro client he
    have hmem : '-' ∉ client.toText.toList := IpAddr.not_mem_toText (by decide) (by decide) (by decide)
    exact hmem (by simp [he])
  unfold clientText at h
  cases hr : r.client with
  | none =>
    cases hr' : r'.client with
    | none => rfl
    | some client => exact absurd (by simpa [hr, hr'] using h.symm) (hdash client)
  | some client =>
    cases hr' : r'.client with
    | none => exact absurd (by simpa [hr, hr'] using h) (hdash client)
    | some client' => exact congrArg some (IpAddr.toText_inj (by simpa [hr, hr'] using h))

theorem space_not_mem (h : Sent r) : ' ' ∉ r.method.toList ∧ ' ' ∉ r.path.toList ∧ ' ' ∉ r.version.toList := by
  obtain ⟨v, hv⟩ := h.version
  exact ⟨fun hc => absurd (tokenChar_spec (h.method _ hc)).1 (lt_irrefl _), fun hc => absurd (h.path _ hc) (lt_irrefl _),
    fun hc => absurd (version_chars v _ (hv ▸ hc)).1 (lt_irrefl _)⟩

theorem opening_toList (r : Record) : (r.opening cal).toList = r.clientText.toList ++
    ' ' :: ("- - [".toList ++ ((clfTime (cal.civil r.second)).toList ++ "] ".toList)) := by
  simp [opening]

theorem line_toList (r : Record) : (r.method ++ " " ++ r.path ++ " " ++ r.version).toList ++
    '"' :: (" " ++ toString r.status.toNat ++ " " ++ r.size).toList = r.method.toList ++ ' ' :: (r.path.toList ++
      ' ' :: ((r.version.toList ++ ['"']) ++ ' ' :: ((toString r.status.toNat).toList ++ ' ' :: r.size.toList))) := by
  simp

/-- A line tells its record even when the path has quotes: none of the pieces holds a blank. -/
theorem clf_inj (h : Sent r) (h' : Sent r') (he : r.clf cal = r'.clf cal) : r.Agrees r' := by
  have hl := congrArg String.toList he
  rw [clf_toList, clf_toList] at hl
  obtain ⟨hopening, hl⟩ := Separated.split_inj (r.quote_not_mem_opening cal) (r'.quote_not_mem_opening cal) hl
  rw [opening_toList, opening_toList] at hopening
  obtain ⟨hclient, htime⟩ := Separated.split_inj (r.not_mem_clientText (by decide) (by decide))
    (r'.not_mem_clientText (by decide) (by decide)) hopening
  have hcivil := clfTime_inj (cal.month _) (cal.month _)
    (toList_inj (List.append_cancel_right (List.append_cancel_left htime)))
  obtain ⟨hmethod, hpath, hversion⟩ := space_not_mem h
  obtain ⟨hmethod', hpath', hversion'⟩ := space_not_mem h'
  have hspace : ∀ n : Nat, ' ' ∉ (toString n).toList := fun n => not_mem_toString (by decide)
  rw [line_toList, line_toList] at hl
  obtain ⟨hm, hl⟩ := Separated.split_inj hmethod hmethod' hl
  obtain ⟨hp, hl⟩ := Separated.split_inj hpath hpath' hl
  obtain ⟨hv, hl⟩ := Separated.split_inj (by simp [hversion]) (by simp [hversion']) hl
  obtain ⟨hs, hl⟩ := Separated.split_inj (hspace _) (hspace _) hl
  exact ⟨clientText_inj (toList_inj hclient), cal.injective hcivil, toList_inj hm, toList_inj hp,
    toList_inj (List.append_cancel_right hv), UInt16.toNat_inj.mp (toString_inj (toList_inj hs)), size_inj (toList_inj hl)⟩

theorem shown_method (h : Sent r) : Shown r.method := fun c hc => le_of_lt (tokenChar_spec (h.method c hc)).1

theorem shown_path (h : Sent r) : Shown r.path := fun c hc => le_of_lt (h.path c hc)

theorem shown_text (h : Sent r) : Shown r.text := by
  have hmark : Shown " " ∧ Shown "ms " ∧ Shown "B " ∧ Shown "" := by simp [Shown]
  have houtcome : Shown r.outcome.asStr := by cases r.outcome <;> simp [Outcome.asStr, Shown]
  simp only [text, String.join_cons, String.join_nil, shown_append, shown_method h, shown_path h, shown_toString, hmark, houtcome,
    and_self]

theorem shown_clf (h : Sent r) : Shown (r.clf cal) := by
  have hmark : Shown " " ∧ Shown " - - [" ∧ Shown "] \"" ∧ Shown "\" " ∧ Shown "-" ∧ Shown "" := by simp [Shown]
  have hversion : Shown r.version := by
    obtain ⟨v, hv⟩ := h.version
    exact fun c hc => le_of_lt (version_chars v c (hv ▸ hc)).1
  have hclient : Shown r.clientText := by
    intro c hc
    by_contra hlow
    refine r.not_mem_clientText ⟨?_, ?_, ?_⟩ ?_ hc
    · exact fun he => hlow (by rw [he]; decide)
    · exact fun he => hlow (by rw [he]; decide)
    · exact fun he => hlow (by rw [he]; decide)
    · intro d he
      have hdigit : ∀ d : Fin 16, ' ' ≤ d.val.digitChar := by decide
      exact hlow (he ▸ hdigit d)
  have hsize : Shown r.size := by
    unfold size
    split
    · exact hmark.2.2.2.2.1
    · exact shown_toString _
  simp only [clf, String.join_cons, String.join_nil, shown_append, shown_method h, shown_path h, shown_toString, shown_clfTime,
    hversion, hclient, hsize, hmark, and_self]

theorem shown_json (r : Record) : Shown (r.json cal) := by
  have hmark : Shown "\x7b" ∧ Shown "\x7d" ∧ Shown "," ∧ Shown "\"" ∧ Shown "\":" := by simp [Shown]
  rw [json_eq, shown_append, shown_append]
  refine ⟨⟨hmark.1, ?_⟩, hmark.2.1⟩
  intro c hc
  rw [String.toList_intercalate] at hc
  change c ∈ [','].intercalate _ at hc
  obtain rfl | ⟨x, hx, hc⟩ := Separated.mem_intercalate hc
  · decide
  · obtain ⟨m, hm, rfl⟩ := List.mem_map.mp hx
    obtain ⟨w, hw, rfl⟩ := List.mem_map.mp hm
    obtain ⟨hplain, _, hshown⟩ := written_reads cal r w hw
    have hname : Shown w.1 := fun d hd => (hplain d hd).1
    have hmember : Shown (member w) := by
      simp only [member, shown_append, hname, hshown, hmark, and_self]
    exact hmember c hc

theorem oneLine (h : Sent r) (f : Format) : OneLine (r.render cal f) := by
  cases f with
  | text => exact (shown_text h).oneLine
  | json => exact (shown_json cal r).oneLine
  | clf => exact (shown_clf cal h).oneLine

/-- What a reader of the log relies on of one record's lines. -/
structure Faithful (r : Record) : Prop where
  oneLine : ∀ f, OneLine (r.render cal f)
  json : Json.parse (r.render cal .json).toList = some (.object (r.members cal))
  quoted : r.Quoted (r.render cal .clf)
  told : ∀ r', Sent r' → r.render cal .clf = r'.render cal .clf → r.Agrees r'

end Record

/-! The calendar itself: eras of 146097 days, in years that start with March. -/

/-- A day as era, century, group of four years, year and day of the year. -/
def yearOf (day : Nat) : Nat × Nat :=
  let century := min (day % 146097 / 36524) 3
  let inCentury := day % 146097 - 36524 * century
  let year := min (inCentury % 1461 / 365) 3
  (400 * (day / 146097) + 100 * century + 4 * (inCentury / 1461) + year, inCentury % 1461 - 365 * year)

theorem yearOf_spec (day : Nat) : ∃ era century group year inYear, century ≤ 3 ∧ group ≤ 24 ∧ year ≤ 3 ∧ inYear < 366 ∧
    day = 146097 * era + 36524 * century + 1461 * group + 365 * year + inYear ∧
    yearOf day = (400 * era + 100 * century + 4 * group + year, inYear) := by
  have hera := Nat.div_add_mod day 146097
  have hday := Nat.mod_lt day (by decide : 146097 > 0)
  refine ⟨day / 146097, min (day % 146097 / 36524) 3, (day % 146097 - 36524 * min (day % 146097 / 36524) 3) / 1461,
    min ((day % 146097 - 36524 * min (day % 146097 / 36524) 3) % 1461 / 365) 3,
    (day % 146097 - 36524 * min (day % 146097 / 36524) 3) % 1461 -
      365 * min ((day % 146097 - 36524 * min (day % 146097 / 36524) 3) % 1461 / 365) 3, ?_, ?_, ?_, ?_, ?_, rfl⟩
  all_goals
    generalize day % 146097 = inEra at *
    omega

theorem yearOf_inj {a b : Nat} (h : yearOf a = yearOf b) : a = b := by
  obtain ⟨era, century, group, year, inYear, _, _, _, _, hday, hyear⟩ := yearOf_spec a
  obtain ⟨era', century', group', year', inYear', _, _, _, _, hday', hyear'⟩ := yearOf_spec b
  rw [hyear, hyear', Prod.mk.injEq] at h
  obtain ⟨hsame, rfl⟩ := h
  have hera : era = era' := by omega
  have hcentury : century = century' := by omega
  have hgroup : group = group' := by omega
  omega

theorem yearOf_lt (day : Nat) : (yearOf day).2 < 366 := by
  obtain ⟨_, _, _, _, inYear, _, _, _, hlt, _, hyear⟩ := yearOf_spec day
  rw [hyear]
  exact hlt

/-- The name of a second since the start of 1970. -/
def gregorian (second : Nat) : Civil :=
  let (year, day) := yearOf (second / 86400 + 719468)
  let month := (5 * day + 2) / 153
  { year := if month < 10 then year else year + 1
    month := if month < 10 then month + 3 else month - 9
    day := day - (153 * month + 2) / 5 + 1
    hour := second % 86400 / 3600
    minute := second % 3600 / 60
    second := second % 60 }

def gregorianCalendar : Calendar where
  civil := gregorian
  month := by
    intro second
    have hday := yearOf_lt (second / 86400 + 719468)
    simp only [gregorian]
    split <;> omega
  injective := by
    intro s t h
    have hs := yearOf_lt (s / 86400 + 719468)
    have ht := yearOf_lt (t / 86400 + 719468)
    simp only [gregorian, Civil.mk.injEq] at h
    obtain ⟨hyear, hmonth, hday, hhour, hminute, hsecond⟩ := h
    have hdays : s / 86400 + 719468 = t / 86400 + 719468 := by
      apply yearOf_inj
      generalize yearOf (s / 86400 + 719468) = x at *
      generalize yearOf (t / 86400 + 719468) = y at *
      have hindex : (5 * x.2 + 2) / 153 = (5 * y.2 + 2) / 153 := by
        split at hmonth <;> split at hmonth <;> omega
      rw [hindex] at hyear hday
      have hfirst := Nat.div_mul_le_self (5 * x.2 + 2) 153
      apply Prod.ext
      · split at hyear <;> omega
      · omega
    omega

/-- A client cannot forge a line exactly when its path has no quote. -/
theorem record_faithful_iff (cal : Calendar) (r : Record) (h : Sent r) : r.Faithful cal ↔ '"' ∉ r.path.toList := by
  constructor
  · intro hf
    exact (Record.quoted_iff cal h).mp hf.quoted
  · intro hpath
    exact ⟨Record.oneLine cal h, Record.parse_json cal r, (Record.quoted_iff cal h).mpr hpath,
      fun r' h' he => Record.clf_inj cal h h' he⟩

def requested (path : String) : Record where
  client := some (.v4 #v[203, 0, 113, 9])
  method := "GET"
  path := path
  version := "HTTP/1.1"
  status := 200
  bytes := 1234
  duration := 7000000
  outcome := .completed
  site := "example.com"
  route := "static"
  at' := 1000000000000000000

theorem requested_sent {path : String} (h : ∀ c ∈ path.toList, ' ' < c) : Sent (requested path) :=
  ⟨by simp [requested, tokenChar], h, .http11, rfl⟩

theorem faithful_index : (requested "/index.html").Faithful gregorianCalendar :=
  (record_faithful_iff gregorianCalendar _ (requested_sent (by simp))).mpr (by simp [requested])

/-- A quote in the path ends the request early for whoever reads the line. -/
theorem quote_breaks_out : ¬ ∀ (cal : Calendar) (r : Record), Sent r → r.Faithful cal := by
  intro h
  have hsent : Sent (requested "/a\"b") := requested_sent (by simp)
  have hquoted := (h gregorianCalendar _ hsent).quoted
  exact (Record.quoted_iff gregorianCalendar hsent).mp hquoted (by simp [requested])

example : (requested "/index.html").clf gregorianCalendar =
    "203.0.113.9 - - [09/Sep/2001:01:46:40 +0000] \"GET /index.html HTTP/1.1\" 200 1234" := by decide +kernel

end Gatel.AccessLog
