import Gatel.Plan.Compile
import Gatel.Plan.Texts
import Gatel.Proxy.Attempts

namespace Gatel

/-! The dispatcher's view of a request's fields. -/

namespace SalvoHeaders

def get (headers : HeaderMap) (name : String) : Option String := (headers.get (Text.lower name)).bind HeaderValue.toStr

def cookie (headers : HeaderMap) (name : String) : Option String := do
  let header ← get headers "cookie"
  (Text.splitAll ';' header).findSome? fun pair =>
    (Text.splitOnce '=' pair).bind fun (key, value) => if Text.trim key = name then some (Text.trim value) else none

end SalvoHeaders

namespace Proxy
open State (Candidate Counters Selector.select)

/-- No blank at either end. -/
def Trimmed (l : List Char) : Prop :=
  (∀ c ∈ l.head?, Text.isWhitespace c = false) ∧ ∀ c ∈ l.getLast?, Text.isWhitespace c = false

def Blanks (l : List Char) : Prop := ∀ c ∈ l, Text.isWhitespace c = true

/-- A cookie as it is meant, without blanks around its parts. -/
structure CookiePair where
  name : List Char
  value : List Char
  name_plain : '=' ∉ name ∧ ';' ∉ name ∧ Trimmed name
  value_plain : ';' ∉ value ∧ Trimmed value

/-- A cookie as it is written, with blanks wherever they do not count. -/
def CookiePair.Spelled (p : CookiePair) (piece : List Char) : Prop :=
  ∃ a b c d : List Char, Blanks a ∧ Blanks b ∧ Blanks c ∧ Blanks d ∧
    piece = (a ++ p.name ++ b) ++ '=' :: (c ++ p.value ++ d)

/-- A field line with these cookies, in this order. -/
def CookieLine (line : List UInt8) (pairs : List CookiePair) : Prop :=
  ∃ text pieces, HeaderValue.toStr line = some text ∧ text.toList = [';'].intercalate pieces ∧
    List.Forall₂ CookiePair.Spelled pairs pieces

/-- The cookies of a request, line by line. -/
def Cookies (headers : HeaderMap) (groups : List (List CookiePair)) : Prop :=
  List.Forall₂ CookieLine (headers.getAll "cookie") groups

/-- The first cookie of a name. -/
def valueOf (pairs : List CookiePair) (name : String) : Option String :=
  (pairs.find? fun p => String.ofList p.name = name).map fun p => String.ofList p.value

theorem trim_trimmed {lead core trail : List Char} (hl : Blanks lead) (ht : Blanks trail) (hc : Trimmed core) :
    Text.trim (String.ofList (lead ++ core ++ trail)) = String.ofList core := by
  have hback : ∀ l : List Char, (∀ c ∈ l.head?, Text.isWhitespace c = false) → l.dropWhile Text.isWhitespace = l := by
    intro l hl
    cases l with
    | nil => rfl
    | cons c l => simp [hl c rfl]
  rw [Text.trim, String.toList_ofList, List.append_assoc, List.dropWhile_append_of_pos hl]
  by_cases hnil : core = []
  · have hall : trail.dropWhile Text.isWhitespace = [] := List.dropWhile_eq_nil_iff.mpr ht
    simp [hnil, hall]
  · have hfront : (core ++ trail).dropWhile Text.isWhitespace = core ++ trail := by
      apply hback
      intro c hm
      rw [List.head?_append_of_ne_nil core hnil] at hm
      exact hc.1 c hm
    have hrest : (core ++ trail).reverse.dropWhile Text.isWhitespace = core.reverse := by
      rw [List.reverse_append, List.dropWhile_append_of_pos fun c hm => ht c (List.mem_reverse.mp hm)]
      apply hback
      simpa using hc.2
    rw [hfront, hrest, List.reverse_reverse]

theorem blanks_ne {l : List Char} (h : Blanks l) {c : Char} (hc : Text.isWhitespace c = false) : c ∉ l := by
  intro hm
  rw [h c hm] at hc
  cases hc

namespace CookiePair

variable {p : CookiePair} {piece : List Char}

theorem Spelled.no_separator (h : p.Spelled piece) : ';' ∉ piece := by
  obtain ⟨a, b, c, d, ha, hb, hc, hd, rfl⟩ := h
  have hblank : ∀ {l : List Char}, Blanks l → ';' ∉ l := fun hl => blanks_ne hl (by decide)
  simp [hblank ha, hblank hb, hblank hc, hblank hd, p.name_plain.2.1, p.value_plain.1]

/-- What both readers make of one piece. -/
theorem Spelled.read (h : p.Spelled piece) (name : String) :
    ((Text.splitOnce '=' (String.ofList piece)).bind fun (key, value) =>
      if Text.trim key = name then some (Text.trim value) else none) =
    if String.ofList p.name = name then some (String.ofList p.value) else none := by
  obtain ⟨a, b, c, d, ha, hb, hc, hd, rfl⟩ := h
  have hblank : ∀ {l : List Char}, Blanks l → '=' ∉ l := fun hl => blanks_ne hl (by decide)
  have hsplit : Text.splitOnce '=' (String.ofList ((a ++ p.name ++ b) ++ '=' :: (c ++ p.value ++ d))) =
      some (String.ofList (a ++ p.name ++ b), String.ofList (c ++ p.value ++ d)) := by
    apply Text.splitOnce_iff.mpr
    simp [hblank ha, hblank hb, p.name_plain.1]
  rw [hsplit, Option.bind_some]
  dsimp only
  rw [trim_trimmed ha hb p.name_plain.2.2, trim_trimmed hc hd p.value_plain.2]

end CookiePair

/-- The loop over the pieces of a line. -/
def readLine (text name : String) : Option String :=
  (Text.splitAll ';' text).findSome? fun pair =>
    (Text.splitOnce '=' pair).bind fun (key, value) => if Text.trim key = name then some (Text.trim value) else none

theorem readPieces {pairs : List CookiePair} {pieces : List (List Char)} (h : List.Forall₂ CookiePair.Spelled pairs pieces)
    (name : String) :
    ((pieces.map String.ofList).findSome? fun pair =>
      (Text.splitOnce '=' pair).bind fun (key, value) => if Text.trim key = name then some (Text.trim value) else none) =
    valueOf pairs name := by
  induction h with
  | nil => rfl
  | @cons p piece pairs pieces hp _ ih =>
    rw [List.map_cons, List.findSome?_cons, hp.read, ih]
    by_cases hn : String.ofList p.name = name <;> simp [valueOf, hn]

theorem no_separators {pairs : List CookiePair} {pieces : List (List Char)}
    (h : List.Forall₂ CookiePair.Spelled pairs pieces) : ∀ piece ∈ pieces, ';' ∉ piece := by
  induction h with
  | nil => simp
  | cons hp _ ih => simpa [hp.no_separator] using ih

theorem readLine_spelled {line : List UInt8} {pairs : List CookiePair} (h : CookieLine line pairs) (name : String) :
    (HeaderValue.toStr line).bind (readLine · name) = valueOf pairs name := by
  obtain ⟨text, pieces, htext, hpieces, hall⟩ := h
  rw [htext, Option.bind_some, readLine, Text.splitAll, hpieces]
  have hread := readPieces hall name
  have hno := no_separators hall
  cases hall with
  | nil => rfl
  | cons _ _ =>
    rw [List.splitOn_intercalate ';' hno (by simp)]
    exact hread

/-! Both readers look at the first line only. -/

variable {headers other : HeaderMap} {first later : List CookiePair} {groups : List (List CookiePair)}

theorem get_cookie (h : Cookies headers (first :: groups)) :
    ∃ line, headers.get "cookie" = some line ∧ CookieLine line first := by
  rw [Cookies] at h
  cases hlines : headers.getAll "cookie" with
  | nil =>
    rw [hlines] at h
    cases h
  | cons line lines =>
    rw [hlines] at h
    exact ⟨line, by simp [HeaderMap.get, hlines], (List.forall₂_cons.mp h).1⟩

theorem cookieValue_eq (h : Cookies headers (first :: groups)) (name : String) :
    cookieValue headers name = valueOf first name := by
  obtain ⟨line, hget, hline⟩ := get_cookie h
  rw [← readLine_spelled hline name, cookieValue, hget]
  rfl

theorem cookie_eq (h : Cookies headers (first :: groups)) (name : String) :
    SalvoHeaders.cookie headers name = valueOf first name := by
  obtain ⟨line, hget, hline⟩ := get_cookie h
  have hlower : Text.lower "cookie" = "cookie" := by decide
  rw [← readLine_spelled hline name, SalvoHeaders.cookie, SalvoHeaders.get, hlower, hget]
  rfl

/-- A front part of a list finds a cookie exactly where it names it, and then what the list finds. -/
theorem valueOf_front (first later : List CookiePair) (name : String) :
    (∃ p ∈ first, String.ofList p.name = name) ∧ (valueOf first name).isSome = true ∧
      valueOf first name = valueOf (first ++ later) name ∨
    (¬ ∃ p ∈ first, String.ofList p.name = name) ∧ valueOf first name = none := by
  by_cases hin : ∃ p ∈ first, String.ofList p.name = name
  · left
    have hsome : (first.find? fun p => decide (String.ofList p.name = name)).isSome = true := by simpa using hin
    obtain ⟨p, hp⟩ := Option.isSome_iff_exists.mp hsome
    exact ⟨hin, by simp [valueOf, hp], by simp [valueOf, List.find?_append, hp]⟩
  · right
    exact ⟨hin, by simpa [valueOf] using hin⟩

theorem named_iff (first : List CookiePair) (name : List Char) :
    (∃ p ∈ first, p.name = name) ↔ (valueOf first (String.ofList name)).isSome = true := by
  simp [valueOf, String.ofList_inj]

/-- What follows from the fields of a request for its cookies. -/
structure SameCookies (headers other : HeaderMap) : Prop where
  values : ∀ name, cookieValue headers name = cookieValue other name
  lookups : ∀ name, SalvoHeaders.cookie headers name = SalvoHeaders.cookie other name
  agree : ∀ name, cookieValue headers name = SalvoHeaders.cookie headers name
  routed : ∀ (leaves : Leaves) (p : ListenerPlan) (r : RoutedRequest),
    p.resolve leaves { r with cookie := SalvoHeaders.cookie headers } =
      p.resolve leaves { r with cookie := SalvoHeaders.cookie other }
  selected : ∀ (r : Request) (cookie : String) (ip : Option IpAddr) (eligible : List Candidate) (loads : Nat → U64)
    (s : Counters), Selector.select (.cookieHash cookie) eligible loads ({ r with headers := headers }.key (.cookieHash cookie) ip) s =
      Selector.select (.cookieHash cookie) eligible loads ({ r with headers := other }.key (.cookieHash cookie) ip) s

/-- The same cookies in the same order on different lines are the same cookies exactly if the first
lines name the same ones. -/
theorem cookies_split_iff {first' : List CookiePair} {groups' : List (List CookiePair)}
    (h : Cookies headers (first :: groups)) (h' : Cookies other (first' :: groups'))
    (hsame : (first :: groups).flatten = (first' :: groups').flatten) :
    SameCookies headers other ↔ ∀ name, (∃ p ∈ first, p.name = name) ↔ ∃ p ∈ first', p.name = name := by
  have hvalue := cookieValue_eq h
  have hvalue' := cookieValue_eq h'
  have hlookup := cookie_eq h
  have hlookup' := cookie_eq h'
  constructor
  · intro hsafe name
    rw [named_iff, named_iff, ← hvalue, ← hvalue', hsafe.values]
  · intro hnames
    have hfirst : ∀ name, valueOf first name = valueOf first' name := by
      intro name
      have hiff : (valueOf first name).isSome = true ↔ (valueOf first' name).isSome = true := by
        have hn := hnames name.toList
        rwa [named_iff, named_iff, String.ofList_toList] at hn
      rw [List.flatten_cons, List.flatten_cons] at hsame
      rcases valueOf_front first groups.flatten name with ⟨-, hsome, hfull⟩ | ⟨-, hnone⟩
      · rcases valueOf_front first' groups'.flatten name with ⟨-, -, hfull'⟩ | ⟨-, hnone'⟩
        · rw [hfull, hfull', hsame]
        · rw [hiff, hnone'] at hsome
          cases hsome
      · rw [hnone]
        symm
        simpa [hnone] using hiff
    have hlook : SalvoHeaders.cookie headers = SalvoHeaders.cookie other := by
      funext name
      rw [hlookup, hlookup', hfirst]
    refine ⟨?_, congrFun hlook, ?_, ?_, ?_⟩
    · intro name
      rw [hvalue, hvalue', hfirst]
    · intro name
      rw [hvalue, hlookup]
    · intro leaves p r
      rw [hlook]
    · intro r cookie ip eligible loads s
      have hkey : { r with headers := headers }.key (.cookieHash cookie) ip =
          { r with headers := other }.key (.cookieHash cookie) ip := by
        simp [Request.key, hvalue, hvalue', hfirst]
      rw [hkey]

def theme : CookiePair := ⟨"theme".toList, "dark".toList, by simp [Trimmed]; decide, by simp [Trimmed]; decide⟩

def session : CookiePair := ⟨"session".toList, "7".toList, by simp [Trimmed]; decide, by simp [Trimmed]; decide⟩

def oneLine : HeaderMap := [("cookie", utf8 "theme=dark; session=7")]

/-- As an HTTP/2 client may send them. -/
def twoLines : HeaderMap := [("cookie", utf8 "theme=dark"), ("cookie", utf8 "session=7")]

theorem line_of {text : String} {pairs : List CookiePair} (pieces : List (List Char))
    (ht : HeaderValue.toStr (utf8 text) = some text) (hp : text.toList = [';'].intercalate pieces)
    (h : List.Forall₂ CookiePair.Spelled pairs pieces) : CookieLine (utf8 text) pairs := ⟨text, pieces, ht, hp, h⟩

theorem spelled_plain (p : CookiePair) : p.Spelled (p.name ++ '=' :: p.value) :=
  ⟨[], [], [], [], by simp [Blanks], by simp [Blanks], by simp [Blanks], by simp [Blanks], by simp⟩

theorem spelled_behind (p : CookiePair) : p.Spelled (' ' :: p.name ++ '=' :: p.value) :=
  ⟨[' '], [], [], [], by simp [Blanks]; decide, by simp [Blanks], by simp [Blanks], by simp [Blanks], by simp⟩

theorem oneLine_cookies : Cookies oneLine [[theme, session]] := by
  refine .cons (line_of ["theme=dark".toList, " session=7".toList] (by decide) (by decide) ?_) .nil
  exact .cons (spelled_plain theme) (.cons (spelled_behind session) .nil)

theorem twoLines_cookies : Cookies twoLines [[theme], [session]] := by
  refine .cons (line_of ["theme=dark".toList] (by decide) (by decide) (.cons (spelled_plain theme) .nil)) ?_
  exact .cons (line_of ["session=7".toList] (by decide) (by decide) (.cons (spelled_plain session) .nil)) .nil

theorem cookies_split_iff_two :
    SameCookies twoLines oneLine ↔ ∀ name, (∃ p ∈ [theme], p.name = name) ↔ ∃ p ∈ [theme, session], p.name = name :=
  cookies_split_iff twoLines_cookies oneLine_cookies rfl

/-- The session is lost with the second line. -/
theorem second_line_unread : Cookies oneLine [[theme, session]] ∧ Cookies twoLines [[theme], [session]] ∧
    ¬ SameCookies twoLines oneLine := by
  refine ⟨oneLine_cookies, twoLines_cookies, ?_⟩
  intro h
  have hvalue := h.values "session"
  have htwo : cookieValue twoLines "session" = none := by decide
  have hone : cookieValue oneLine "session" = some "7" := by decide
  rw [htwo, hone] at hvalue
  cases hvalue

end Proxy
end Gatel
