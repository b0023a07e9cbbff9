import Gatel.Lib.Extremum
import Gatel.Lib.Separated
import Gatel.Lib.SortedMap
import Gatel.Proxy.Hygiene
import Gatel.Proxy.RequestHost

namespace Gatel.EncodingAccept
open Proxy (Blank Readable trimBlank)

/-- The answer of a negotiation; identity is kept apart from a refusal of every offer. -/
inductive Selection where
  | coding (coding : String)
  | identity
  | notAcceptable
  | invalid
  deriving DecidableEq

abbrev Offers := List (String × Nat)

/-- A weight in thousandths. -/
def quality (raw : String) : Option Nat :=
  let (whole, fraction) := (Text.splitOnce '.' raw).getD (raw, "")
  if !(whole == "0" || whole == "1") || fraction.utf8ByteSize > 3 || !fraction.toList.all Char.isDigit then none
  else if whole = "1" then if fraction.toList.all (· == '0') then some 1000 else none
  else some ((fraction.toList.zip [100, 10, 1]).foldl (fun value digit => value + (digit.1.toNat - 48) * digit.2) 0)

/-- The coding of an item, in lower case, and its weight. -/
def offer (item : String) : Option (String × Nat) :=
  match Text.splitAll ';' item with
  | [] => none
  | first :: parts =>
    let coding := Text.trim first
    if HeaderName.isValid coding then
      match parts with
      | [] => some (Text.lower coding, 1000)
      | parameter :: more => do
        let (name, value) ← Text.splitOnce '=' (Text.trim parameter)
        if Text.lower (Text.trim name) ≠ "q" then none
        else
          let quality ← quality (Text.trim value)
          if more = [] then some (Text.lower coding, quality) else none
    else none

/-- Contradictory duplicates must never override an explicit refusal. -/
def record (offers : Offers) (e : String × Nat) : Offers :=
  match SortedMap.lookup e.1 offers with
  | some existing => SortedMap.replace e.1 (min existing e.2) offers
  | none => SortedMap.insert e.1 e.2 offers

def parse (headers : HeaderMap) : Option Offers :=
  (headers.getAll "accept-encoding").foldlM (fun offers field => do
    let text ← HeaderValue.toStr field
    (Text.splitAll ',' text).foldlM (fun offers item =>
      let item := Text.trim item
      if item = "" then some offers else (offer item).map (record offers)) offers) []

/-- The best coding so far and its quality, over the codings that the server has. -/
def best (offers : Offers) (wildcard : Nat) (supported : List String) : Option String × Nat :=
  supported.foldl (fun best coding =>
    let quality := (SortedMap.lookup coding offers).getD wildcard
    if quality > best.2 then (some coding, quality) else best) (none, 0)

/-- What is selected by the offers of a client. -/
def choose (offers : Offers) (supported : List String) : Selection :=
  let wildcard := (SortedMap.lookup "*" offers).getD 0
  let (best, bestQuality) := best offers wildcard supported
  if (SortedMap.lookup "identity" offers).any (· > bestQuality) then .identity
  else match best with
    | some coding => .coding coding
    | none =>
      if (SortedMap.lookup "identity" offers).or (SortedMap.lookup "*" offers) = some 0 then .notAcceptable else .identity

/-- Client quality wins; server order breaks ties. -/
def select (headers : HeaderMap) (supported : List String) : Selection :=
  match parse headers with
  | none => .invalid
  | some offers => choose offers supported

/-! The grammar of an item, and what the items say together. -/

/-- A weight as it is written. -/
inductive Weight : List Char → Nat → Prop where
  | zero : Weight ['0'] 0
  | one : Weight ['1'] 1000
  | point {fraction : List Char} (hd : ∀ c ∈ fraction, c.isDigit = true) (hl : fraction.length ≤ 3) :
    Weight ('0' :: '.' :: fraction) (fraction.foldl (fun n c => n * 10 + (c.toNat - 48)) 0 * 10 ^ (3 - fraction.length))
  | full {fraction : List Char} (hd : ∀ c ∈ fraction, c = '0') (hl : fraction.length ≤ 3) : Weight ('1' :: '.' :: fraction) 1000

/-- A coding, with or without a weight, in lower case. -/
inductive Spelled : List Char → String → Nat → Prop where
  | plain {lead name trail : List Char} (hl : Blank lead) (hn : HeaderName.isValid (String.ofList name) = true)
    (ht : Blank trail) : Spelled (lead ++ name ++ trail) (Text.lower (String.ofList name)) 1000
  | weighed {lead name trail before between behind after weight : List Char} {q : Char} {n : Nat} (hl : Blank lead)
    (hn : HeaderName.isValid (String.ofList name) = true) (ht : Blank trail) (hq : q = 'q' ∨ q = 'Q') (hbefore : Blank before)
    (hbetween : Blank between) (hbehind : Blank behind) (hw : Weight weight n) (hafter : Blank after) :
    Spelled (lead ++ name ++ trail ++ ';' :: (before ++ q :: (between ++ '=' :: (behind ++ weight ++ after))))
      (Text.lower (String.ofList name)) n

/-- What an item of bytes offers. -/
def Offer (item : List UInt8) (coding : String) (quality : Nat) : Prop :=
  (∀ b ∈ item, Readable b) ∧ Spelled (item.map fun b => Char.ofNat b.toNat) coding quality

/-- The items of all lines, without the blanks around them. -/
def items (headers : HeaderMap) : List (List UInt8) :=
  (((headers.getAll "accept-encoding").flatMap (·.splitOn 0x2c)).map trimBlank).filter (· ≠ [])

/-- The least quality that a coding is given by name. -/
def Explicit (items : List (List UInt8)) (coding : String) (quality : Nat) : Prop :=
  (∃ item ∈ items, Offer item coding quality) ∧ ∀ item ∈ items, ∀ other, Offer item coding other → quality ≤ other

/-- The quality of a coding, by name or else by `*`; without either it is not wanted. -/
inductive Effective (items : List (List UInt8)) (coding : String) : Nat → Prop where
  | named {quality : Nat} (h : Explicit items coding quality) : Effective items coding quality
  | wildcard {quality : Nat} (hn : ∀ item ∈ items, ∀ q, ¬ Offer item coding q) (h : Explicit items "*" quality) :
    Effective items coding quality
  | unwanted (hn : ∀ item ∈ items, ∀ q, ¬ Offer item coding q) (hw : ∀ item ∈ items, ∀ q, ¬ Offer item "*" q) :
    Effective items coding 0

/-- The first of the best codings, wanted at least as much as identity. -/
def Chosen (items : List (List UInt8)) (supported : List String) (coding : String) : Prop :=
  ∃ before after quality, supported = before ++ coding :: after ∧ Effective items coding quality ∧ 0 < quality ∧
    (∀ other ∈ before, ∀ q, Effective items other q → q < quality) ∧
    (∀ other ∈ after, ∀ q, Effective items other q → q ≤ quality) ∧ ∀ q, Explicit items "identity" q → q ≤ quality

/-- Nothing is left: no coding is wanted, and identity is refused. -/
def Exhausted (items : List (List UInt8)) (supported : List String) : Prop :=
  (∀ coding ∈ supported, ∀ q, Effective items coding q → q = 0) ∧
    (Explicit items "identity" 0 ∨ ((∀ item ∈ items, ∀ q, ¬ Offer item "identity" q) ∧ Explicit items "*" 0))

/-- Every item is in the grammar. -/
def WellFormed (items : List (List UInt8)) : Prop := ∀ item ∈ items, ∃ coding quality, Offer item coding quality

/-! Weights. -/

theorem eq_ofList {text : List Char} {s : String} : String.ofList text = s ↔ text = s.toList := by
  rw [← String.toList_inj, String.toList_ofList]

theorem quality_unpointed {text : List Char} (h : '.' ∉ text) {n : Nat} :
    quality (String.ofList text) = some n ↔ (text = ['0'] ∧ n = 0) ∨ (text = ['1'] ∧ n = 1000) := by
  have hsplit : Text.splitOnce '.' (String.ofList text) = none := by
    rwa [Text.splitOnce_none_iff, String.toList_ofList]
  rw [quality, hsplit, Option.getD_none]
  dsimp only
  by_cases h0 : text = ['0']
  · subst h0
    simp [eq_comm]
  · by_cases h1 : text = ['1']
    · subst h1
      simp [eq_comm]
    · simp [eq_ofList, h0, h1]

/-- At most three digits in thousandths, place by place or read as one number. -/
theorem places_eq {fraction : List Char} (h : fraction.length ≤ 3) :
    (fraction.zip [100, 10, 1]).foldl (fun value digit => value + (digit.1.toNat - 48) * digit.2) 0 =
      fraction.foldl (fun n c => n * 10 + (c.toNat - 48)) 0 * 10 ^ (3 - fraction.length) := by
  match fraction, h with
  | [], _ => rfl
  | [a], _ => simp
  | [a, b], _ =>
    simp
    omega
  | [a, b, c], _ =>
    simp
    omega

theorem quality_pointed {whole fraction : List Char} (h : '.' ∉ whole) {n : Nat} :
    quality (String.ofList (whole ++ '.' :: fraction)) = some n ↔
      (∀ c ∈ fraction, c.isDigit = true) ∧ fraction.length ≤ 3 ∧
        ((whole = ['0'] ∧ n = fraction.foldl (fun n c => n * 10 + (c.toNat - 48)) 0 * 10 ^ (3 - fraction.length)) ∨
          (whole = ['1'] ∧ (∀ c ∈ fraction, c = '0') ∧ n = 1000)) := by
  have hsplit : Text.splitOnce '.' (String.ofList (whole ++ '.' :: fraction)) =
      some (String.ofList whole, String.ofList fraction) := Text.splitOnce_iff.mpr (by simp [h])
  rw [quality, hsplit, Option.getD_some]
  dsimp only
  by_cases hd : ∀ c ∈ fraction, c.isDigit = true
  · have hsize : (String.ofList fraction).utf8ByteSize = fraction.length :=
      Text.utf8ByteSize_of_ascii fun c hc => (Proxy.printed_of_digit (hd c hc)).2.le.trans (by decide)
    have hall : fraction.all Char.isDigit = true := List.all_eq_true.mpr hd
    rw [hsize, String.toList_ofList, hall]
    by_cases hl : fraction.length ≤ 3
    · rw [places_eq hl, and_iff_right hd, and_iff_right hl]
      generalize fraction.foldl (fun n c => n * 10 + (c.toNat - 48)) 0 * 10 ^ (3 - fraction.length) = value
      have hfits : decide (fraction.length > 3) = false := decide_eq_false (by omega)
      rw [hfits]
      by_cases h0 : whole = ['0']
      · subst h0
        simp [eq_comm]
      · by_cases h1 : whole = ['1']
        · subst h1
          simp [eq_comm (a := n)]
        · simp [eq_ofList, h0, h1]
    · simp [hl, Nat.lt_of_not_le hl]
  · have hall : fraction.all Char.isDigit = false := by simpa using hd
    simp [hall, hd]

theorem quality_iff {text : List Char} {n : Nat} : quality (String.ofList text) = some n ↔ Weight text n := by
  by_cases hpoint : '.' ∈ text
  · obtain ⟨whole, fraction, rfl, hwhole⟩ := List.eq_append_cons_of_mem hpoint
    rw [quality_pointed hwhole]
    constructor
    · rintro ⟨hd, hl, ⟨rfl, rfl⟩ | ⟨rfl, hzero, rfl⟩⟩
      · exact .point hd hl
      · exact .full hzero hl
    · intro h
      generalize htext : whole ++ '.' :: fraction = text at h
      have hapart : ∀ {first : Char} {digits : List Char}, first ≠ '.' → whole ++ '.' :: fraction = first :: '.' :: digits →
          whole = [first] ∧ fraction = digits := by
        intro first digits hfirst he
        exact Separated.split_inj (b := [first]) hwhole (by simpa using hfirst.symm) he
      cases h with
      | zero => exact absurd (htext ▸ hpoint) (by decide)
      | one => exact absurd (htext ▸ hpoint) (by decide)
      | point hd hl =>
        obtain ⟨rfl, rfl⟩ := hapart (by decide) htext
        exact ⟨hd, hl, .inl ⟨rfl, rfl⟩⟩
      | full hzero hl =>
        obtain ⟨rfl, rfl⟩ := hapart (by decide) htext
        refine ⟨?_, hl, .inr ⟨rfl, hzero, rfl⟩⟩
        intro c hc
        rw [hzero c hc]
        rfl
  · rw [quality_unpointed hpoint]
    constructor
    · rintro (⟨rfl, rfl⟩ | ⟨rfl, rfl⟩)
      · exact .zero
      · exact .one
    · intro h
      cases h with
      | zero => exact .inl ⟨rfl, rfl⟩
      | one => exact .inr ⟨rfl, rfl⟩
      | point hd hl => exact absurd (by simp) hpoint
      | full hd hl => exact absurd (by simp) hpoint

/-! One item. -/

theorem Weight.printed {text : List Char} {n : Nat} (h : Weight text n) :
    ∀ c ∈ text, Proxy.Printed c ∧ c ≠ ';' := by
  have hdigit : ∀ c : Char, c.isDigit = true → Proxy.Printed c ∧ c ≠ ';' := by
    intro c hc
    refine ⟨Proxy.printed_of_digit hc, ?_⟩
    rintro rfl
    exact absurd hc (by decide)
  have hpoint : Proxy.Printed '.' ∧ '.' ≠ ';' := ⟨⟨by decide, by decide⟩, by decide⟩
  intro c hc
  cases h with
  | zero => exact hdigit c (by simp at hc; simp [hc])
  | one => exact hdigit c (by simp at hc; simp [hc])
  | point hd hl =>
    rcases List.mem_cons.mp hc with rfl | hc
    · exact hdigit _ rfl
    · rcases List.mem_cons.mp hc with rfl | hc
      · exact hpoint
      · exact hdigit c (hd c hc)
  | full hd hl =>
    rcases List.mem_cons.mp hc with rfl | hc
    · exact hdigit _ rfl
    · rcases List.mem_cons.mp hc with rfl | hc
      · exact hpoint
      · exact hdigit c (by rw [hd c hc]; rfl)

theorem Weight.ne_nil {text : List Char} {n : Nat} (h : Weight text n) : text ≠ [] := by
  cases h <;> exact List.cons_ne_nil _ _

theorem toLower_q {c : Char} : c.toLower = 'q' ↔ c = 'q' ∨ c = 'Q' := by
  constructor
  · intro h
    by_cases hupper : 65 ≤ c.toNat ∧ c.toNat ≤ 90
    · have hnat := Proxy.toNat_toLower hupper.1 hupper.2
      rw [h] at hnat
      have hq : c.toNat = 'Q'.toNat := by
        change 113 = c.toNat + 32 at hnat
        change c.toNat = 81
        omega
      exact .inr (Char.toNat_inj.mp hq)
    · rw [Proxy.toLower_of_not_upper hupper] at h
      exact .inl h
  · rintro (rfl | rfl) <;> rfl

/-- Blanks are what a trim takes. -/
theorem exists_trim {l : List Char} (hs : ∀ c ∈ l, Text.isWhitespace c = true → c = ' ' ∨ c = '\t') :
    ∃ lead trail, Blank lead ∧ Blank trail ∧ l = lead ++ (Text.trim (String.ofList l)).toList ++ trail := by
  obtain ⟨lead, trail, hl, ht, h⟩ := Text.exists_around Text.isWhitespace Text.isWhitespace l
  have hmem : ∀ c, c ∈ lead ∨ c ∈ trail → c ∈ l := by
    intro c hc
    rw [h, List.mem_append, List.mem_append]
    rcases hc with hc | hc
    · exact .inl (.inl hc)
    · exact .inr hc
  refine ⟨lead, trail, fun c hc => hs c (hmem c (.inl hc)) (hl c hc), fun c hc => hs c (hmem c (.inr hc)) (ht c hc), ?_⟩
  rwa [Text.trim, String.toList_ofList, String.toList_ofList]

theorem trim_between {lead core trail : List Char} (hl : Blank lead) (ht : Blank trail)
    (hfirst : ∀ c ∈ core.head?, Proxy.Printed c) (hlast : ∀ c ∈ core.getLast?, Proxy.Printed c) :
    Text.trim (String.ofList (lead ++ core ++ trail)) = String.ofList core := by
  rw [Text.trim, String.toList_ofList, Text.strip_between hl.isWhitespace ht.isWhitespace (fun c hc => (hfirst c hc).not_blank)
    fun c hc => (hlast c hc).not_blank]

theorem trim_token {lead name trail : List Char} (hl : Blank lead) (hn : HeaderName.isValid (String.ofList name) = true)
    (ht : Blank trail) : Text.trim (String.ofList (lead ++ name ++ trail)) = String.ofList name :=
  trim_between hl ht (fun c hc => (Proxy.token_chars hn c (by simpa using List.mem_of_mem_head? hc)).1)
    fun c hc => (Proxy.token_chars hn c (by simpa using List.mem_of_getLast? hc)).1

theorem offer_plain {item : List Char} (hsemi : ';' ∉ item) : offer (String.ofList item) =
    if HeaderName.isValid (Text.trim (String.ofList item)) then some (Text.lower (Text.trim (String.ofList item)), 1000)
    else none := by
  rw [offer, Text.splitAll, String.toList_ofList, List.splitOn_eq_singleton hsemi]
  rfl

theorem offer_weighed {first parameter : List Char} (hfirst : ';' ∉ first) (hparameter : ';' ∉ parameter) :
    offer (String.ofList (first ++ ';' :: parameter)) =
      if HeaderName.isValid (Text.trim (String.ofList first)) then do
        let (name, value) ← Text.splitOnce '=' (Text.trim (String.ofList parameter))
        if Text.lower (Text.trim name) ≠ "q" then none
        else
          let quality ← quality (Text.trim value)
          some (Text.lower (Text.trim (String.ofList first)), quality)
      else none := by
  rw [offer, Text.splitAll, String.toList_ofList, List.splitOn_append_cons_self_of_not_mem hfirst,
    List.splitOn_eq_singleton hparameter]
  rfl

theorem offer_longer {first second third : List Char} (hfirst : ';' ∉ first) (hsecond : ';' ∉ second) :
    offer (String.ofList (first ++ ';' :: (second ++ ';' :: third))) = none := by
  rw [offer, Text.splitAll, String.toList_ofList, List.splitOn_append_cons_self_of_not_mem hfirst,
    List.splitOn_append_cons_self_of_not_mem hsecond]
  simp only [List.map_cons, List.map_eq_nil_iff, List.splitOn_ne_nil, ↓reduceIte]
  split
  · simp
  · rfl

/-- What is read of a weight is one. -/
theorem parameter_sound {parameter : List Char} (hs : ∀ c ∈ parameter, Text.isWhitespace c = true → c = ' ' ∨ c = '\t')
    {name value : String} (hsplit : Text.splitOnce '=' (Text.trim (String.ofList parameter)) = some (name, value))
    (hname : Text.lower (Text.trim name) = "q") {n : Nat} (hvalue : quality (Text.trim value) = some n) :
    ∃ before q between behind weight after, parameter = before ++ q :: (between ++ '=' :: (behind ++ weight ++ after)) ∧
      (q = 'q' ∨ q = 'Q') ∧ Blank before ∧ Blank between ∧ Blank behind ∧ Blank after ∧ Weight weight n := by
  obtain ⟨lead, trail, hl, ht, htext⟩ := exists_trim hs
  obtain ⟨_, hparts⟩ := Text.splitOnce_iff.mp hsplit
  rw [hparts] at htext
  have hmem : ∀ c, c ∈ name.toList ∨ c ∈ value.toList → c ∈ parameter := by
    intro c hc
    rw [htext]
    rcases hc with hc | hc <;> simp [hc]
  obtain ⟨lead', trail', hl', ht', hname'⟩ := exists_trim fun c hc => hs c (hmem c (.inl hc))
  obtain ⟨lead'', trail'', hl'', ht'', hvalue'⟩ := exists_trim fun c hc => hs c (hmem c (.inr hc))
  rw [String.ofList_toList] at hname' hvalue'
  obtain ⟨q, hq, hcase⟩ : ∃ q, (Text.trim name).toList = [q] ∧ (q = 'q' ∨ q = 'Q') := by
    have hmap := congrArg String.toList hname
    rw [Text.lower, String.toList_ofList] at hmap
    obtain ⟨q, hq, hlower⟩ := List.map_eq_singleton_iff.mp hmap
    exact ⟨q, hq, toLower_q.1 hlower⟩
  refine ⟨lead ++ lead', q, trail', lead'', (Text.trim value).toList, trail'' ++ trail, ?_, hcase, ?_, ht', hl'', ?_, ?_⟩
  · rw [htext, hname', hq, hvalue']
    simp
  · intro c hc
    exact (List.mem_append.mp hc).elim (hl c) (hl' c)
  · intro c hc
    exact (List.mem_append.mp hc).elim (ht'' c) (ht c)
  · rw [← quality_iff, String.ofList_toList]
    exact hvalue

theorem parameter_complete {before between behind after weight : List Char} {q : Char} {n : Nat} (hq : q = 'q' ∨ q = 'Q')
    (hbefore : Blank before) (hbetween : Blank between) (hbehind : Blank behind) (hafter : Blank after) (hw : Weight weight n) :
    ∃ name value, Text.splitOnce '=' (Text.trim (String.ofList
        (before ++ q :: (between ++ '=' :: (behind ++ weight ++ after))))) = some (name, value) ∧
      Text.lower (Text.trim name) = "q" ∧ Text.trim value = String.ofList weight := by
  have hprinted : Proxy.Printed q := by
    rcases hq with rfl | rfl
    · exact ⟨by decide, by decide⟩
    · exact ⟨by decide, by decide⟩
  have hends : ∀ c ∈ (q :: (between ++ '=' :: (behind ++ weight))).getLast?, Proxy.Printed c := by
    intro c hc
    obtain ⟨last, hlast⟩ := Option.ne_none_iff_exists'.mp fun hn => hw.ne_nil (List.getLast?_eq_none_iff.mp hn)
    have hc' : c = last := by simpa [List.getLast?_append, List.getLast?_cons, hlast] using hc.symm
    exact hc' ▸ (hw.printed last (List.mem_of_getLast? hlast)).1
  have htrim : Text.trim (String.ofList (before ++ q :: (between ++ '=' :: (behind ++ weight ++ after)))) =
      String.ofList (q :: (between ++ '=' :: (behind ++ weight))) := by
    rw [← trim_between hbefore hafter (by simpa using hprinted) hends]
    simp
  have hnil : Blank [] := fun _ hc => absurd hc List.not_mem_nil
  have hno : '=' ∉ q :: between := by
    rw [List.mem_cons, not_or]
    refine ⟨?_, hbetween.not_mem (by decide) (by decide)⟩
    rcases hq with rfl | rfl <;> decide
  refine ⟨String.ofList (q :: between), String.ofList (behind ++ weight), ?_, ?_, ?_⟩
  · rw [htrim, Text.splitOnce_iff]
    simpa using hno
  · have hname : Text.trim (String.ofList ([] ++ [q] ++ between)) = String.ofList [q] :=
      trim_between hnil hbetween (by simpa using hprinted) (by simpa using hprinted)
    rw [List.nil_append, List.singleton_append] at hname
    rw [hname]
    rcases hq with rfl | rfl <;> rfl
  · have hvalue : Text.trim (String.ofList (behind ++ weight ++ [])) = String.ofList weight :=
      trim_between hbehind hnil (fun c hc => (hw.printed c (List.mem_of_mem_head? hc)).1)
        fun c hc => (hw.printed c (List.mem_of_getLast? hc)).1
    rw [← hvalue, List.append_nil]

theorem offer_iff {item : List Char} (hs : ∀ c ∈ item, Text.isWhitespace c = true → c = ' ' ∨ c = '\t') {coding : String}
    {n : Nat} : offer (String.ofList item) = some (coding, n) ↔ Spelled item coding n := by
  have htoken : ∀ {lead name trail : List Char}, Blank lead → HeaderName.isValid (String.ofList name) = true → Blank trail →
      ';' ∉ lead ++ name ++ trail := by
    intro lead name trail hl hn ht
    simp only [List.mem_append, not_or]
    exact ⟨⟨hl.not_mem (by decide) (by decide), fun hc => (Proxy.token_chars hn _ (by simpa using hc)).2.2.1 rfl⟩,
      ht.not_mem (by decide) (by decide)⟩
  constructor
  · intro h
    by_cases hsemi : ';' ∈ item
    · obtain ⟨first, parameter, rfl, hfirst⟩ := List.eq_append_cons_of_mem hsemi
      have hs₁ : ∀ c ∈ first, Text.isWhitespace c = true → c = ' ' ∨ c = '\t' := fun c hc => hs c (by simp [hc])
      have hs₂ : ∀ c ∈ parameter, Text.isWhitespace c = true → c = ' ' ∨ c = '\t' := fun c hc => hs c (by simp [hc])
      by_cases hmore : ';' ∈ parameter
      · obtain ⟨second, third, rfl, hsecond⟩ := List.eq_append_cons_of_mem hmore
        rw [offer_longer hfirst hsecond] at h
        cases h
      · rw [offer_weighed hfirst hmore] at h
        split at h
        · rename_i hn
          obtain ⟨⟨name, value⟩, hsplit, h⟩ := Option.bind_eq_some_iff.mp h
          dsimp only at h
          split at h
          · cases h
          · rename_i hname
            obtain ⟨weight, hweight, h⟩ := Option.bind_eq_some_iff.mp h
            obtain ⟨rfl, rfl⟩ := Prod.mk.inj (Option.some.inj h)
            obtain ⟨before, q, between, behind, text, after, rfl, hq, hbefore, hbetween, hbehind, hafter, hw⟩ :=
              parameter_sound hs₂ hsplit (not_not.mp hname) hweight
            obtain ⟨lead, trail, hl, ht, htext⟩ := exists_trim hs₁
            have hvalid : HeaderName.isValid (String.ofList (Text.trim (String.ofList first)).toList) = true := by
              rw [String.ofList_toList]
              exact hn
            have hspelled := Spelled.weighed hl hvalid ht hq hbefore hbetween hbehind hw hafter
            rw [← htext, String.ofList_toList] at hspelled
            exact hspelled
        · cases h
    · rw [offer_plain hsemi] at h
      split at h
      · rename_i hn
        obtain ⟨rfl, rfl⟩ := Prod.mk.inj (Option.some.inj h)
        obtain ⟨lead, trail, hl, ht, htext⟩ := exists_trim hs
        have hvalid : HeaderName.isValid (String.ofList (Text.trim (String.ofList item)).toList) = true := by
          rw [String.ofList_toList]
          exact hn
        have hspelled := Spelled.plain hl hvalid ht
        rw [← htext, String.ofList_toList] at hspelled
        exact hspelled
      · cases h
  · intro h
    cases h with
    | plain hl hn ht => rw [offer_plain (htoken hl hn ht), trim_token hl hn ht, if_pos hn]
    | @weighed lead name trail before between behind after weight q _ hl hn ht hq hbefore hbetween hbehind hw hafter =>
      have hsemi : ';' ∉ before ++ q :: (between ++ '=' :: (behind ++ weight ++ after)) := by
        have hne : ';' ≠ q := by rcases hq with rfl | rfl <;> decide
        have hweight : ';' ∉ weight := fun hc => (hw.printed _ hc).2 rfl
        have hblank : ∀ {l : List Char}, Blank l → ';' ∉ l := fun hb => hb.not_mem (by decide) (by decide)
        simp [hne, hweight, hblank hbefore, hblank hbetween, hblank hbehind, hblank hafter]
      obtain ⟨name', value, hsplit, hname, hvalue⟩ := parameter_complete hq hbefore hbetween hbehind hafter hw
      rw [offer_weighed (htoken hl hn ht) hsemi, trim_token hl hn ht, if_pos hn, hsplit, Option.bind_eq_bind, Option.bind_some]
      dsimp only
      rw [if_neg (not_not.mpr hname), hvalue, quality_iff.2 hw]
      rfl

/-! The lines. -/

theorem offer_bytes {item : List UInt8} (h : ∀ b ∈ item, Readable b) {coding : String} {n : Nat} :
    offer (String.ofList (item.map fun b => Char.ofNat b.toNat)) = some (coding, n) ↔ Offer item coding n := by
  rw [offer_iff, Offer, and_iff_right h]
  intro c hc hblank
  obtain ⟨b, hb, rfl⟩ := List.mem_map.mp hc
  rw [Proxy.isWhitespace_ofNat (h b hb), Proxy.isBlank, Bool.or_eq_true, beq_iff_eq, beq_iff_eq] at hblank
  rcases hblank with rfl | rfl
  · exact .inl rfl
  · exact .inr rfl

/-- The offers of some items, one each. -/
def Offered (items : List (List UInt8)) (found : Offers) : Prop := List.Forall₂ (fun item e => Offer item e.1 e.2) items found

theorem Offered.append {a b : List (List UInt8)} {all : Offers} (h : Offered (a ++ b) all) :
    ∃ found others, Offered a found ∧ Offered b others ∧ all = found ++ others := by
  induction a generalizing all with
  | nil => exact ⟨[], all, .nil, h, rfl⟩
  | cons item a ih =>
    cases h with
    | cons hoffer hrest =>
      obtain ⟨found, others, hfound, hothers, rfl⟩ := ih hrest
      exact ⟨_ :: found, others, .cons hoffer hfound, hothers, rfl⟩

theorem Offered.mem_items {items : List (List UInt8)} {found : Offers} (h : Offered items found) {item : List UInt8}
    (hitem : item ∈ items) : ∃ e ∈ found, Offer item e.1 e.2 := by
  induction h with
  | nil => exact absurd hitem List.not_mem_nil
  | cons hoffer hrest ih =>
    rcases List.mem_cons.mp hitem with rfl | hitem
    · exact ⟨_, List.mem_cons_self, hoffer⟩
    · obtain ⟨e, he, hoffer⟩ := ih hitem
      exact ⟨e, List.mem_cons_of_mem _ he, hoffer⟩

theorem Offered.mem_found {items : List (List UInt8)} {found : Offers} (h : Offered items found) {e : String × Nat}
    (he : e ∈ found) : ∃ item ∈ items, Offer item e.1 e.2 := by
  induction h with
  | nil => exact absurd he List.not_mem_nil
  | cons hoffer hrest ih =>
    rcases List.mem_cons.mp he with rfl | he
    · exact ⟨_, List.mem_cons_self, hoffer⟩
    · obtain ⟨item, hitem, hoffer⟩ := ih he
      exact ⟨item, List.mem_cons_of_mem _ hitem, hoffer⟩

theorem pieces_iff {pieces : List (List UInt8)} (h : ∀ piece ∈ pieces, ∀ b ∈ piece, Readable b) {offers offers' : Offers} :
    (pieces.map fun e => String.ofList (e.map fun b => Char.ofNat b.toNat)).foldlM (fun offers item =>
      let item := Text.trim item
      if item = "" then some offers else (offer item).map (record offers)) offers = some offers' ↔
    ∃ found, Offered ((pieces.map trimBlank).filter (· ≠ [])) found ∧ offers' = found.foldl record offers := by
  induction pieces generalizing offers with
  | nil =>
    constructor
    · intro h
      exact ⟨[], .nil, (Option.some.inj h).symm⟩
    · rintro ⟨found, hfound, rfl⟩
      cases hfound
      rfl
  | cons piece pieces ih =>
    have hpiece := h piece List.mem_cons_self
    have ih' := fun {offers : Offers} => @ih (fun piece hp => h piece (List.mem_cons_of_mem _ hp)) offers
    rw [List.map_cons, List.foldlM_cons, Proxy.trim_ofBytes hpiece, List.map_cons]
    by_cases hempty : trimBlank piece = []
    · rw [hempty, List.filter_cons_of_neg (by simp)]
      exact ih'
    · have hne : String.ofList ((trimBlank piece).map fun b => Char.ofNat b.toNat) ≠ "" := by
        intro he
        exact hempty (by simpa [eq_ofList] using he)
      rw [List.filter_cons_of_pos (by simpa using hempty)]
      simp only [hne, ↓reduceIte, Option.bind_eq_bind, Option.bind_eq_some_iff, Option.map_eq_some_iff, ih']
      constructor
      · rintro ⟨_, ⟨⟨coding, n⟩, hoffer, rfl⟩, found, hfound, rfl⟩
        exact ⟨(coding, n) :: found, .cons ((offer_bytes fun b hb => hpiece b (Proxy.mem_of_mem_trimBlank hb)).mp hoffer) hfound,
          rfl⟩
      · rintro ⟨found, hfound, rfl⟩
        cases hfound with
        | @cons _ e _ found hoffer hfound =>
          exact ⟨_, ⟨e, (offer_bytes fun b hb => hpiece b (Proxy.mem_of_mem_trimBlank hb)).mpr hoffer, rfl⟩, found, hfound, rfl⟩

/-- A byte that cannot be read stays in its item. -/
theorem unread_item {line : List UInt8} (h : HeaderValue.toStr line = none) :
    ∃ item ∈ ((line.splitOn 0x2c).map trimBlank).filter (· ≠ []), ∀ coding n, ¬ Offer item coding n := by
  obtain ⟨b, hb, hunread⟩ : ∃ b ∈ line, ¬ Readable b := by
    by_contra hall
    rw [HeaderValue.toStr, if_pos] at h
    · cases h
    · refine List.all_eq_true.mpr fun b hb => ?_
      have hread : Readable b := not_not.mp fun hn => hall ⟨b, hb, hn⟩
      simpa [Readable] using hread
  have hcomma : b ≠ 0x2c := by
    rintro rfl
    exact hunread (.inl (by decide))
  have hblank : Proxy.isBlank b = false := by
    refine Bool.eq_false_iff.mpr fun hb => hunread ?_
    rw [Proxy.isBlank, Bool.or_eq_true, beq_iff_eq, beq_iff_eq] at hb
    rcases hb with rfl | rfl
    · exact .inl (by decide)
    · exact .inr rfl
  have hjoin : [0x2c].intercalate (line.splitOn 0x2c) = line := List.intercalate_splitOn 0x2c
  rw [← hjoin] at hb
  obtain ⟨piece, hpiece, hmem⟩ := (Separated.mem_intercalate hb).resolve_left hcomma
  obtain ⟨lead, trail, hl, ht, htext⟩ := Text.exists_around Proxy.isBlank Proxy.isBlank piece
  have hkept : b ∈ trimBlank piece := by
    rw [htext, List.mem_append, List.mem_append] at hmem
    rcases hmem with (hmem | hmem) | hmem
    · exact absurd (hl b hmem) (by simp [hblank])
    · exact hmem
    · exact absurd (ht b hmem) (by simp [hblank])
  refine ⟨trimBlank piece, ?_, fun _ _ hoffer => hunread (hoffer.1 b hkept)⟩
  rw [List.mem_filter]
  exact ⟨List.mem_map_of_mem hpiece, by simpa using List.ne_nil_of_mem hkept⟩

theorem parseLines_iff {lines : List (List UInt8)} {offers offers' : Offers} :
    lines.foldlM (fun offers field => do
      let text ← HeaderValue.toStr field
      (Text.splitAll ',' text).foldlM (fun offers item =>
        let item := Text.trim item
        if item = "" then some offers else (offer item).map (record offers)) offers) offers = some offers' ↔
    ∃ found, Offered (((lines.flatMap (·.splitOn 0x2c)).map trimBlank).filter (· ≠ [])) found ∧
      offers' = found.foldl record offers := by
  induction lines generalizing offers with
  | nil =>
    constructor
    · intro h
      exact ⟨[], .nil, (Option.some.inj h).symm⟩
    · rintro ⟨found, hfound, rfl⟩
      cases hfound
      rfl
  | cons line lines ih =>
    rw [List.foldlM_cons, List.flatMap_cons, List.map_append, List.filter_append]
    cases htext : HeaderValue.toStr line with
    | none =>
      obtain ⟨item, hitem, hnone⟩ := unread_item htext
      simp only [Option.bind_eq_bind, Option.bind_none, reduceCtorEq, false_iff, not_exists, not_and]
      intro found hfound
      obtain ⟨e, _, hoffer⟩ := hfound.mem_items (List.mem_append_left _ hitem)
      exact absurd hoffer (hnone _ _)
    | some text =>
      have hread : ∀ piece ∈ line.splitOn 0x2c, ∀ b ∈ piece, Readable b := fun piece hp b hb =>
        (Dispatcher.toStr_eq_some htext).2 b (Proxy.mem_of_mem_splitOn hp hb)
      simp only [Option.bind_eq_bind] at ih
      simp only [Option.bind_eq_bind, Option.bind_some, Option.bind_eq_some_iff, Dispatcher.splitAll_toStr htext,
        pieces_iff hread, ih]
      constructor
      · rintro ⟨_, ⟨found, hfound, rfl⟩, others, hothers, rfl⟩
        exact ⟨found ++ others, List.rel_append hfound hothers, List.foldl_append.symm⟩
      · rintro ⟨all, hall, rfl⟩
        obtain ⟨found, others, hfound, hothers, rfl⟩ := hall.append
        exact ⟨_, ⟨found, hfound, rfl⟩, others, hothers, List.foldl_append⟩

/-! What the offers say. -/

theorem lookup_record (offers : Offers) (e : String × Nat) (coding : String) : SortedMap.lookup coding (record offers e) =
    if e.1 = coding then some ((SortedMap.lookup coding offers).elim e.2 (min · e.2)) else SortedMap.lookup coding offers := by
  rw [record]
  cases hl : SortedMap.lookup e.1 offers with
  | none =>
    rw [SortedMap.lookup_insert (SortedMap.lookup_eq_none.mp hl)]
    by_cases he : e.1 = coding
    · subst he
      simp [hl]
    · simp [he]
  | some existing =>
    by_cases he : e.1 = coding
    · have hkey : e.1 ∈ offers.map Prod.fst := by
        by_contra hn
        rw [SortedMap.lookup_eq_none.mpr hn] at hl
        cases hl
      subst he
      simp [SortedMap.lookup_replace_self hkey, hl]
    · simp [SortedMap.lookup_replace_ne he, he]

/-- The least of the qualities of a coding, among those at hand and those that follow. -/
theorem lookup_foldl (found : Offers) (offers : Offers) (coding : String) (q : Nat) :
    SortedMap.lookup coding (found.foldl record offers) = some q ↔
      (SortedMap.lookup coding offers = some q ∨ (coding, q) ∈ found) ∧
        (∀ old, SortedMap.lookup coding offers = some old → q ≤ old) ∧ ∀ other, (coding, other) ∈ found → q ≤ other := by
  induction found generalizing offers with
  | nil =>
    simp only [List.foldl_nil, List.not_mem_nil, or_false, false_implies, implies_true, and_true, iff_self_and]
    intro h old hold
    rw [h] at hold
    exact (Option.some.inj hold).le
  | cons e found ih =>
    rw [List.foldl_cons, ih, lookup_record]
    by_cases he : e.1 = coding
    · obtain ⟨name, n⟩ := e
      obtain rfl : name = coding := he
      cases SortedMap.lookup name offers with
      | none =>
        simp only [Option.elim_none, ↓reduceIte, Option.some.injEq, reduceCtorEq, false_implies, implies_true, true_and,
          forall_eq, List.mem_cons, Prod.mk.injEq, false_or, forall_eq_or_imp, eq_comm (a := n)]
      | some old =>
        simp only [Option.elim_some, ↓reduceIte, Option.some.injEq, forall_eq', List.mem_cons, Prod.mk.injEq, true_and,
          forall_eq_or_imp, le_min_iff, and_assoc]
        refine and_congr_left_iff.mpr ?_
        rintro ⟨hold, hn, _⟩
        have hmin : min old n = q ↔ old = q ∨ q = n := by omega
        rw [hmin, or_assoc]
    · have hne : ∀ other, (coding, other) ≠ e := fun other h => he (congrArg Prod.fst h).symm
      simp [he, hne]

theorem lookup_foldl_none (found : Offers) (offers : Offers) (coding : String) :
    SortedMap.lookup coding (found.foldl record offers) = none ↔
      SortedMap.lookup coding offers = none ∧ ∀ q, (coding, q) ∉ found := by
  induction found generalizing offers with
  | nil => simp
  | cons e found ih =>
    rw [List.foldl_cons, ih, lookup_record]
    by_cases he : e.1 = coding
    · obtain ⟨name, n⟩ := e
      obtain rfl : name = coding := he
      simp only [↓reduceIte, reduceCtorEq, false_and, List.mem_cons, Prod.mk.injEq, true_and, not_or, false_iff, not_and]
      exact fun _ hall => (hall n).1 rfl
    · have hne : ∀ other, (coding, other) ≠ e := fun other h => he (congrArg Prod.fst h).symm
      simp [he, hne]

/-- An item offers one coding, with one quality. -/
theorem Offer.unique {item : List UInt8} {coding other : String} {q r : Nat} (h : Offer item coding q) (h' : Offer item other r) :
    (coding, q) = (other, r) := by
  have hone := (offer_bytes h.1).mpr h
  rw [(offer_bytes h.1).mpr h'] at hone
  exact (Option.some.inj hone).symm

/-- The quality that `select` goes by. -/
def effective (offers : Offers) (coding : String) : Nat :=
  (SortedMap.lookup coding offers).getD ((SortedMap.lookup "*" offers).getD 0)

theorem best_eq (offers : Offers) (supported : List String) : best offers ((SortedMap.lookup "*" offers).getD 0) supported =
    supported.foldl (Extremum.keepBest (effective offers)) (none, 0) := rfl

section
variable {items : List (List UInt8)} {found : Offers} (h : Offered items found) {coding : String}
include h

theorem mem_found_iff {q : Nat} : (coding, q) ∈ found ↔ ∃ item ∈ items, Offer item coding q := by
  constructor
  · exact fun hq => h.mem_found hq
  · rintro ⟨item, hitem, hoffer⟩
    obtain ⟨e, he, hoffer'⟩ := h.mem_items hitem
    rwa [hoffer.unique hoffer']

theorem lookup_explicit {q : Nat} : SortedMap.lookup coding (found.foldl record []) = some q ↔ Explicit items coding q := by
  have hnone : ∀ q, SortedMap.lookup coding ([] : Offers) ≠ some q := by simp [SortedMap.lookup]
  rw [lookup_foldl, Explicit]
  simp only [mem_found_iff h, hnone, false_or, false_implies, implies_true, true_and]
  refine and_congr_right fun _ => ⟨?_, ?_⟩
  · exact fun hle item hitem other hoffer => hle other ⟨item, hitem, hoffer⟩
  · rintro hle other ⟨item, hitem, hoffer⟩
    exact hle item hitem other hoffer

theorem lookup_absent : SortedMap.lookup coding (found.foldl record []) = none ↔ ∀ item ∈ items, ∀ q, ¬ Offer item coding q := by
  rw [lookup_foldl_none]
  simp only [mem_found_iff h, not_exists, not_and]
  constructor
  · exact fun hall item hitem q hoffer => hall.2 q item hitem hoffer
  · exact fun hall => ⟨rfl, fun q item hitem hoffer => hall item hitem q hoffer⟩

theorem effective_iff {q : Nat} : Effective items coding q ↔ effective (found.foldl record []) coding = q := by
  constructor
  · intro hq
    cases hq with
    | named hq => rw [effective, (lookup_explicit h).mpr hq, Option.getD_some]
    | wildcard hn hq => rw [effective, (lookup_absent h).mpr hn, (lookup_explicit h).mpr hq, Option.getD_none, Option.getD_some]
    | unwanted hn hw => rw [effective, (lookup_absent h).mpr hn, (lookup_absent h).mpr hw, Option.getD_none, Option.getD_none]
  · rintro rfl
    rw [effective]
    cases hc : SortedMap.lookup coding (found.foldl record []) with
    | some q => exact .named ((lookup_explicit h).mp hc)
    | none =>
      cases hw : SortedMap.lookup "*" (found.foldl record []) with
      | some q => exact .wildcard ((lookup_absent h).mp hc) ((lookup_explicit h).mp hw)
      | none => exact .unwanted ((lookup_absent h).mp hc) ((lookup_absent h).mp hw)

/-- What is chosen, in terms of the first of the best codings. -/
theorem chosen_iff (supported : List String) : Chosen items supported coding ↔
    (∃ before after, Extremum.First (effective (found.foldl record [])) 0 supported coding before after) ∧
      ∀ q, SortedMap.lookup "identity" (found.foldl record []) = some q → q ≤ effective (found.foldl record []) coding := by
  simp only [Chosen, effective_iff h, lookup_explicit h, forall_eq', ← exists_and_right]
  constructor
  · rintro ⟨before, after, _, hsplit, rfl, habove, hbefore, hafter, hidentity⟩
    exact ⟨before, after, ⟨hsplit, habove, hbefore, hafter⟩, hidentity⟩
  · rintro ⟨before, after, ⟨hsplit, habove, hbefore, hafter⟩, hidentity⟩
    exact ⟨before, after, _, hsplit, rfl, habove, hbefore, hafter, hidentity⟩

theorem exhausted_iff (supported : List String) : Exhausted items supported ↔
    (∀ coding ∈ supported, effective (found.foldl record []) coding = 0) ∧
      (SortedMap.lookup "identity" (found.foldl record [])).or (SortedMap.lookup "*" (found.foldl record [])) = some 0 := by
  rw [Exhausted]
  simp only [effective_iff h, forall_eq', ← lookup_explicit h, ← lookup_absent h]
  refine and_congr_right fun _ => ?_
  cases SortedMap.lookup "identity" (found.foldl record []) with
  | none => simp
  | some q => simp

/-- The three answers to offers that were understood. -/
theorem choose_spec (supported : List String) :
    (∃ coding, choose (found.foldl record []) supported = .coding coding ∧ Chosen items supported coding) ∨
    (choose (found.foldl record []) supported = .notAcceptable ∧ Exhausted items supported) ∨
    (choose (found.foldl record []) supported = .identity ∧ (∀ coding, ¬ Chosen items supported coding) ∧
      ¬ Exhausted items supported) := by
  simp only [chosen_iff h, exhausted_iff h]
  generalize found.foldl record [] = offers
  rw [choose, best_eq]
  rcases Extremum.foldl_keepBest (effective offers) 0 supported with ⟨hfold, hall⟩ | ⟨best, before, after, hfold, hfirst⟩
  · have hnone : ∀ coding before after, ¬ Extremum.First (effective offers) 0 supported coding before after := by
      intro coding before after hfirst
      exact absurd (hall coding (hfirst.split ▸ by simp)) (not_le.mpr hfirst.above)
    have hzero : ∀ coding ∈ supported, effective offers coding = 0 := fun coding hc => Nat.le_zero.mp (hall coding hc)
    have hunchosen : ∀ coding, ¬ ((∃ before after, Extremum.First (effective offers) 0 supported coding before after) ∧
        ∀ q, SortedMap.lookup "identity" offers = some q → q ≤ effective offers coding) := by
      rintro coding ⟨⟨before, after, hfirst⟩, _⟩
      exact hnone coding before after hfirst
    rw [hfold]
    dsimp only
    by_cases hpositive : (SortedMap.lookup "identity" offers).any (· > 0) = true
    · rw [if_pos hpositive]
      refine .inr (.inr ⟨rfl, hunchosen, fun hexhausted => ?_⟩)
      cases hidentity : SortedMap.lookup "identity" offers with
      | none => simp [hidentity] at hpositive
      | some q =>
        rw [hidentity] at hpositive hexhausted
        have hq : q = 0 := by simpa using hexhausted.2
        simp [hq] at hpositive
    · rw [if_neg hpositive]
      split
      · rename_i hrefused
        exact .inr (.inl ⟨rfl, hzero, hrefused⟩)
      · rename_i hrefused
        exact .inr (.inr ⟨rfl, hunchosen, fun hexhausted => hrefused hexhausted.2⟩)
  · have hbest : best ∈ supported := hfirst.split ▸ by simp
    have hopen : ¬ ((∀ coding ∈ supported, effective offers coding = 0) ∧
        (SortedMap.lookup "identity" offers).or (SortedMap.lookup "*" offers) = some 0) :=
      fun hexhausted => absurd (hexhausted.1 best hbest) hfirst.above.ne'
    rw [hfold]
    dsimp only
    by_cases hbetter : (SortedMap.lookup "identity" offers).any (· > effective offers best) = true
    · rw [if_pos hbetter]
      refine .inr (.inr ⟨rfl, ?_, hopen⟩)
      rintro coding ⟨⟨before', after', hfirst'⟩, hidentity⟩
      obtain rfl := hfirst.unique hfirst'
      cases hi : SortedMap.lookup "identity" offers with
      | none => simp [hi] at hbetter
      | some q =>
        have hle := hidentity q hi
        rw [hi] at hbetter
        have hlt : effective offers best < q := by simpa using hbetter
        exact absurd hle (not_le.mpr hlt)
    · rw [if_neg hbetter]
      refine .inl ⟨best, rfl, ⟨before, after, hfirst⟩, fun q hq => ?_⟩
      rw [hq] at hbetter
      simpa using hbetter

theorem chosen_unique {supported : List String} {other : String} (hc : Chosen items supported coding)
    (hc' : Chosen items supported other) : coding = other := by
  obtain ⟨⟨_, _, hfirst⟩, _⟩ := (chosen_iff h supported).mp hc
  obtain ⟨⟨_, _, hfirst'⟩, _⟩ := (chosen_iff h supported).mp hc'
  exact hfirst.unique hfirst'

theorem chosen_not_exhausted {supported : List String} (hc : Chosen items supported coding) : ¬ Exhausted items supported := by
  intro hexhausted
  obtain ⟨⟨_, _, hfirst⟩, _⟩ := (chosen_iff h supported).mp hc
  exact absurd (((exhausted_iff h supported).mp hexhausted).1 coding (hfirst.split ▸ by simp)) hfirst.above.ne'

end

theorem parse_iff {headers : HeaderMap} {offers : Offers} :
    parse headers = some offers ↔ ∃ found, Offered (items headers) found ∧ offers = found.foldl record [] := parseLines_iff

theorem wellFormed_iff {headers : HeaderMap} : WellFormed (items headers) ↔ ∃ found, Offered (items headers) found := by
  constructor
  · generalize items headers = items
    intro h
    induction items with
    | nil => exact ⟨[], .nil⟩
    | cons item items ih =>
      obtain ⟨coding, q, hoffer⟩ := h item List.mem_cons_self
      obtain ⟨found, hfound⟩ := ih fun item hitem => h item (List.mem_cons_of_mem _ hitem)
      exact ⟨(coding, q) :: found, .cons hoffer hfound⟩
  · rintro ⟨found, hfound⟩ item hitem
    obtain ⟨e, _, hoffer⟩ := hfound.mem_items hitem
    exact ⟨e.1, e.2, hoffer⟩

theorem select_malformed {headers : HeaderMap} {supported : List String} (h : ¬ WellFormed (items headers)) :
    select headers supported = .invalid := by
  have hnone : parse headers = none := by
    rw [Option.eq_none_iff_forall_ne_some]
    intro offers hparse
    obtain ⟨found, hfound, _⟩ := parse_iff.1 hparse
    exact h (wellFormed_iff.2 ⟨found, hfound⟩)
  rw [select, hnone]

theorem select_offered {headers : HeaderMap} {supported : List String} {found : Offers} (h : Offered (items headers) found) :
    select headers supported = choose (found.foldl record []) supported := by
  rw [select, parse_iff.2 ⟨found, h, rfl⟩]

/-- What `select` answers, by what the items say. -/
inductive Answers (items : List (List UInt8)) (supported : List String) : Selection → Prop where
  | invalid (h : ¬ WellFormed items) : Answers items supported .invalid
  | coding {coding : String} (h : WellFormed items) (hc : Chosen items supported coding) : Answers items supported (.coding coding)
  | notAcceptable (h : WellFormed items) (he : Exhausted items supported) : Answers items supported .notAcceptable
  | identity (h : WellFormed items) (hc : ∀ coding, ¬ Chosen items supported coding) (he : ¬ Exhausted items supported) :
    Answers items supported .identity

theorem select_answers (headers : HeaderMap) (supported : List String) :
    Answers (items headers) supported (select headers supported) := by
  by_cases hwell : WellFormed (items headers)
  · obtain ⟨found, hfound⟩ := wellFormed_iff.1 hwell
    rw [select_offered hfound]
    rcases choose_spec hfound supported with ⟨coding, hchoose, hc⟩ | ⟨hchoose, he⟩ | ⟨hchoose, hc, he⟩
    · rw [hchoose]
      exact .coding hwell hc
    · rw [hchoose]
      exact .notAcceptable hwell he
    · rw [hchoose]
      exact .identity hwell hc he
  · rw [select_malformed hwell]
    exact .invalid hwell

/-- There is one answer. -/
theorem answers_iff {headers : HeaderMap} {supported : List String} {s : Selection} :
    select headers supported = s ↔ Answers (items headers) supported s := by
  constructor
  · rintro rfl
    exact select_answers headers supported
  · intro h
    have hselect := select_answers headers supported
    by_cases hwell : WellFormed (items headers)
    · obtain ⟨found, hfound⟩ := wellFormed_iff.1 hwell
      generalize select headers supported = t at hselect
      cases h with
      | invalid hn => exact absurd hwell hn
      | coding _ hc =>
        cases hselect with
        | invalid hn => exact absurd hwell hn
        | coding _ hc' => rw [chosen_unique hfound hc' hc]
        | notAcceptable _ he => exact absurd he (chosen_not_exhausted hfound hc)
        | identity _ hn _ => exact absurd hc (hn _)
      | notAcceptable _ he =>
        cases hselect with
        | invalid hn => exact absurd hwell hn
        | coding _ hc => exact absurd he (chosen_not_exhausted hfound hc)
        | notAcceptable => rfl
        | identity _ _ hn => exact absurd he hn
      | identity _ hn hopen =>
        cases hselect with
        | invalid hn' => exact absurd hwell hn'
        | coding _ hc => exact absurd hc (hn _)
        | notAcceptable _ he => exact absurd he hopen
        | identity => rfl
    · rw [select_malformed hwell]
      cases h with
      | invalid => rfl
      | coding hw => exact absurd hw hwell
      | notAcceptable hw => exact absurd hw hwell
      | identity hw => exact absurd hw hwell

/-! Order and lines do not matter. -/

section
variable {a b : List (List UInt8)} {supported : List String}

theorem explicit_congr (h : ∀ item, item ∈ a ↔ item ∈ b) {coding : String} {q : Nat} :
    Explicit a coding q ↔ Explicit b coding q := by
  simp only [Explicit, h]

theorem effective_congr (h : ∀ item, item ∈ a ↔ item ∈ b) {coding : String} {q : Nat} (hq : Effective a coding q) :
    Effective b coding q := by
  cases hq with
  | named hq => exact .named ((explicit_congr h).mp hq)
  | wildcard hn hq => exact .wildcard (fun item hitem => hn item ((h item).mpr hitem)) ((explicit_congr h).mp hq)
  | unwanted hn hw =>
    exact .unwanted (fun item hitem => hn item ((h item).mpr hitem)) fun item hitem => hw item ((h item).mpr hitem)

theorem answers_congr (h : ∀ item, item ∈ a ↔ item ∈ b) {s : Selection} (hs : Answers a supported s) :
    Answers b supported s := by
  have heffective : ∀ {coding q}, Effective a coding q ↔ Effective b coding q := fun {coding q} =>
    ⟨effective_congr h, effective_congr fun item => (h item).symm⟩
  have hwell : WellFormed a ↔ WellFormed b := by simp only [WellFormed, h]
  have hchosen : ∀ coding, Chosen a supported coding ↔ Chosen b supported coding := by
    intro coding
    simp only [Chosen, heffective, explicit_congr h]
  have hexhausted : Exhausted a supported ↔ Exhausted b supported := by
    simp only [Exhausted, heffective, explicit_congr h, h]
  cases hs with
  | invalid hn => exact .invalid (mt hwell.mpr hn)
  | coding hw hc => exact .coding (hwell.mp hw) ((hchosen _).mp hc)
  | notAcceptable hw he => exact .notAcceptable (hwell.mp hw) (hexhausted.mp he)
  | identity hw hc he => exact .identity (hwell.mp hw) (fun coding hb => hc coding ((hchosen coding).mpr hb)) (mt hexhausted.mpr he)

end

/-- A refused coding is never picked, and what is picked depends on the items alone. -/
theorem select_exact (headers : HeaderMap) (supported : List String) :
    (∀ headers' : HeaderMap, (items headers').Perm (items headers) → select headers' supported = select headers supported) ∧
    (select headers supported = .invalid ↔ ∃ item ∈ items headers, ∀ coding q, ¬ Offer item coding q) ∧
    (∀ coding, select headers supported = .coding coding ↔
      WellFormed (items headers) ∧ Chosen (items headers) supported coding) ∧
    (select headers supported = .notAcceptable ↔ WellFormed (items headers) ∧ Exhausted (items headers) supported) ∧
    (select headers supported = .identity ↔ WellFormed (items headers) ∧
      (∀ coding, ¬ Chosen (items headers) supported coding) ∧ ¬ Exhausted (items headers) supported) := by
  refine ⟨?_, ?_, ?_, ?_, ?_⟩
  · intro headers' hperm
    exact answers_iff.2 (answers_congr (fun item => hperm.mem_iff.symm) (select_answers headers supported))
  · rw [answers_iff]
    have hbad : (∃ item ∈ items headers, ∀ coding q, ¬ Offer item coding q) ↔ ¬ WellFormed (items headers) := by
      simp only [WellFormed, not_forall, not_exists, exists_prop]
    rw [hbad]
    constructor
    · rintro ⟨h⟩
      exact h
    · exact .invalid
  · intro coding
    rw [answers_iff]
    constructor
    · rintro (_ | ⟨hw, hc⟩)
      exact ⟨hw, hc⟩
    · exact fun h => .coding h.1 h.2
  · rw [answers_iff]
    constructor
    · rintro (_ | _ | ⟨hw, he⟩)
      exact ⟨hw, he⟩
    · exact fun h => .notAcceptable h.1 h.2
  · rw [answers_iff]
    constructor
    · rintro (_ | _ | _ | ⟨hw, hc, he⟩)
      exact ⟨hw, hc, he⟩
    · exact fun h => .identity h.1 h.2.1 h.2.2

/-- Two lines in either order. -/
theorem select_exact_lines : select [("accept-encoding", [0x2a]), ("accept-encoding", [0x62, 0x72])] ["br"] =
    select [("accept-encoding", [0x62, 0x72]), ("accept-encoding", [0x2a])] ["br"] :=
  (select_exact _ _).1 _ (by simpa [items, HeaderMap.getAll] using List.perm_append_comm)

end Gatel.EncodingAccept
