import Gatel.Bundle.Ranges
import Gatel.Cgi.Head

namespace Gatel.Preconditions
open Ranges (tag)
open Cgi (isWhitespace trimAscii)

variable {parseHttpDate : String → Option Nat}

/-- A date written once, and well. -/
def singleDate (parseHttpDate : String → Option Nat) (headers : HeaderMap) (name : String) : Option Nat :=
  match headers.getAll name with
  | [] => none
  | value :: others => do
    let date ← parseHttpDate (← HeaderValue.toStr value)
    if others = [] then some date else none

def trimStart (bytes : List UInt8) : List UInt8 := bytes.dropWhile isWhitespace

/-- What has been seen of the lines so far. -/
structure Scan where
  matched : Bool
  wildcards : Nat
  tags : Nat

abbrev Tag := Bool × List UInt8

/-- Whether a listed tag is the current one, by weak or by strong comparison. -/
def sameTag (current : Option Tag) (weak : Bool) (listed : Tag) : Bool :=
  current.any fun current => current.2 == listed.2 && (weak || (!listed.1 && !current.1))

def Scan.see (current : Option Tag) (weak : Bool) (s : Scan) (listed : Tag) : Scan :=
  { s with tags := s.tags + 1, matched := s.matched || sameTag current weak listed }

/-- One line, from where a tag or a comma is due. -/
@[grind =] def scanLine (current : Option Tag) (weak : Bool) (input : List UInt8) (s : Scan) : Option Scan :=
  match input with
  | [] => some s
  | first :: rest =>
    if first = 0x2c then scanLine current weak (trimStart rest) s
    else
      let lead := if [0x57, 0x2f].isPrefixOf (first :: rest) then 2 else 0
      if (first :: rest)[lead]? ≠ some 0x22 then none
      else match ((first :: rest).drop (lead + 1)).findIdx? (· == 0x22) with
        | none => none
        | some close =>
          let last := lead + 1 + close
          match tag ((first :: rest).take (last + 1)) with
          | none => none
          | some listed =>
            let after := trimStart ((first :: rest).drop (last + 1))
            if after ≠ [] ∧ after.head? ≠ some 0x2c then none else scanLine current weak after (s.see current weak listed)
termination_by input.length
decreasing_by
  · exact Nat.lt_succ_of_le (List.dropWhile_suffix _).length_le
  · refine Nat.lt_of_le_of_lt (List.dropWhile_suffix _).length_le ?_
    simp only [List.length_drop, List.length_cons]
    omega

/-- All lines as one list; nothing where the syntax is wrong. -/
def tagsMatch (headers : HeaderMap) (name : String) (current : Option (List UInt8)) (weak : Bool) : Option Bool := do
  let current := current.bind tag
  let s ← (headers.getAll name).foldlM (fun s field =>
    let input := trimAscii field
    if input = [0x2a] then some { s with wildcards := s.wildcards + 1 } else scanLine current weak input s) ⟨false, 0, 0⟩
  if s.wildcards > 1 ∨ (s.wildcards ≠ 0 ∧ s.tags ≠ 0) then none
  else some (s.wildcards == 1 || s.matched)

/-- Whether a method selects or changes nothing. -/
def exempt (method : String) : Bool := method = "CONNECT" || method = "OPTIONS" || method = "TRACE"

/-- What `If-Match`, or else `If-Unmodified-Since`, answers. -/
def unchanged (parseHttpDate : String → Option Nat) (request selected : HeaderMap) : Option Nat :=
  let current := selected.get "etag"
  let modified := singleDate parseHttpDate selected "last-modified"
  if request.containsKey "if-match" then
    match tagsMatch request "if-match" current false with
    | some true => none
    | some false => some 412
    | none => some 400
  else match singleDate parseHttpDate request "if-unmodified-since", modified with
    | some since, some modified => if modified > since then some 412 else none
    | _, _ => none

/-- What `If-None-Match`, or else `If-Modified-Since`, answers. -/
def changed (parseHttpDate : String → Option Nat) (method : String) (request selected : HeaderMap) : Option Nat :=
  let current := selected.get "etag"
  let modified := singleDate parseHttpDate selected "last-modified"
  let retrieval := method = "GET" || method = "HEAD"
  if request.containsKey "if-none-match" then
    match tagsMatch request "if-none-match" current true with
    | some true => some (if retrieval then 304 else 412)
    | some false => none
    | none => some 400
  else if retrieval then
    match singleDate parseHttpDate request "if-modified-since", modified with
    | some since, some modified => if modified ≤ since then some 304 else none
    | _, _ => none
  else none

/-- Origin evaluation after normal resource checks, before ranges. -/
def evaluate (parseHttpDate : String → Option Nat) (method : String) (request selected : HeaderMap) : Option Nat :=
  if exempt method then none
  else match unchanged parseHttpDate request selected with
    | some status => some status
    | none => changed parseHttpDate method request selected

/-! The grammar of a list of tags. -/

def Blank (l : List UInt8) : Prop := ∀ b ∈ l, isWhitespace b = true

/-- An entity tag as it is written. -/
def Spelled (text : List UInt8) (t : Tag) : Prop :=
  text = (if t.1 then [0x57, 0x2f] else []) ++ 0x22 :: t.2 ++ [0x22] ∧
    ∀ b ∈ t.2, b = 0x21 ∨ (0x23 ≤ b ∧ b ≤ 0x7e) ∨ 0x80 ≤ b

/-- What may stand between two commas. -/
inductive Element : List UInt8 → List Tag → Prop where
  | blank {l : List UInt8} (h : Blank l) : Element l []
  | tag {lead text trail : List UInt8} {t : Tag} (hl : Blank lead) (ht : Spelled text t) (hr : Blank trail) :
    Element (lead ++ text ++ trail) [t]

inductive Listed : List UInt8 → List Tag → Prop where
  | last {l : List UInt8} {tags : List Tag} (h : Element l tags) : Listed l tags
  | more {l rest : List UInt8} {tags others : List Tag} (h : Element l tags) (hr : Listed rest others) :
    Listed (l ++ 0x2c :: rest) (tags ++ others)

/-- The lines, taken together, list these tags. -/
inductive Lines : List (List UInt8) → List Tag → Prop where
  | nil : Lines [] []
  | cons {line : List UInt8} {lines : List (List UInt8)} {tags others : List Tag} (h : Listed line tags)
    (hr : Lines lines others) : Lines (line :: lines) (tags ++ others)

/-- A line that is `*`. -/
def Star (line : List UInt8) : Prop := ∃ lead trail, line = lead ++ 0x2a :: trail ∧ Blank lead ∧ Blank trail

/-- A single `*`: the other lines have no element. -/
def Single (lines : List (List UInt8)) : Prop :=
  ∃ before line after, lines = before ++ line :: after ∧ Star line ∧ Lines (before ++ after) []

def WellFormed (lines : List (List UInt8)) : Prop := Single lines ∨ ∃ tags, Lines lines tags

/-- The current tag is one that is listed. -/
def Holds (lines : List (List UInt8)) (current : Option (List UInt8)) (weak : Bool) : Prop :=
  Single lines ∨ ∃ tags, Lines lines tags ∧ ∃ listed ∈ tags, ∃ text own, current = some text ∧ Spelled text own ∧
    own.2 = listed.2 ∧ (weak = true ∨ (listed.1 = false ∧ own.1 = false))

/-- The lines of one list can be written as one line. -/
def Resplit (lines lines' : List (List UInt8)) : Prop :=
  ∃ before a b after tags, lines = before ++ a :: b :: after ∧ Lines lines tags ∧ lines' = before ++ (a ++ 0x2c :: b) :: after

/-- The one date of a field, where it is well written. -/
def Dated (parseHttpDate : String → Option Nat) (headers : HeaderMap) (name : String) (date : Nat) : Prop :=
  ∃ value text, headers.getAll name = [value] ∧ HeaderValue.toStr value = some text ∧ parseHttpDate text = some date

/-- The first condition: tags before dates. -/
inductive Unchanged (parseHttpDate : String → Option Nat) (request selected : HeaderMap) : Option Nat → Prop where
  | malformed (h : request.getAll "if-match" ≠ []) (hm : ¬ WellFormed (request.getAll "if-match")) :
    Unchanged parseHttpDate request selected (some 400)
  | failed (h : request.getAll "if-match" ≠ []) (hw : WellFormed (request.getAll "if-match"))
    (hm : ¬ Holds (request.getAll "if-match") (selected.get "etag") false) : Unchanged parseHttpDate request selected (some 412)
  | held (h : request.getAll "if-match" ≠ []) (hw : WellFormed (request.getAll "if-match"))
    (hm : Holds (request.getAll "if-match") (selected.get "etag") false) : Unchanged parseHttpDate request selected none
  | modified {since date : Nat} (h : request.getAll "if-match" = []) (hs : Dated parseHttpDate request "if-unmodified-since" since)
    (hd : Dated parseHttpDate selected "last-modified" date) (hlt : since < date) :
    Unchanged parseHttpDate request selected (some 412)
  | undated (h : request.getAll "if-match" = [])
    (hd : ¬ ∃ since date, Dated parseHttpDate request "if-unmodified-since" since ∧
      Dated parseHttpDate selected "last-modified" date ∧ since < date) : Unchanged parseHttpDate request selected none

/-- The second condition; only retrievals are answered without a body. -/
inductive Changed (parseHttpDate : String → Option Nat) (retrieval : Prop) (request selected : HeaderMap) : Option Nat → Prop where
  | malformed (h : request.getAll "if-none-match" ≠ []) (hm : ¬ WellFormed (request.getAll "if-none-match")) :
    Changed parseHttpDate retrieval request selected (some 400)
  | retrieved (h : request.getAll "if-none-match" ≠ []) (hw : WellFormed (request.getAll "if-none-match"))
    (hm : Holds (request.getAll "if-none-match") (selected.get "etag") true) (hr : retrieval) :
    Changed parseHttpDate retrieval request selected (some 304)
  | refused (h : request.getAll "if-none-match" ≠ []) (hw : WellFormed (request.getAll "if-none-match"))
    (hm : Holds (request.getAll "if-none-match") (selected.get "etag") true) (hr : ¬ retrieval) :
    Changed parseHttpDate retrieval request selected (some 412)
  | unmatched (h : request.getAll "if-none-match" ≠ []) (hw : WellFormed (request.getAll "if-none-match"))
    (hm : ¬ Holds (request.getAll "if-none-match") (selected.get "etag") true) :
    Changed parseHttpDate retrieval request selected none
  | unmodified {since date : Nat} (h : request.getAll "if-none-match" = []) (hr : retrieval)
    (hs : Dated parseHttpDate request "if-modified-since" since) (hd : Dated parseHttpDate selected "last-modified" date)
    (hle : date ≤ since) : Changed parseHttpDate retrieval request selected (some 304)
  | undated (h : request.getAll "if-none-match" = [])
    (hd : ¬ (retrieval ∧ ∃ since date, Dated parseHttpDate request "if-modified-since" since ∧
      Dated parseHttpDate selected "last-modified" date ∧ date ≤ since)) : Changed parseHttpDate retrieval request selected none

/-- The status by the order of the conditions. -/
def Decided (parseHttpDate : String → Option Nat) (method : String) (request selected : HeaderMap) (r : Option Nat) : Prop :=
  (∃ status, Unchanged parseHttpDate request selected (some status) ∧ r = some status) ∨
    (Unchanged parseHttpDate request selected none ∧ Changed parseHttpDate (method = "GET" ∨ method = "HEAD") request selected r)

/-! Blanks around elements. -/

theorem isWhitespace_comma : isWhitespace 0x2c = false := rfl

theorem isWhitespace_quote : isWhitespace 0x22 = false := rfl

theorem Blank.append {a b : List UInt8} (ha : Blank a) (hb : Blank b) : Blank (a ++ b) := by
  intro c hc
  rcases List.mem_append.mp hc with hc | hc
  · exact ha c hc
  · exact hb c hc

theorem trimStart_blank {lead l : List UInt8} (h : Blank lead) : trimStart (lead ++ l) = trimStart l :=
  List.dropWhile_append_of_pos h

theorem trimStart_printed {b : UInt8} {l : List UInt8} (h : isWhitespace b = false) : trimStart (b :: l) = b :: l := by
  simp [trimStart, h]

theorem exists_trimStart (l : List UInt8) : ∃ lead, Blank lead ∧ l = lead ++ trimStart l :=
  ⟨l.takeWhile isWhitespace, fun _ hb => List.mem_takeWhile_imp hb, List.takeWhile_append_dropWhile.symm⟩

theorem trimStart_eq_nil {l : List UInt8} : trimStart l = [] ↔ Blank l := List.dropWhile_eq_nil_iff

theorem trimStart_idem (l : List UInt8) : trimStart (trimStart l) = trimStart l := List.dropWhile_idempotent isWhitespace l

theorem exists_trimAscii (l : List UInt8) :
    ∃ lead trail, Blank lead ∧ Blank trail ∧ l = lead ++ trimAscii l ++ trail := by
  obtain ⟨lead, trail, hl, ht, h⟩ := Text.exists_around isWhitespace isWhitespace l
  exact ⟨lead, trail, hl, ht, h⟩

theorem trimStart_trimAscii (l : List UInt8) : trimStart (trimAscii l) = trimAscii l := by
  cases hc : trimAscii l with
  | nil => rfl
  | cons b core =>
    have hfront : trimAscii l <+: trimStart l := by
      rw [trimAscii, ← List.reverse_suffix, List.reverse_reverse]
      exact List.dropWhile_suffix _
    obtain ⟨rest, hrest⟩ := hfront
    rw [hc] at hrest
    have hhead : (trimStart l).head? = some b := by simp [← hrest]
    have hb := List.head?_dropWhile_not isWhitespace l
    rw [← trimStart, hhead] at hb
    exact trimStart_printed hb

theorem star_iff {line : List UInt8} : trimAscii line = [0x2a] ↔ Star line := by
  constructor
  · intro h
    obtain ⟨lead, trail, hl, ht, hline⟩ := exists_trimAscii line
    rw [h] at hline
    exact ⟨lead, trail, by simpa using hline, hl, ht⟩
  · rintro ⟨lead, trail, rfl, hl, ht⟩
    have hcore : ∀ c ∈ [(0x2a : UInt8)], isWhitespace c = false ∧ isWhitespace c = false := by simp [isWhitespace]
    simpa [trimAscii] using Text.strip_around hl ht hcore

theorem Spelled.ends {text : List UInt8} {t : Tag} (h : Spelled text t) :
    (∃ b rest, text = b :: rest ∧ isWhitespace b = false ∧ b ≠ 0x2c ∧ b ≠ 0x2a) ∧ ∃ front, text = front ++ [0x22] := by
  obtain ⟨rfl, _⟩ := h
  refine ⟨?_, _, rfl⟩
  cases t.1
  · exact ⟨0x22, t.2 ++ [0x22], rfl, rfl, by decide, by decide⟩
  · exact ⟨0x57, 0x2f :: 0x22 :: t.2 ++ [0x22], rfl, rfl, by decide, by decide⟩

theorem Element.pad_left {lead l : List UInt8} {tags : List Tag} (hl : Blank lead) (h : Element l tags) :
    Element (lead ++ l) tags := by
  cases h with
  | blank h => exact .blank (hl.append h)
  | tag hlead ht hr =>
    rw [← List.append_assoc, ← List.append_assoc]
    exact .tag (hl.append hlead) ht hr

theorem Element.pad_right {trail l : List UInt8} {tags : List Tag} (ht : Blank trail) (h : Element l tags) :
    Element (l ++ trail) tags := by
  cases h with
  | blank h => exact .blank (h.append ht)
  | tag hlead htag hr =>
    rw [List.append_assoc]
    exact .tag hlead htag (hr.append ht)

theorem Element.unpad_right {b : UInt8} {l : List UInt8} {tags : List Tag} (hb : isWhitespace b = true)
    (h : Element (l ++ [b]) tags) : Element l tags := by
  generalize hline : l ++ [b] = line at h
  cases h with
  | blank h =>
    subst hline
    exact .blank fun c hc => h c (List.mem_append_left _ hc)
  | @tag lead text trail t hlead ht hr =>
    rcases List.eq_nil_or_concat trail with rfl | ⟨before, c, rfl⟩
    · obtain ⟨front, rfl⟩ := ht.ends.2
      rw [List.append_nil, ← List.append_assoc] at hline
      obtain ⟨_, hquote⟩ := List.append_inj' hline rfl
      obtain rfl : b = 0x22 := by simpa using hquote
      exact absurd hb (by simp [isWhitespace_quote])
    · rw [List.concat_eq_append, ← List.append_assoc] at hline
      obtain ⟨rfl, _⟩ := List.append_inj' hline rfl
      exact .tag hlead ht fun d hd => hr d (by simp [hd])

theorem Listed.pad_left {lead l : List UInt8} {tags : List Tag} (hl : Blank lead) (h : Listed l tags) :
    Listed (lead ++ l) tags := by
  cases h with
  | last h => exact .last (h.pad_left hl)
  | more h hr =>
    rw [← List.append_assoc]
    exact .more (h.pad_left hl) hr

theorem Listed.pad_right {trail l : List UInt8} {tags : List Tag} (ht : Blank trail) (h : Listed l tags) :
    Listed (l ++ trail) tags := by
  induction h with
  | last h => exact .last (h.pad_right ht)
  | more h hr ih =>
    rw [List.append_assoc, List.cons_append]
    exact .more h ih

theorem Listed.unpad_last {b : UInt8} {line : List UInt8} {tags : List Tag} (hb : isWhitespace b = true)
    (h : Listed line tags) : ∀ {l : List UInt8}, line = l ++ [b] → Listed l tags := by
  induction h with
  | last h =>
    intro l hline
    exact .last (Element.unpad_right hb (hline ▸ h))
  | @more first rest _ _ h hr ih =>
    intro l hline
    rcases List.eq_nil_or_concat rest with rfl | ⟨before, c, rfl⟩
    · obtain ⟨_, hcomma⟩ := List.append_inj' hline rfl
      obtain rfl : b = 0x2c := by simpa using hcomma.symm
      exact absurd hb (by simp [isWhitespace_comma])
    · rw [List.concat_eq_append] at hline ih
      rw [← List.cons_append, ← List.append_assoc] at hline
      obtain ⟨rfl, hlast⟩ := List.append_inj' hline rfl
      exact .more h (ih (by rw [hlast]))

theorem Listed.unpad_right {trail : List UInt8} (ht : Blank trail) :
    ∀ {l : List UInt8} {tags : List Tag}, Listed (l ++ trail) tags → Listed l tags := by
  induction trail with
  | nil =>
    intro l tags h
    simpa using h
  | cons b trail ih =>
    intro l tags h
    have hfront : Listed (l ++ [b]) tags := ih (fun c hc => ht c (List.mem_cons_of_mem b hc)) (by simpa using h)
    exact hfront.unpad_last (ht b List.mem_cons_self) rfl

/-! The scan of one line. -/

section
variable (current : Option Tag) (weak : Bool)

theorem scanLine_nil (s : Scan) : scanLine current weak [] s = some s := by
  rw [scanLine]

theorem scanLine_comma (rest : List UInt8) (s : Scan) :
    scanLine current weak (0x2c :: rest) s = scanLine current weak (trimStart rest) s := by
  rw [scanLine]
  simp

/-- After a tag, the line ends or a comma follows. -/
def Due (l : List UInt8) : Prop := l = [] ∨ ∃ rest, l = 0x2c :: rest

theorem due_iff {l : List UInt8} : ¬ (l ≠ [] ∧ l.head? ≠ some 0x2c) ↔ Due l := by
  cases l with
  | nil => simp [Due]
  | cons b l => simp [Due]

theorem scanLine_tag {text rest : List UInt8} {t : Tag} (h : Spelled text t) (hdue : Due (trimStart rest)) (s : Scan) :
    scanLine current weak (text ++ rest) s = scanLine current weak (trimStart rest) (s.see current weak t) := by
  obtain ⟨weakly, inner⟩ := t
  obtain ⟨⟨b, more, htext, _, hcomma, _⟩, _⟩ := h.ends
  have hquote : ∀ c ∈ inner, (c == 0x22) = false := by
    intro c hc
    rcases h.2 c hc with rfl | ⟨hlow, _⟩ | hhigh
    · rfl
    · exact beq_false_of_ne (by rintro rfl; exact absurd hlow (by decide))
    · exact beq_false_of_ne (by rintro rfl; exact absurd hhigh (by decide))
  have hclose : (inner ++ 0x22 :: rest).findIdx? (· == 0x22) = some inner.length := by
    rw [List.findIdx?_append, List.findIdx?_eq_none_iff.mpr hquote]
    simp [List.findIdx?_cons]
  have hline : text ++ rest = b :: (more ++ rest) := by rw [htext, List.cons_append]
  rw [hline, scanLine, if_neg hcomma, ← hline]
  have hlength : text.length = (if weakly then 2 else 0) + 1 + inner.length + 1 := by
    rw [h.1]
    cases weakly <;> simp <;> omega
  have hlead : (if [0x57, 0x2f].isPrefixOf (text ++ rest) then 2 else 0) = if weakly then 2 else 0 := by
    rw [h.1]
    cases weakly <;> simp
  have hopen : (text ++ rest)[if weakly then 2 else 0]? = some 0x22 := by
    rw [h.1]
    cases weakly <;> simp
  have hinner : (text ++ rest).drop ((if weakly then 2 else 0) + 1) = inner ++ 0x22 :: rest := by
    rw [h.1]
    cases weakly <;> simp
  have htag : tag text = some (weakly, inner) := Ranges.tag_iff.mpr h
  simp only [hlead, hopen, hinner, hclose, ← hlength, List.take_left', List.drop_left', htag, if_neg (due_iff.2 hdue), ne_eq,
    not_true_eq_false, ↓reduceIte]

theorem scanLine_some {first : UInt8} {rest : List UInt8} {s s' : Scan} (hfirst : first ≠ 0x2c)
    (h : scanLine current weak (first :: rest) s = some s') :
    ∃ text tail t, first :: rest = text ++ tail ∧ Spelled text t ∧ Due (trimStart tail) ∧ tail.length < (first :: rest).length ∧
      scanLine current weak (trimStart tail) (s.see current weak t) = some s' := by
  rw [scanLine, if_neg hfirst] at h
  generalize (if [0x57, 0x2f].isPrefixOf (first :: rest) then 2 else 0) = lead at h
  dsimp only at h
  split at h
  · cases h
  · cases hclose : ((first :: rest).drop (lead + 1)).findIdx? (· == 0x22) with
    | none => simp only [hclose, reduceCtorEq] at h
    | some close =>
      simp only [hclose] at h
      cases htag : tag ((first :: rest).take (lead + 1 + close + 1)) with
      | none => simp only [htag, reduceCtorEq] at h
      | some t =>
        simp only [htag] at h
        split at h
        · cases h
        · rename_i hdue
          refine ⟨_, _, t, (List.take_append_drop _ _).symm, Ranges.tag_iff.mp htag, due_iff.1 hdue, ?_, h⟩
          simp only [List.length_drop, List.length_cons]
          omega

theorem scanLine_complete {line : List UInt8} {tags : List Tag} (h : Listed line tags) (s : Scan) :
    scanLine current weak (trimStart line) s = some (tags.foldl (Scan.see current weak) s) := by
  induction h generalizing s with
  | last h =>
    cases h with
    | blank h => rw [trimStart_eq_nil.2 h, scanLine_nil, List.foldl_nil]
    | @tag lead text trail t hlead ht hr =>
      obtain ⟨⟨b, more, rfl, hb, _⟩, _⟩ := ht.ends
      have hnil := trimStart_eq_nil.2 hr
      rw [List.append_assoc, trimStart_blank hlead, List.cons_append, trimStart_printed hb, ← List.cons_append,
        scanLine_tag current weak ht (.inl hnil), hnil, scanLine_nil]
      rfl
  | @more l rest _ _ h hr ih =>
    cases h with
    | blank h =>
      rw [trimStart_blank h, trimStart_printed isWhitespace_comma, scanLine_comma, ih, List.nil_append]
    | @tag lead text trail t hlead ht hblank =>
      obtain ⟨⟨b, more, rfl, hb, _⟩, _⟩ := ht.ends
      have hcomma : trimStart (trail ++ 0x2c :: rest) = 0x2c :: rest := by
        rw [trimStart_blank hblank, trimStart_printed isWhitespace_comma]
      rw [List.append_assoc, List.append_assoc, trimStart_blank hlead, List.cons_append, trimStart_printed hb,
        ← List.cons_append, scanLine_tag current weak ht (.inr ⟨rest, hcomma⟩), hcomma, scanLine_comma, ih]
      rfl

theorem scanLine_sound {n : Nat} {line : List UInt8} {s s' : Scan} (hn : line.length ≤ n) (hline : trimStart line = line)
    (h : scanLine current weak line s = some s') :
    ∃ tags, Listed line tags ∧ s' = tags.foldl (Scan.see current weak) s := by
  induction n generalizing line s with
  | zero =>
    obtain rfl := List.length_eq_zero_iff.mp (Nat.le_zero.mp hn)
    rw [scanLine_nil] at h
    exact ⟨[], .last (.blank fun _ hb => absurd hb List.not_mem_nil), (Option.some.inj h).symm⟩
  | succ n ih =>
    -- What follows a comma is read by a shorter scan.
    have hnext : ∀ {rest : List UInt8} {s : Scan}, rest.length ≤ n → scanLine current weak (trimStart rest) s = some s' →
        ∃ tags, Listed rest tags ∧ s' = tags.foldl (Scan.see current weak) s := by
      intro rest s hlength hscan
      obtain ⟨lead, hlead, hrest⟩ := exists_trimStart rest
      have hshort : (trimStart rest).length ≤ n := Nat.le_trans (List.dropWhile_suffix _).length_le hlength
      obtain ⟨tags, htags, hs⟩ := ih hshort (trimStart_idem rest) hscan
      exact ⟨tags, hrest ▸ htags.pad_left hlead, hs⟩
    cases line with
    | nil => exact ih (Nat.zero_le n) hline h
    | cons first rest =>
      have hrest : rest.length ≤ n := Nat.le_of_succ_le_succ hn
      by_cases hcomma : first = 0x2c
      · subst hcomma
        rw [scanLine_comma] at h
        obtain ⟨tags, htags, hs⟩ := hnext hrest h
        exact ⟨tags, .more (.blank fun _ hb => absurd hb List.not_mem_nil) htags, hs⟩
      · obtain ⟨text, tail, t, hsplit, ht, hdue, hlength, hscan⟩ := scanLine_some current weak hcomma h
        obtain ⟨trail, htrail, htail⟩ := exists_trimStart tail
        have hblank : Blank [] := fun _ hb => absurd hb List.not_mem_nil
        rw [hsplit, htail, ← List.append_assoc]
        rcases hdue with hnil | ⟨more, hmore⟩
        · rw [hnil, scanLine_nil] at hscan
          rw [hnil, List.append_nil]
          exact ⟨[t], .last (.tag hblank ht htrail), (Option.some.inj hscan).symm⟩
        · rw [hmore, scanLine_comma] at hscan
          rw [hmore]
          have hshort : more.length ≤ n := by
            have := congrArg List.length htail
            rw [hmore, List.length_append, List.length_cons] at this
            simp only [List.length_cons] at hlength
            omega
          obtain ⟨tags, htags, hs⟩ := hnext hshort hscan
          exact ⟨t :: tags, .more (.tag hblank ht htrail) htags, hs⟩

theorem scanLine_iff {line : List UInt8} {s s' : Scan} : scanLine current weak (trimAscii line) s = some s' ↔
    ∃ tags, Listed line tags ∧ s' = tags.foldl (Scan.see current weak) s := by
  obtain ⟨lead, trail, hlead, htrail, hline⟩ := exists_trimAscii line
  have hcore := trimStart_trimAscii line
  constructor
  · intro h
    obtain ⟨tags, htags, hs⟩ := scanLine_sound current weak (Nat.le_refl _) hcore h
    refine ⟨tags, ?_, hs⟩
    rw [hline]
    exact (htags.pad_left hlead).pad_right htrail
  · rintro ⟨tags, htags, rfl⟩
    rw [hline] at htags
    have hscan := scanLine_complete current weak (Listed.unpad_right htrail htags) s
    rwa [trimStart_blank hlead, hcore] at hscan

theorem see_foldl (tags : List Tag) (s : Scan) : tags.foldl (Scan.see current weak) s =
    ⟨s.matched || tags.any (sameTag current weak), s.wildcards, s.tags + tags.length⟩ := by
  induction tags generalizing s with
  | nil => simp
  | cons t tags ih =>
    rw [List.foldl_cons, ih, Scan.see]
    simp [Bool.or_assoc]
    omega

end

/-! The lines together. -/

theorem Listed.not_star {line : List UInt8} {tags : List Tag} (h : Listed line tags) : ¬ Star line := by
  intro hstar
  have hscan := (scanLine_iff none false (s := ⟨false, 0, 0⟩)).mpr ⟨tags, h, rfl⟩
  rw [star_iff.2 hstar, scanLine, if_neg (by decide)] at hscan
  simp at hscan

theorem Lines.append {a b : List (List UInt8)} {tags others : List Tag} (ha : Lines a tags) (hb : Lines b others) :
    Lines (a ++ b) (tags ++ others) := by
  induction ha with
  | nil => exact hb
  | cons h hr ih =>
    rw [List.cons_append, List.append_assoc]
    exact .cons h ih

theorem Lines.not_star {lines : List (List UInt8)} {tags : List Tag} (h : Lines lines tags) {line : List UInt8}
    (hline : line ∈ lines) : ¬ Star line := by
  induction h with
  | nil => exact absurd hline List.not_mem_nil
  | cons h hr ih =>
    rcases List.mem_cons.mp hline with rfl | hline
    · exact h.not_star
    · exact ih hline

def isStar (line : List UInt8) : Bool := trimAscii line = [0x2a]

theorem isStar_iff {line : List UInt8} : isStar line = true ↔ Star line := by
  rw [isStar, decide_eq_true_eq, star_iff]

theorem scanLines_iff {current : Option Tag} {weak : Bool} {lines : List (List UInt8)} {s s' : Scan} :
    lines.foldlM (fun s field =>
      let input := trimAscii field
      if input = [0x2a] then some { s with wildcards := s.wildcards + 1 } else scanLine current weak input s) s = some s' ↔
    ∃ tags, Lines (lines.filter fun line => !isStar line) tags ∧
      s' = ⟨s.matched || tags.any (sameTag current weak), s.wildcards + lines.countP isStar, s.tags + tags.length⟩ := by
  induction lines generalizing s with
  | nil =>
    constructor
    · intro h
      exact ⟨[], .nil, by simpa using h.symm⟩
    · rintro ⟨tags, htags, rfl⟩
      cases htags
      simp
  | cons line lines ih =>
    rw [List.foldlM_cons]
    by_cases hstar : trimAscii line = [0x2a]
    · have hcount : isStar line = true := by simpa [isStar] using hstar
      simp only [hstar, ↓reduceIte, Option.bind_eq_bind, Option.bind_some, ih, List.filter_cons, hcount, Bool.not_true,
        Bool.false_eq_true, List.countP_cons, Nat.add_assoc, Nat.add_comm 1]
    · have hcount : isStar line = false := by simpa [isStar] using hstar
      simp only [hstar, ↓reduceIte, Option.bind_eq_bind, Option.bind_eq_some_iff, List.filter_cons, hcount, Bool.not_false,
        List.countP_cons, Bool.false_eq_true, Nat.add_zero, scanLine_iff, ih]
      constructor
      · rintro ⟨_, ⟨tags, htags, rfl⟩, others, hothers, rfl⟩
        refine ⟨tags ++ others, .cons htags hothers, ?_⟩
        simp [see_foldl, Bool.or_assoc, Nat.add_assoc]
      · rintro ⟨all, hall, rfl⟩
        cases hall with
        | @cons _ _ tags others htags hothers =>
          refine ⟨_, ⟨tags, htags, rfl⟩, others, hothers, ?_⟩
          simp [see_foldl, Bool.or_assoc, Nat.add_assoc]

theorem filter_of_lines {lines : List (List UInt8)} {tags : List Tag} (h : Lines lines tags) :
    (lines.filter fun line => !isStar line) = lines ∧ lines.countP isStar = 0 := by
  have hplain : ∀ line ∈ lines, isStar line = false := fun line hline =>
    Bool.not_eq_true _ ▸ fun hs => h.not_star hline (isStar_iff.1 hs)
  constructor
  · exact List.filter_eq_self.mpr fun line hline => by simp [hplain line hline]
  · exact List.countP_eq_zero.mpr fun line hline => by simp [hplain line hline]

theorem single_iff {lines : List (List UInt8)} :
    Single lines ↔ lines.countP isStar = 1 ∧ Lines (lines.filter fun line => !isStar line) [] := by
  constructor
  · rintro ⟨before, line, after, rfl, hstar, hlines⟩
    have hcount : isStar line = true := isStar_iff.2 hstar
    obtain ⟨hfilter, hnone⟩ := filter_of_lines hlines
    rw [List.filter_append] at hfilter
    rw [List.countP_append] at hnone
    constructor
    · rw [List.countP_append, List.countP_cons_of_pos hcount]
      omega
    · rwa [List.filter_append, List.filter_cons_of_neg (by simp [hcount]), hfilter]
  · rintro ⟨hcount, hlines⟩
    obtain ⟨line, hline, hstar⟩ := List.countP_pos_iff.mp (by omega : 0 < lines.countP isStar)
    obtain ⟨before, after, rfl⟩ := List.append_of_mem hline
    rw [List.countP_append, List.countP_cons_of_pos hstar] at hcount
    have hplain : ∀ other ∈ before ++ after, isStar other = false := by
      intro other hother
      have hzero : (before ++ after).countP isStar = 0 := by
        rw [List.countP_append]
        omega
      simpa using List.countP_eq_zero.mp hzero other hother
    have hfilter : ((before ++ after).filter fun line => !isStar line) = before ++ after :=
      List.filter_eq_self.mpr fun other hother => by simp [hplain other hother]
    refine ⟨before, line, after, rfl, isStar_iff.1 hstar, ?_⟩
    rwa [List.filter_append, List.filter_cons_of_neg (by simp [hstar]), ← List.filter_append, hfilter] at hlines

theorem Lines.perm {lines lines' : List (List UInt8)} (hp : lines.Perm lines') :
    ∀ {tags : List Tag}, Lines lines tags → ∃ tags', Lines lines' tags' ∧ tags.Perm tags' := by
  induction hp with
  | nil => exact fun h => ⟨_, h, .refl _⟩
  | cons line _ ih =>
    rintro _ (_ | ⟨h, hr⟩)
    obtain ⟨others, hothers, hp⟩ := ih hr
    exact ⟨_, .cons h hothers, hp.append_left _⟩
  | swap first second lines =>
    rintro _ (_ | ⟨h, _ | ⟨h', hr⟩⟩)
    refine ⟨_, .cons h' (.cons h hr), ?_⟩
    rw [← List.append_assoc, ← List.append_assoc]
    exact List.perm_append_comm.append_right _
  | trans _ _ ih ih' =>
    intro tags h
    obtain ⟨_, hmiddle, hp⟩ := ih h
    obtain ⟨_, hlast, hp'⟩ := ih' hmiddle
    exact ⟨_, hlast, hp.trans hp'⟩

theorem Listed.join {a b : List UInt8} {tags others : List Tag} (ha : Listed a tags) (hb : Listed b others) :
    Listed (a ++ 0x2c :: b) (tags ++ others) := by
  induction ha with
  | last h => exact .more h hb
  | more h hr ih =>
    rw [List.append_assoc, List.cons_append, List.append_assoc]
    exact .more h ih

theorem Lines.join {before after : List (List UInt8)} {a b : List UInt8} :
    ∀ {tags : List Tag}, Lines (before ++ a :: b :: after) tags → Lines (before ++ (a ++ 0x2c :: b) :: after) tags := by
  induction before with
  | nil =>
    rintro _ (_ | ⟨ha, _ | ⟨hb, hr⟩⟩)
    rw [← List.append_assoc]
    exact .cons (ha.join hb) hr
  | cons line before ih =>
    rintro _ (_ | ⟨h, hr⟩)
    exact .cons h (ih hr)

/-! The match as a whole. -/

section
variable {headers headers' : HeaderMap} {name name' : String} {current : Option (List UInt8)} {weak : Bool}

theorem tagsMatch_some {v : Bool} : tagsMatch headers name current weak = some v ↔
    ∃ tags, Lines ((headers.getAll name).filter fun line => !isStar line) tags ∧
      ¬ ((headers.getAll name).countP isStar > 1 ∨ ((headers.getAll name).countP isStar ≠ 0 ∧ tags.length ≠ 0)) ∧
      v = ((headers.getAll name).countP isStar == 1 || tags.any (sameTag (current.bind tag) weak)) := by
  rw [tagsMatch, Option.bind_eq_bind, Option.bind_eq_some_iff]
  simp only [scanLines_iff]
  constructor
  · rintro ⟨_, ⟨tags, htags, rfl⟩, h⟩
    dsimp only at h
    split at h
    · cases h
    · rename_i hbad
      exact ⟨tags, htags, by simpa using hbad, by simpa using (Option.some.inj h).symm⟩
  · rintro ⟨tags, htags, hbad, rfl⟩
    refine ⟨_, ⟨tags, htags, rfl⟩, ?_⟩
    rw [if_neg (by simpa using hbad)]
    simp

theorem tagsMatch_of_lines {tags : List Tag} (h : Lines (headers.getAll name) tags) :
    tagsMatch headers name current weak = some (tags.any (sameTag (current.bind tag) weak)) := by
  obtain ⟨hfilter, hcount⟩ := filter_of_lines h
  refine tagsMatch_some.2 ⟨tags, ?_, ?_, ?_⟩
  · rwa [hfilter]
  · simp [hcount]
  · simp [hcount]

theorem tagsMatch_of_single (h : Single (headers.getAll name)) : tagsMatch headers name current weak = some true := by
  obtain ⟨hcount, hlines⟩ := single_iff.1 h
  refine tagsMatch_some.2 ⟨[], hlines, ?_, ?_⟩
  · simp [hcount]
  · simp [hcount]

theorem wellFormed_of_some {v : Bool} (h : tagsMatch headers name current weak = some v) :
    WellFormed (headers.getAll name) := by
  obtain ⟨tags, hlines, hbad, _⟩ := tagsMatch_some.1 h
  obtain ⟨hone, hnone⟩ := not_or.mp hbad
  by_cases hzero : (headers.getAll name).countP isStar = 0
  · refine .inr ⟨tags, ?_⟩
    rwa [List.filter_eq_self.mpr fun line hline => by simpa using List.countP_eq_zero.mp hzero line hline] at hlines
  · obtain rfl : tags = [] := List.length_eq_zero_iff.mp (not_not.mp fun hl => hnone ⟨hzero, hl⟩)
    exact .inl (single_iff.2 ⟨by omega, hlines⟩)

theorem sameTag_iff {listed : Tag} : sameTag (current.bind tag) weak listed = true ↔
    ∃ text own, current = some text ∧ Spelled text own ∧ own.2 = listed.2 ∧
      (weak = true ∨ (listed.1 = false ∧ own.1 = false)) := by
  rw [sameTag, Option.any_eq_true]
  simp only [Option.bind_eq_some_iff, Bool.and_eq_true, beq_iff_eq, Bool.or_eq_true, Bool.not_eq_true']
  constructor
  · rintro ⟨own, ⟨text, htext, htag⟩, hsame⟩
    exact ⟨text, own, htext, Ranges.tag_iff.mp htag, hsame⟩
  · rintro ⟨text, own, htext, hspelled, hsame⟩
    exact ⟨own, ⟨text, htext, Ranges.tag_iff.mpr hspelled⟩, hsame⟩

theorem Single.not_lines {lines : List (List UInt8)} {tags : List Tag} (h : Single lines) : ¬ Lines lines tags := by
  obtain ⟨before, line, after, rfl, hstar, _⟩ := h
  exact fun hlines => hlines.not_star (by simp) hstar

/-- A list that is well formed is answered, and no other; the answer is what the list says. -/
theorem tagsMatch_iff {v : Bool} : tagsMatch headers name current weak = some v ↔
    WellFormed (headers.getAll name) ∧ (v = true ↔ Holds (headers.getAll name) current weak) := by
  have hvalue : WellFormed (headers.getAll name) → ∃ v, tagsMatch headers name current weak = some v ∧
      (v = true ↔ Holds (headers.getAll name) current weak) := by
    rintro (hsingle | ⟨tags, htags⟩)
    · exact ⟨true, tagsMatch_of_single hsingle, iff_of_true rfl (.inl hsingle)⟩
    · refine ⟨_, tagsMatch_of_lines htags, ?_⟩
      constructor
      · intro h
        obtain ⟨listed, hmem, hsame⟩ := List.any_eq_true.mp h
        exact .inr ⟨tags, htags, listed, hmem, sameTag_iff.1 hsame⟩
      · rintro (hsingle | ⟨tags', htags', listed, hmem, hsame⟩)
        · exact absurd htags hsingle.not_lines
        · have hany : tags'.any (sameTag (current.bind tag) weak) = true :=
            List.any_eq_true.mpr ⟨listed, hmem, sameTag_iff.2 hsame⟩
          have hagain : tagsMatch headers name current weak = some (tags'.any (sameTag (current.bind tag) weak)) :=
            tagsMatch_of_lines htags'
          have htwo := (tagsMatch_of_lines htags).symm.trans hagain
          rwa [Option.some.inj htwo]
  constructor
  · intro h
    have hwell := wellFormed_of_some h
    obtain ⟨w, hw, hholds⟩ := hvalue hwell
    rw [h] at hw
    obtain rfl := Option.some.inj hw
    exact ⟨hwell, hholds⟩
  · rintro ⟨hwell, hv⟩
    obtain ⟨w, hw, hholds⟩ := hvalue hwell
    rw [hw, Bool.eq_iff_iff.mpr (hholds.trans hv.symm)]

theorem tagsMatch_perm (h : (headers.getAll name).Perm (headers'.getAll name')) :
    tagsMatch headers name current weak = tagsMatch headers' name' current weak := by
  have hmono : ∀ {headers headers' : HeaderMap} {name name' : String} {v : Bool},
      (headers.getAll name).Perm (headers'.getAll name') → tagsMatch headers name current weak = some v →
        tagsMatch headers' name' current weak = some v := by
    intro headers headers' name name' v hperm hsome
    obtain ⟨tags, hlines, hbad, rfl⟩ := tagsMatch_some.1 hsome
    obtain ⟨tags', hlines', hp⟩ := hlines.perm (hperm.filter _)
    refine tagsMatch_some.2 ⟨tags', hlines', ?_, ?_⟩
    · rwa [← hperm.countP_eq, ← hp.length_eq]
    · rw [← hperm.countP_eq, hp.any_eq]
  ext v
  exact ⟨hmono h, hmono h.symm⟩

theorem tagsMatch_resplit (h : Resplit (headers.getAll name) (headers'.getAll name')) :
    tagsMatch headers name current weak = tagsMatch headers' name' current weak := by
  obtain ⟨before, a, b, after, tags, hsplit, hlines, hjoined⟩ := h
  have hlines' : Lines (headers'.getAll name') tags := by
    rw [hjoined]
    exact Lines.join (hsplit ▸ hlines)
  rw [tagsMatch_of_lines hlines, tagsMatch_of_lines hlines']

theorem tagsMatch_same {tags tags' : List Tag} (h : Lines (headers.getAll name) tags) (h' : Lines (headers'.getAll name') tags')
    (hsame : ∀ t, t ∈ tags ↔ t ∈ tags') : tagsMatch headers name current weak = tagsMatch headers' name' current weak := by
  rw [tagsMatch_of_lines h, tagsMatch_of_lines h', Option.some.injEq, Bool.eq_iff_iff, List.any_eq_true, List.any_eq_true]
  simp only [hsame]

theorem tagsMatch_none : tagsMatch headers name current weak = none ↔ ¬ WellFormed (headers.getAll name) := by
  rw [Option.eq_none_iff_forall_ne_some]
  constructor
  · intro h hwell
    by_cases hholds : Holds (headers.getAll name) current weak
    · exact h true (tagsMatch_iff.2 ⟨hwell, iff_of_true rfl hholds⟩)
    · exact h false (tagsMatch_iff.2 ⟨hwell, iff_of_false Bool.false_ne_true hholds⟩)
  · exact fun h v hv => h (tagsMatch_iff.1 hv).1

end

/-! Evaluation. -/

theorem singleDate_iff {headers : HeaderMap} {name : String} {date : Nat} :
    singleDate parseHttpDate headers name = some date ↔ Dated parseHttpDate headers name date := by
  unfold singleDate Dated
  cases hv : headers.getAll name with
  | nil => simp
  | cons value values =>
    simp only [Option.bind_eq_bind, Option.bind_eq_some_iff]
    constructor
    · rintro ⟨text, htext, date', hparse, h⟩
      by_cases hvalues : values = []
      · rw [if_pos hvalues] at h
        rw [hvalues, ← Option.some.inj h]
        exact ⟨value, text, rfl, htext, hparse⟩
      · rw [if_neg hvalues] at h
        cases h
    · rintro ⟨_, text, hvalues, htext, hparse⟩
      obtain ⟨rfl, rfl⟩ := List.cons.inj hvalues
      exact ⟨text, htext, date, hparse, if_pos rfl⟩

variable {method : String} {request selected : HeaderMap} {r : Option Nat}

/-- The dates are compared only where both are there. -/
theorem dates_iff {name : String} {p : Nat → Nat → Prop} [DecidableRel p] {status : Nat} :
    (match singleDate parseHttpDate request name, singleDate parseHttpDate selected "last-modified" with
      | some since, some modified => if p since modified then some status else none
      | _, _ => none) = r ↔
    ((∃ since date, Dated parseHttpDate request name since ∧ Dated parseHttpDate selected "last-modified" date ∧ p since date) ∧
      r = some status) ∨
    ((¬ ∃ since date, Dated parseHttpDate request name since ∧ Dated parseHttpDate selected "last-modified" date ∧ p since date) ∧
      r = none) := by
  simp only [← singleDate_iff]
  cases singleDate parseHttpDate request name with
  | none => simp [eq_comm]
  | some since =>
    cases singleDate parseHttpDate selected "last-modified" with
    | none => simp [eq_comm]
    | some date => by_cases hp : p since date <;> simp [hp, eq_comm]

theorem unchanged_iff : unchanged parseHttpDate request selected = r ↔ Unchanged parseHttpDate request selected r := by
  unfold unchanged
  dsimp only
  cases hc : request.containsKey "if-match" with
  | false =>
    have hnil := (HeaderMap.containsKey_iff request "if-match").mp hc
    rw [if_neg Bool.false_ne_true, dates_iff (p := fun since modified => modified > since)]
    constructor
    · rintro (⟨⟨since, date, hs, hd, hlt⟩, rfl⟩ | ⟨hd, rfl⟩)
      · exact .modified hnil hs hd hlt
      · exact .undated hnil hd
    · rintro (⟨h, _⟩ | ⟨h, _, _⟩ | ⟨h, _, _⟩ | ⟨_, hs, hd, hlt⟩ | ⟨_, hd⟩)
      · exact absurd hnil h
      · exact absurd hnil h
      · exact absurd hnil h
      · exact .inl ⟨⟨_, _, hs, hd, hlt⟩, rfl⟩
      · exact .inr ⟨hd, rfl⟩
  | true =>
    have hsome : request.getAll "if-match" ≠ [] := fun hnil => by
      rw [(HeaderMap.containsKey_iff request "if-match").mpr hnil] at hc
      cases hc
    rw [if_pos rfl]
    cases hm : tagsMatch request "if-match" (selected.get "etag") false with
    | none =>
      have hwell := tagsMatch_none.1 hm
      constructor
      · rintro rfl
        exact .malformed hsome hwell
      · rintro (_ | ⟨_, hw, _⟩ | ⟨_, hw, _⟩ | ⟨h, _⟩ | ⟨h, _⟩)
        · rfl
        · exact absurd hw hwell
        · exact absurd hw hwell
        · exact absurd h hsome
        · exact absurd h hsome
    | some v =>
      obtain ⟨hwell, hholds⟩ := tagsMatch_iff.1 hm
      cases v with
      | false =>
        have hfails := fun h => Bool.false_ne_true (hholds.mpr h)
        constructor
        · rintro rfl
          exact .failed hsome hwell hfails
        · rintro (⟨_, hw⟩ | _ | ⟨_, _, hm⟩ | ⟨h, _⟩ | ⟨h, _⟩)
          · exact absurd hwell hw
          · rfl
          · exact absurd hm hfails
          · exact absurd h hsome
          · exact absurd h hsome
      | true =>
        constructor
        · rintro rfl
          exact .held hsome hwell (hholds.mp rfl)
        · rintro (⟨_, hw⟩ | ⟨_, _, hm⟩ | _ | ⟨h, _⟩ | ⟨h, _⟩)
          · exact absurd hwell hw
          · exact absurd (hholds.mp rfl) hm
          · rfl
          · exact absurd h hsome
          · exact absurd h hsome

theorem changed_iff : changed parseHttpDate method request selected = r ↔
    Changed parseHttpDate (method = "GET" ∨ method = "HEAD") request selected r := by
  have hretrieval : (decide (method = "GET") || decide (method = "HEAD")) = true ↔ method = "GET" ∨ method = "HEAD" := by simp
  unfold changed
  dsimp only
  cases hc : request.containsKey "if-none-match" with
  | false =>
    have hnil := (HeaderMap.containsKey_iff request "if-none-match").mp hc
    rw [if_neg Bool.false_ne_true]
    by_cases hr : method = "GET" ∨ method = "HEAD"
    · rw [if_pos (hretrieval.mpr hr), dates_iff (p := fun since modified => modified ≤ since)]
      constructor
      · rintro (⟨⟨since, date, hs, hd, hle⟩, rfl⟩ | ⟨hd, rfl⟩)
        · exact .unmodified hnil hr hs hd hle
        · exact .undated hnil fun h => hd h.2
      · rintro (⟨h, _⟩ | ⟨h, _, _, _⟩ | ⟨h, _, _, _⟩ | ⟨h, _, _⟩ | ⟨_, _, hs, hd, hle⟩ | ⟨_, hd⟩)
        · exact absurd hnil h
        · exact absurd hnil h
        · exact absurd hnil h
        · exact absurd hnil h
        · exact .inl ⟨⟨_, _, hs, hd, hle⟩, rfl⟩
        · exact .inr ⟨fun h => hd ⟨hr, h⟩, rfl⟩
    · rw [if_neg (mt hretrieval.mp hr)]
      constructor
      · rintro rfl
        exact .undated hnil fun h => hr h.1
      · rintro (⟨h, _⟩ | ⟨h, _, _, _⟩ | ⟨h, _, _, _⟩ | ⟨h, _, _⟩ | ⟨_, h, _, _, _⟩ | _)
        · exact absurd hnil h
        · exact absurd hnil h
        · exact absurd hnil h
        · exact absurd hnil h
        · exact absurd h hr
        · rfl
  | true =>
    have hsome : request.getAll "if-none-match" ≠ [] := fun hnil => by
      rw [(HeaderMap.containsKey_iff request "if-none-match").mpr hnil] at hc
      cases hc
    rw [if_pos rfl]
    cases hm : tagsMatch request "if-none-match" (selected.get "etag") true with
    | none =>
      have hwell := tagsMatch_none.1 hm
      constructor
      · rintro rfl
        exact .malformed hsome hwell
      · rintro (_ | ⟨_, hw, _⟩ | ⟨_, hw, _⟩ | ⟨_, hw, _⟩ | ⟨h, _⟩ | ⟨h, _⟩)
        · rfl
        · exact absurd hw hwell
        · exact absurd hw hwell
        · exact absurd hw hwell
        · exact absurd h hsome
        · exact absurd h hsome
    | some v =>
      obtain ⟨hwell, hholds⟩ := tagsMatch_iff.1 hm
      cases v with
      | false =>
        have hfails := fun h => Bool.false_ne_true (hholds.mpr h)
        constructor
        · rintro rfl
          exact .unmatched hsome hwell hfails
        · rintro (⟨_, hw⟩ | ⟨_, _, hm, _⟩ | ⟨_, _, hm, _⟩ | _ | ⟨h, _⟩ | ⟨h, _⟩)
          · exact absurd hwell hw
          · exact absurd hm hfails
          · exact absurd hm hfails
          · rfl
          · exact absurd h hsome
          · exact absurd h hsome
      | true =>
        have hmatch := hholds.mp rfl
        dsimp only
        constructor
        · rintro rfl
          by_cases hr : method = "GET" ∨ method = "HEAD"
          · rw [if_pos (hretrieval.mpr hr)]
            exact .retrieved hsome hwell hmatch hr
          · rw [if_neg (mt hretrieval.mp hr)]
            exact .refused hsome hwell hmatch hr
        · rintro (⟨_, hw⟩ | ⟨_, _, _, hr⟩ | ⟨_, _, _, hr⟩ | ⟨_, _, hm⟩ | ⟨h, _⟩ | ⟨h, _⟩)
          · exact absurd hwell hw
          · rw [if_pos (hretrieval.mpr hr)]
          · rw [if_neg (mt hretrieval.mp hr)]
          · exact absurd hmatch hm
          · exact absurd h hsome
          · exact absurd h hsome

theorem exempt_iff : exempt method = true ↔ method = "CONNECT" ∨ method = "OPTIONS" ∨ method = "TRACE" := by
  simp [exempt, or_assoc]

theorem evaluate_iff (h : exempt method = false) :
    evaluate parseHttpDate method request selected = r ↔ Decided parseHttpDate method request selected r := by
  rw [evaluate, h, if_neg Bool.false_ne_true, Decided]
  cases hu : unchanged parseHttpDate request selected with
  | none =>
    simp only [← unchanged_iff, hu, ← changed_iff, reduceCtorEq, false_and, exists_false, true_and, false_or]
  | some status =>
    simp only [← unchanged_iff, hu, Option.some.injEq, exists_eq_left', reduceCtorEq, false_and, or_false, eq_comm]

/-- Tags are matched by one grammar, however they are ordered and split, and the conditions are taken in their order. -/
theorem preconditions_exact (parseHttpDate : String → Option Nat) :
    (∀ (headers : HeaderMap) (name : String) (current : Option (List UInt8)) (weak v : Bool),
      tagsMatch headers name current weak = some v ↔
        WellFormed (headers.getAll name) ∧ (v = true ↔ Holds (headers.getAll name) current weak)) ∧
    (∀ (headers headers' : HeaderMap) (name name' : String) (current : Option (List UInt8)) (weak : Bool),
      ((headers.getAll name).Perm (headers'.getAll name') ∨ Resplit (headers.getAll name) (headers'.getAll name') ∨
        ∃ tags tags', Lines (headers.getAll name) tags ∧ Lines (headers'.getAll name') tags' ∧ ∀ t, t ∈ tags ↔ t ∈ tags') →
      tagsMatch headers name current weak = tagsMatch headers' name' current weak) ∧
    ∀ (method : String) (request selected : HeaderMap) (r : Option Nat),
      evaluate parseHttpDate method request selected = r ↔
        if method = "CONNECT" ∨ method = "OPTIONS" ∨ method = "TRACE" then r = none
        else Decided parseHttpDate method request selected r := by
  refine ⟨fun headers name current weak v => tagsMatch_iff, ?_, ?_⟩
  · rintro headers headers' name name' current weak (hperm | hsplit | ⟨tags, tags', h, h', hsame⟩)
    · exact tagsMatch_perm hperm
    · exact tagsMatch_resplit hsplit
    · exact tagsMatch_same h h' hsame
  · intro method request selected r
    by_cases h : method = "CONNECT" ∨ method = "OPTIONS" ∨ method = "TRACE"
    · rw [if_pos h, evaluate, if_pos (exempt_iff.2 h), eq_comm]
    · rw [if_neg h]
      exact evaluate_iff (Bool.not_eq_true _ ▸ mt exempt_iff.1 h)

/-- Two lines in either order are one list. -/
theorem preconditions_exact_lines :
    tagsMatch [("if-match", [0x22, 0x61, 0x22]), ("if-match", [0x2a])] "if-match" none false =
      tagsMatch [("if-match", [0x2a]), ("if-match", [0x22, 0x61, 0x22])] "if-match" none false :=
  (preconditions_exact fun _ => none).2.1 _ _ _ _ _ _ (.inl (.swap _ _ _))

/-- A condition that fails is not looked at for `OPTIONS`. -/
theorem options_unconditional :
    Decided (fun _ => none) "OPTIONS" [("if-match", [0x22, 0x61, 0x22])] [] (some 412) ∧
      evaluate (fun _ => none) "OPTIONS" [("if-match", [0x22, 0x61, 0x22])] [] = none := by
  have hblank : Blank [] := fun _ hb => absurd hb List.not_mem_nil
  have hspelled : Spelled [0x22, 0x61, 0x22] (false, [0x61]) := ⟨rfl, by simp⟩
  have hlines : Lines [[0x22, 0x61, 0x22]] [(false, [0x61])] := .cons (.last (.tag hblank hspelled hblank)) .nil
  refine ⟨.inl ⟨412, .failed (by simp [HeaderMap.getAll]) (.inr ⟨_, hlines⟩) ?_, rfl⟩, rfl⟩
  rintro (hsingle | ⟨_, _, _, _, _, _, hcurrent, _⟩)
  · exact hsingle.not_lines hlines
  · cases hcurrent

end Gatel.Preconditions
