import Gatel.Cache.Policy
import Gatel.Plan.Texts

namespace Gatel.Cache

/-! Lines of directives, as the grammar of quoted strings has them. -/

/-- What stands in a quoted string: a character, or one behind a backslash. -/
inductive Quoted where
  | plain (c : Char) (ok : c ≠ '"' ∧ c ≠ '\\')
  | escaped (c : Char)

def Quoted.char : Quoted → Char
  | .plain c _ => c
  | .escaped c => c

@[grind =] def Quoted.text : Quoted → List Char
  | .plain c _ => [c]
  | .escaped c => ['\\', c]

@[grind =] def quote (body : List Quoted) : List Char := '"' :: body.flatMap Quoted.text ++ ['"']

/-- What an element of a line is made of. -/
inductive Piece where
  | char (c : Char) (ok : c ≠ ',' ∧ c ≠ '"')
  | quoted (body : List Quoted)

@[grind =] def Piece.text : Piece → List Char
  | .char c _ => [c]
  | .quoted body => quote body

abbrev Element := List Piece

def Element.text (e : Element) : List Char := e.flatMap Piece.text

/-- A line is its elements with commas between them. -/
def Spells (line : List Char) (elements : List Element) : Prop :=
  line ++ [','] = elements.flatMap fun e => Element.text e ++ [',']

/-- What a value says: a quoted string its content, anything else itself. -/
def Value (v w : List Char) : Prop :=
  (∃ body : List Quoted, v = quote body ∧ w = body.map Quoted.char) ∨ (v.head? ≠ some '"' ∧ w = v)

/-- The directive of an element: its name in small letters, and a value behind an equals sign. -/
def Element.Says (e : Element) (name : String) (value : Option String) : Prop :=
  ∃ head : List Char, '=' ∉ head ∧ name = Text.lower (Text.trim (String.ofList head)) ∧
    ((e.text = head ∧ value = none) ∨
      ∃ v w : List Char, e.text = head ++ '=' :: v ∧ Value (Text.trim (String.ofList v)).toList w ∧ value = some (String.ofList w))

/-- A directive at the top level of one of some lines. -/
def DirectiveIn (lines : List (List UInt8)) (name : String) (value : Option String) : Prop :=
  ∃ line ∈ lines, ∃ (text : String) (elements : List Element),
    HeaderValue.toStr line = some text ∧ Spells text.toList elements ∧
      ∃ e ∈ elements, Text.trim (String.ofList e.text) ≠ "" ∧ e.Says name value

def Directive (headers : HeaderMap) (name : String) (value : Option String) : Prop :=
  DirectiveIn (headers.getAll "cache-control") name value

namespace Control

/-! The reader of values. -/

theorem unquote_text (body : List Quoted) : unquote (body.flatMap Quoted.text) = some (body.map Quoted.char) := by
  induction body with
  | nil => rfl
  | cons q body ih =>
    cases q with
    | plain c ok =>
      obtain ⟨hquote, hescape⟩ := ok
      change unquote (c :: body.flatMap Quoted.text) = _
      rw [unquote.eq_5 c _ (fun _ _ h _ => hescape h) (fun h _ => hescape h) hquote, ih]
      rfl
    | escaped c =>
      change unquote ('\\' :: c :: body.flatMap Quoted.text) = _
      rw [unquote, ih]
      rfl

theorem quoted_of_unquote {inner w : List Char} (h : unquote inner = some w) :
    ∃ body : List Quoted, inner = body.flatMap Quoted.text ∧ w = body.map Quoted.char := by
  fun_induction unquote inner generalizing w with
  | case1 =>
    cases h
    exact ⟨[], rfl, rfl⟩
  | case2 c rest ih =>
    obtain ⟨w', hw, rfl⟩ := Option.map_eq_some_iff.mp h
    obtain ⟨body, rfl, rfl⟩ := ih hw
    exact ⟨.escaped c :: body, rfl, rfl⟩
  | case3 => cases h
  | case4 => cases h
  | case5 c rest hescape hlast hquote ih =>
    obtain ⟨w', hw, rfl⟩ := Option.map_eq_some_iff.mp h
    obtain ⟨body, hrest, rfl⟩ := ih hw
    have hc : c ≠ '\\' := by
      intro he
      cases rest with
      | nil => exact hlast he rfl
      | cons d rest => exact hescape d rest he rfl
    exact ⟨.plain c ⟨hquote, hc⟩ :: body, by rw [hrest]; rfl, rfl⟩

theorem quoted?_quote (body : List Quoted) : quoted? (String.ofList (quote body)) = some (body.flatMap Quoted.text) := by
  rw [quoted?, String.toList_ofList, quote, List.cons_append]
  simp

theorem quote_of_quoted? {s : String} {inner : List Char} (h : quoted? s = some inner) : s.toList = '"' :: inner ++ ['"'] := by
  rw [quoted?] at h
  split at h
  · rename_i rest hs
    split at h
    · rename_i hlast
      obtain rfl := Option.some.inj h
      rw [hs, List.cons_append, List.dropLast_append_getLast?]
      exact hlast
    · cases h
  · cases h

theorem not_valid_quote {s : String} (h : s.toList.head? = some '"') : HeaderName.isValid s = false := by
  rw [HeaderName.isValid]
  cases hs : s.toList with
  | nil =>
    rw [hs] at h
    cases h
  | cons c rest =>
    rw [hs] at h
    obtain rfl := Option.some.inj h
    have hbad : ('"'.isAlphanum || "!#$%&'*+-.^_`|~".toList.contains '"') = false := by decide
    simp only [List.all_cons, hbad, Bool.false_and, Bool.and_false]

/-- What the reader makes of a value is what it says. -/
theorem parseValue_iff {s w : String} (h : parseValue s = some w) {v : List Char} : Value s.toList v ↔ String.ofList v = w := by
  rw [parseValue] at h
  cases hq : quoted? s with
  | some inner =>
    rw [hq] at h
    obtain ⟨content, hcontent, rfl⟩ := Option.map_eq_some_iff.mp h
    obtain ⟨body, rfl, rfl⟩ := quoted_of_unquote hcontent
    have hs := quote_of_quoted? hq
    constructor
    · rintro (⟨body', hbody, rfl⟩ | ⟨hhead, _⟩)
      · have hsame : body'.flatMap Quoted.text = body.flatMap Quoted.text := by
          have heq := hbody.symm.trans hs
          simpa [quote] using heq
        have hread := unquote_text body'
        rw [hsame, unquote_text] at hread
        rw [Option.some.inj hread]
      · rw [hs] at hhead
        exact absurd rfl hhead
    · intro hv
      obtain rfl := String.ofList_injective hv
      exact .inl ⟨body, hs, rfl⟩
  | none =>
    rw [hq] at h
    dsimp only at h
    split at h
    · rename_i hvalid
      obtain rfl := Option.some.inj h
      have hhead : s.toList.head? ≠ some '"' := by
        intro hh
        rw [not_valid_quote hh] at hvalid
        exact Bool.false_ne_true hvalid
      constructor
      · rintro (⟨body, hbody, rfl⟩ | ⟨_, rfl⟩)
        · rw [hbody] at hhead
          exact absurd rfl hhead
        · exact String.ofList_toList
      · rintro rfl
        exact .inr ⟨hhead, String.toList_ofList.symm⟩
    · cases h

/-! The reader of elements. -/

section
variable {p : Char → Bool} {c : Char} {l m trail : List Char}

theorem dropWhile_sep (hc : p c = false) : (l ++ c :: m).dropWhile p = l.dropWhile p ++ c :: m := by
  induction l with
  | nil => rw [List.nil_append, List.dropWhile_cons, hc, if_neg Bool.false_ne_true]; rfl
  | cons d l ih =>
    rw [List.cons_append, List.dropWhile_cons, List.dropWhile_cons]
    split
    · exact ih
    · rfl

/-- Both ends of a text without what `p` takes. -/
@[grind =] def strip (p : Char → Bool) (l : List Char) : List Char := ((l.dropWhile p).reverse.dropWhile p).reverse

theorem strip_sep (hc : p c = false) :
    strip p (l ++ c :: m) = l.dropWhile p ++ c :: (m.reverse.dropWhile p).reverse := by
  rw [strip, dropWhile_sep hc, List.reverse_append, List.reverse_cons, List.append_assoc, List.singleton_append,
    dropWhile_sep hc]
  simp

theorem strip_dropWhile : strip p (l.dropWhile p) = strip p l := by
  rw [strip, strip, List.dropWhile_idempotent]

theorem strip_append (ht : ∀ d ∈ trail, p d = true) : strip p (l ++ trail) = strip p l := by
  by_cases hl : ∀ d ∈ l, p d = true
  · have hnil : ∀ {x : List Char}, (∀ d ∈ x, p d = true) → strip p x = [] := by
      intro x hx
      rw [strip, List.dropWhile_eq_nil_iff.mpr hx]
      rfl
    rw [hnil hl, hnil]
    intro d hd
    exact (List.mem_append.mp hd).elim (hl d) (ht d)
  · have hne : l.dropWhile p ≠ [] := fun hnil => hl (List.dropWhile_eq_nil_iff.mp hnil)
    have hdrop : (l ++ trail).dropWhile p = l.dropWhile p ++ trail := by
      rw [List.dropWhile_append]
      simp [hne]
    rw [strip, hdrop, List.reverse_append, List.dropWhile_append_of_pos fun d hd => ht d (List.mem_reverse.mp hd)]
    rfl

theorem strip_rdropWhile : strip p (l.reverse.dropWhile p).reverse = strip p l := by
  have hl : l = (l.reverse.dropWhile p).reverse ++ (l.reverse.takeWhile p).reverse := by
    rw [← List.reverse_append, List.takeWhile_append_dropWhile, List.reverse_reverse]
  have hall : ∀ d ∈ (l.reverse.takeWhile p).reverse, p d = true := fun d hd =>
    List.mem_takeWhile_imp (List.mem_reverse.mp hd)
  have happ := strip_append (l := (l.reverse.dropWhile p).reverse) hall
  rw [← hl] at happ
  exact happ.symm

end

theorem trim_eq (l : List Char) : Text.trim (String.ofList l) = String.ofList (strip Text.isWhitespace l) := by
  rw [Text.trim, String.toList_ofList]
  rfl

theorem mem_of_mem_strip {p : Char → Bool} {l : List Char} {c : Char} (h : c ∈ strip p l) : c ∈ l :=
  (List.dropWhile_suffix p).subset (List.mem_reverse.mp ((List.dropWhile_suffix p).subset (List.mem_reverse.mp h)))

/-- An element with an equals sign is its name and its value. -/
theorem parseEntry_sep {head v : List Char} (hhead : '=' ∉ head) {entry : String × Option String}
    (h : parseEntry (Text.trim (String.ofList (head ++ '=' :: v))) = some entry) :
    entry.1 = Text.lower (Text.trim (String.ofList head)) ∧
      ∃ w, parseValue (Text.trim (String.ofList v)) = some w ∧ entry.2 = some w := by
  have hblank : Text.isWhitespace '=' = false := by decide
  have hdrop : '=' ∉ head.dropWhile Text.isWhitespace := fun hm => hhead ((List.dropWhile_suffix _).subset hm)
  rw [trim_eq, strip_sep hblank, parseEntry] at h
  have hsplit : Text.splitOnce '=' (String.ofList (head.dropWhile Text.isWhitespace ++
      '=' :: (v.reverse.dropWhile Text.isWhitespace).reverse)) = some (String.ofList (head.dropWhile Text.isWhitespace),
        String.ofList (v.reverse.dropWhile Text.isWhitespace).reverse) := by
    rw [Text.splitOnce_iff, String.toList_ofList, String.toList_ofList, String.toList_ofList]
    exact ⟨hdrop, rfl⟩
  rw [hsplit] at h
  simp only [trim_eq, strip_dropWhile, strip_rdropWhile] at h
  rw [trim_eq, trim_eq]
  obtain ⟨⟨name, value⟩, hvalue, hentry⟩ := Option.bind_eq_some_iff.mp h
  obtain ⟨w, hw, hpair⟩ := Option.map_eq_some_iff.mp hvalue
  cases hpair
  split at hentry
  · cases hentry
    exact ⟨rfl, w, hw, rfl⟩
  · cases hentry

theorem parseEntry_bare {l : List Char} (hl : '=' ∉ l) {entry : String × Option String}
    (h : parseEntry (Text.trim (String.ofList l)) = some entry) :
    entry = (Text.lower (Text.trim (String.ofList l)), none) := by
  have hno : '=' ∉ (Text.trim (String.ofList l)).toList := by
    rw [trim_eq, String.toList_ofList]
    exact fun hm => hl (mem_of_mem_strip hm)
  rw [parseEntry, Text.splitOnce_none_iff.mpr hno] at h
  obtain ⟨⟨name, value⟩, hvalue, hentry⟩ := Option.bind_eq_some_iff.mp h
  cases hvalue
  dsimp only at hentry
  split at hentry
  · exact (Option.some.inj hentry).symm
  · cases hentry

/-- What the reader makes of an element is what it says. -/
theorem parseEntry_iff {e : Element} {entry : String × Option String}
    (h : parseEntry (Text.trim (String.ofList e.text)) = some entry) {name : String} {value : Option String} :
    e.Says name value ↔ entry = (name, value) := by
  by_cases hsep : '=' ∈ e.text
  · obtain ⟨head, v, htext, hhead⟩ := List.eq_append_cons_of_mem hsep
    rw [htext] at h
    obtain ⟨hname, w, hw, hvalue⟩ := parseEntry_sep hhead h
    constructor
    · rintro ⟨head', hhead', rfl, ⟨hbare, _⟩ | ⟨v', w', htext', hsaid, rfl⟩⟩
      · rw [← hbare] at hhead'
        exact absurd hsep hhead'
      · have hone : String.ofList head' = String.ofList head ∧ String.ofList v' = String.ofList v := by
          have hs : ∀ {a b : List Char}, '=' ∉ a → e.text = a ++ '=' :: b →
              Text.splitOnce '=' (String.ofList e.text) = some (String.ofList a, String.ofList b) := by
            intro a b ha he
            rw [Text.splitOnce_iff, String.toList_ofList, String.toList_ofList, String.toList_ofList]
            exact ⟨ha, he⟩
          have heq := (hs hhead' htext').symm.trans (hs hhead htext)
          exact Prod.mk.inj (Option.some.inj heq)
        rw [hone.2] at hsaid
        rw [hone.1, ← hname, (parseValue_iff hw).mp hsaid, ← hvalue]
    · rintro rfl
      refine ⟨head, hhead, hname, .inr ⟨v, w.toList, htext, ?_, ?_⟩⟩
      · exact (parseValue_iff hw).mpr String.ofList_toList
      · rw [String.ofList_toList]
        exact hvalue
  · obtain rfl := parseEntry_bare hsep h
    constructor
    · rintro ⟨head, hhead, rfl, ⟨rfl, rfl⟩ | ⟨v, w, htext, _⟩⟩
      · rfl
      · rw [htext] at hsep
        exact absurd (by simp) hsep
    · intro he
      obtain ⟨hname, hvalue⟩ := Prod.mk.inj he
      exact ⟨e.text, hsep, hname.symm, .inl ⟨rfl, hvalue.symm⟩⟩

/-! The scanner. -/

abbrev Entries := List (String × Option String)

/-- What the comma behind an element does. -/
def commit (entries : Entries) (e : Element) : Option Entries :=
  if Text.trim (String.ofList e.text) = "" then some entries
  else do
    let parsed ← parseEntry (Text.trim (String.ofList e.text))
    if entries.any fun x => x.1 == parsed.1 then none else some (entries ++ [parsed])

theorem scan_quoted (entries : Entries) (current : List Char) (body : List Quoted) :
    (body.flatMap Quoted.text).foldlM Scan.step ⟨entries, current, true, false⟩ =
      some ⟨entries, current ++ body.flatMap Quoted.text, true, false⟩ := by
  induction body generalizing current with
  | nil => simp
  | cons q body ih =>
    rw [List.flatMap_cons, List.foldlM_append]
    cases q with
    | plain c ok =>
      have hstep : Scan.step ⟨entries, current, true, false⟩ c = some ⟨entries, current ++ [c], true, false⟩ := by
        simp [Scan.step, ok.1, ok.2]
      simp only [Quoted.text, List.foldlM_cons, List.foldlM_nil, hstep, Option.bind_eq_bind, Option.bind_some, pure, ih]
      simp
    | escaped c =>
      have hstep : Scan.step ⟨entries, current, true, false⟩ '\\' = some ⟨entries, current ++ ['\\'], true, true⟩ := by
        simp [Scan.step]
      have hnext : Scan.step ⟨entries, current ++ ['\\'], true, true⟩ c =
          some ⟨entries, current ++ ['\\'] ++ [c], true, false⟩ := by
        simp [Scan.step]
      simp only [Quoted.text, List.foldlM_cons, List.foldlM_nil, hstep, hnext, Option.bind_eq_bind, Option.bind_some, pure, ih]
      simp

theorem scan_piece (entries : Entries) (current : List Char) (x : Piece) :
    x.text.foldlM Scan.step ⟨entries, current, false, false⟩ = some ⟨entries, current ++ x.text, false, false⟩ := by
  cases x with
  | char c ok =>
    have hstep : Scan.step ⟨entries, current, false, false⟩ c = some ⟨entries, current ++ [c], false, false⟩ := by
      simp [Scan.step, ok.1, ok.2]
    simp only [Piece.text, List.foldlM_cons, List.foldlM_nil, hstep, Option.bind_eq_bind, Option.bind_some, pure]
  | quoted body =>
    have hopen : Scan.step ⟨entries, current, false, false⟩ '"' = some ⟨entries, current ++ ['"'], true, false⟩ := by
      simp [Scan.step]
    have hclose : ∀ cs, Scan.step ⟨entries, cs, true, false⟩ '"' = some ⟨entries, cs ++ ['"'], false, false⟩ := by
      intro cs
      simp [Scan.step]
    rw [Piece.text, quote, List.cons_append, List.foldlM_cons, hopen]
    simp only [Option.bind_eq_bind, Option.bind_some, List.foldlM_append, scan_quoted, List.foldlM_cons, List.foldlM_nil,
      hclose, pure]
    simp

theorem scan_element (entries : Entries) (current : List Char) (e : Element) :
    e.text.foldlM Scan.step ⟨entries, current, false, false⟩ = some ⟨entries, current ++ e.text, false, false⟩ := by
  induction e generalizing current with
  | nil => simp [Element.text]
  | cons x e ih =>
    change (x.text ++ Element.text e).foldlM Scan.step _ = some ⟨entries, current ++ (x.text ++ Element.text e), false, false⟩
    rw [List.foldlM_append, scan_piece]
    simp only [Option.bind_eq_bind, Option.bind_some, ih, List.append_assoc]

/-- An element is put away at the comma behind it. -/
theorem scan_elements (entries : Entries) (elements : List Element) :
    (elements.flatMap fun e => Element.text e ++ [',']).foldlM Scan.step ⟨entries, [], false, false⟩ =
      (elements.foldlM commit entries).map fun out => ⟨out, [], false, false⟩ := by
  induction elements generalizing entries with
  | nil => rfl
  | cons e elements ih =>
    have hcomma : Scan.step ⟨entries, e.text, false, false⟩ ',' =
        (commit entries e).map fun out => ⟨out, [], false, false⟩ := by
      have hq : (',' == '"') = false := by decide
      simp only [Scan.step, commit, hq, Bool.false_and, Bool.false_eq_true, if_false, Bool.not_false, Bool.and_true,
        beq_self_eq_true, if_true]
      split
      · rfl
      · cases parseEntry (Text.trim (String.ofList e.text)) with
        | none => rfl
        | some parsed =>
          simp only [Option.bind_eq_bind, Option.bind_some]
          split <;> rfl
    rw [List.flatMap_cons, List.foldlM_append, List.foldlM_append, scan_element, List.foldlM_cons]
    simp only [Option.bind_eq_bind, Option.bind_some, List.nil_append, List.foldlM_cons, List.foldlM_nil, hcomma]
    cases hc : commit entries e with
    | none => rfl
    | some out => exact ih out

/-- What may stand behind the last whole piece of a line: nothing, or a quoted string without its end. -/
inductive Open : List Char → Prop
  | nothing : Open []
  | quoted (body : List Quoted) : Open ('"' :: body.flatMap Quoted.text)
  | escaped (body : List Quoted) : Open ('"' :: body.flatMap Quoted.text ++ ['\\'])

/-- Every line is whole elements, a part of one, and what is open. -/
theorem exists_pieces (line : List Char) : ∃ (elements : List Element) (e : Element) (tail : List Char), Open tail ∧
    line = (elements.flatMap fun e => Element.text e ++ [',']) ++ e.text ++ tail := by
  induction line using List.reverseRecOn with
  | nil => exact ⟨[], [], [], .nothing, rfl⟩
  | append_singleton line c ih =>
    obtain ⟨elements, e, tail, hopen, rfl⟩ := ih
    cases hopen with
    | nothing =>
      by_cases hcomma : c = ','
      · exact ⟨elements ++ [e], [], [], .nothing, by simp [hcomma, Element.text]⟩
      · by_cases hquote : c = '"'
        · exact ⟨elements, e, ['"'], .quoted [], by simp [hquote]⟩
        · exact ⟨elements, e ++ [.char c ⟨hcomma, hquote⟩], [], .nothing, by simp [Element.text, Piece.text]⟩
    | quoted body =>
      by_cases hquote : c = '"'
      · exact ⟨elements, e ++ [.quoted body], [], .nothing, by simp [hquote, Element.text, Piece.text, quote]⟩
      · by_cases hescape : c = '\\'
        · exact ⟨elements, e, _, .escaped body, by simp [hescape]⟩
        · exact ⟨elements, e, _, .quoted (body ++ [.plain c ⟨hquote, hescape⟩]), by simp [Quoted.text]⟩
    | escaped body => exact ⟨elements, e, _, .quoted (body ++ [.escaped c]), by simp [Quoted.text]⟩

/-- The last comma ends no string that is open. -/
theorem scan_open {tail : List Char} (h : Open tail) (hne : tail ≠ []) (entries : Entries) (current : List Char) :
    ∃ rest, (tail ++ [',']).foldlM Scan.step ⟨entries, current, false, false⟩ = some ⟨entries, rest, true, false⟩ := by
  have hopen : Scan.step ⟨entries, current, false, false⟩ '"' = some ⟨entries, current ++ ['"'], true, false⟩ := by
    simp [Scan.step]
  have hcomma : ∀ (cs : List Char) (escaped : Bool),
      Scan.step ⟨entries, cs, true, escaped⟩ ',' = some ⟨entries, cs ++ [','], true, false⟩ := by
    intro cs escaped
    cases escaped <;> simp [Scan.step]
  have hescape : ∀ cs : List Char, Scan.step ⟨entries, cs, true, false⟩ '\\' = some ⟨entries, cs ++ ['\\'], true, true⟩ := by
    intro cs
    simp [Scan.step]
  cases h with
  | nothing => exact absurd rfl hne
  | quoted body =>
    refine ⟨current ++ ['"'] ++ body.flatMap Quoted.text ++ [','], ?_⟩
    simp only [List.cons_append, List.foldlM_cons, hopen, Option.bind_eq_bind, Option.bind_some, List.foldlM_append,
      scan_quoted, hcomma, List.foldlM_nil, pure]
  | escaped body =>
    refine ⟨current ++ ['"'] ++ body.flatMap Quoted.text ++ ['\\'] ++ [','], ?_⟩
    simp only [List.cons_append, List.foldlM_cons, hopen, Option.bind_eq_bind, Option.bind_some, List.foldlM_append,
      scan_quoted, hescape, hcomma, List.foldlM_nil, pure]

/-- A line that is read spells elements, and each of them is put away in turn. -/
theorem parseLine_some {entries out : Entries} {line : List UInt8} (h : parseLine entries line = some out) :
    ∃ text, HeaderValue.toStr line = some text ∧ (∃ elements, Spells text.toList elements) ∧
      ∀ elements, Spells text.toList elements → elements.foldlM commit entries = some out := by
  rw [parseLine] at h
  obtain ⟨text, htext, hscan⟩ := Option.bind_eq_some_iff.mp h
  obtain ⟨s, hfold, hend⟩ := Option.bind_eq_some_iff.mp hscan
  split at hend
  · cases hend
  · rename_i hclosed
    obtain rfl := Option.some.inj hend
    refine ⟨text, htext, ?_, ?_⟩
    · obtain ⟨elements, e, tail, hopen, hline⟩ := exists_pieces text.toList
      by_cases hne : tail = []
      · exact ⟨elements ++ [e], by rw [Spells, hline, hne]; simp⟩
      · rw [hline, List.append_assoc, List.append_assoc, List.foldlM_append, scan_elements] at hfold
        obtain ⟨mid, hmid, hfold⟩ := Option.bind_eq_some_iff.mp hfold
        obtain ⟨kept, _, rfl⟩ := Option.map_eq_some_iff.mp hmid
        rw [List.foldlM_append, scan_element] at hfold
        obtain ⟨rest, hrest⟩ := scan_open hopen hne kept ([] ++ e.text)
        rw [Option.bind_eq_bind, Option.bind_some, hrest] at hfold
        obtain rfl := Option.some.inj hfold
        exact absurd rfl hclosed
    · intro elements hspells
      rw [hspells, scan_elements] at hfold
      obtain ⟨final, hfinal, rfl⟩ := Option.map_eq_some_iff.mp hfold
      exact hfinal

/-! The whole header. -/

theorem commit_some {entries out : Entries} {e : Element} (h : commit entries e = some out)
    (hnodup : (entries.map Prod.fst).Nodup) :
    (out.map Prod.fst).Nodup ∧ ∀ (name : String) (value : Option String), (name, value) ∈ out ↔
      (name, value) ∈ entries ∨ (Text.trim (String.ofList e.text) ≠ "" ∧ e.Says name value) := by
  rw [commit] at h
  split at h
  · rename_i hblank
    obtain rfl := Option.some.inj h
    exact ⟨hnodup, fun name value => ⟨.inl, fun hm => hm.resolve_right fun hs => hs.1 hblank⟩⟩
  · rename_i hentry
    obtain ⟨parsed, hparsed, hnew⟩ := Option.bind_eq_some_iff.mp h
    split at hnew
    · cases hnew
    · rename_i hfresh
      obtain rfl := Option.some.inj hnew
      have hnot : parsed.1 ∉ entries.map Prod.fst := by
        intro hm
        obtain ⟨x, hx, hname⟩ := List.mem_map.mp hm
        exact hfresh (List.any_eq_true.mpr ⟨x, hx, beq_iff_eq.mpr hname⟩)
      constructor
      · rw [List.map_append]
        exact List.Nodup.append hnodup (List.nodup_singleton _) (List.disjoint_singleton.mpr hnot)
      · intro name value
        rw [List.mem_append, List.mem_singleton, parseEntry_iff hparsed, eq_comm]
        exact ⟨fun hm => hm.imp_right fun hs => ⟨hentry, hs⟩, fun hm => hm.imp_right And.right⟩

theorem commit_all {entries out : Entries} {elements : List Element} (h : elements.foldlM commit entries = some out)
    (hnodup : (entries.map Prod.fst).Nodup) :
    (out.map Prod.fst).Nodup ∧ ∀ (name : String) (value : Option String), (name, value) ∈ out ↔
      (name, value) ∈ entries ∨ ∃ e ∈ elements, Text.trim (String.ofList e.text) ≠ "" ∧ e.Says name value := by
  induction elements generalizing entries with
  | nil =>
    obtain rfl := Option.some.inj h
    exact ⟨hnodup, by simp⟩
  | cons e elements ih =>
    rw [List.foldlM_cons] at h
    obtain ⟨mid, hmid, hrest⟩ := Option.bind_eq_some_iff.mp h
    obtain ⟨hmidNodup, hmem⟩ := commit_some hmid hnodup
    obtain ⟨houtNodup, hout⟩ := ih hrest hmidNodup
    refine ⟨houtNodup, fun name value => ?_⟩
    rw [hout, hmem, or_assoc, List.exists_mem_cons_iff]

theorem parseLines_some {lines : List (List UInt8)} {entries out : Entries} (h : lines.foldlM parseLine entries = some out)
    (hnodup : (entries.map Prod.fst).Nodup) :
    (out.map Prod.fst).Nodup ∧
      (∀ line ∈ lines, ∃ text elements, HeaderValue.toStr line = some text ∧ Spells text.toList elements) ∧
      ∀ (name : String) (value : Option String), (name, value) ∈ out ↔
        (name, value) ∈ entries ∨ DirectiveIn lines name value := by
  induction lines generalizing entries with
  | nil =>
    obtain rfl := Option.some.inj h
    exact ⟨hnodup, by simp, by simp [DirectiveIn]⟩
  | cons line lines ih =>
    rw [List.foldlM_cons] at h
    obtain ⟨mid, hmid, hrest⟩ := Option.bind_eq_some_iff.mp h
    obtain ⟨text, htext, ⟨elements, hspells⟩, hall⟩ := parseLine_some hmid
    have hfirst := commit_all (hall elements hspells) hnodup
    obtain ⟨houtNodup, hread, hout⟩ := ih hrest hfirst.1
    refine ⟨houtNodup, ?_, fun name value => ?_⟩
    · intro l hl
      rcases List.mem_cons.mp hl with rfl | hl
      · exact ⟨text, elements, htext, hspells⟩
      · exact hread l hl
    · constructor
      · intro hm
        rcases (hout name value).mp hm with hmid | ⟨l, hl, hdir⟩
        · exact ((hfirst.2 name value).mp hmid).imp_right fun hs =>
            ⟨line, List.mem_cons_self, text, elements, htext, hspells, hs⟩
        · exact .inr ⟨l, List.mem_cons_of_mem _ hl, hdir⟩
      · rintro (hm | ⟨l, hl, text', elements', htext', hspells', hs⟩)
        · exact (hout name value).mpr (.inl ((hfirst.2 name value).mpr (.inl hm)))
        · rcases List.mem_cons.mp hl with rfl | hl
          · rw [htext] at htext'
            obtain rfl := Option.some.inj htext'
            have hsame := commit_all (hall elements' hspells') hnodup
            exact (hout name value).mpr (.inl ((hsame.2 name value).mpr (.inr hs)))
          · exact (hout name value).mpr (.inr ⟨l, hl, text', elements', htext', hspells', hs⟩)

/-- `Cache-Control` is read as the directives that its lines spell, each name once. -/
theorem parse_exact {headers : HeaderMap} {control : Control} (h : Control.parse headers = some control) :
    (control.entries.map Prod.fst).Nodup ∧
      (∀ line ∈ headers.getAll "cache-control",
        ∃ text elements, HeaderValue.toStr line = some text ∧ Spells text.toList elements) ∧
      (∀ (name : String) (value : Option String), (name, value) ∈ control.entries ↔ Directive headers name value) ∧
      ∀ name ∈ ["max-age", "s-maxage", "min-fresh"], (control.seconds name).isOk = true := by
  rw [Control.parse] at h
  obtain ⟨entries, hentries, hchecked⟩ := Option.bind_eq_some_iff.mp h
  dsimp only at hchecked
  split at hchecked
  · rename_i hok
    obtain rfl := Option.some.inj hchecked
    obtain ⟨hnodup, hread, hmem⟩ := parseLines_some hentries List.nodup_nil
    refine ⟨hnodup, hread, fun name value => ?_, List.all_eq_true.mp hok⟩
    rw [hmem, Directive]
    exact ⟨fun hm => hm.resolve_left List.not_mem_nil, .inr⟩
  · cases hchecked

theorem contains_iff {headers : HeaderMap} {control : Control} (h : Control.parse headers = some control) (name : String) :
    control.contains name = true ↔ ∃ value, Directive headers name value := by
  obtain ⟨_, _, hmem, _⟩ := parse_exact h
  rw [contains, List.any_eq_true]
  constructor
  · rintro ⟨⟨n, value⟩, hin, hname⟩
    obtain rfl := beq_iff_eq.mp hname
    exact ⟨value, (hmem _ value).mp hin⟩
  · rintro ⟨value, hdir⟩
    exact ⟨(name, value), (hmem name value).mpr hdir, beq_self_eq_true name⟩

theorem find_of_mem {entries : Entries} (hnodup : (entries.map Prod.fst).Nodup) {x : String × Option String}
    (hx : x ∈ entries) : (entries.find? fun e => e.1 == x.1) = some x := by
  cases hf : entries.find? fun e => e.1 == x.1 with
  | none => exact absurd (beq_self_eq_true x.1) (List.find?_eq_none.mp hf x hx)
  | some y =>
    have hname : y.1 = x.1 := beq_iff_eq.mp (List.find?_some (p := fun e : String × Option String => e.1 == x.1) hf)
    rw [List.inj_on_of_nodup_map hnodup (List.mem_of_find?_eq_some hf) hx hname]

/-- A directive of seconds is written in digits that fit, or nothing is read at all. -/
theorem seconds_of_directive {headers : HeaderMap} {control : Control} (h : Control.parse headers = some control)
    {name : String} (hname : name ∈ ["max-age", "s-maxage", "min-fresh"]) {value : Option String}
    (hdir : Directive headers name value) :
    ∃ text n, value = some text ∧ Decimal text.toList n ∧ n < 2 ^ 64 ∧ control.saysSeconds name = some n := by
  obtain ⟨hnodup, _, hmem, hok⟩ := parse_exact h
  have hsec := hok name hname
  have hfind := find_of_mem hnodup ((hmem name value).mpr hdir)
  rw [saysSeconds]
  unfold seconds at hsec ⊢
  rw [hfind] at hsec ⊢
  cases value with
  | none => cases hsec
  | some text =>
    dsimp only at hsec ⊢
    split at hsec
    · cases hsec
    · rename_i hgood
      rw [if_neg hgood]
      cases hn : Text.parseUnsigned (2 ^ 64) text with
      | none =>
        rw [hn] at hsec
        cases hsec
      | some n =>
        obtain ⟨hlt, hdec | ⟨digits, htext, _⟩⟩ := Text.parseUnsigned_iff.mp hn
        · exact ⟨text, n, rfl, hdec, hlt, rfl⟩
        · have hall : text.toList.all Char.isDigit = true := by
            rw [Bool.or_eq_true, not_or] at hgood
            simpa using hgood.2
          rw [htext, List.all_cons] at hall
          exact absurd hall (by simp)

theorem saysSeconds_none {headers : HeaderMap} {control : Control} (h : Control.parse headers = some control)
    {name : String} (hname : name ∈ ["max-age", "s-maxage", "min-fresh"]) :
    control.saysSeconds name = none ↔ ∀ value, ¬ Directive headers name value := by
  constructor
  · intro hnone value hdir
    obtain ⟨_, n, _, _, _, hsome⟩ := seconds_of_directive h hname hdir
    rw [hnone] at hsome
    cases hsome
  · intro hno
    obtain ⟨_, _, hmem, _⟩ := parse_exact h
    have hfind : (control.entries.find? fun e => e.1 == name) = none := by
      refine List.find?_eq_none.mpr fun x hx hx1 => ?_
      obtain rfl := beq_iff_eq.mp hx1
      exact hno x.2 ((hmem x.1 x.2).mp hx)
    rw [saysSeconds, seconds, hfind]

end Control
end Gatel.Cache
