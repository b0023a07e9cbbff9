import Gatel.Plan.RequestPath
import Gatel.Plan.Validate

namespace Gatel

namespace RequestPath

/-- A part that stands for itself. -/
structure Plain (part : Segment) : Prop where
  nonempty : part ≠ []
  dots : isDots part = false
  separator : '/' ∉ part

/-- A path of these parts, with or without a slash behind the last one. -/
@[grind =] def render (parts : List Segment) (slash : Bool) : List Char :=
  if slash = true ∧ parts ≠ [] then join parts ++ ['/'] else join parts

theorem push_plain {parts : List Segment} {part : Segment} (hp : ∀ p ∈ parts, Plain p)
    (hs : '/' ∉ part) : ∀ p ∈ push parts part, Plain p := by
  intro p hin
  unfold push at hin
  split at hin
  · exact hp p hin
  · rename_i hkeep
    split at hin
    · exact hp p (List.mem_of_mem_dropLast hin)
    · rename_i hup
      rcases List.mem_append.mp hin with hin | hin
      · exact hp p hin
      · rw [List.mem_singleton.mp hin]
        rw [not_or] at hkeep
        exact ⟨hkeep.1, by simp [isDots, hkeep.2, hup], hs⟩

theorem foldl_push_plain {texts parts : List Segment} (ht : ∀ t ∈ texts, '/' ∉ t)
    (hp : ∀ p ∈ parts, Plain p) : ∀ p ∈ texts.foldl push parts, Plain p := by
  induction texts generalizing parts with
  | nil => exact hp
  | cons t texts ih =>
    exact ih (fun u hu => ht u (List.mem_cons_of_mem t hu)) (push_plain hp (ht t List.mem_cons_self))

theorem push_of_plain {parts : List Segment} {part : Segment} (h : Plain part) :
    push parts part = parts ++ [part] := by
  have hd := h.dots
  simp only [isDots, Bool.or_eq_false_iff, beq_eq_false_iff_ne] at hd
  rw [push, if_neg (not_or.mpr ⟨h.nonempty, hd.1⟩), if_neg hd.2]

theorem foldl_push_of_plain {parts acc : List Segment} (h : ∀ p ∈ parts, Plain p) :
    parts.foldl push acc = acc ++ parts := by
  induction parts generalizing acc with
  | nil => simp
  | cons p parts ih =>
    rw [List.foldl_cons, push_of_plain (h p List.mem_cons_self),
      ih (fun q hq => h q (List.mem_cons_of_mem p hq)), List.append_assoc, List.singleton_append]

theorem length_join_gt {parts : List Segment} (h : ∀ p ∈ parts, Plain p) :
    1 < (join parts).length ↔ parts ≠ [] := by
  cases parts with
  | nil => simp [join]
  | cons p parts =>
    have hp := List.length_pos_iff.mpr (h p List.mem_cons_self).nonempty
    simp only [join, List.length_cons, ne_eq, reduceCtorEq, not_false_eq_true, iff_true]
    cases parts with
    | nil => simpa using hp
    | cons q parts =>
      rw [List.intercalate_cons_cons]
      simp only [List.length_append]
      omega

/-- Whether a decoded path leaves its last part open. -/
def trailing (decoded : List Char) : Bool :=
  decoded.getLast? = some '/' || isDots ((decoded.splitOn '/').getLast?.getD [])

theorem canonical_plain (decoded : List Char) :
    ∀ p ∈ (decoded.splitOn '/').foldl push [], Plain p :=
  foldl_push_plain sep_not_mem_splitOn (by simp)

theorem canonical_eq_render (decoded : List Char) :
    canonical decoded = render ((decoded.splitOn '/').foldl push []) (trailing decoded) := by
  unfold canonical render trailing
  simp only [Bool.and_eq_true, decide_eq_true_eq, length_join_gt (canonical_plain decoded)]

theorem splitOn_join {parts : List Segment} (hp : ∀ p ∈ parts, Plain p) (hne : parts ≠ []) :
    (join parts).splitOn '/' = [] :: parts := by
  have hfront : ('/' :: ['/'].intercalate parts).splitOn '/' = [] :: (['/'].intercalate parts).splitOn '/' :=
    List.splitOn_append_cons_self [] _
  rw [join, hfront, List.splitOn_intercalate '/' (fun p h => (hp p h).separator) hne]

theorem splitOn_render {parts : List Segment} (hp : ∀ p ∈ parts, Plain p) (slash : Bool) :
    (render parts slash).splitOn '/' =
      [] :: (if parts = [] then [[]] else parts ++ if slash then [[]] else []) := by
  by_cases hne : parts = []
  · subst hne
    simp only [render, ne_eq, not_true_eq_false, and_false, ↓reduceIte]
    decide
  · cases slash with
    | false =>
      simp only [render, Bool.false_eq_true, false_and, ↓reduceIte, hne, List.append_nil]
      exact splitOn_join hp hne
    | true =>
      simp only [render, hne, ne_eq, not_false_eq_true, and_self, ↓reduceIte]
      rw [List.splitOn_append_cons_self, splitOn_join hp hne, List.splitOn_nil, List.cons_append]

theorem join_concat (init : List Segment) (last : Segment) :
    ∃ front, join (init ++ [last]) = front ++ last := by
  by_cases hi : init = []
  · exact ⟨['/'], by simp [hi, join]⟩
  · refine ⟨'/' :: (['/'].intercalate init ++ ['/']), ?_⟩
    rw [join, intercalate_concat hi]
    simp

theorem getLast?_join {parts : List Segment} (hp : ∀ p ∈ parts, Plain p) (hne : parts ≠ []) :
    (join parts).getLast? ≠ some '/' := by
  rcases List.eq_nil_or_concat parts with rfl | ⟨init, last, rfl⟩
  · exact absurd rfl hne
  · rw [List.concat_eq_append] at hp ⊢
    have hlast := hp last (by simp)
    obtain ⟨front, hfront⟩ := join_concat init last
    rw [hfront, List.getLast?_append_of_ne_nil _ hlast.nonempty]
    intro he
    exact hlast.separator (List.mem_of_getLast? he)

theorem trailing_render {parts : List Segment} (hp : ∀ p ∈ parts, Plain p) (slash : Bool)
    (hne : parts ≠ []) : trailing (render parts slash) = slash := by
  unfold trailing
  rw [splitOn_render hp]
  cases slash with
  | true => simp [render, hne]
  | false =>
    obtain ⟨last, hlast⟩ : ∃ last, parts.getLast? = some last :=
      ⟨_, List.getLast?_eq_some_getLast hne⟩
    have hl : ([] :: parts).getLast? = some last := by
      rw [List.getLast?_cons, hlast]
      rfl
    have hdots := (hp last (List.mem_of_getLast? hlast)).dots
    simp [render, hne, hl, hdots, getLast?_join hp hne]

/-- A rendered path is its own identity. -/
theorem canonical_render {parts : List Segment} (hp : ∀ p ∈ parts, Plain p) (slash : Bool) :
    canonical (render parts slash) = render parts slash := by
  rw [canonical_eq_render, splitOn_render hp]
  by_cases hne : parts = []
  · subst hne
    simp [push, render]
  · rw [trailing_render hp slash hne, if_neg hne]
    have hfold : (([] : Segment) :: (parts ++ if slash then [[]] else [])).foldl push [] = parts := by
      rw [List.foldl_cons, List.foldl_append, show push [] [] = [] from rfl, foldl_push_of_plain hp]
      cases slash with
      | false => rfl
      | true => simp [push]
    rw [hfold]

/-- What holds of a path identity. -/
structure CanonicalPath (q : List Char) : Prop where
  rooted : q.head? = some '/'
  controls : ∀ c ∈ q, isControl c = false
  backslash : '\\' ∉ q
  /-- Between the first and the last slash there is no empty part. -/
  interior : ∀ part ∈ (q.splitOn '/').tail.dropLast, part ≠ []
  dots : ∀ part ∈ q.splitOn '/', isDots part = false

theorem head?_render (parts : List Segment) (slash : Bool) : (render parts slash).head? = some '/' := by
  unfold render
  split
  · simp [join]
  · simp [join]

theorem mem_render {c : Char} (hc : c ≠ '/') {parts : List Segment} {slash : Bool}
    (h : c ∈ render parts slash) : ∃ part ∈ parts, c ∈ part := by
  unfold render at h
  split at h
  · rw [List.mem_append, List.mem_singleton] at h
    exact (mem_join hc parts).mp (h.resolve_right hc)
  · exact (mem_join hc parts).mp h

/-- The identity of a decoded path without controls and backslashes. -/
theorem canonicalPath_canonical {decoded : List Char} (hc : ∀ c ∈ decoded, isControl c = false)
    (hb : '\\' ∉ decoded) : CanonicalPath (canonical decoded) where
  rooted := by
    rw [canonical_eq_render]
    exact head?_render _ _
  controls c hin := by
    by_cases hs : c = '/'
    · subst hs
      decide
    · exact hc c (mem_of_mem_canonical hs hin)
  backslash hin := hb (mem_of_mem_canonical (by decide) hin)
  interior part hin := by
    have hp := canonical_plain decoded
    rw [canonical_eq_render, splitOn_render hp, List.tail_cons] at hin
    split at hin
    · simp at hin
    · split at hin
      · rw [List.dropLast_concat] at hin
        exact (hp part hin).nonempty
      · rw [List.append_nil] at hin
        exact (hp part (List.mem_of_mem_dropLast hin)).nonempty
  dots part hin := by
    have hp := canonical_plain decoded
    rw [canonical_eq_render, splitOn_render hp, List.mem_cons] at hin
    rcases hin with rfl | hin
    · decide
    · split at hin
      · rw [List.mem_singleton.mp hin]
        decide
      · rcases List.mem_append.mp hin with hin | hin
        · exact (hp part hin).dots
        · split at hin
          · rw [List.mem_singleton.mp hin]
            decide
          · cases hin

/-- A path identity is made of plain parts. -/
theorem CanonicalPath.exists_render {q : List Char} (h : CanonicalPath q) :
    ∃ parts slash, (∀ p ∈ parts, Plain p) ∧ q = render parts slash := by
  cases hq : q with
  | nil =>
    have hr := h.rooted
    rw [hq] at hr
    cases hr
  | cons c rest =>
    have hr := h.rooted
    rw [hq] at hr
    cases hr
    have hsplit : ('/' :: rest).splitOn '/' = [] :: rest.splitOn '/' :=
      List.splitOn_append_cons_self [] rest
    have hint := h.interior
    have hdots := h.dots
    rw [hq, hsplit, List.tail_cons] at hint
    rw [hq, hsplit] at hdots
    have hwhole : '/' :: rest = join (rest.splitOn '/') := by rw [join, List.intercalate_splitOn]
    have hsep := @sep_not_mem_splitOn '/' rest
    rcases List.eq_nil_or_concat (rest.splitOn '/') with hnil | ⟨init, last, hcat⟩
    · exact absurd hnil (List.splitOn_ne_nil _ _)
    · rw [List.concat_eq_append] at hcat
      rw [hcat] at hint hdots hwhole hsep
      rw [List.dropLast_concat] at hint
      have hinit : ∀ p ∈ init, Plain p := fun p hp =>
        ⟨hint p hp, hdots p (by simp [hp]), hsep p (by simp [hp])⟩
      by_cases hlast : last = []
      · subst hlast
        refine ⟨init, true, hinit, ?_⟩
        rw [hwhole]
        by_cases hi : init = []
        · subst hi
          rfl
        · simp [render, hi, join, intercalate_concat hi]
      · refine ⟨init ++ [last], false, ?_, ?_⟩
        · intro p hp
          rcases List.mem_append.mp hp with hp | hp
          · exact hinit p hp
          · rw [List.mem_singleton.mp hp]
            exact ⟨hlast, hdots last (by simp), hsep last (by simp)⟩
        · rw [hwhole]
          simp [render]

theorem CanonicalPath.canonical_eq {q : List Char} (h : CanonicalPath q) : canonical q = q := by
  obtain ⟨parts, slash, hp, rfl⟩ := h.exists_render
  exact canonical_render hp slash

/-- A path that needs no normalizing, if it has no control character, is an identity. -/
theorem canonicalPath_of_not_needs {path : List Char} (hroot : path.head? = some '/')
    (hn : needsNormalizing path = false) (hc : ∀ c ∈ path, isControl c = false) :
    CanonicalPath path := by
  obtain ⟨-, hback, hdouble, hdots⟩ := plain_of_not_needs hn
  refine ⟨hroot, hc, hback, ?_, hdots⟩
  cases path with
  | nil => cases hroot
  | cons c rest =>
    cases hroot
    have hsplit : ('/' :: rest).splitOn '/' = [] :: rest.splitOn '/' :=
      List.splitOn_append_cons_self [] rest
    rw [hsplit, List.tail_cons]
    apply ne_nil_of_mem_dropLast
    rw [join, List.intercalate_splitOn]
    exact hdouble

/-- The once-decoded bytes of a path, with every backslash a slash. -/
@[grind =] def decodedBytes (path : String) : Option (List UInt8) :=
  (unescape hexPair (utf8 path)).map fun bytes => bytes.map separator

/-- The decoding half of `routing_path`. -/
def slowPath (path : String) : Option String := do
  let bytes ← unescape hexPair (utf8 path)
  let decoded ← fromUtf8 (bytes.map separator)
  if decoded.toList.any isControl then none
  else some (String.ofList (canonical decoded.toList))

/-- Without escapes and backslashes, decoding keeps a path. -/
theorem decodedBytes_plain {path : String} (hp : '%' ∉ path.toList) (hb : '\\' ∉ path.toList) :
    decodedBytes path = some (utf8 path) := by
  have hpercent : (37 : UInt8) ∉ utf8 path := fun hm => hp ((mem_utf8_iff (c := '%') (by decide) path).mp hm)
  have hback : (92 : UInt8) ∉ utf8 path := fun hm => hb ((mem_utf8_iff (c := '\\') (by decide) path).mp hm)
  rw [decodedBytes, unescape_plain hpercent, Option.map_some, separator_id hback]

theorem slowPath_eq (path : String) :
    slowPath path = (decodedBytes path).bind fun bytes => (fromUtf8 bytes).bind fun decoded =>
      if decoded.toList.any isControl then none
      else some (String.ofList (canonical decoded.toList)) := by
  unfold slowPath decodedBytes
  cases unescape hexPair (utf8 path) with
  | none => rfl
  | some bytes => rfl

theorem fromUtf8_utf8 (s : String) : fromUtf8 (utf8 s) = some s := fromUtf8_eq_some.mpr rfl

/-- A path that decodes to an identity is routed as that identity. -/
theorem slowPath_of_decoded {path q : String} (hd : decodedBytes path = some (utf8 q))
    (h : CanonicalPath q.toList) : slowPath path = some q := by
  have hc : q.toList.any isControl = false := by
    rw [List.any_eq_false]
    intro c hin
    simp [h.controls c hin]
  rw [slowPath_eq, hd, Option.bind_some, fromUtf8_utf8, Option.bind_some, hc, h.canonical_eq,
    String.ofList_toList]
  rfl

theorem slowPath_of_canonicalPath {path : String} (h : CanonicalPath path.toList)
    (hp : '%' ∉ path.toList) : slowPath path = some path :=
  slowPath_of_decoded (decodedBytes_plain hp h.backslash) h

/-- The two ways through `routing_path` never disagree. -/
theorem routingPath_eq_slowPath {path : String} (hroot : path.toList.head? = some '/') :
    routingPath path = slowPath path := by
  have hstar : path ≠ "*" := by
    rintro rfl
    exact absurd hroot (by decide)
  unfold routingPath
  rw [if_neg hstar, if_neg (not_not.mpr hroot)]
  cases hn : needsNormalizing path.toList with
  | true => rfl
  | false =>
    obtain ⟨hp, hb, -⟩ := plain_of_not_needs hn
    cases hc : path.toList.any isControl with
    | true =>
      rw [slowPath_eq, decodedBytes_plain hp hb, Option.bind_some, fromUtf8_utf8, Option.bind_some, hc]
      rfl
    | false =>
      rw [List.any_eq_false] at hc
      have hcan := canonicalPath_of_not_needs hroot hn (fun c hin => by simpa using hc c hin)
      rw [slowPath_of_canonicalPath hcan hp]
      rfl

/-- Whatever a rooted path is routed as is an identity. -/
theorem canonicalPath_of_slowPath {path q : String} (h : slowPath path = some q) :
    CanonicalPath q.toList := by
  rw [slowPath_eq] at h
  obtain ⟨bytes, hbytes, h⟩ := Option.bind_eq_some_iff.mp h
  obtain ⟨decoded, hdecoded, h⟩ := Option.bind_eq_some_iff.mp h
  split at h
  · cases h
  · rename_i hc
    cases h
    rw [Bool.not_eq_true, List.any_eq_false] at hc
    rw [String.toList_ofList]
    refine canonicalPath_canonical (fun c hin => by simpa using hc c hin) ?_
    intro hm
    have hb := (mem_utf8_iff (c := '\\') (by decide) decoded).mpr hm
    rw [fromUtf8_eq_some.mp hdecoded] at hb
    obtain ⟨raw, -, rfl⟩ := Option.map_eq_some_iff.mp hbytes
    exact separator_ne raw hb

theorem slowPath_eq_none_iff (path : String) :
    slowPath path = none ↔ unescape hexPair (utf8 path) = none ∨
      ∃ bytes, decodedBytes path = some bytes ∧
        (fromUtf8 bytes = none ∨ ∃ decoded, fromUtf8 bytes = some decoded ∧
          decoded.toList.any isControl = true) := by
  rw [slowPath_eq, Option.bind_eq_none_iff]
  constructor
  · intro h
    cases hu : unescape hexPair (utf8 path) with
    | none => exact .inl rfl
    | some raw =>
      have hd : decodedBytes path = some (raw.map separator) := by rw [decodedBytes, hu]; rfl
      refine .inr ⟨_, hd, ?_⟩
      have hbind := h _ hd
      cases hf : fromUtf8 (raw.map separator) with
      | none => exact .inl rfl
      | some decoded =>
        rw [hf, Option.bind_some] at hbind
        refine .inr ⟨decoded, rfl, ?_⟩
        by_contra hc
        rw [if_neg hc] at hbind
        cases hbind
  · rintro (hu | ⟨bytes, hd, hbad⟩) raw hraw
    · rw [decodedBytes, hu] at hraw
      cases hraw
    · rw [hd] at hraw
      cases hraw
      rcases hbad with hf | ⟨decoded, hf, hc⟩
      · rw [hf]
        rfl
      · rw [hf, Option.bind_some, if_pos hc]

/-- Every rooted request path has one identity: the fast and the decoding path agree, the
identity is canonical and a function of the decoded bytes, and it is missing only for bad
escapes, bad UTF-8 and control characters. -/
theorem one_identity (p : String) (hroot : p.toList.head? = some '/') :
    routingPath p = slowPath p ∧
    (needsNormalizing p.toList = false → p.toList.any isControl = false →
      routingPath p = some p ∧ slowPath p = some p) ∧
    (∀ q, routingPath p = some q → CanonicalPath q.toList) ∧
    (∀ p' : String, p'.toList.head? = some '/' → decodedBytes p' = decodedBytes p →
      routingPath p' = routingPath p) ∧
    (routingPath p = none ↔ unescape hexPair (utf8 p) = none ∨
      ∃ bytes, decodedBytes p = some bytes ∧
        (fromUtf8 bytes = none ∨ ∃ decoded, fromUtf8 bytes = some decoded ∧
          decoded.toList.any isControl = true)) := by
  rw [routingPath_eq_slowPath hroot]
  refine ⟨rfl, ?_, ?_, ?_, slowPath_eq_none_iff p⟩
  · intro hn hc
    rw [List.any_eq_false] at hc
    have hcan := canonicalPath_of_not_needs hroot hn (fun c hin => by simpa using hc c hin)
    have hslow := slowPath_of_canonicalPath hcan (plain_of_not_needs hn).1
    exact ⟨hslow, hslow⟩
  · intro q hq
    exact canonicalPath_of_slowPath hq
  · intro p' hroot' hbytes
    rw [routingPath_eq_slowPath hroot', slowPath_eq, slowPath_eq, hbytes]

theorem one_identity_aliased :
    routingPath "/public/../private%5cfile" = slowPath "/public/../private%5cfile" ∧
    ∃ q, routingPath "/public/../private%5cfile" = some q ∧ CanonicalPath q.toList := by
  have h := one_identity "/public/../private%5cfile" (by decide)
  exact ⟨h.1, "/private/file", by decide, h.2.2.1 _ (by decide)⟩

end RequestPath

/-- The parsers of the program, with its own path decoding. -/
def Leaves.routed (leaves : Leaves) : Leaves := { leaves with routingPath := Gatel.routingPath }

namespace PathMatch
open RequestPath

/-- One character of a printed pattern. -/
def escapeChar (c : Char) : List Char :=
  if c = '%' then ['%', '2', '5']
  else if c = '*' then ['%', '2', 'A']
  else if c = '?' then ['%', '3', 'F']
  else if c = '#' then ['%', '2', '3']
  else [c]

theorem toList_escapePathPattern (path : String) :
    (escapePathPattern path).toList = path.toList.flatMap escapeChar := by
  simp only [escapePathPattern, Text.replaceChar, String.toList_ofList, List.flatMap_assoc]
  apply List.flatMap_congr
  intro c _
  unfold escapeChar
  by_cases hp : c = '%'
  · subst hp
    decide
  · by_cases hs : c = '*'
    · subst hs
      decide
    · by_cases hq : c = '?'
      · subst hq
        decide
      · simp [hp, hs, hq]

/-- Nothing of the pattern syntax is left in an escaped path. -/
theorem not_mem_escape {c : Char} (hc : c = '*' ∨ c = '?' ∨ c = '#') (path : String) :
    c ∉ (escapePathPattern path).toList := by
  rw [toList_escapePathPattern, List.mem_flatMap]
  rintro ⟨d, -, hin⟩
  unfold escapeChar at hin
  split at hin
  · rcases hc with rfl | rfl | rfl <;> revert hin <;> decide
  · rename_i h1
    split at hin
    · rcases hc with rfl | rfl | rfl <;> revert hin <;> decide
    · rename_i h2
      split at hin
      · rcases hc with rfl | rfl | rfl <;> revert hin <;> decide
      · rename_i h3
        split at hin
        · rcases hc with rfl | rfl | rfl <;> revert hin <;> decide
        · rename_i h4
          rw [List.mem_singleton] at hin
          subst hin
          rcases hc with hc | hc | hc
          · exact h2 hc
          · exact h3 hc
          · exact h4 hc

theorem head?_escape {path : String} (h : path.toList.head? = some '/') :
    (escapePathPattern path).toList.head? = some '/' := by
  rw [toList_escapePathPattern]
  cases hp : path.toList with
  | nil =>
    rw [hp] at h
    cases h
  | cons c rest =>
    rw [hp] at h
    cases h
    rfl

theorem unescape_append_plain {plain : List UInt8} (h : 37 ∉ plain) (rest : List UInt8) :
    unescape hexPair (plain ++ rest) = (unescape hexPair rest).map (plain ++ ·) := by
  induction plain with
  | nil => simp
  | cons b plain ih =>
    obtain ⟨hb, hrest⟩ := not_or.mp (fun hm => h (List.mem_cons.mpr hm))
    rw [List.cons_append, unescape_cons_ne hexPair (fun he => hb he.symm), ih hrest, Option.map_map]
    rfl

/-- Decoding undoes the escaping of a character. -/
theorem unescape_escapeChar (c : Char) (rest : List UInt8) :
    unescape hexPair ((escapeChar c).flatMap String.utf8EncodeChar ++ rest) =
      (unescape hexPair rest).map (String.utf8EncodeChar c ++ ·) := by
  have hcoded : ∀ (high low byte : UInt8), hexPair high low = some byte →
      unescape hexPair ([37, high, low] ++ rest) = (unescape hexPair rest).map ([byte] ++ ·) := by
    intro high low byte hb
    simp [unescape, hb]
  unfold escapeChar
  split
  · rename_i hc
    subst hc
    exact hcoded 50 53 37 (by decide)
  · rename_i hp
    split
    · rename_i hc
      subst hc
      exact hcoded 50 65 42 (by decide)
    · split
      · rename_i hc
        subst hc
        exact hcoded 51 70 63 (by decide)
      · split
        · rename_i hc
          subst hc
          exact hcoded 50 51 35 (by decide)
        · rw [List.flatMap_singleton]
          apply unescape_append_plain
          intro hm
          have hin : (UInt8.ofNat '%'.toNat) ∈ [c].flatMap String.utf8EncodeChar := by simpa using hm
          have hmem := (Utf8.mem_flatMap_iff (by decide) [c]).mp hin
          exact hp (List.mem_singleton.mp hmem).symm

theorem unescape_escape (path : String) :
    unescape hexPair (utf8 (escapePathPattern path)) = some (utf8 path) := by
  rw [utf8_eq_flatMap, utf8_eq_flatMap, toList_escapePathPattern]
  induction path.toList with
  | nil => rfl
  | cons c rest ih =>
    rw [List.flatMap_cons, List.flatMap_append, unescape_escapeChar, ih, List.flatMap_cons]
    rfl

/-- An escaped identity is routed as the identity. -/
theorem routingPath_escape {path : String} (h : CanonicalPath path.toList) :
    routingPath (escapePathPattern path) = some path := by
  have hback : (92 : UInt8) ∉ utf8 path := fun hm =>
    h.backslash ((mem_utf8_iff (c := '\\') (by decide) path).mp hm)
  have hdecoded : decodedBytes (escapePathPattern path) = some (utf8 path) := by
    rw [decodedBytes, unescape_escape, Option.map_some, separator_id hback]
  rw [routingPath_eq_slowPath (head?_escape h.rooted)]
  exact slowPath_of_decoded hdecoded h

/-- The identity a pattern holds. -/
def identity : PathMatch → String
  | .exact path => path
  | .under stem => stem

section
variable {leaves : Leaves} {raw : String} {m : PathMatch}

/-- What an accepted pattern is. -/
theorem parse_spec (h : parse leaves.routed raw = .ok m) :
    ∃ pattern : String, pattern.toList.head? = some '/' ∧ '*' ∉ pattern.toList ∧
      routingPath pattern = some m.identity ∧
      ((raw = pattern ∧ m = .exact m.identity) ∨
        (raw.toList = pattern.toList ++ ['*'] ∧ m = .under m.identity)) := by
  unfold parse at h
  split at h
  · cases h
  · rename_i hroot
    rw [not_not] at hroot
    split at h
    · cases h
    · dsimp only at h
      by_cases hlast : raw.toList.getLast? = some '*'
      · simp only [hlast, beq_self_eq_true, ↓reduceIte] at h
        split at h
        · cases h
        · rename_i hstar
          rw [List.contains_iff_mem] at hstar
          split at h
          · cases h
          · rename_i canonical hcan
            cases h
            refine ⟨_, ?_, hstar, hcan, .inr ⟨?_, rfl⟩⟩
            · rw [String.toList_ofList]
              cases hr : raw.toList with
              | nil =>
                rw [hr] at hroot
                cases hroot
              | cons c rest =>
                rw [hr] at hroot hlast
                cases hroot
                cases rest with
                | nil => exact absurd hlast (by decide)
                | cons d rest => rfl
            · rw [String.toList_ofList]
              exact (List.dropLast_append_getLast? '*' hlast).symm
      · have hne : (raw.toList.getLast? == some '*') = false := by simpa using hlast
        simp only [hne, Bool.false_eq_true, ↓reduceIte] at h
        split at h
        · cases h
        · rename_i hstar
          rw [List.contains_iff_mem] at hstar
          split at h
          · cases h
          · rename_i canonical hcan
            cases h
            exact ⟨raw, hroot, hstar, hcan, .inl ⟨rfl, rfl⟩⟩

theorem canonicalPath_identity (h : parse leaves.routed raw = .ok m) : CanonicalPath m.identity.toList := by
  obtain ⟨pattern, hroot, -, hcan, -⟩ := parse_spec h
  rw [routingPath_eq_slowPath hroot] at hcan
  exact canonicalPath_of_slowPath hcan

theorem parse_exact {path q : String} (hroot : path.toList.head? = some '/')
    (hs : '*' ∉ path.toList) (hq : '?' ∉ path.toList) (hh : '#' ∉ path.toList)
    (hr : leaves.routingPath path = some q) : parse leaves path = .ok (.exact q) := by
  have hlast : (path.toList.getLast? == some '*') = false := by
    rw [beq_eq_false_iff_ne]
    intro he
    exact hs (List.mem_of_getLast? he)
  have hsyntax : ¬ (path.toList.contains '?' = true ∨ path.toList.contains '#' = true) := by
    simp only [List.contains_iff_mem]
    exact not_or.mpr ⟨hq, hh⟩
  have hstar : ¬ path.toList.contains '*' = true := by rwa [List.contains_iff_mem]
  unfold parse
  rw [if_neg (not_not.mpr hroot), if_neg hsyntax]
  simp only [hlast, Bool.false_eq_true, ↓reduceIte]
  rw [if_neg hstar, hr]

theorem parse_under {path q : String} (hroot : path.toList.head? = some '/')
    (hs : '*' ∉ path.toList) (hq : '?' ∉ path.toList) (hh : '#' ∉ path.toList)
    (hr : leaves.routingPath path = some q) : parse leaves (path ++ "*") = .ok (.under q) := by
  have htext : (path ++ "*").toList = path.toList ++ ['*'] := by simp
  have hhead : (path.toList ++ ['*']).head? = some '/' := by
    rw [List.head?_append, hroot]
    rfl
  have hsyntax : ¬ ((path.toList ++ ['*']).contains '?' = true ∨
      (path.toList ++ ['*']).contains '#' = true) := by
    simp only [List.contains_iff_mem, List.mem_append]
    rintro ((h | h) | h | h)
    · exact hq h
    · exact absurd h (by decide)
    · exact hh h
    · exact absurd h (by decide)
  have hstar : ¬ path.toList.contains '*' = true := by rwa [List.contains_iff_mem]
  unfold parse
  rw [htext, if_neg (not_not.mpr hhead), if_neg hsyntax]
  simp only [List.getLast?_concat, beq_self_eq_true, ↓reduceIte, List.dropLast_concat,
    String.ofList_toList]
  rw [if_neg hstar, hr]

theorem routed_routingPath (leaves : Leaves) : leaves.routed.routingPath = routingPath := rfl

theorem parse_describe (hm : CanonicalPath m.identity.toList) :
    parse leaves.routed m.describe = .ok m := by
  have hstar := not_mem_escape (.inl rfl) m.identity
  have hquery := not_mem_escape (.inr (.inl rfl)) m.identity
  have hhash := not_mem_escape (.inr (.inr rfl)) m.identity
  have hroot := head?_escape hm.rooted
  have hrouted := routingPath_escape hm
  rw [← routed_routingPath leaves] at hrouted
  cases m with
  | exact path =>
    simp only [identity] at hstar hquery hhash hroot hrouted
    rw [describe, parse_exact hroot hstar hquery hhash hrouted]
  | under stem =>
    simp only [identity] at hstar hquery hhash hroot hrouted
    rw [describe, parse_under hroot hstar hquery hhash hrouted]

theorem describe_injective {raw' : String} {m' : PathMatch} (h : parse leaves.routed raw = .ok m)
    (h' : parse leaves.routed raw' = .ok m') (he : m'.describe = m.describe) : m' = m := by
  have hm := @parse_describe leaves m (canonicalPath_identity h)
  have hm' := @parse_describe leaves m' (canonicalPath_identity h')
  rw [he, hm] at hm'
  exact (Except.ok.inj hm').symm

end

theorem foldl_updateStr_written (l : List String) (g : Hasher) :
    (l.foldl Hasher.updateStr g).written = g.written ++ (l.foldl Hasher.updateStr .new).written := by
  induction l generalizing g with
  | nil => simp [Hasher.new]
  | cons s l ih =>
    rw [List.foldl_cons, List.foldl_cons, ih, ih (Hasher.new.updateStr s)]
    simp [Hasher.updateStr, Hasher.update, Hasher.new]

/-- Two lists of hashed texts that differ in one place are written differently. -/
theorem written_ne {a b : String} (hne : a ≠ b) (before after : List String) (h : Hasher) :
    ((before ++ a :: after).foldl Hasher.updateStr h).written ≠
      ((before ++ b :: after).foldl Hasher.updateStr h).written := by
  intro he
  simp only [List.foldl_append, List.foldl_cons] at he
  rw [foldl_updateStr_written after (Hasher.updateStr _ a),
    foldl_updateStr_written after (Hasher.updateStr _ b)] at he
  have hw := List.append_cancel_right he
  simp only [Hasher.updateStr, Hasher.update, List.append_cancel_left_eq, List.cons.injEq, true_and] at hw
  have htail := (List.append_inj hw (by simp)).2
  apply hne
  have ha := fromUtf8_utf8 a
  rw [htail, fromUtf8_utf8] at ha
  exact (Option.some.inj ha).symm

/-- A printed pattern parses back to the pattern. So two patterns that differ are printed
differently, and neither the duplicate check nor the input of a derived identity confuses
two routes that differ in their pattern. -/
theorem describe_exact (leaves : Leaves) {raw : String} {m : PathMatch}
    (h : parse leaves.routed raw = .ok m) :
    parse leaves.routed m.describe = .ok m ∧
    ∀ (raw' : String) (m' : PathMatch), parse leaves.routed raw' = .ok m' → m' ≠ m →
      m'.describe ≠ m.describe ∧
      (∀ (host : HostMatch) (route : Route),
        Route.claim host { route with path := m' } ≠ Route.claim host { route with path := m }) ∧
      ∀ (before after : List String) (g : Hasher),
        ((before ++ m'.describe :: after).foldl Hasher.updateStr g).written ≠
          ((before ++ m.describe :: after).foldl Hasher.updateStr g).written := by
  refine ⟨parse_describe (canonicalPath_identity h), ?_⟩
  intro raw' m' h' hne
  have hd : m'.describe ≠ m.describe := fun he => hne (describe_injective h h' he)
  refine ⟨hd, ?_, written_ne hd⟩
  intro host route he
  simp only [Route.claim, String.append_assoc] at he
  exact hd (String.append_left_inj _ |>.mp he)

/-- Parsers of nothing else. -/
def Sample.leaves : Leaves := ⟨fun _ => none, fun _ => none, fun _ => none, fun _ => .error "", fun _ => ""⟩

theorem describe_exact_star :
    parse Sample.leaves.routed "/%25/%2A*" = .ok (.under "/%/*") ∧
      parse Sample.leaves.routed (describe (.under "/%/*")) = .ok (.under "/%/*") := by
  have h : parse Sample.leaves.routed "/%25/%2A*" = .ok (.under "/%/*") := by decide +kernel
  exact ⟨h, (describe_exact Sample.leaves h).1⟩

/-- The text before the star, decoded. -/
def decodedText (pattern : String) : Option String := (decodedBytes pattern).bind fromUtf8

theorem length_join {parts : List Segment} (h : parts ≠ []) :
    (join parts).length = (parts.map fun part => part.length + 1).sum := by
  match parts with
  | [] => exact absurd rfl h
  | [part] => simp [join]
  | part :: next :: rest =>
    have ih := length_join (List.cons_ne_nil next rest)
    simp only [join, List.length_cons] at ih
    simp only [join, List.intercalate_cons_cons, List.length_cons, List.length_append, List.length_nil]
    simp only [List.map_cons, List.sum_cons] at ih ⊢
    omega

theorem length_render_le (parts : List Segment) (slash : Bool) :
    (render parts slash).length ≤ (parts.map fun part => part.length + 1).sum + 1 := by
  unfold render
  by_cases hne : parts = []
  · subst hne
    simp [join]
  · split
    · rw [List.length_append, length_join hne]
      rfl
    · rw [length_join hne]
      omega

theorem sum_dropLast_le (parts : List Segment) :
    (parts.dropLast.map fun part => part.length + 1).sum ≤ (parts.map fun part => part.length + 1).sum :=
  ((List.dropLast_sublist parts).map _).sum_le_sum (fun _ _ => Nat.zero_le _)

/-- The parts of a rooted text. -/
theorem splitOn_rooted {text : List Char} (h : text.head? = some '/') :
    ∃ complete last, text.splitOn '/' = [] :: (complete ++ [last]) ∧
      (text.splitOn '/').tail.dropLast = complete ∧ (text.splitOn '/').getLast?.getD [] = last ∧
      text = join (complete ++ [last]) := by
  cases text with
  | nil => cases h
  | cons c rest =>
    cases h
    have hsplit : ('/' :: rest).splitOn '/' = [] :: rest.splitOn '/' :=
      List.splitOn_append_cons_self [] rest
    rcases List.eq_nil_or_concat (rest.splitOn '/') with hnil | ⟨init, last, hcat⟩
    · exact absurd hnil (List.splitOn_ne_nil _ _)
    · rw [List.concat_eq_append] at hcat
      refine ⟨init, last, by rw [hsplit, hcat], ?_, ?_, ?_⟩
      · rw [hsplit, hcat, List.tail_cons, List.dropLast_concat]
      · rw [hsplit, hcat, ← List.cons_append, List.getLast?_concat]
        rfl
      · rw [← hcat, join, List.intercalate_splitOn]

/-- A last part of dots is taken off, so the identity is shorter than the text. -/
theorem length_canonical_lt {text : List Char} {complete : List Segment} {last : Segment}
    (hs : text.splitOn '/' = [] :: (complete ++ [last])) (ht : text = join (complete ++ [last]))
    (hp : ∀ part ∈ complete, Plain part) (hd : isDots last = true) :
    (canonical text).length < text.length := by
  have hfold : ∃ parts, (text.splitOn '/').foldl push [] = parts ∧
      (parts = complete ∨ parts = complete.dropLast) := by
    refine ⟨_, rfl, ?_⟩
    rw [hs, List.foldl_cons, List.foldl_append, show push [] [] = [] from rfl, foldl_push_of_plain hp,
      List.nil_append]
    simp only [isDots, Bool.or_eq_true, beq_iff_eq] at hd
    rcases hd with rfl | rfl
    · exact .inl (by simp [push])
    · exact .inr (by simp [push])
  obtain ⟨parts, hparts, hcase⟩ := hfold
  have hlast : 0 < last.length := by
    simp only [isDots, Bool.or_eq_true, beq_iff_eq] at hd
    rcases hd with rfl | rfl <;> decide
  have hle : (parts.map fun part => part.length + 1).sum ≤
      (complete.map fun part => part.length + 1).sum := by
    rcases hcase with rfl | rfl
    · exact le_rfl
    · exact sum_dropLast_le complete
  have hlen := length_render_le parts (trailing text)
  have htext : text.length = (complete.map fun part => part.length + 1).sum + (last.length + 1) := by
    rw [ht, length_join (by simp), List.map_append, List.sum_append]
    simp
  rw [canonical_eq_render, hparts]
  omega

section
variable {leaves : Leaves} {pattern : String} {m : PathMatch}

/-- A starred pattern holds the identity of its decoded text. -/
theorem parse_starred {decoded : String} (h : parse leaves.routed (pattern ++ "*") = .ok m)
    (hd : decodedText pattern = some decoded) :
    m = .under (String.ofList (canonical decoded.toList)) ∧ routingPath pattern = some m.identity ∧
      (∀ c ∈ decoded.toList, isControl c = false) ∧ '\\' ∉ decoded.toList ∧
      decoded.toList.head? = some '/' := by
  obtain ⟨written, hroot, hstar, hcan, hcase⟩ := parse_spec h
  have htext : (pattern ++ "*").toList = pattern.toList ++ ['*'] := by simp
  have hwritten : written = pattern ∧ m = .under m.identity := by
    rcases hcase with ⟨he, -⟩ | ⟨he, hm⟩
    · rw [← he, htext] at hstar
      exact absurd (List.mem_append_right _ List.mem_cons_self) hstar
    · rw [htext] at he
      exact ⟨(String.toList_inj.mp (List.append_cancel_right he)).symm, hm⟩
  obtain ⟨rfl, hm⟩ := hwritten
  obtain ⟨bytes, hbytes, hfrom⟩ := Option.bind_eq_some_iff.mp hd
  have hslow := hcan
  rw [routingPath_eq_slowPath hroot, slowPath_eq, hbytes, Option.bind_some, hfrom, Option.bind_some]
    at hslow
  split at hslow
  · cases hslow
  · rename_i hc
    rw [Bool.not_eq_true, List.any_eq_false] at hc
    refine ⟨by rw [hm, ← Option.some.inj hslow], hcan, fun c hin => by simpa using hc c hin, ?_, ?_⟩
    · intro hin
      have hb := (mem_utf8_iff (c := '\\') (by decide) decoded).mpr hin
      rw [fromUtf8_eq_some.mp hfrom] at hb
      obtain ⟨raw, -, rfl⟩ := Option.map_eq_some_iff.mp hbytes
      exact separator_ne raw hb
    · cases hw : written.toList with
      | nil =>
        rw [hw] at hroot
        cases hroot
      | cons c rest =>
        rw [hw] at hroot
        cases hroot
        have hutf : utf8 written = 47 :: rest.flatMap String.utf8EncodeChar := by
          rw [utf8_eq_flatMap, hw, List.flatMap_cons]
          rfl
        rw [decodedBytes, hutf, unescape_cons_ne hexPair (by decide), Option.map_map] at hbytes
        obtain ⟨tail, -, htail⟩ := Option.map_eq_some_iff.mp hbytes
        have hcons : fromUtf8 (List.replicate 1 47 ++ tail.map separator) = some decoded := by
          rw [← hfrom, ← htail]
          rfl
        obtain ⟨t, -, he⟩ := fromUtf8_slashes hcons
        rw [he]
        rfl

/-- What it means to match a literal beginning. -/
def Literal (decoded : String) (q : String) : Prop :=
  decoded.toList <+: q.toList ∨
    decoded.toList.getLast? = some '/' ∧ q.toList = decoded.toList.dropLast

theorem matches_under (stem q : String) : (under stem).matches q = true ↔ Literal stem q := by
  unfold «matches» Literal
  rw [Bool.or_eq_true, List.isPrefixOf_iff_prefix, Bool.and_eq_true, beq_iff_eq, beq_iff_eq]
  constructor
  · rintro (h | ⟨hl, rfl⟩)
    · exact .inl h
    · exact .inr ⟨hl, String.toList_ofList⟩
  · rintro (h | ⟨hl, he⟩)
    · exact .inl h
    · exact .inr ⟨hl, by rw [← he, String.ofList_toList]⟩

/-- A starred pattern whose complete parts are canonical matches its literal beginning,
unless the part it leaves open is one or two dots, which is resolved as if it were whole. -/
theorem matches_literal_iff (leaves : Leaves) {pattern decoded : String} {m : PathMatch}
    (h : parse leaves.routed (pattern ++ "*") = .ok m) (hd : decodedText pattern = some decoded)
    (hp : ∀ part ∈ (decoded.toList.splitOn '/').tail.dropLast, Plain part) :
    (∀ q, (∃ p, routingPath p = some q) → (m.matches q = true ↔ Literal decoded q)) ↔
      isDots ((decoded.toList.splitOn '/').getLast?.getD []) = false := by
  obtain ⟨hm, hrouted, hc, hb, hroot⟩ := parse_starred h hd
  obtain ⟨complete, last, hsplit, hcomplete, hlast, htext⟩ := splitOn_rooted hroot
  rw [hcomplete] at hp
  rw [hlast, hm]
  constructor
  · intro hall
    by_contra hdots
    rw [Bool.not_eq_false] at hdots
    have hlt := length_canonical_lt hsplit htext hp hdots
    have hself : Literal (String.ofList (canonical decoded.toList)) (String.ofList (canonical decoded.toList)) :=
      .inl (List.prefix_refl _)
    have himage : ∃ p, routingPath p = some (String.ofList (canonical decoded.toList)) :=
      ⟨pattern, by rw [hrouted, hm]; rfl⟩
    have hliteral := (hall _ himage).mp ((matches_under _ _).mpr hself)
    rcases hliteral with hpre | ⟨hslash, -⟩
    · have hle := hpre.length_le
      rw [String.toList_ofList] at hle
      omega
    · -- the last part is dots, so the text does not end in a slash
      have hend : (decoded.toList).getLast? = last.getLast? := by
        have hne : last ≠ [] := by
          rintro rfl
          exact absurd hdots (by decide)
        obtain ⟨front, hfront⟩ := join_concat complete last
        rw [htext, hfront, List.getLast?_append_of_ne_nil _ hne]
      rw [hend] at hslash
      simp only [isDots, Bool.or_eq_true, beq_iff_eq] at hdots
      rcases hdots with rfl | rfl
      · exact absurd hslash (by decide)
      · exact absurd hslash (by decide)
  · intro hdots q _
    have hcan : CanonicalPath decoded.toList := by
      refine ⟨hroot, hc, hb, ?_, ?_⟩
      · rw [hcomplete]
        exact fun part hin => (hp part hin).nonempty
      · intro part hin
        rw [hsplit, List.mem_cons, List.mem_append, List.mem_singleton] at hin
        rcases hin with rfl | hin | rfl
        · decide
        · exact (hp part hin).dots
        · exact hdots
    rw [hcan.canonical_eq, String.ofList_toList]
    exact matches_under decoded q

end

namespace Sample

theorem plain_api : Plain ['a', 'p', 'i'] := ⟨by decide, by decide, by decide⟩

theorem literal_api : parse leaves.routed "/api/v*" = .ok (.under "/api/v") ∧
    ∀ q, (∃ p, routingPath p = some q) → ((under "/api/v").matches q = true ↔ Literal "/api/v" q) := by
  have h : parse leaves.routed ("/api/v" ++ "*") = .ok (.under "/api/v") := by decide
  have hd : decodedText "/api/v" = some "/api/v" := by decide
  have hs : (("/api/v" : String).toList.splitOn '/').tail.dropLast = [['a', 'p', 'i']] := by decide
  refine ⟨h, (matches_literal_iff leaves h hd ?_).mpr (by decide)⟩
  intro part hin
  rw [hs] at hin
  exact List.mem_singleton.mp hin ▸ plain_api

/-- A single dot before the star is dropped, so the pattern claims the whole directory. -/
theorem dot_not_literal :
    parse leaves.routed "/api/.*" = .ok (.under "/api/") ∧ decodedText "/api/." = some "/api/." ∧
      (∀ part ∈ (("/api/." : String).toList.splitOn '/').tail.dropLast, Plain part) ∧
      routingPath "/api/x" = some "/api/x" ∧ (under "/api/").matches "/api/x" = true ∧
      ¬ Literal "/api/." "/api/x" := by
  refine ⟨by decide, by decide, ?_, by decide, by decide, ?_⟩
  · intro part hin
    have hs : (("/api/." : String).toList.splitOn '/').tail.dropLast = [['a', 'p', 'i']] := by decide
    rw [hs] at hin
    exact List.mem_singleton.mp hin ▸ plain_api
  · unfold Literal
    decide

end Sample

end PathMatch

end Gatel
