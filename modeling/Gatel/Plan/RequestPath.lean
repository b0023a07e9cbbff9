import Gatel.Lib.Utf8
import Gatel.Model.Hash

namespace Gatel

/-- A part of a path between slashes. -/
abbrev Segment := List Char

def fromUtf8 (bytes : List UInt8) : Option String := String.fromUTF8? ⟨bytes.toArray⟩

/-- `char::is_control`. -/
def isControl (c : Char) : Bool := c.toNat < 0x20 || (0x7f ≤ c.toNat && c.toNat ≤ 0x9f)

/-- The value of a hexadecimal digit. -/
def hex (b : UInt8) : Option UInt8 :=
  if 48 ≤ b ∧ b ≤ 57 then some (b - 48)
  else if 97 ≤ b ∧ b ≤ 102 then some (b - 97 + 10)
  else if 65 ≤ b ∧ b ≤ 70 then some (b - 65 + 10)
  else none

/-- Percent escapes replaced by bytes; `pair` reads the two digits. -/
@[grind =] def unescape (pair : UInt8 → UInt8 → Option UInt8) : List UInt8 → Option (List UInt8)
  | [] => some []
  | b :: rest =>
    if b = 37 then
      match rest with
      | high :: low :: rest => (pair high low).bind fun byte => (unescape pair rest).map (byte :: ·)
      | _ => none
    else (unescape pair rest).map (b :: ·)

namespace RequestPath

def hexPair (high low : UInt8) : Option UInt8 := (hex high).bind fun h => (hex low).map fun l => h * 16 + l

/-- Backslash is treated as a separator on every platform. -/
def separator (b : UInt8) : UInt8 := if b = 92 then 47 else b

@[grind =] def doubleSlash : List Char → Bool
  | '/' :: '/' :: _ => true
  | _ :: rest => doubleSlash rest
  | [] => false

@[grind =] def isDots (part : Segment) : Bool := part == ['.'] || part == ['.', '.']

def needsNormalizing (path : List Char) : Bool :=
  (path.any fun c => c == '%' || c == '\\') || doubleSlash path || (path.splitOn '/').any isDots

/-- One part of a decoded path on top of the parts before it. -/
@[grind =] def push (parts : List Segment) (part : Segment) : List Segment :=
  if part = [] ∨ part = ['.'] then parts
  else if part = ['.', '.'] then parts.dropLast
  else parts ++ [part]

/-- A path of these parts. -/
@[grind =] def join (parts : List Segment) : List Char := '/' :: ['/'].intercalate parts

/-- The identity of a decoded path. -/
def canonical (decoded : List Char) : List Char :=
  let trailing := decoded.getLast? = some '/' || isDots ((decoded.splitOn '/').getLast?.getD [])
  let path := join ((decoded.splitOn '/').foldl push [])
  if trailing && 1 < path.length then path ++ ['/'] else path

end RequestPath

open RequestPath in
/-- `routing_path`: decode once and remove separator and dot aliases before choosing a route. -/
def routingPath (path : String) : Option String :=
  if path = "*" then some path
  else if path.toList.head? ≠ some '/' then none
  else if !needsNormalizing path.toList then
    if path.toList.any isControl then none else some path
  else do
    let bytes ← unescape hexPair (utf8 path)
    let decoded ← fromUtf8 (bytes.map separator)
    if decoded.toList.any isControl then none
    else some (String.ofList (canonical decoded.toList))

example : routingPath "/public/../private%5cfile/." = some "/private/file/" := by decide

theorem utf8_eq_flatMap (s : String) : utf8 s = s.toList.flatMap String.utf8EncodeChar := by
  have hs : s.toByteArray = s.toList.utf8Encode := by
    rw [← String.toByteArray_ofList, String.ofList_toList]
  rw [utf8, hs]
  simp [List.utf8Encode]

theorem fromUtf8_eq_some {bytes : List UInt8} {s : String} : fromUtf8 bytes = some s ↔ utf8 s = bytes :=
  fromUTF8?_eq_some

/-- An ASCII character of a text and its byte. -/
theorem mem_utf8_iff {c : Char} (hc : c.toNat < 128) (s : String) : UInt8.ofNat c.toNat ∈ utf8 s ↔ c ∈ s.toList := by
  rw [utf8_eq_flatMap]
  exact Utf8.mem_flatMap_iff hc _

/-- Slashes in front of decoded bytes are slashes in front of the text. -/
theorem fromUtf8_slashes {n : Nat} {bytes : List UInt8} {s : String}
    (h : fromUtf8 (List.replicate n 47 ++ bytes) = some s) :
    ∃ t, fromUtf8 bytes = some t ∧ s.toList = List.replicate n '/' ++ t.toList := by
  induction n generalizing s with
  | zero => exact ⟨s, h, rfl⟩
  | succ n ih =>
    rw [fromUtf8_eq_some, utf8_eq_flatMap, List.replicate_succ, List.cons_append] at h
    obtain ⟨rest, hs, hrest⟩ := Utf8.flatMap_eq_cons (c := '/') (by decide) h
    have hu : fromUtf8 (List.replicate n 47 ++ bytes) = some (String.ofList rest) := by
      rw [fromUtf8_eq_some, utf8_eq_flatMap, String.toList_ofList, hrest]
    obtain ⟨t, ht, he⟩ := ih hu
    refine ⟨t, ht, ?_⟩
    rw [String.toList_ofList] at he
    rw [hs, he, List.replicate_succ, List.cons_append]

/-! What decoding keeps. -/

theorem unescape_cons_ne (pair : UInt8 → UInt8 → Option UInt8) {b : UInt8} (h : b ≠ 37) (rest : List UInt8) :
    unescape pair (b :: rest) = (unescape pair rest).map (b :: ·) := by
  match rest with
  | [] => simp [unescape, h]
  | [_] => simp [unescape, h]
  | _ :: _ :: _ => rw [unescape, if_neg h]

theorem unescape_plain {pair : UInt8 → UInt8 → Option UInt8} {bytes : List UInt8} (h : 37 ∉ bytes) :
    unescape pair bytes = some bytes := by
  induction bytes with
  | nil => rfl
  | cons b rest ih =>
    obtain ⟨hb, hrest⟩ := not_or.mp (fun hm => h (List.mem_cons.mpr hm))
    rw [unescape_cons_ne pair (fun he => hb he.symm), ih hrest]
    rfl

theorem unescape_slashes (pair : UInt8 → UInt8 → Option UInt8) (n : Nat) (bytes : List UInt8) :
    unescape pair (List.replicate n 47 ++ bytes) = (unescape pair bytes).map (List.replicate n 47 ++ ·) := by
  induction n with
  | zero => simp
  | succ n ih =>
    rw [List.replicate_succ, List.cons_append, unescape_cons_ne pair (by decide), ih, Option.map_map]
    rfl

/-- A reader of digits that knows every pair another knows decodes what the other does. -/
theorem unescape_mono {f g : UInt8 → UInt8 → Option UInt8} (hfg : ∀ high low b, f high low = some b → g high low = some b)
    {bytes decoded : List UInt8} (h : unescape f bytes = some decoded) : unescape g bytes = some decoded := by
  fun_induction unescape f bytes generalizing decoded with
  | case1 => exact h
  | case2 high low rest ih =>
    obtain ⟨byte, hbyte, hrest⟩ := Option.bind_eq_some_iff.mp h
    obtain ⟨tail, htail, he⟩ := Option.map_eq_some_iff.mp hrest
    rw [unescape, if_pos rfl]
    simp only [hfg high low byte hbyte, Option.bind_some, ih htail, Option.map_some, he]
  | case3 rest hne => cases h
  | case4 b rest hb ih =>
    obtain ⟨tail, htail, he⟩ := Option.map_eq_some_iff.mp h
    rw [unescape_cons_ne g hb, ih htail, Option.map_some, he]

namespace RequestPath

theorem separator_id {bytes : List UInt8} (h : 92 ∉ bytes) : bytes.map separator = bytes := by
  conv_rhs => rw [← List.map_id bytes]
  apply List.map_congr_left
  intro b hb
  have hne : b ≠ 92 := by
    intro he
    exact h (he ▸ hb)
  rw [separator, if_neg hne, id]

theorem separator_ne (bytes : List UInt8) : 92 ∉ bytes.map separator := by
  intro h
  obtain ⟨b, _, hb⟩ := List.mem_map.mp h
  unfold separator at hb
  split at hb
  · cases hb
  · contradiction

theorem sep_not_mem_splitOn {sep : Char} {text : List Char} : ∀ part ∈ text.splitOn sep, sep ∉ part := by
  induction text with
  | nil => simp
  | cons c text ih =>
    intro part hp
    rw [List.splitOn_cons_eq_if_modifyHead] at hp
    split at hp
    · rcases List.mem_cons.mp hp with rfl | hp
      · exact List.not_mem_nil
      · exact ih part hp
    · rename_i hne
      cases hs : text.splitOn sep with
      | nil => exact absurd hs (List.splitOn_ne_nil _ _)
      | cons first rest =>
        rw [hs] at ih hp
        rcases List.mem_cons.mp hp with rfl | hp
        · intro hm
          rcases List.mem_cons.mp hm with rfl | hm
          · exact hne (beq_self_eq_true _)
          · exact ih first List.mem_cons_self hm
        · exact ih part (List.mem_cons_of_mem _ hp)

/-- Without `..` only empty parts and single dots go. -/
theorem foldl_push {parts : List Segment} (h : ['.', '.'] ∉ parts) (acc : List Segment) :
    parts.foldl push acc = acc ++ parts.filter fun part => part ≠ [] ∧ part ≠ ['.'] := by
  induction parts generalizing acc with
  | nil => simp
  | cons part parts ih =>
    obtain ⟨hpart, hrest⟩ := not_or.mp (fun hm => h (List.mem_cons.mpr hm))
    rw [List.foldl_cons, ih hrest]
    unfold push
    split
    · rename_i hskip
      rw [List.filter_cons_of_neg]
      simp only [decide_eq_true_eq, not_and_or, not_not]
      exact hskip
    · rename_i hkeep
      rw [if_neg (fun he => hpart he.symm), List.append_assoc, List.filter_cons_of_pos]
      · rfl
      · simpa only [decide_eq_true_eq, not_or] using hkeep

/-- Whatever the parts are, the result holds only parts that were there. -/
theorem mem_foldl_push {parts acc : List Segment} {part : Segment} (h : part ∈ parts.foldl push acc) :
    part ∈ acc ∨ part ∈ parts := by
  induction parts generalizing acc with
  | nil => exact Or.inl h
  | cons p parts ih =>
    rcases ih h with hacc | hin
    · unfold push at hacc
      split at hacc
      · exact Or.inl hacc
      · split at hacc
        · exact Or.inl (List.mem_of_mem_dropLast hacc)
        · rcases List.mem_append.mp hacc with hacc | hp
          · exact Or.inl hacc
          · exact Or.inr (List.mem_cons.mpr (Or.inl (List.mem_singleton.mp hp)))
    · exact Or.inr (List.mem_cons_of_mem p hin)

/-- The characters of a joined path: separators, and what its parts hold. -/
theorem mem_intercalate {c : Char} (hc : c ≠ '/') (parts : List Segment) :
    c ∈ ['/'].intercalate parts ↔ ∃ part ∈ parts, c ∈ part := by
  induction parts with
  | nil => simp
  | cons part parts ih =>
    cases parts with
    | nil => simp
    | cons next parts =>
      rw [List.intercalate_cons_cons, List.mem_append, List.mem_append, ih]
      simp [hc]

theorem mem_join {c : Char} (hc : c ≠ '/') (parts : List Segment) : c ∈ join parts ↔ ∃ part ∈ parts, c ∈ part := by
  rw [join, List.mem_cons, mem_intercalate hc]
  simp [hc]

theorem mem_splitOn {c : Char} (hc : c ≠ '/') (text : List Char) : c ∈ text ↔ ∃ part ∈ text.splitOn '/', c ∈ part := by
  rw [← mem_intercalate hc, List.intercalate_splitOn]

theorem canonical_cases (decoded : List Char) :
    canonical decoded = join ((decoded.splitOn '/').foldl push []) ∨
      canonical decoded = join ((decoded.splitOn '/').foldl push []) ++ ['/'] := by
  unfold canonical
  simp only
  split
  · exact Or.inr rfl
  · exact Or.inl rfl

/-- Nothing but separators is added to a path by giving it its identity. -/
theorem mem_of_mem_canonical {c : Char} (hc : c ≠ '/') {decoded : List Char} (h : c ∈ canonical decoded) :
    c ∈ decoded := by
  have hj : c ∈ join ((decoded.splitOn '/').foldl push []) := by
    rcases canonical_cases decoded with he | he
    · rwa [he] at h
    · rw [he, List.mem_append, List.mem_singleton] at h
      exact h.resolve_right hc
  obtain ⟨part, hpart, hin⟩ := (mem_join hc _).mp hj
  rcases mem_foldl_push hpart with hnil | hmem
  · cases hnil
  · exact (mem_splitOn hc decoded).mpr ⟨part, hmem, hin⟩

theorem doubleSlash_tail {c : Char} {l : List Char} (h : doubleSlash (c :: l) = false) : doubleSlash l = false := by
  match l with
  | [] => rfl
  | d :: l =>
    unfold doubleSlash at h
    split at h
    · cases h
    · rename_i heq
      obtain ⟨-, rfl⟩ := List.cons.inj heq
      exact h
    · rename_i heq
      cases heq

theorem doubleSlash_append {x y : List Char} (h : doubleSlash (x ++ y) = false) : doubleSlash y = false := by
  induction x with
  | nil => exact h
  | cons c x ih => exact ih (doubleSlash_tail h)

/-- What a path that needs no normalizing does not hold. -/
theorem plain_of_not_needs {path : List Char} (h : needsNormalizing path = false) :
    '%' ∉ path ∧ '\\' ∉ path ∧ doubleSlash path = false ∧
      ∀ part ∈ path.splitOn '/', isDots part = false := by
  simp only [needsNormalizing, Bool.or_eq_false_iff] at h
  obtain ⟨⟨hany, hdouble⟩, hdots⟩ := h
  rw [List.any_eq_false] at hany hdots
  refine ⟨fun hm => hany _ hm (by decide), fun hm => hany _ hm (by decide), hdouble, ?_⟩
  intro part hp
  simpa using hdots part hp

/-- Without a double slash only the last part of a path can be empty. -/
theorem ne_nil_of_mem_dropLast {parts : List Segment} (h : doubleSlash (join parts) = false) :
    ∀ part ∈ parts.dropLast, part ≠ [] := by
  match parts with
  | [] => simp
  | [_] => simp
  | a :: b :: rest =>
    have hj : join (a :: b :: rest) = '/' :: a ++ join (b :: rest) := by
      simp only [join, List.intercalate_cons_cons, List.cons_append, List.append_assoc, List.nil_append]
    rw [hj] at h
    intro part hp
    rw [List.dropLast_cons_cons, List.mem_cons] at hp
    rcases hp with rfl | hp
    · rintro rfl
      simp [join, doubleSlash] at h
    · exact ne_nil_of_mem_dropLast (doubleSlash_append h) part hp

theorem intercalate_concat {parts : List Segment} (h : parts ≠ []) (last : Segment) :
    ['/'].intercalate (parts ++ [last]) = ['/'].intercalate parts ++ '/' :: last := by
  match parts with
  | [] => exact absurd rfl h
  | [a] => simp [List.intercalate_cons_cons]
  | a :: b :: rest =>
    have ih := intercalate_concat (List.cons_ne_nil b rest) last
    rw [List.cons_append, List.cons_append, List.intercalate_cons_cons, ← List.cons_append, ih,
      List.intercalate_cons_cons]
    simp only [List.append_assoc]

/-- Leaving out an empty last part costs a trailing slash. -/
theorem join_filter {parts : List Segment} (hdots : ['.'] ∉ parts) (hne : ∀ part ∈ parts.dropLast, part ≠ []) :
    join parts = join (parts.filter fun part => part ≠ [] ∧ part ≠ ['.']) ∨
      join parts = join (parts.filter fun part => part ≠ [] ∧ part ≠ ['.']) ++ ['/'] := by
  rcases List.eq_nil_or_concat parts with rfl | ⟨init, last, rfl⟩
  · exact Or.inl rfl
  · rw [List.concat_eq_append] at hdots hne ⊢
    rw [List.dropLast_concat] at hne
    have hinit : init.filter (fun part => part ≠ [] ∧ part ≠ ['.']) = init := by
      apply List.filter_eq_self.mpr
      intro part hp
      simp only [decide_eq_true_eq]
      refine ⟨hne part hp, ?_⟩
      rintro rfl
      exact hdots (List.mem_append_left _ hp)
    rw [List.filter_append, hinit]
    by_cases hlast : last = []
    · subst hlast
      by_cases hi : init = []
      · subst hi
        exact Or.inl rfl
      · refine Or.inr ?_
        simp [join, intercalate_concat hi]
    · refine Or.inl ?_
      rw [List.filter_cons_of_pos]
      · rfl
      · simp only [decide_eq_true_eq]
        refine ⟨hlast, ?_⟩
        rintro rfl
        exact hdots (by simp)

end RequestPath

end Gatel
