import Gatel.Bundle.FileServer
import Gatel.Lib.CanonicalSort
import Gatel.Plan.Matcher

namespace Gatel.FileListing
open CanonicalSort (sortBy)
open FileServer (Server Files Kind percentDecode safeRelative fromStrRadix trimSlashes publicComponent)

/-- `RFC 3986` unreserved characters. -/
def unreserved (b : UInt8) : Bool :=
  (48 ≤ b && b ≤ 57) || (65 ≤ b && b ≤ 90) || (97 ≤ b && b ≤ 122) || b == 45 || b == 46 || b == 95 || b == 126

def hexDigit (n : UInt8) : Char := "0123456789ABCDEF".toList.getD n.toNat '0'

def segmentByte (b : UInt8) : List Char :=
  if unreserved b then [Char.ofNat b.toNat] else ['%', hexDigit (b >>> 4), hexDigit (b &&& 15)]

/-- A name as one segment of a URL path. -/
@[grind =] def segment (name : String) : String := String.ofList ((utf8 name).flatMap segmentByte)

/-- A name as text of a page. -/
def escape (text : String) : String :=
  Text.replaceChar '"' "&quot;" (Text.replaceChar '>' "&gt;" (Text.replaceChar '<' "&lt;" (Text.replaceChar '&' "&amp;" text)))

example : segment "a #&%?.txt" = "a%20%23%26%25%3F.txt" := by decide

/-! Reading a segment back. -/

theorem hex_digit (n : Fin 16) : hex (UInt8.ofNat (hexDigit (UInt8.ofNat n.val)).toNat) = some (UInt8.ofNat n.val) := by
  revert n
  decide

theorem hexPair_digits (b : UInt8) : RequestPath.hexPair (UInt8.ofNat (hexDigit (b >>> 4)).toNat)
    (UInt8.ofNat (hexDigit (b &&& 15)).toNat) = some b := by
  have hb : b.toNat < 256 := UInt8.toNat_lt b
  have hhigh : b >>> 4 = UInt8.ofNat (b.toNat / 16) := by
    apply UInt8.toNat_inj.mp
    rw [UInt8.toNat_shiftRight, UInt8.toNat_ofNat', Nat.shiftRight_eq_div_pow]
    simp
    omega
  have hlow : b &&& 15 = UInt8.ofNat (b.toNat % 16) := by
    apply UInt8.toNat_inj.mp
    rw [UInt8.toNat_and, UInt8.toNat_ofNat']
    have hmask : b.toNat &&& 15 = b.toNat % 16 := Nat.and_two_pow_sub_one_eq_mod b.toNat 4
    simp [hmask]
    omega
  have h₁ := hex_digit ⟨b.toNat / 16, by omega⟩
  have h₂ := hex_digit ⟨b.toNat % 16, by omega⟩
  rw [RequestPath.hexPair, hhigh, hlow, h₁, Option.bind_some, h₂, Option.map_some, Option.some.injEq]
  apply UInt8.toNat_inj.mp
  rw [UInt8.toNat_add, UInt8.toNat_mul]
  simp only [UInt8.toNat_ofNat']
  simp
  omega

theorem hexDigit_mem (n : UInt8) : hexDigit n ∈ "0123456789ABCDEF".toList := by
  rw [hexDigit, List.getD_eq_getElem?_getD]
  cases h : "0123456789ABCDEF".toList[n.toNat]? with
  | none => decide
  | some c => exact List.mem_of_getElem? h

/-- What may stand in a segment: an unreserved character, or an escape of two digits. -/
theorem segmentByte_cases (b : UInt8) : (unreserved b = true ∧ b.toNat < 128 ∧ segmentByte b = [Char.ofNat b.toNat]) ∨
    segmentByte b = ['%', hexDigit (b >>> 4), hexDigit (b &&& 15)] := by
  by_cases hb : unreserved b = true
  · refine .inl ⟨hb, ?_, if_pos hb⟩
    simp only [unreserved, Bool.or_eq_true, Bool.and_eq_true, decide_eq_true_eq, beq_iff_eq, UInt8.le_iff_toNat_le,
      ← UInt8.toNat_inj] at hb
    simp at hb
    omega
  · exact .inr (if_neg hb)

theorem toNat_ofNat_low {n : Nat} (h : n < 128) : (Char.ofNat n).toNat = n := by
  have hvalid : n.isValidChar := .inl (by omega)
  rw [Char.ofNat, dif_pos hvalid]
  exact Char.toNat_ofNatAux hvalid

theorem mem_segmentByte {b : UInt8} {c : Char} (h : c ∈ segmentByte b) : c.toNat < 128 ∧ (c = '/' → unreserved 47 = true) := by
  have hdigit : ∀ d ∈ "0123456789ABCDEF".toList, d.toNat < 128 ∧ d ≠ '/' := by simp
  rcases segmentByte_cases b with ⟨hb, hlow, he⟩ | he
  · rw [he, List.mem_singleton] at h
    subst h
    rw [toNat_ofNat_low hlow]
    refine ⟨hlow, ?_⟩
    intro hc
    have hn := congrArg Char.toNat hc
    rw [toNat_ofNat_low hlow] at hn
    have hslash : b = 47 := UInt8.toNat_inj.mp hn
    rwa [hslash] at hb
  · rw [he] at h
    simp only [List.mem_cons, List.not_mem_nil, or_false] at h
    rcases h with rfl | rfl | rfl
    · decide
    · exact ⟨(hdigit _ (hexDigit_mem _)).1, fun hc => absurd hc (hdigit _ (hexDigit_mem _)).2⟩
    · exact ⟨(hdigit _ (hexDigit_mem _)).1, fun hc => absurd hc (hdigit _ (hexDigit_mem _)).2⟩

theorem slash_not_mem_segment (name : String) : '/' ∉ (segment name).toList := by
  rw [segment, String.toList_ofList, List.mem_flatMap]
  intro h
  obtain ⟨b, -, hc⟩ := h
  exact absurd ((mem_segmentByte hc).2 rfl) (by decide)

/-- The bytes of one encoded byte. -/
def segmentBytes (b : UInt8) : List UInt8 := (segmentByte b).map fun c => UInt8.ofNat c.toNat

theorem utf8_segment (name : String) : utf8 (segment name) = (utf8 name).flatMap segmentBytes := by
  rw [utf8_eq_flatMap (segment name), segment, String.toList_ofList, List.flatMap_assoc]
  apply List.flatMap_congr
  intro b _
  rw [segmentBytes, List.map_eq_flatMap]
  apply List.flatMap_congr
  intro c hc
  exact Utf8.encode_ascii (mem_segmentByte hc).1

theorem unescape_segment {pair : UInt8 → UInt8 → Option UInt8}
    (hpair : ∀ high low b, RequestPath.hexPair high low = some b → pair high low = some b) (bytes : List UInt8) :
    unescape pair (bytes.flatMap segmentBytes) = some bytes := by
  induction bytes with
  | nil => rfl
  | cons b bytes ih =>
    rw [List.flatMap_cons, segmentBytes]
    rcases segmentByte_cases b with ⟨hb, hlow, he⟩ | he
    · have hne : b ≠ 37 := by
        intro h
        subst h
        exact absurd hb (by decide)
      rw [he, List.map_singleton, toNat_ofNat_low hlow, UInt8.ofNat_toNat, List.singleton_append, unescape_cons_ne pair hne, ih,
        Option.map_some]
    · rw [he]
      simp only [List.map_cons, List.map_nil, List.cons_append, List.nil_append]
      have hpercent : UInt8.ofNat '%'.toNat = 37 := rfl
      rw [hpercent, unescape, if_pos rfl]
      simp only [hpair _ _ b (hexPair_digits b), Option.bind_some, ih, Option.map_some]

theorem percentDecode_segment (name : String) : percentDecode (segment name) = some name := by
  rw [percentDecode, utf8_segment, unescape_segment FileServer.hexPair_le, Option.bind_some]
  exact fromUtf8_eq_some.mpr rfl

/-- Unreserved characters and escapes of two upper case digits. -/
def UrlText (text : String) : Prop :=
  ∃ pieces : List (List Char), text.toList = pieces.flatten ∧ ∀ piece ∈ pieces,
    (∃ b, unreserved b = true ∧ piece = [Char.ofNat b.toNat]) ∨
      ∃ high ∈ "0123456789ABCDEF".toList, ∃ low ∈ "0123456789ABCDEF".toList, piece = ['%', high, low]

theorem segment_urlText (name : String) : UrlText (segment name) := by
  refine ⟨(utf8 name).map segmentByte, ?_, ?_⟩
  · rw [segment, String.toList_ofList, List.flatMap_def]
  · intro piece h
    obtain ⟨b, -, rfl⟩ := List.mem_map.mp h
    rcases segmentByte_cases b with ⟨hb, -, he⟩ | he
    · exact .inl ⟨b, hb, he⟩
    · exact .inr ⟨_, hexDigit_mem _, _, hexDigit_mem _, he⟩

/-! A segment behind a slash, to the file server and to the router. -/

section

variable {name : String}

theorem trimSlashes_segment (name : String) : trimSlashes ("/" ++ segment name) = segment name := by
  have hno := slash_not_mem_segment name
  have hlist : ("/" ++ segment name).toList = '/' :: (segment name).toList := by
    rw [String.toList_append]
    rfl
  rw [trimSlashes, hlist, List.dropWhile_cons_of_pos (by simp)]
  cases he : (segment name).toList with
  | nil => rw [List.dropWhile_nil, ← he, String.ofList_toList]
  | cons c rest =>
    rw [he] at hno
    have hc : c ≠ '/' := fun hc => hno (hc ▸ List.mem_cons_self)
    rw [List.dropWhile_cons_of_neg (by simpa using hc), ← he, String.ofList_toList]

/-- What a public name is not. -/
theorem publicComponent_iff (part : Segment) : publicComponent part = true ↔
    part ≠ [] ∧ part.head? ≠ some '.' ∧ ∀ c ∈ part, isControl c = false := by
  simp [publicComponent, and_assoc]

theorem components_name {part : Segment} (hpublic : publicComponent part = true) (hname : '/' ∉ part) :
    FileServer.components part = [.normal part] := by
  obtain ⟨hne, hdot, -⟩ := (publicComponent_iff part).mp hpublic
  have hhead : part.head? ≠ some '/' := fun h => hname (List.mem_of_head? h)
  have hone : part ≠ ['.'] := by
    intro h
    subst h
    exact hdot rfl
  have htwo : part ≠ ['.', '.'] := by
    intro h
    subst h
    exact hdot rfl
  simp [FileServer.components, hhead, List.splitOn_eq_singleton hname, FileServer.component, hne, hone, htwo]

theorem safeRelative_segment (hpublic : publicComponent name.toList = true) (hname : '/' ∉ name.toList) :
    safeRelative ("/" ++ segment name) = some [name.toList] := by
  have hnul : '\x00' ∉ name.toList := by
    intro h
    exact absurd (((publicComponent_iff _).mp hpublic).2.2 _ h) (by decide)
  rw [safeRelative, trimSlashes_segment, percentDecode_segment, Option.bind_eq_bind, Option.bind_some, if_neg hnul,
    components_name hpublic hname, List.foldlM_cons, FileServer.pushComponent, if_pos hpublic]
  rfl

theorem canonical_name {part : Segment} (hpublic : publicComponent part = true) (hname : '/' ∉ part) :
    RequestPath.canonical ('/' :: part) = '/' :: part := by
  obtain ⟨hne, hdot, -⟩ := (publicComponent_iff part).mp hpublic
  have hone : part ≠ ['.'] := by
    intro h
    subst h
    exact hdot rfl
  have htwo : part ≠ ['.', '.'] := by
    intro h
    subst h
    exact hdot rfl
  have hsplit : ('/' :: part).splitOn '/' = [[], part] := by
    have hcons := List.splitOn_append_cons_self (a := '/') [] part
    rw [List.nil_append, List.splitOn_eq_singleton hname] at hcons
    exact hcons
  have hlast : ('/' :: part).getLast? ≠ some '/' := by
    intro h
    rw [List.getLast?_cons_of_ne_nil hne] at h
    exact hname (List.mem_of_getLast? h)
  rw [RequestPath.canonical]
  simp [hsplit, hlast, RequestPath.isDots, RequestPath.push, RequestPath.join, hone, htwo, hne]

/-- Routing reads the name back, unless it takes part of it for a separator. -/
theorem routingPath_segment (hpublic : publicComponent name.toList = true) (hname : '/' ∉ name.toList) :
    routingPath ("/" ++ segment name) = some ("/" ++ name) ↔ '\\' ∉ name.toList := by
  have hlist : ("/" ++ name).toList = '/' :: name.toList := by
    rw [String.toList_append]
    rfl
  have hdecoded : percentDecode (trimSlashes ("/" ++ segment name)) = some name := by
    rw [trimSlashes_segment, percentDecode_segment]
  have hhead : ("/" ++ segment name).toList.head? = some '/' := by
    rw [String.toList_append]
    rfl
  have hstar : "/" ++ segment name ≠ "*" := by
    intro h
    rw [h] at hhead
    revert hhead
    decide
  have hclean : ("/" ++ name).toList.any isControl = false := by
    rw [hlist, List.any_cons, List.any_eq_false.mpr]
    · decide
    · intro c hc
      rw [((publicComponent_iff _).mp hpublic).2.2 c hc]
      decide
  constructor
  · intro h hback
    have hno := FileServer.backslash_not_routed h hstar hdecoded
    rw [hlist] at hno
    exact hno (List.mem_cons_of_mem _ hback)
  · intro hback
    rw [routingPath, if_neg hstar, if_neg (by rw [hhead]; simp)]
    by_cases hneeds : RequestPath.needsNormalizing ("/" ++ segment name).toList = true
    · have hbytes : unescape RequestPath.hexPair (utf8 ("/" ++ segment name)) = some (utf8 ("/" ++ name)) := by
        have hfront : utf8 "/" = [47] := by decide
        rw [utf8_append, utf8_append, hfront, List.singleton_append, unescape_cons_ne _ (by decide), utf8_segment,
          unescape_segment (fun _ _ _ h => h)]
        rfl
      have hsep : (92 : UInt8) ∉ utf8 ("/" ++ name) := by
        intro hb
        have hm := (mem_utf8_iff (c := '\\') (by decide) _).mp hb
        rw [hlist] at hm
        rcases List.mem_cons.mp hm with h | h
        · cases h
        · exact hback h
      rw [if_neg (by rw [hneeds]; decide), hbytes, Option.bind_eq_bind, Option.bind_some, RequestPath.separator_id hsep,
        fromUtf8_eq_some.mpr rfl, Option.bind_eq_bind, Option.bind_some, if_neg (by rw [hclean]; simp), hlist,
        canonical_name hpublic hname, ← hlist, String.ofList_toList]
    · -- Nothing was escaped: the segment is the name.
      have hfast := Bool.eq_false_iff.mpr hneeds
      have hplain := RequestPath.plain_of_not_needs hfast
      have hpercent : '%' ∉ (segment name).toList := by
        intro hm
        apply hplain.1
        rw [String.toList_append]
        exact List.mem_append_right _ hm
      have hsame : segment name = name := by
        have h := FileServer.percentDecode_plain hpercent
        rw [percentDecode_segment] at h
        exact (Option.some.inj h).symm
      rw [if_pos (by rw [hfast]; decide), hsame, if_neg (by rw [hclean]; simp)]

end

/-! The label. -/

/-- A character of a page as text that shows it. -/
def entity (c : Char) : List Char :=
  if c = '&' then "&amp;".toList else if c = '<' then "&lt;".toList else if c = '>' then "&gt;".toList
  else if c = '"' then "&quot;".toList else [c]

/-- Replacing a character that is not there. -/
theorem replaced_none {c : Char} {l new : List Char} (h : c ∉ l) :
    (l.flatMap fun x => if x = c then new else [x]) = l := by
  induction l with
  | nil => rfl
  | cons x rest ih =>
    have hx : x ≠ c := fun hx => h (hx ▸ List.mem_cons_self)
    rw [List.flatMap_cons, if_neg hx, ih (fun hr => h (List.mem_cons_of_mem _ hr))]
    rfl

theorem toList_escape (text : String) : (escape text).toList = text.toList.flatMap entity := by
  simp only [escape, Text.replaceChar, String.toList_ofList, List.flatMap_assoc]
  congr 1
  funext c
  simp only [← List.flatMap_assoc]
  unfold entity
  by_cases hamp : c = '&'
  · rw [if_pos hamp, if_pos hamp, replaced_none (c := '<') (by simp), replaced_none (c := '>') (by simp),
      replaced_none (c := '"') (by simp)]
  · rw [if_neg hamp, if_neg hamp]
    by_cases hlt : c = '<'
    · rw [if_pos hlt, List.flatMap_singleton, if_pos hlt, replaced_none (c := '>') (by simp),
        replaced_none (c := '"') (by simp)]
    · rw [if_neg hlt, List.flatMap_singleton, if_neg hlt, List.flatMap_singleton]
      by_cases hgt : c = '>'
      · rw [if_pos hgt, if_pos hgt, replaced_none (by simp)]
      · rw [if_neg hgt, if_neg hgt, List.flatMap_singleton]

/-- What a browser shows for a text with these four entities. -/
@[grind =] def shown : List Char → List Char
  | '&' :: 'a' :: 'm' :: 'p' :: ';' :: rest => '&' :: shown rest
  | '&' :: 'l' :: 't' :: ';' :: rest => '<' :: shown rest
  | '&' :: 'g' :: 't' :: ';' :: rest => '>' :: shown rest
  | '&' :: 'q' :: 'u' :: 'o' :: 't' :: ';' :: rest => '"' :: shown rest
  | c :: rest => c :: shown rest
  | [] => []

theorem shown_cons {c : Char} (h : c ≠ '&') (rest : List Char) : shown (c :: rest) = c :: shown rest := by
  rw [shown.eq_def]
  split <;> grind

theorem shown_escape (text : String) : shown (escape text).toList = text.toList := by
  rw [toList_escape]
  induction text.toList with
  | nil => rfl
  | cons c rest ih =>
    rw [List.flatMap_cons, entity]
    by_cases hamp : c = '&'
    · subst hamp
      simp [shown, ih]
    · by_cases hlt : c = '<'
      · subst hlt
        simp [shown, ih]
      · by_cases hgt : c = '>'
        · subst hgt
          simp [shown, ih]
        · by_cases hquot : c = '"'
          · subst hquot
            simp [shown, ih]
          · simp [hamp, hlt, hgt, hquot, shown_cons hamp, ih]

theorem mem_entity {c d : Char} (h : d ∈ entity c) : d ≠ '<' ∧ d ≠ '>' ∧ d ≠ '"' := by
  unfold entity at h
  split_ifs at h with hamp hlt hgt hquot
  · simp at h
    rcases h with rfl | rfl | rfl | rfl | rfl <;> simp
  · simp at h
    rcases h with rfl | rfl | rfl | rfl <;> simp
  · simp at h
    rcases h with rfl | rfl | rfl | rfl <;> simp
  · simp at h
    rcases h with rfl | rfl | rfl | rfl | rfl | rfl <;> simp
  · rw [List.mem_singleton] at h
    subst h
    exact ⟨hlt, hgt, hquot⟩

theorem not_mem_escape (text : String) :
    '<' ∉ (escape text).toList ∧ '>' ∉ (escape text).toList ∧ '"' ∉ (escape text).toList := by
  have hmem : ∀ d ∈ (escape text).toList, d ≠ '<' ∧ d ≠ '>' ∧ d ≠ '"' := by
    intro d hd
    rw [toList_escape, List.mem_flatMap] at hd
    obtain ⟨c, -, hc⟩ := hd
    exact mem_entity hc
  exact ⟨fun h => (hmem _ h).1 rfl, fun h => (hmem _ h).2.1 rfl, fun h => (hmem _ h).2.2 rfl⟩

/-- A listed link leads back to its entry, and its label reads as the entry's name. -/
structure LeadsBack (name : String) : Prop where
  decoded : percentDecode (segment name) = some name
  file : safeRelative ("/" ++ segment name) = some [name.toList]
  spelled : UrlText (segment name)
  routed : routingPath ("/" ++ segment name) = some ("/" ++ name)
  inert : '<' ∉ (escape name).toList ∧ '>' ∉ (escape name).toList ∧ '"' ∉ (escape name).toList
  label : shown (escape name).toList = name.toList

/-- Every public name's link leads back to it, unless there is a backslash in the name. -/
theorem leadsBack_iff {name : String} (hpublic : publicComponent name.toList = true) (hname : '/' ∉ name.toList) :
    LeadsBack name ↔ '\\' ∉ name.toList := by
  constructor
  · intro h
    exact (routingPath_segment hpublic hname).mp h.routed
  · intro hback
    exact ⟨percentDecode_segment name, safeRelative_segment hpublic hname, segment_urlText name,
      (routingPath_segment hpublic hname).mpr hback, not_mem_escape name, shown_escape name⟩

theorem leadsBack_iff_percent : LeadsBack "a #&%2e?.txt" :=
  (leadsBack_iff (by decide) (by decide)).mpr (by decide)

/-- One name in the directory, two parts of a path to the router. -/
theorem backslash_led_elsewhere : publicComponent "a\\b".toList = true ∧ '/' ∉ "a\\b".toList ∧ ¬ LeadsBack "a\\b" := by
  refine ⟨by decide, by decide, ?_⟩
  intro h
  have hrouted : routingPath ("/" ++ segment "a\\b") = some "/a/b" := by decide
  rw [h.routed] at hrouted
  revert hrouted
  decide

end Gatel.FileListing
