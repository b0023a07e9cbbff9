import Gatel.Lib.Utf8
import Gatel.Plan.Matcher

namespace Gatel.Kdl

def maxNesting : Nat := 16

/-- How many steps the parser takes through one block comment. -/
def maxCommentSteps : Nat := 64

def byte (c : Char) : UInt8 := UInt8.ofNat c.toNat

/-- KDL v2's newline sequences, CRLF as one. -/
def newlineLen : List UInt8 → Nat
  | 0x0d :: 0x0a :: _ => 2
  | 0x0d :: _ | 0x0a :: _ | 0x0b :: _ | 0x0c :: _ => 1
  | 0xc2 :: 0x85 :: _ => 2
  | 0xe2 :: 0x80 :: 0xa8 :: _ | 0xe2 :: 0x80 :: 0xa9 :: _ => 3
  | _ => 0

/-! A position is what is left of the text there: its offset is the length of the text less the length of the rest. -/

/-- Behind the opening quotes of a string, past its end. An unterminated string runs to the end of the file. -/
@[grind =] def skipBody (hashes quotes : Nat) : List UInt8 → List UInt8
  | [] => []
  | b :: rest =>
    -- Only a plain string has escapes. The byte behind the backslash may be the first of several.
    if hashes = 0 ∧ b = byte '\\' then
      match rest with
      | [] => []
      | _ :: rest => skipBody hashes quotes rest
    else if (List.replicate quotes (byte '"') ++ List.replicate hashes (byte '#')).isPrefixOf (b :: rest) then
      (b :: rest).drop (quotes + hashes)
    else skipBody hashes quotes rest

def skipString (hashes : Nat) (bytes : List UInt8) : List UInt8 :=
  let quotes := if (List.replicate 3 (byte '"')).isPrefixOf bytes then 3 else 1
  skipBody hashes quotes (bytes.drop quotes)

@[grind =] def skipLine : List UInt8 → List UInt8
  | [] => []
  | b :: rest => if newlineLen (b :: rest) = 0 then skipLine rest else b :: rest

/-- Past a block comment with so many open, in at most so many steps, or where it became too much. -/
@[grind =] def skipBlock : Nat → Nat → List UInt8 → Except (List UInt8) (List UInt8)
  | _, 0, bytes => .ok bytes
  | _, _ + 1, [] => .ok []
  | 0, _ + 1, bytes => .error bytes
  | steps + 1, nested + 1, b :: rest =>
    if b = byte '/' ∧ rest.head? = some (byte '*') then
      if nested + 2 > maxNesting then .error (b :: rest) else skipBlock steps (nested + 2) (rest.drop 1)
    else if b = byte '*' ∧ rest.head? = some (byte '/') then skipBlock steps nested (rest.drop 1)
    else if b = byte '/' ∨ b = byte '*' then skipBlock steps (nested + 1) rest
    else skipBlock steps (nested + 1) ((b :: rest).dropWhile fun b => b ≠ byte '/' ∧ b ≠ byte '*')

def skipBlockComment (bytes : List UInt8) : Except (List UInt8) (List UInt8) :=
  skipBlock maxCommentSteps 1 (bytes.drop 2)

/-- The first character of the slice from an offset; none where that is no character boundary. -/
@[grind =] def charAt : List Char → Nat → Option Char
  | [], _ => none
  | c :: _, 0 => some c
  | c :: text, offset => if c.utf8Size ≤ offset then charAt text (offset - c.utf8Size) else none

theorem skipBody_length (hashes quotes : Nat) (bytes : List UInt8) : (skipBody hashes quotes bytes).length ≤ bytes.length := by
  fun_induction skipBody hashes quotes bytes with
  | case1 => exact le_refl _
  | case2 => exact Nat.zero_le _
  | case3 b h c rest ih => exact ih.trans (by simp only [List.length_cons]; omega)
  | case4 b rest _ _ => exact List.length_drop .. ▸ Nat.sub_le ..
  | case5 b rest _ _ ih => exact ih.trans (Nat.le_succ _)

theorem skipString_length (hashes : Nat) {bytes : List UInt8} (h : bytes ≠ []) :
    (skipString hashes bytes).length < bytes.length := by
  have hpos := List.length_pos_iff.mpr h
  unfold skipString
  split
  all_goals
    refine lt_of_le_of_lt (skipBody_length ..) ?_
    rw [List.length_drop]
    omega

theorem skipLine_length (bytes : List UInt8) : (skipLine bytes).length ≤ bytes.length := by
  fun_induction skipLine bytes with
  | case1 => exact le_refl _
  | case2 b rest _ ih => exact ih.trans (Nat.le_succ _)
  | case3 => exact le_refl _

theorem skipBlock_length {steps nested : Nat} {bytes rest : List UInt8} (h : skipBlock steps nested bytes = .ok rest) :
    rest.length ≤ bytes.length := by
  fun_induction skipBlock steps nested bytes with
  | case1 => cases h; exact le_refl _
  | case2 => cases h; exact le_refl _
  | case3 => cases h
  | case4 => cases h
  | case5 steps nested b tail _ _ ih => exact (ih h).trans (by simp only [List.length_drop, List.length_cons]; omega)
  | case6 steps nested b tail _ _ ih => exact (ih h).trans (by simp only [List.length_drop, List.length_cons]; omega)
  | case7 steps nested b tail _ _ _ ih => exact (ih h).trans (Nat.le_succ _)
  | case8 steps nested b tail _ _ _ ih => exact (ih h).trans (List.length_dropWhile_le ..)

theorem dropHashes_length {b : UInt8} (rest : List UInt8) (h : b = byte '#') :
    ((b :: rest).dropWhile (· = byte '#')).length < (b :: rest).length := by
  rw [List.dropWhile_cons_of_pos (by simp [h]), List.length_cons]
  exact Nat.lt_succ_of_le (List.length_dropWhile_le ..)

def offset (text : List Char) (bytes : List UInt8) : Nat := (text.flatMap String.utf8EncodeChar).length - bytes.length

/-- The offset at which a known recursive syntax budget is exceeded, from a position on; none where a character would be cut. -/
@[grind =] def tooDeepFrom (text : List Char) : List UInt8 → Nat → Nat → Option (Option Nat)
  | [], _, _ => some none
  | b :: rest, depth, markers =>
    if b = byte '"' then tooDeepFrom text (skipString 0 (b :: rest)) depth 0
    else if b = byte '#' then
      if ((b :: rest).dropWhile (· = byte '#')).head? = some (byte '"') then
        tooDeepFrom text (skipString ((b :: rest).takeWhile (· = byte '#')).length ((b :: rest).dropWhile (· = byte '#'))) depth 0
      else tooDeepFrom text ((b :: rest).dropWhile (· = byte '#')) depth 0
    else if b = byte '/' ∧ rest.head? = some (byte '/') then tooDeepFrom text (skipLine (rest.drop 1)) depth markers
    else if b = byte '/' ∧ rest.head? = some (byte '*') then
      match hok : skipBlockComment (b :: rest) with
      | .ok behind => tooDeepFrom text behind depth markers
      | .error stopped => some (some (offset text stopped))
    else if b = byte '/' ∧ rest.head? = some (byte '-') then
      if depth + (markers + 1) > maxNesting then some (some (offset text (b :: rest)))
      else tooDeepFrom text (rest.drop 1) depth (markers + 1)
    else if b = byte '\x7b' then
      if depth + 1 > maxNesting then some (some (offset text (b :: rest))) else tooDeepFrom text rest (depth + 1) 0
    else if b = byte '\x7d' then tooDeepFrom text rest (depth - 1) 0
    else
      match charAt text (offset text (b :: rest)) with
      | none => none
      | some ch =>
        tooDeepFrom text ((b :: rest).drop ch.utf8Size) depth
          (if !Text.isWhitespace ch && ch ≠ '\\' && ch ≠ '\ufeff' then 0 else markers)
termination_by bytes => bytes.length
decreasing_by
  · exact skipString_length 0 (List.cons_ne_nil _ _)
  · rename_i hb hquote
    have hne : (b :: rest).dropWhile (· = byte '#') ≠ [] := by
      intro he
      simp [he] at hquote
    exact (skipString_length _ hne).trans (dropHashes_length rest hb)
  · rename_i hb _
    exact dropHashes_length rest hb
  · refine lt_of_le_of_lt (skipLine_length _) ?_
    simp only [List.length_drop, List.length_cons]
    omega
  · refine lt_of_le_of_lt (skipBlock_length hok) ?_
    simp only [List.length_drop, List.length_cons]
    omega
  · simp only [List.length_drop, List.length_cons]
    omega
  · exact Nat.lt_succ_self _
  · exact Nat.lt_succ_self _
  · have hpos := ch.utf8Size_pos
    simp only [List.length_drop, List.length_cons]
    omega

def tooDeep (text : List Char) : Option (Option Nat) := tooDeepFrom text (text.flatMap String.utf8EncodeChar) 0 0

/-! Where strings and comments stand, said of characters. -/

@[grind =] def stringBody (hashes quotes : Nat) : List Char → List Char
  | [] => []
  | c :: rest =>
    if hashes = 0 ∧ c = '\\' then
      match rest with
      | [] => []
      | _ :: rest => stringBody hashes quotes rest
    else if (List.replicate quotes '"' ++ List.replicate hashes '#').isPrefixOf (c :: rest) then
      (c :: rest).drop (quotes + hashes)
    else stringBody hashes quotes rest

/-- What is behind a string that starts here. -/
def behindString (hashes : Nat) (text : List Char) : List Char :=
  let quotes := if (List.replicate 3 '"').isPrefixOf text then 3 else 1
  stringBody hashes quotes (text.drop quotes)

def isNewline (c : Char) : Bool := ['\r', '\n', '\x0b', '\x0c', '\u0085', '\u2028', '\u2029'].contains c

/-- What is behind so many nested block comments. -/
@[grind =] def behindBlock : Nat → List Char → List Char
  | 0, text => text
  | _ + 1, [] => []
  | nested + 1, c :: rest =>
    if c = '/' ∧ rest.head? = some '*' then behindBlock (nested + 2) (rest.drop 1)
    else if c = '*' ∧ rest.head? = some '/' then behindBlock nested (rest.drop 1)
    else behindBlock (nested + 1) rest
termination_by _ text => text.length
decreasing_by
  all_goals
    simp only [List.length_drop, List.length_cons]
    omega

theorem stringBody_suffix (hashes quotes : Nat) (text : List Char) : stringBody hashes quotes text <:+ text := by
  fun_induction stringBody hashes quotes text with
  | case1 => exact List.suffix_refl _
  | case2 => exact List.nil_suffix
  | case3 c h d rest ih => exact ih.trans ((List.suffix_cons d rest).trans (List.suffix_cons c _))
  | case4 c rest _ _ => exact List.drop_suffix ..
  | case5 c rest _ _ ih => exact ih.trans (List.suffix_cons c rest)

theorem behindString_suffix (hashes : Nat) (text : List Char) : behindString hashes text <:+ text.drop 1 := by
  unfold behindString
  refine (stringBody_suffix ..).trans ?_
  split
  · have hdrop := List.drop_suffix 2 (text.drop 1)
    rwa [List.drop_drop] at hdrop
  · exact List.suffix_refl _

theorem behindString_length (hashes : Nat) (text : List Char) : (behindString hashes text).length ≤ text.length :=
  ((behindString_suffix hashes text).trans (List.drop_suffix 1 text)).length_le

theorem behindBlock_suffix (nested : Nat) (text : List Char) : behindBlock nested text <:+ text := by
  fun_induction behindBlock nested text with
  | case1 => exact List.suffix_refl _
  | case2 => exact List.suffix_refl _
  | case3 nested c rest _ ih => exact ih.trans ((List.drop_suffix ..).trans (List.suffix_cons c rest))
  | case4 nested c rest _ _ ih => exact ih.trans ((List.drop_suffix ..).trans (List.suffix_cons c rest))
  | case5 nested c rest _ _ ih => exact ih.trans (List.suffix_cons c rest)

/-- The characters outside strings and comments. -/
@[grind =] def outside : List Char → List Char
  | [] => []
  | c :: rest =>
    if c = '"' then outside (behindString 0 (c :: rest))
    else if c = '#' then
      if (rest.dropWhile (· = '#')).head? = some '"' then
        outside (behindString ((rest.takeWhile (· = '#')).length + 1) (rest.dropWhile (· = '#')))
      else c :: rest.takeWhile (· = '#') ++ outside (rest.dropWhile (· = '#'))
    else if c = '/' ∧ rest.head? = some '/' then outside ((rest.drop 1).dropWhile fun d => !isNewline d)
    else if c = '/' ∧ rest.head? = some '*' then outside (behindBlock 1 (rest.drop 1))
    else c :: outside rest
termination_by text => text.length
decreasing_by
  · exact Nat.lt_succ_of_le (behindString_suffix 0 (c :: rest)).length_le
  · have hdrop := List.length_dropWhile_le (· = '#') rest
    have hstring := behindString_length ((rest.takeWhile (· = '#')).length + 1) (rest.dropWhile (· = '#'))
    exact Nat.lt_succ_of_le (hstring.trans hdrop)
  · exact Nat.lt_succ_of_le (List.length_dropWhile_le ..)
  · have hdrop := List.length_dropWhile_le (fun d => !isNewline d) (rest.drop 1)
    simp only [List.length_drop, List.length_cons] at hdrop ⊢
    omega
  · have hsuffix := (behindBlock_suffix 1 (rest.drop 1)).length_le
    simp only [List.length_drop, List.length_cons] at hsuffix ⊢
    omega
  · exact Nat.lt_succ_self _

/-- How deep the braces are after a text. -/
def depthAfter (depth : Nat) (text : List Char) : Nat :=
  text.foldl (fun depth c => if c = '\x7b' then depth + 1 else if c = '\x7d' then depth - 1 else depth) depth

/-! The bytes follow the characters. -/

def encode (text : List Char) : List UInt8 := text.flatMap String.utf8EncodeChar

theorem encode_cons (c : Char) (text : List Char) : encode (c :: text) = String.utf8EncodeChar c ++ encode text := List.flatMap_cons ..

theorem encode_append (a b : List Char) : encode (a ++ b) = encode a ++ encode b := List.flatMap_append ..

theorem encode_ascii {c : Char} (h : c.toNat < 128) (text : List Char) : encode (c :: text) = byte c :: encode text := by
  rw [encode_cons, Utf8.encode_ascii h]
  rfl

/-- The first byte of a character and the ones that continue it. -/
theorem encode_split (c : Char) : ∃ b tail, String.utf8EncodeChar c = b :: tail ∧ (∀ x ∈ tail, 128 ≤ x.toNat ∧ x.toNat < 192) ∧
    (c.toNat < 128 → b = byte c ∧ tail = []) ∧ (128 ≤ c.toNat → 192 ≤ b.toNat) := by
  by_cases hlow : c.toNat < 128
  · exact ⟨byte c, [], Utf8.encode_ascii hlow, nofun, fun _ => ⟨rfl, rfl⟩, fun h => absurd hlow (not_lt.mpr h)⟩
  · have hgt : ¬ c.val.toNat ≤ 127 := fun h => hlow (Nat.lt_succ_of_le h)
    unfold String.utf8EncodeChar
    rw [if_neg hgt]
    split
    · refine ⟨_, _, rfl, ?_, fun h => absurd h hlow, fun _ => ?_⟩
      · simp only [List.mem_singleton, forall_eq, UInt8.toNat_ofNat']
        omega
      · simp only [UInt8.toNat_ofNat']
        omega
    · split
      · refine ⟨_, _, rfl, ?_, fun h => absurd h hlow, fun _ => ?_⟩
        · simp only [List.mem_cons, List.not_mem_nil, or_false, forall_eq_or_imp, forall_eq, UInt8.toNat_ofNat']
          omega
        · simp only [UInt8.toNat_ofNat']
          omega
      · refine ⟨_, _, rfl, ?_, fun h => absurd h hlow, fun _ => ?_⟩
        · simp only [List.mem_cons, List.not_mem_nil, or_false, forall_eq_or_imp, forall_eq, UInt8.toNat_ofNat']
          omega
        · simp only [UInt8.toNat_ofNat']
          omega

theorem byte_inj {a b : Char} (ha : a.toNat < 128) (hb : b.toNat < 128) : byte a = byte b ↔ a = b :=
  ⟨Utf8.ofNat_inj ha hb, fun h => h ▸ rfl⟩

theorem byte_ne {x : UInt8} {c : Char} (hx : 128 ≤ x.toNat) (hc : c.toNat < 128) : x ≠ byte c := by
  rintro rfl
  simp only [byte, UInt8.toNat_ofNat'] at hx
  omega

/-- An ASCII text stands in front of the bytes where it stands in front of the characters. -/
theorem isPrefixOf_encode {lead : List Char} (h : ∀ c ∈ lead, c.toNat < 128) (text : List Char) :
    (lead.map byte).isPrefixOf (encode text) = lead.isPrefixOf text := by
  induction lead generalizing text with
  | nil => simp
  | cons c lead ih =>
    have hc := h c (List.mem_cons_self ..)
    cases text with
    | nil => simp [encode]
    | cons d text =>
      by_cases hd : d.toNat < 128
      · rw [encode_ascii hd, List.map_cons, List.isPrefixOf_cons_cons, List.isPrefixOf_cons_cons,
          ih fun e he => h e (List.mem_cons_of_mem c he)]
        congr 1
        exact decide_eq_decide.mpr (byte_inj hc hd)
      · obtain ⟨b, tail, henc, _, _, hhigh⟩ := encode_split d
        have hne : byte c ≠ b := (byte_ne (by have := hhigh (not_lt.mp hd); omega) hc).symm
        have hne' : c ≠ d := fun he => hd (he ▸ hc)
        rw [encode_cons, henc, List.cons_append, List.map_cons, List.isPrefixOf_cons_cons, List.isPrefixOf_cons_cons,
          beq_eq_false_iff_ne.mpr hne, beq_eq_false_iff_ne.mpr hne']
        rfl

theorem drop_encode {lead text : List Char} (h : ∀ c ∈ lead, c.toNat < 128) (hp : lead.isPrefixOf text = true) :
    (encode text).drop lead.length = encode (text.drop lead.length) := by
  obtain ⟨rest, rfl⟩ := List.isPrefixOf_iff_prefix.mp hp
  have hlen : (encode lead).length = lead.length := by
    clear hp
    induction lead with
    | nil => rfl
    | cons c lead ih =>
      rw [encode_ascii (h c (List.mem_cons_self ..)), List.length_cons, ih fun e he => h e (List.mem_cons_of_mem c he),
        List.length_cons]
  rw [encode_append, List.drop_left, ← hlen, List.drop_left]

/-- The first byte of a character tells an ASCII character, and what continues it is skipped by everyone who looks for one. -/
theorem encode_head (c : Char) (text : List Char) : ∃ b tail, encode (c :: text) = b :: (tail ++ encode text) ∧
    String.utf8EncodeChar c = b :: tail ∧ (∀ x ∈ tail, 128 ≤ x.toNat ∧ x.toNat < 192) ∧ (∀ d : Char, d.toNat < 128 → (b = byte d ↔ c = d)) := by
  obtain ⟨b, tail, henc, htail, hlow, hhigh⟩ := encode_split c
  refine ⟨b, tail, by rw [encode_cons, henc, List.cons_append], henc, htail, fun d hd => ?_⟩
  rcases Nat.lt_or_ge c.toNat 128 with hc | hc
  · rw [(hlow hc).1, byte_inj hc hd]
  · have hb := hhigh hc
    refine iff_of_false (byte_ne (by omega) hd) fun h => ?_
    rw [h] at hc
    omega

theorem skipBody_escape {hashes quotes : Nat} (h : hashes = 0) (d : UInt8) (rest : List UInt8) :
    skipBody hashes quotes (byte '\\' :: d :: rest) = skipBody hashes quotes rest := by
  rw [skipBody.eq_def]
  dsimp only
  rw [if_pos ⟨h, rfl⟩]

theorem skipBody_plain {hashes quotes : Nat} {b : UInt8} (h : ¬ (hashes = 0 ∧ b = byte '\\')) (rest : List UInt8) :
    skipBody hashes quotes (b :: rest) =
      if (List.replicate quotes (byte '"') ++ List.replicate hashes (byte '#')).isPrefixOf (b :: rest) then
        (b :: rest).drop (quotes + hashes)
      else skipBody hashes quotes rest := by
  rw [skipBody.eq_def]
  dsimp only
  rw [if_neg h]

theorem skipBody_high (hashes : Nat) {quotes : Nat} (hq : 0 < quotes) {high : List UInt8} (h : ∀ x ∈ high, 128 ≤ x.toNat)
    (rest : List UInt8) : skipBody hashes quotes (high ++ rest) = skipBody hashes quotes rest := by
  induction high with
  | nil => rfl
  | cons b high ih =>
    obtain ⟨quotes, rfl⟩ := Nat.exists_eq_succ_of_ne_zero hq.ne'
    have hb := h b (List.mem_cons_self ..)
    have hquote : byte '"' ≠ b := (byte_ne hb (by decide)).symm
    have hstart : (List.replicate (quotes + 1) (byte '"') ++ List.replicate hashes (byte '#')).isPrefixOf (b :: (high ++ rest)) = false := by
      rw [List.replicate_succ, List.cons_append, List.isPrefixOf_cons_cons, beq_eq_false_iff_ne.mpr hquote, Bool.false_and]
    rw [List.cons_append, skipBody_plain (fun he => byte_ne hb (by decide) he.2), hstart, if_neg Bool.false_ne_true,
      ih fun x hx => h x (List.mem_cons_of_mem b hx)]

theorem skipBody_encode (hashes : Nat) {quotes : Nat} (hq : 0 < quotes) (text : List Char) :
    skipBody hashes quotes (encode text) = encode (stringBody hashes quotes text) := by
  have hascii : ∀ c ∈ List.replicate quotes '"' ++ List.replicate hashes '#', c.toNat < 128 := by
    intro c hc
    rcases List.mem_append.mp hc with hc | hc <;> rw [List.eq_of_mem_replicate hc] <;> decide
  have hstart (text : List Char) : (List.replicate quotes (byte '"') ++ List.replicate hashes (byte '#')).isPrefixOf (encode text)
      = (List.replicate quotes '"' ++ List.replicate hashes '#').isPrefixOf text := by
    simpa using isPrefixOf_encode hascii text
  fun_induction stringBody hashes quotes text with
  | case1 => rfl
  | case2 c h =>
    rw [h.2, encode_ascii (by decide), skipBody.eq_def]
    dsimp only
    rw [if_pos ⟨h.1, rfl⟩]
    rfl
  | case3 c h d rest ih =>
    obtain ⟨b, tail, henc, -, htail, -⟩ := encode_head d rest
    rw [h.2, encode_ascii (by decide), henc, skipBody_escape h.1, skipBody_high hashes hq fun x hx => (htail x hx).1, ih]
  | case4 c rest hesc hend =>
    obtain ⟨b, tail, henc, -, -, hb⟩ := encode_head c rest
    have hdrop := drop_encode hascii hend
    rw [← hstart, henc] at hend
    rw [henc, skipBody_plain fun he => hesc ⟨he.1, (hb _ (by decide)).mp he.2⟩, if_pos hend, ← henc]
    simpa using hdrop
  | case5 c rest hesc hend ih =>
    obtain ⟨b, tail, henc, -, htail, hb⟩ := encode_head c rest
    rw [← hstart, henc] at hend
    rw [henc, skipBody_plain fun he => hesc ⟨he.1, (hb _ (by decide)).mp he.2⟩, if_neg hend,
      skipBody_high hashes hq fun x hx => (htail x hx).1, ih]

theorem skipString_encode (hashes : Nat) (text : List Char) : 
    skipString hashes (encode ('"' :: text)) = encode (behindString hashes ('"' :: text)) := by
  have hascii (n : Nat) : ∀ c ∈ List.replicate n '"', c.toNat < 128 := by
    intro c hc
    rw [List.eq_of_mem_replicate hc]
    decide
  have hstart := isPrefixOf_encode (hascii 3) ('"' :: text)
  rw [List.map_replicate] at hstart
  unfold skipString behindString
  rw [hstart]
  split
  · rename_i h
    have hdrop := drop_encode (hascii 3) h
    rw [List.length_replicate] at hdrop
    dsimp only
    rw [hdrop, skipBody_encode hashes (by decide)]
  · rw [encode_ascii (by decide)]
    exact skipBody_encode hashes (by decide) text

theorem newlineLen_cases {bytes : List UInt8} (h : newlineLen bytes ≠ 0) :
    ∃ c rest, isNewline c = true ∧ bytes = String.utf8EncodeChar c ++ rest := by
  unfold newlineLen at h
  split at h
  · exact ⟨'\r', 0x0a :: _, by decide, rfl⟩
  · exact ⟨'\r', _, by decide, rfl⟩
  · exact ⟨'\n', _, by decide, rfl⟩
  · exact ⟨'\x0b', _, by decide, rfl⟩
  · exact ⟨'\x0c', _, by decide, rfl⟩
  · exact ⟨'\u0085', _, by decide, rfl⟩
  · exact ⟨'\u2028', _, by decide, rfl⟩
  · exact ⟨'\u2029', _, by decide, rfl⟩
  · exact absurd rfl h

/-- A newline is one character, and no other begins like one. -/
theorem newlineLen_encode (c : Char) (text : List Char) : newlineLen (encode (c :: text)) = 0 ↔ isNewline c = false := by
  rw [encode_cons, ← Bool.not_eq_true, ← not_iff_not, not_not]
  constructor
  · intro h
    obtain ⟨d, rest, hd, henc⟩ := newlineLen_cases h
    rwa [Utf8.encode_inj henc]
  · intro h
    simp only [isNewline, List.contains_eq_mem, List.mem_cons, List.not_mem_nil, or_false, decide_eq_true_eq] at h
    rcases h with rfl | rfl | rfl | rfl | rfl | rfl | rfl
    · show newlineLen (0x0d :: encode text) ≠ 0
      unfold newlineLen
      split <;> grind
    all_goals exact nofun

theorem newlineLen_high {b : UInt8} (h : 128 ≤ b.toNat ∧ b.toNat < 192) (rest : List UInt8) : newlineLen (b :: rest) = 0 := by
  by_contra hne
  obtain ⟨c, rest', -, henc⟩ := newlineLen_cases hne
  obtain ⟨d, tail, hc, -, hlow, hhigh⟩ := encode_split c
  rw [hc, List.cons_append] at henc
  obtain ⟨rfl, -⟩ := List.cons.inj henc
  rcases Nat.lt_or_ge c.toNat 128 with hlt | hge
  · exact byte_ne h.1 hlt (hlow hlt).1
  · exact absurd (hhigh hge) (not_le.mpr h.2)

theorem skipLine_high {high : List UInt8} (h : ∀ x ∈ high, 128 ≤ x.toNat ∧ x.toNat < 192) (rest : List UInt8) :
    skipLine (high ++ rest) = skipLine rest := by
  induction high with
  | nil => rfl
  | cons b high ih =>
    rw [List.cons_append, skipLine, if_pos (newlineLen_high (h b (List.mem_cons_self ..)) _), ih fun x hx => h x (List.mem_cons_of_mem b hx)]

theorem skipLine_encode (text : List Char) : skipLine (encode text) = encode (text.dropWhile fun c => !isNewline c) := by
  induction text with
  | nil => rfl
  | cons c text ih =>
    have hline := newlineLen_encode c text
    obtain ⟨b, tail, henc, -, htail, -⟩ := encode_head c text
    by_cases hc : isNewline c = true
    · rw [List.dropWhile_cons_of_neg (by simp [hc])]
      rw [henc] at hline ⊢
      rw [skipLine, if_neg (by simp [hline, hc])]
    · rw [List.dropWhile_cons_of_pos (by simp [hc])]
      rw [henc] at hline ⊢
      rw [skipLine, if_pos (by simpa [hc] using hline), skipLine_high htail, ih]

theorem head?_encode {d : Char} (hd : d.toNat < 128) (text : List Char) : (encode text).head? = some (byte d) ↔ text.head? = some d := by
  cases text with
  | nil => simp [encode]
  | cons c text =>
    obtain ⟨b, tail, henc, -, -, hb⟩ := encode_head c text
    simp [henc, hb d hd]

/-- An ASCII character in front is a byte in front. -/
theorem drop_one_encode {d : Char} (hd : d.toNat < 128) {text : List Char} (h : text.head? = some d) :
    (encode text).drop 1 = encode (text.drop 1) := by
  cases text with
  | nil => cases h
  | cons c text =>
    cases h
    rw [encode_ascii hd]
    rfl

theorem dropWhile_high {p : UInt8 → Bool} (hp : ∀ x, 128 ≤ x.toNat → p x = true) {high : List UInt8} (h : ∀ x ∈ high, 128 ≤ x.toNat)
    (rest : List UInt8) : (high ++ rest).dropWhile p = rest.dropWhile p := by
  induction high with
  | nil => rfl
  | cons b high ih =>
    rw [List.cons_append, List.dropWhile_cons_of_pos (hp b (h b (List.mem_cons_self ..))), ih fun x hx => h x (List.mem_cons_of_mem b hx)]

/-- A run that goes on over every byte above ASCII is a run of characters. -/
theorem dropWhile_encode {p : UInt8 → Bool} {q : Char → Bool} (hhigh : ∀ x, 128 ≤ x.toNat → p x = true)
    (hhead : ∀ c b, (∀ d : Char, d.toNat < 128 → (b = byte d ↔ c = d)) → p b = q c) (text : List Char) :
    (encode text).dropWhile p = encode (text.dropWhile q) := by
  induction text with
  | nil => rfl
  | cons c text ih =>
    obtain ⟨b, tail, henc, -, htail, hb⟩ := encode_head c text
    have hc := hhead c b hb
    by_cases hq : q c = true
    · rw [henc, List.dropWhile_cons_of_pos (hc.trans hq), List.dropWhile_cons_of_pos hq,
        dropWhile_high hhigh fun x hx => (htail x hx).1, ih]
    · rw [henc, List.dropWhile_cons_of_neg (by rwa [hc]), List.dropWhile_cons_of_neg hq, henc]

def inComment (c : Char) : Bool := c ≠ '/' ∧ c ≠ '*'

/-- What is no delimiter changes nothing about how many comments are open. -/
theorem behindBlock_run (nested : Nat) (text : List Char) :
    behindBlock (nested + 1) text = behindBlock (nested + 1) (text.dropWhile inComment) := by
  induction text with
  | nil => rfl
  | cons c text ih =>
    by_cases hin : inComment c = true
    · have hne : c ≠ '/' ∧ c ≠ '*' := by simpa [inComment] using hin
      rw [List.dropWhile_cons_of_pos hin, ← ih, behindBlock, if_neg fun h => hne.1 h.1, if_neg fun h => hne.2 h.1]
    · rw [List.dropWhile_cons_of_neg hin]

theorem skipBlock_encode {steps nested : Nat} {text : List Char} {rest : List UInt8}
    (h : skipBlock steps nested (encode text) = .ok rest) : rest = encode (behindBlock nested text) := by
  induction steps generalizing nested text with
  | zero =>
    cases nested with
    | zero =>
      rw [skipBlock] at h
      cases h
      rw [behindBlock]
    | succ nested =>
      cases text with
      | nil =>
        cases h
        rw [behindBlock]
        rfl
      | cons c text =>
        obtain ⟨b, tail, henc, -⟩ := encode_head c text
        rw [henc] at h
        cases h
  | succ steps ih =>
    cases nested with
    | zero =>
      rw [skipBlock] at h
      cases h
      rw [behindBlock]
    | succ nested =>
      cases text with
      | nil =>
        cases h
        rw [behindBlock]
        rfl
      | cons c text =>
        have hrun := dropWhile_encode (p := fun b => b ≠ byte '/' ∧ b ≠ byte '*') (q := inComment)
          (fun x hx => decide_eq_true ⟨byte_ne hx (by decide), byte_ne hx (by decide)⟩)
          (fun c b hb => by simp only [inComment, ne_eq, hb '/' (by decide), hb '*' (by decide)]) (c :: text)
        obtain ⟨b, tail, henc, -, -, hb⟩ := encode_head c text
        rw [henc] at h hrun
        by_cases hdelim : c = '/' ∨ c = '*'
        · have hc : c.toNat < 128 := by rcases hdelim with rfl | rfl <;> decide
          rw [encode_ascii hc] at henc
          obtain ⟨rfl, htail⟩ := List.cons.inj henc
          rw [← htail, skipBlock] at h
          simp only [hb '/' (by decide), hb '*' (by decide), head?_encode (d := '*') (by decide),
            head?_encode (d := '/') (by decide), if_pos hdelim] at h
          rw [behindBlock]
          split at h
          · rename_i hopen
            rw [if_pos hopen]
            split at h
            · cases h
            · rw [drop_one_encode (by decide) hopen.2] at h
              exact ih h
          · rename_i hopen
            rw [if_neg hopen]
            split at h
            · rename_i hclose
              rw [drop_one_encode (by decide) hclose.2] at h
              rw [if_pos hclose]
              exact ih h
            · rename_i hclose
              rw [if_neg hclose]
              exact ih h
        · have hne : b ≠ byte '/' ∧ b ≠ byte '*' :=
            ⟨fun he => hdelim (.inl ((hb '/' (by decide)).mp he)), fun he => hdelim (.inr ((hb '*' (by decide)).mp he))⟩
          rw [skipBlock, if_neg fun he => hne.1 he.1, if_neg fun he => hne.2 he.1, if_neg (not_or.mpr hne), hrun] at h
          exact (ih h).trans (congrArg encode (behindBlock_run nested _).symm)

theorem charAt_encode (before : List Char) (c : Char) (text : List Char) :
    charAt (before ++ c :: text) (encode before).length = some c := by
  induction before with
  | nil => rfl
  | cons d before ih =>
    have hpos := d.utf8Size_pos
    rw [encode_cons, List.length_append, String.length_utf8EncodeChar, List.cons_append]
    obtain ⟨size, hsize⟩ := Nat.exists_eq_succ_of_ne_zero (n := d.utf8Size + (encode before).length) (by omega)
    rw [hsize, charAt, ← hsize, if_pos (Nat.le_add_right ..), Nat.add_sub_cancel_left, ih]
    exact Nat.succ_ne_zero size

/-- Where the characters of a text end is where one begins. -/
theorem offset_encode (before after : List Char) : offset (before ++ after) (encode after) = (encode before).length := by
  have hlen : ((before ++ after).flatMap String.utf8EncodeChar).length = (encode before).length + (encode after).length := by
    rw [← List.length_append, ← encode_append]
    rfl
  rw [offset, hlen, Nat.add_sub_cancel]

/-! What stays within bounds. -/

theorem depthAfter_cons (depth : Nat) (c : Char) (text : List Char) :
    depthAfter depth (c :: text) = depthAfter (if c = '\x7b' then depth + 1 else if c = '\x7d' then depth - 1 else depth) text := rfl

theorem outside_string (rest : List Char) : outside ('"' :: rest) = outside (behindString 0 ('"' :: rest)) := by
  rw [outside, if_pos rfl]

theorem outside_hashes (rest : List Char) : outside ('#' :: rest) =
    if (rest.dropWhile (· = '#')).head? = some '"' then
      outside (behindString ((rest.takeWhile (· = '#')).length + 1) (rest.dropWhile (· = '#')))
    else '#' :: rest.takeWhile (· = '#') ++ outside (rest.dropWhile (· = '#')) := by
  rw [outside, if_neg (by decide), if_pos rfl]

theorem outside_line (rest : List Char) : outside ('/' :: '/' :: rest) = outside (rest.dropWhile fun d => !isNewline d) := by
  rw [outside, if_neg (by decide), if_neg (by decide), if_pos ⟨rfl, rfl⟩, List.drop_one, List.tail_cons]

theorem outside_block (rest : List Char) : outside ('/' :: '*' :: rest) = outside (behindBlock 1 rest) := by
  rw [outside, if_neg (by decide), if_neg (by decide), if_neg (fun h => absurd (Option.some.inj h.2) (by decide)), if_pos ⟨rfl, rfl⟩,
    List.drop_one, List.tail_cons]

theorem outside_other {c : Char} {rest : List Char} (hc : c ≠ '"' ∧ c ≠ '#')
    (hslash : ∀ d ∈ ['/', '*'], ¬ (c = '/' ∧ rest.head? = some d)) : outside (c :: rest) = c :: outside rest := by
  rw [outside, if_neg hc.1, if_neg hc.2, if_neg (hslash '/' (by decide)), if_neg (hslash '*' (by decide))]

def Bounded (depth : Nat) (text : List Char) : Prop := ∀ p, p <+: outside text → depthAfter depth p ≤ maxNesting

theorem bounded_cons {depth depth' : Nat} {c : Char} {text rest : List Char} (ho : outside text = c :: outside rest)
    (hd : (if c = '\x7b' then depth + 1 else if c = '\x7d' then depth - 1 else depth) = depth') (hle : depth ≤ maxNesting)
    (h : Bounded depth' rest) : Bounded depth text := by
  intro p hp
  rw [ho] at hp
  cases p with
  | nil => exact hle
  | cons d p =>
    obtain ⟨rfl, hrest⟩ := List.cons_prefix_cons.mp hp
    rw [depthAfter_cons, hd]
    exact h p hrest

theorem bounded_hashes {depth : Nat} {text rest : List Char} {hashes : List Char} (hh : ∀ c ∈ hashes, c = '#')
    (ho : outside text = hashes ++ outside rest) (hle : depth ≤ maxNesting) (h : Bounded depth rest) : Bounded depth text := by
  intro p hp
  rw [ho] at hp
  clear ho
  induction hashes generalizing p with
  | nil => exact h p hp
  | cons c hashes ih =>
    obtain rfl := hh c (List.mem_cons_self ..)
    cases p with
    | nil => exact hle
    | cons d p =>
      obtain ⟨rfl, hrest⟩ := List.cons_prefix_cons.mp hp
      exact ih (fun c hc => hh c (List.mem_cons_of_mem _ hc)) p hrest

theorem takeWhile_hashes (text : List Char) : ((encode text).takeWhile (· = byte '#')).length = (text.takeWhile (· = '#')).length := by
  induction text with
  | nil => rfl
  | cons c text ih =>
    obtain ⟨b, tail, henc, -, -, hb⟩ := encode_head c text
    by_cases hc : c = '#'
    · rw [hc, encode_ascii (by decide), List.takeWhile_cons_of_pos (by simp), List.takeWhile_cons_of_pos (by simp),
        List.length_cons, List.length_cons, ih]
    · rw [henc, List.takeWhile_cons_of_neg (by simp [hb '#' (by decide), hc]), List.takeWhile_cons_of_neg (by simp [hc])]
      rfl

theorem dropWhile_hashes (text : List Char) : (encode text).dropWhile (· = byte '#') = encode (text.dropWhile (· = '#')) := by
  induction text with
  | nil => rfl
  | cons c text ih =>
    obtain ⟨b, tail, henc, -, -, hb⟩ := encode_head c text
    by_cases hc : c = '#'
    · rw [hc, encode_ascii (by decide), List.dropWhile_cons_of_pos (by simp), List.dropWhile_cons_of_pos (by simp), ih]
    · rw [henc, List.dropWhile_cons_of_neg (by simp [hb '#' (by decide), hc]), List.dropWhile_cons_of_neg (by simp [hc]), henc]

/-! What the scan does at a character. -/

section Steps

variable (text : List Char) (rest : List Char) (depth markers : Nat)

theorem tooDeep_string : tooDeepFrom text (encode ('"' :: rest)) depth markers =
    tooDeepFrom text (encode (behindString 0 ('"' :: rest))) depth 0 := by
  rw [← skipString_encode, encode_ascii (by decide), tooDeepFrom, if_pos rfl]

theorem tooDeep_hashes : tooDeepFrom text (encode ('#' :: rest)) depth markers =
    if (rest.dropWhile (· = '#')).head? = some '"' then
      tooDeepFrom text (encode (behindString ((rest.takeWhile (· = '#')).length + 1) (rest.dropWhile (· = '#')))) depth 0
    else tooDeepFrom text (encode (rest.dropWhile (· = '#'))) depth 0 := by
  have hdrop : (byte '#' :: encode rest).dropWhile (· = byte '#') = encode (rest.dropWhile (· = '#')) := by
    rw [List.dropWhile_cons_of_pos (by simp), dropWhile_hashes]
  have htake : ((byte '#' :: encode rest).takeWhile (· = byte '#')).length = (rest.takeWhile (· = '#')).length + 1 := by
    rw [List.takeWhile_cons_of_pos (by simp), List.length_cons, takeWhile_hashes]
  rw [encode_ascii (by decide), tooDeepFrom, if_neg (by decide), if_pos rfl, hdrop, htake]
  simp only [head?_encode (d := '"') (by decide)]
  split
  · rename_i hquote
    obtain ⟨d, hd⟩ : ∃ d, rest.dropWhile (· = '#') = '"' :: d := List.head?_eq_some_iff.mp hquote
    rw [hd, skipString_encode]
  · rfl

theorem tooDeep_line : tooDeepFrom text (encode ('/' :: '/' :: rest)) depth markers =
    tooDeepFrom text (encode (rest.dropWhile fun d => !isNewline d)) depth markers := by
  rw [← skipLine_encode, encode_ascii (by decide), encode_ascii (by decide), tooDeepFrom, if_neg (by decide), if_neg (by decide),
    if_pos ⟨rfl, rfl⟩]
  rfl

theorem tooDeep_block : (∃ stopped, tooDeepFrom text (encode ('/' :: '*' :: rest)) depth markers = some (some (offset text stopped))) ∨
    tooDeepFrom text (encode ('/' :: '*' :: rest)) depth markers = tooDeepFrom text (encode (behindBlock 1 rest)) depth markers := by
  rw [encode_ascii (by decide), encode_ascii (by decide), tooDeepFrom, if_neg (by decide), if_neg (by decide),
    if_neg (fun h => absurd (Option.some.inj h.2) (by decide)), if_pos ⟨rfl, rfl⟩]
  split
  · rename_i behind hok
    exact .inr (by rw [skipBlock_encode hok])
  · rename_i stopped _
    exact .inl ⟨stopped, rfl⟩

theorem tooDeep_disable : (∃ stopped, tooDeepFrom text (encode ('/' :: '-' :: rest)) depth markers = some (some (offset text stopped))) ∨
    tooDeepFrom text (encode ('/' :: '-' :: rest)) depth markers = tooDeepFrom text (encode rest) depth (markers + 1) := by
  rw [encode_ascii (by decide), encode_ascii (by decide), tooDeepFrom, if_neg (by decide), if_neg (by decide),
    if_neg (fun h => absurd (Option.some.inj h.2) (by decide)), if_neg (fun h => absurd (Option.some.inj h.2) (by decide)),
    if_pos ⟨rfl, rfl⟩]
  split
  · exact .inl ⟨_, rfl⟩
  · exact .inr rfl

theorem tooDeep_brace : (∃ stopped, tooDeepFrom text (encode ('\x7b' :: rest)) depth markers = some (some (offset text stopped))) ∨
    (depth + 1 ≤ maxNesting ∧ tooDeepFrom text (encode ('\x7b' :: rest)) depth markers =
      tooDeepFrom text (encode rest) (depth + 1) 0) := by
  rw [encode_ascii (by decide), tooDeepFrom, if_neg (by decide), if_neg (by decide),
    if_neg (fun h => absurd h.1 (by decide)), if_neg (fun h => absurd h.1 (by decide)),
    if_neg (fun h => absurd h.1 (by decide)), if_pos rfl]
  split
  · exact .inl ⟨_, rfl⟩
  · exact .inr ⟨by omega, rfl⟩

theorem tooDeep_unbrace : tooDeepFrom text (encode ('\x7d' :: rest)) depth markers = tooDeepFrom text (encode rest) (depth - 1) 0 := by
  rw [encode_ascii (by decide), tooDeepFrom, if_neg (by decide), if_neg (by decide),
    if_neg (fun h => absurd h.1 (by decide)), if_neg (fun h => absurd h.1 (by decide)), if_neg (fun h => absurd h.1 (by decide)),
    if_neg (by decide), if_pos rfl]

/-- Any other position is the boundary of a character. -/
theorem tooDeep_other {c : Char} {before : List Char} (h : text = before ++ c :: rest) (hc : c ∉ ['"', '#', '\x7b', '\x7d'])
    (hslash : ∀ d ∈ ['/', '*', '-'], ¬ (c = '/' ∧ rest.head? = some d)) :
    ∃ markers', tooDeepFrom text (encode (c :: rest)) depth markers = tooDeepFrom text (encode rest) depth markers' := by
  obtain ⟨b, tail, henc, hsize, -, hb⟩ := encode_head c rest
  have hdrop : (encode (c :: rest)).drop c.utf8Size = encode rest := by
    rw [encode_cons, ← String.length_utf8EncodeChar, List.drop_left]
  have hchar : charAt text (offset text (encode (c :: rest))) = some c := by rw [h, offset_encode, charAt_encode]
  have hnot {d : Char} (hd : d.toNat < 128 ∧ d ∈ ['"', '#', '\x7b', '\x7d']) : ¬ b = byte d := fun he => hc ((hb d hd.1).mp he ▸ hd.2)
  have hnoslash {d : Char} (hd : d.toNat < 128 ∧ d ∈ ['/', '*', '-']) : ¬ (b = byte '/' ∧
      (tail ++ encode rest).head? = some (byte d)) := by
    intro hs
    obtain rfl := (hb '/' (by decide)).mp hs.1
    rw [encode_ascii (by decide)] at henc
    rw [← (List.cons.inj henc).2, head?_encode hd.1] at hs
    exact hslash d hd.2 ⟨rfl, hs.2⟩
  rw [henc] at hdrop hchar ⊢
  rw [tooDeepFrom, if_neg (hnot (by decide)), if_neg (hnot (by decide)), if_neg (hnoslash (by decide)), if_neg (hnoslash (by decide)),
    if_neg (hnoslash (by decide)), if_neg (hnot (by decide)), if_neg (hnot (by decide)), hchar]
  dsimp only
  rw [hdrop]
  exact ⟨_, rfl⟩

end Steps

/-- An answer is reached, and where it is none every depth is within bounds. -/
def Guarded (text : List Char) (bytes : List UInt8) (depth markers : Nat) (after : List Char) : Prop :=
  ∃ result, tooDeepFrom text bytes depth markers = some result ∧ (result = none → depth ≤ maxNesting → Bounded depth after)

namespace Guarded

variable {text after rest : List Char} {bytes bytes' : List UInt8} {depth markers markers' : Nat}

theorem of_eq (hs : tooDeepFrom text bytes depth markers = tooDeepFrom text bytes' depth markers') (ho : outside after = outside rest)
    (h : Guarded text bytes' depth markers' rest) : Guarded text bytes depth markers after := by
  obtain ⟨result, hr, hbound⟩ := h
  refine ⟨result, hs.trans hr, fun hnone hle => ?_⟩
  unfold Bounded
  rw [ho]
  exact hbound hnone hle

theorem of_stopped (hs : ∃ stopped, tooDeepFrom text bytes depth markers = some (some (offset text stopped))) :
    Guarded text bytes depth markers after := by
  obtain ⟨stopped, hs⟩ := hs
  exact ⟨_, hs, nofun⟩

theorem of_cons {depth' : Nat} {c : Char} (hs : tooDeepFrom text bytes depth markers = tooDeepFrom text bytes' depth' markers')
    (ho : outside after = c :: outside rest)
    (hd : (if c = '\x7b' then depth + 1 else if c = '\x7d' then depth - 1 else depth) = depth')
    (hle : depth ≤ maxNesting → depth' ≤ maxNesting) (h : Guarded text bytes' depth' markers' rest) :
    Guarded text bytes depth markers after := by
  obtain ⟨result, hr, hbound⟩ := h
  exact ⟨result, hs.trans hr, fun hnone hdepth => bounded_cons ho hd hdepth (hbound hnone (hle hdepth))⟩

end Guarded

theorem guarded (text before after : List Char) (h : text = before ++ after) (depth markers : Nat) :
    Guarded text (encode after) depth markers after := by
  induction hn : after.length using Nat.strong_induction_on generalizing before after depth markers with
  | _ n ih =>
  subst hn
  -- every rest that the scan goes on with is one of characters
  have hgo {rest : List Char} (hsuffix : rest <:+ after) (hlt : rest.length < after.length) (depth markers : Nat) :
      Guarded text (encode rest) depth markers rest := by
    obtain ⟨middle, rfl⟩ := hsuffix
    exact ih rest.length hlt (before ++ middle) rest (by rw [h, List.append_assoc]) depth markers rfl
  clear ih
  cases after with
  | nil =>
    refine ⟨none, by rw [encode, List.flatMap_nil, tooDeepFrom], fun _ hle p hp => ?_⟩
    rw [outside] at hp
    rw [List.prefix_nil.mp hp]
    exact hle
  | cons c rest =>
    have hself : rest <:+ c :: rest := List.suffix_cons c rest
    by_cases hstring : c = '"'
    · subst hstring
      have hsuffix := behindString_suffix 0 ('"' :: rest)
      exact .of_eq (tooDeep_string ..) (outside_string rest) (hgo (hsuffix.trans hself) (Nat.lt_succ_of_le hsuffix.length_le) depth 0)
    by_cases hhash : c = '#'
    · subst hhash
      have hdrop : rest.dropWhile (· = '#') <:+ rest := List.dropWhile_suffix _
      by_cases hquote : (rest.dropWhile (· = '#')).head? = some '"'
      · refine .of_eq (by rw [tooDeep_hashes, if_pos hquote]) (by rw [outside_hashes, if_pos hquote]) (hgo ?_ ?_ depth 0)
        · exact (behindString_suffix ..).trans ((List.drop_suffix 1 _).trans (hdrop.trans hself))
        · exact Nat.lt_succ_of_le ((behindString_length ..).trans hdrop.length_le)
      · obtain ⟨result, hr, hbound⟩ := hgo (hdrop.trans hself) (Nat.lt_succ_of_le hdrop.length_le) depth 0
        refine ⟨result, by rw [tooDeep_hashes, if_neg hquote, hr], fun hnone hle => ?_⟩
        have hhashes : ∀ d ∈ '#' :: rest.takeWhile (· = '#'), d = '#' := by
          intro d hd
          rcases List.mem_cons.mp hd with rfl | hd
          · rfl
          · simpa using List.mem_takeWhile_imp hd
        exact bounded_hashes hhashes (by rw [outside_hashes, if_neg hquote, List.cons_append]) hle (hbound hnone hle)
    by_cases hopen : c = '\x7b'
    · subst hopen
      rcases tooDeep_brace text rest depth markers with hstop | ⟨hle, hs⟩
      · exact .of_stopped hstop
      · exact .of_cons hs (outside_other (by decide) fun d _ he => absurd he.1 (by decide)) rfl (fun _ => hle)
          (hgo hself (Nat.lt_succ_self _) (depth + 1) 0)
    by_cases hclose : c = '\x7d'
    · subst hclose
      exact .of_cons (tooDeep_unbrace ..) (outside_other (by decide) fun d _ he => absurd he.1 (by decide)) rfl (by omega)
        (hgo hself (Nat.lt_succ_self _) (depth - 1) 0)
    have hdepth : (if c = '\x7b' then depth + 1 else if c = '\x7d' then depth - 1 else depth) = depth := by
      rw [if_neg hopen, if_neg hclose]
    by_cases hslash : ∀ d ∈ ['/', '*', '-'], ¬ (c = '/' ∧ rest.head? = some d)
    · obtain ⟨markers', hs⟩ := tooDeep_other text rest depth markers h (by simp [hstring, hhash, hopen, hclose]) hslash
      exact .of_cons hs (outside_other ⟨hstring, hhash⟩ fun d hd => hslash d (List.mem_append_left ['-'] hd)) hdepth id
        (hgo hself (Nat.lt_succ_self _) depth markers')
    · simp only [not_forall, not_not] at hslash
      obtain ⟨d, hd, rfl, hhead⟩ := hslash
      obtain ⟨rest', rfl⟩ := List.head?_eq_some_iff.mp hhead
      have hself' : rest' <:+ '/' :: d :: rest' := (List.suffix_cons d rest').trans hself
      have hlt : rest'.length < ('/' :: d :: rest').length := Nat.lt_succ_of_lt (Nat.lt_succ_self _)
      simp only [List.mem_cons, List.not_mem_nil, or_false] at hd
      rcases hd with rfl | rfl | rfl
      · have hline : rest'.dropWhile (fun d => !isNewline d) <:+ rest' := List.dropWhile_suffix _
        exact .of_eq (tooDeep_line ..) (outside_line rest') (hgo (hline.trans hself') (lt_of_le_of_lt hline.length_le hlt) depth markers)
      · have hblock := behindBlock_suffix 1 rest'
        rcases tooDeep_block text rest' depth markers with hstop | hs
        · exact .of_stopped hstop
        · exact .of_eq hs (outside_block rest') (hgo (hblock.trans hself') (lt_of_le_of_lt hblock.length_le hlt) depth markers)
      · rcases tooDeep_disable text rest' depth markers with hstop | hs
        · exact .of_stopped hstop
        · obtain ⟨result, hr, hbound⟩ := hgo hself' hlt depth (markers + 1)
          refine ⟨result, hs.trans hr, fun hnone hle => ?_⟩
          have hminus : Bounded depth ('-' :: rest') :=
            bounded_cons (outside_other (by decide) fun d _ he => absurd he.1 (by decide)) rfl hle (hbound hnone hle)
          refine bounded_cons (outside_other (by decide) fun d hd he => ?_) rfl hle hminus
          rw [← Option.some.inj he.2] at hd
          exact absurd hd (by decide)

/-- The guard answers for every text without cutting a character, and what it lets through never nests too deep. -/
theorem tooDeep_total (text : List Char) :
    ∃ result, tooDeep text = some result ∧ (result = none → ∀ p, p <+: outside text → depthAfter 0 p ≤ maxNesting) := by
  obtain ⟨result, hr, hbound⟩ := guarded text [] text rfl 0 0
  exact ⟨result, hr, fun hnone => hbound hnone (Nat.zero_le _)⟩

end Gatel.Kdl
