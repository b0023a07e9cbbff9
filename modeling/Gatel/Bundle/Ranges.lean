import Gatel.Model.HashExact
import Gatel.Model.Http
import Gatel.Plan.Texts

namespace Gatel.Ranges

/-! Entity tags. -/

/-- The bytes inside the quotes, and whether the tag is weak. -/
@[grind =] def tag (bytes : List UInt8) : Option (Bool × List UInt8) :=
  let (weak, bytes) := match bytes with
    | 0x57 :: 0x2f :: rest => (true, rest)
    | all => (false, all)
  match bytes with
  | 0x22 :: rest =>
    if rest.getLast? = some 0x22 then
      let inner := rest.dropLast
      if inner.all fun b => b == 0x21 || (0x23 ≤ b && b ≤ 0x7e) || 0x80 ≤ b then some (weak, inner) else none
    else none
  | _ => none

@[grind =] def strongEqual (left right : List UInt8) : Bool :=
  match tag left, tag right with
  | some (false, a), some (false, b) => a == b
  | _, _ => false

/-- How much of a file the client asked for; a part has both of its ends. -/
inductive Wanted where
  | whole
  | part (first last : Nat)
  | unsatisfiable
  deriving DecidableEq

/-- The value of a field written once, in text. -/
def headerOf (headers : HeaderMap) (name : String) : Option String :=
  match headers.getAll name with
  | [value] => HeaderValue.toStr value
  | _ => none

def u64Max : Nat := 2 ^ 64 - 1

/-- Saturating decimal arithmetic keeps large positions meaningful. -/
def decimal (value : String) : Option Nat :=
  if value = "" then none
  else value.toList.foldlM (fun number digit =>
    if digit.isDigit then some (min (min (number * 10) u64Max + (digit.toNat - 48)) u64Max) else none) 0

/-- `u64` subtraction, which must not go below zero. -/
def checkedSub (a b : Nat) : Option Nat := if b ≤ a then some (a - b) else none

/-- `wanted`; nothing where a subtraction underflows. -/
@[grind =] def wanted (headers : HeaderMap) (size : U64) (etag : String) : Option Wanted :=
  match headerOf headers "range" with
  | none => some .whole
  | some asked =>
    if headers.containsKey "if-range" && !(headerOf headers "if-range").any fun condition =>
        strongEqual (utf8 (Text.trim condition)) (utf8 etag) then some .whole
    else match Text.splitOnce '=' (Text.trim asked) with
      | none => some .whole
      | some (unit, spec) =>
        if Text.lower unit ≠ "bytes" ∨ ',' ∈ spec.toList then some .whole
        else match Text.splitOnce '-' spec with
          | none => some .whole
          | some (head, tail) =>
            if head = "" then match decimal tail with
              | some last =>
                if size.val = 0 then some .unsatisfiable
                else if last = 0 then some .unsatisfiable
                else (checkedSub size.val 1).map fun last' => .part (size.val - last) last'
              | none => some .whole
            else if tail = "" then match decimal head with
              | some first =>
                if first < size.val then (checkedSub size.val 1).map fun last => .part first last
                else some .unsatisfiable
              | none => some .whole
            else match decimal head, decimal tail with
              | some first, some last =>
                if first > last then some .whole
                else if first < size.val ∧ first ≤ last then
                  (checkedSub size.val 1).map fun most => .part first (min last most)
                else some .unsatisfiable
              | _, _ => some .whole

/-! What a client may ask for, in exact arithmetic. -/

inductive Asked where
  | between (first last : Nat)
  | onwards (first : Nat)
  | suffix (length : Nat)

@[grind =] def Asked.Spelled (spec : List Char) : Asked → Prop
  | .between first last => ∃ a b, spec = a ++ '-' :: b ∧ Decimal a first ∧ Decimal b last
  | .onwards first => ∃ a, spec = a ++ ['-'] ∧ Decimal a first
  | .suffix length => ∃ b, spec = '-' :: b ∧ Decimal b length

/-- The bytes of a file of some size, clamped to it. -/
@[grind =] def Asked.answer (size : Nat) : Asked → Wanted
  | .between first last =>
    if last < first then .whole else if size ≤ first then .unsatisfiable else .part first (min last (size - 1))
  | .onwards first => if size ≤ first then .unsatisfiable else .part first (size - 1)
  | .suffix length => if size = 0 ∨ length = 0 then .unsatisfiable else .part (size - length) (size - 1)

/-- A strong entity tag, in its quotes. -/
def StrongTag (bytes : List UInt8) : Prop :=
  ∃ inner : List UInt8, bytes = 0x22 :: inner ++ [0x22] ∧ ∀ b ∈ inner, b = 0x21 ∨ (0x23 ≤ b ∧ b ≤ 0x7e) ∨ 0x80 ≤ b

/-- A condition is absent, or one field with the very tag of the file, which is a strong one. -/
def IfRange (headers : HeaderMap) (etag : String) : Prop :=
  headers.containsKey "if-range" = false ∨
    ∃ condition, headerOf headers "if-range" = some condition ∧ Text.trim condition = etag ∧ StrongTag (utf8 etag)

/-- A request for one range of a file. -/
def Selects (headers : HeaderMap) (etag : String) (asked : Asked) : Prop :=
  IfRange headers etag ∧ ∃ text unit spec : String, headerOf headers "range" = some text ∧ '=' ∉ unit.toList ∧
    (Text.trim text).toList = unit.toList ++ '=' :: spec.toList ∧ Text.lower unit = "bytes" ∧ asked.Spelled spec.toList

/-! Saturating positions. -/

theorem foldlM_digits {l : List Char} (h : ∀ c ∈ l, c.isDigit = true) (m : Nat) :
    l.foldlM (fun number digit => if digit.isDigit then
        some (min (min (number * 10) u64Max + (digit.toNat - 48)) u64Max) else none) (min m u64Max) =
      some (min (l.foldl (fun n c => n * 10 + (c.toNat - 48)) m) u64Max) := by
  induction l generalizing m with
  | nil => rfl
  | cons c l ih =>
    have hsat : min (min (min m u64Max * 10) u64Max + (c.toNat - 48)) u64Max = min (m * 10 + (c.toNat - 48)) u64Max := by
      omega
    rw [List.foldlM_cons, if_pos (h c List.mem_cons_self), List.foldl_cons, ← ih (fun d hd => h d (List.mem_cons_of_mem _ hd)),
      ← hsat]
    rfl

theorem foldlM_other {l : List Char} (h : ¬ ∀ c ∈ l, c.isDigit = true) (m : Nat) :
    l.foldlM (fun number digit => if digit.isDigit then
        some (min (min (number * 10) u64Max + (digit.toNat - 48)) u64Max) else none) m = none := by
  induction l generalizing m with
  | nil => exact absurd (fun c hc => absurd hc List.not_mem_nil) h
  | cons c l ih =>
    rw [List.foldlM_cons]
    by_cases hc : c.isDigit = true
    · rw [if_pos hc]
      exact ih (fun hl => h (List.forall_mem_cons.mpr ⟨hc, hl⟩)) _
    · rw [if_neg hc]
      rfl

theorem decimal_iff {value : String} {n : Nat} :
    decimal value = some n ↔ ∃ m, Decimal value.toList m ∧ n = min m u64Max := by
  rw [decimal]
  by_cases hempty : value = ""
  · rw [if_pos hempty, hempty]
    constructor
    · intro h
      cases h
    · rintro ⟨m, hdec, _⟩
      exact absurd rfl hdec.1
  · have hne : value.toList ≠ [] := fun hnil => hempty (String.toList_inj.mp hnil)
    rw [if_neg hempty]
    by_cases hall : ∀ c ∈ value.toList, c.isDigit = true
    · have hfold := foldlM_digits hall 0
      rw [Nat.zero_min] at hfold
      rw [hfold]
      constructor
      · intro h
        exact ⟨_, ⟨hne, hall, rfl⟩, (Option.some.inj h).symm⟩
      · rintro ⟨m, ⟨_, _, rfl⟩, rfl⟩
        rfl
    · rw [foldlM_other hall]
      constructor
      · intro h
        cases h
      · rintro ⟨m, hdec, _⟩
        exact absurd hdec.2.1 hall

/-! Tags. -/

theorem tag_iff {bytes inner : List UInt8} {weak : Bool} : tag bytes = some (weak, inner) ↔
    bytes = (if weak then [0x57, 0x2f] else []) ++ 0x22 :: inner ++ [0x22] ∧
      ∀ b ∈ inner, b = 0x21 ∨ (0x23 ≤ b ∧ b ≤ 0x7e) ∨ 0x80 ≤ b := by
  have hchar : ∀ l : List UInt8, (l.all fun b => b == 0x21 || (0x23 ≤ b && b ≤ 0x7e) || 0x80 ≤ b) = true ↔
      ∀ b ∈ l, b = 0x21 ∨ (0x23 ≤ b ∧ b ≤ 0x7e) ∨ 0x80 ≤ b := by
    intro l
    simp only [List.all_eq_true, Bool.or_eq_true, Bool.and_eq_true, beq_iff_eq, decide_eq_true_eq, or_assoc]
  constructor
  · intro h
    unfold tag at h
    split at h
    rename_i stripped rest hprefix
    split at hprefix
    all_goals
      obtain ⟨rfl, rfl⟩ := Prod.mk.inj hprefix
      split at h
      · split at h
        · rename_i hlast
          dsimp only at h
          split at h
          · rename_i hall
            obtain ⟨rfl, rfl⟩ := Prod.mk.inj (Option.some.inj h)
            refine ⟨?_, (hchar _).mp hall⟩
            simp [List.dropLast_append_getLast? _ hlast]
          · cases h
        · cases h
      · cases h
  · rintro ⟨rfl, hall⟩
    have hlast : (inner ++ [0x22]).getLast? = some (0x22 : UInt8) := by simp
    have hquoted : tag ((if weak then [0x57, 0x2f] else []) ++ 0x22 :: (inner ++ [0x22])) =
        if (inner ++ [0x22]).getLast? = some 0x22 then
          (if ((inner ++ [0x22]).dropLast.all fun b => b == 0x21 || (0x23 ≤ b && b ≤ 0x7e) || 0x80 ≤ b) then
            some (weak, (inner ++ [0x22]).dropLast) else none) else none := by
      cases weak <;> rfl
    rw [List.append_assoc, List.cons_append, hquoted, if_pos hlast, List.dropLast_concat, if_pos ((hchar inner).mpr hall)]

theorem tag_strong {bytes inner : List UInt8} : tag bytes = some (false, inner) ↔
    bytes = 0x22 :: inner ++ [0x22] ∧ ∀ b ∈ inner, b = 0x21 ∨ (0x23 ≤ b ∧ b ≤ 0x7e) ∨ 0x80 ≤ b := tag_iff

theorem strongEqual_iff {left right : List UInt8} : strongEqual left right = true ↔ left = right ∧ StrongTag right := by
  rw [strongEqual]
  constructor
  · intro h
    split at h
    · rename_i a b ha hb
      obtain rfl := beq_iff_eq.mp h
      obtain ⟨hleft, _⟩ := tag_strong.1 ha
      obtain ⟨hright, hall⟩ := tag_strong.1 hb
      exact ⟨hleft.trans hright.symm, a, hright, hall⟩
    · cases h
  · rintro ⟨rfl, inner, hbytes, hall⟩
    have htag := tag_strong.2 ⟨hbytes, hall⟩
    rw [htag]
    exact beq_self_eq_true inner

theorem ifRange_iff {headers : HeaderMap} {etag : String} :
    (headers.containsKey "if-range" && !(headerOf headers "if-range").any fun condition =>
        strongEqual (utf8 (Text.trim condition)) (utf8 etag)) = false ↔ IfRange headers etag := by
  rw [IfRange, Bool.and_eq_false_iff, Bool.not_eq_false', Option.any_eq_true]
  refine or_congr_right ⟨?_, ?_⟩
  · rintro ⟨condition, hcondition, hequal⟩
    obtain ⟨hsame, hstrong⟩ := strongEqual_iff.1 hequal
    exact ⟨condition, hcondition, Hasher.utf8_injective hsame, hstrong⟩
  · rintro ⟨condition, hcondition, rfl, hstrong⟩
    exact ⟨condition, hcondition, strongEqual_iff.2 ⟨rfl, hstrong⟩⟩

/-! What is answered. -/

/-- The positions as the code has them. -/
@[grind =] def Asked.saturated : Asked → Asked
  | .between first last => .between (min first u64Max) (min last u64Max)
  | .onwards first => .onwards (min first u64Max)
  | .suffix length => .suffix (min length u64Max)

theorem digit_not_sep {digits : List Char} {n : Nat} (h : Decimal digits n) : '-' ∉ digits ∧ ',' ∉ digits := by
  constructor
  · exact fun hm => absurd (h.2.1 _ hm) (by decide)
  · exact fun hm => absurd (h.2.1 _ hm) (by decide)

theorem splitOnce_of {c : Char} {s : String} {a b : List Char} (ha : c ∉ a) (hs : s.toList = a ++ c :: b) :
    Text.splitOnce c s = some (String.ofList a, String.ofList b) := by
  rw [Text.splitOnce_iff, String.toList_ofList, String.toList_ofList]
  exact ⟨ha, hs⟩

theorem ofList_ne {digits : List Char} {n : Nat} (h : Decimal digits n) : String.ofList digits ≠ "" := fun he =>
  h.1 (String.ofList_injective he)

theorem decimal_ofList {digits : List Char} {n : Nat} (h : Decimal digits n) :
    decimal (String.ofList digits) = some (min n u64Max) :=
  decimal_iff.2 ⟨n, by rwa [String.toList_ofList], rfl⟩

/-- The subtractions of `wanted` stay above zero. -/
theorem checkedSub_one {size : U64} {m : Nat} (h : m < size.val) : checkedSub size.val 1 = some (size.val - 1) := by
  rw [checkedSub, if_pos (by omega)]

theorem wanted_of_selects {headers : HeaderMap} {etag : String} {asked : Asked} (h : Selects headers etag asked) (size : U64) :
    wanted headers size etag = some (asked.saturated.answer size.val) := by
  obtain ⟨hif, text, unit, spec, htext, hunit, htrim, hbytes, hspelled⟩ := h
  have hcomma : ',' ∉ spec.toList := by
    cases asked with
    | between first last =>
      obtain ⟨a, b, hspec, ha, hb⟩ := hspelled
      rw [hspec]
      simp [(digit_not_sep ha).2, (digit_not_sep hb).2]
    | onwards first =>
      obtain ⟨a, hspec, ha⟩ := hspelled
      rw [hspec]
      simp [(digit_not_sep ha).2]
    | suffix length =>
      obtain ⟨b, hspec, hb⟩ := hspelled
      rw [hspec]
      simp [(digit_not_sep hb).2]
  have hunits : ¬ (Text.lower unit ≠ "bytes" ∨ ',' ∈ spec.toList) := fun hor => hor.elim (fun hne => hne hbytes) hcomma
  rw [wanted, htext]
  simp only [ifRange_iff.2 hif, Bool.false_eq_true, if_false, Text.splitOnce_iff.mpr ⟨hunit, htrim⟩, if_neg hunits]
  cases asked with
  | between first last =>
    obtain ⟨a, b, hspec, ha, hb⟩ := hspelled
    simp only [splitOnce_of (digit_not_sep ha).1 hspec, ofList_ne ha, ofList_ne hb, if_false, decimal_ofList ha,
      decimal_ofList hb, Asked.saturated, Asked.answer, gt_iff_lt]
    split
    · rfl
    · rename_i hle
      split
      · rename_i hfits
        rw [checkedSub_one hfits.1, if_neg (by omega)]
        rfl
      · rename_i hpast
        rw [if_pos (by omega)]
  | onwards first =>
    obtain ⟨a, hspec, ha⟩ := hspelled
    have hempty : String.ofList [] = "" := rfl
    simp only [splitOnce_of (digit_not_sep ha).1 hspec, ofList_ne ha, if_false, hempty, if_true, decimal_ofList ha,
      Asked.saturated, Asked.answer]
    split
    · rename_i hfits
      rw [checkedSub_one hfits, if_neg (by omega)]
      rfl
    · rename_i hpast
      rw [if_pos (by omega)]
  | suffix length =>
    obtain ⟨b, hspec, hb⟩ := hspelled
    have hempty : String.ofList [] = "" := rfl
    simp only [splitOnce_of List.not_mem_nil hspec, hempty, if_true, decimal_ofList hb, Asked.saturated, Asked.answer]
    by_cases hsize : size.val = 0
    · rw [if_pos hsize, if_pos (.inl hsize)]
    · by_cases hlength : min length u64Max = 0
      · rw [if_neg hsize, if_pos hlength, if_pos (.inr hlength)]
      · have hsome : ¬ (size.val = 0 ∨ min length u64Max = 0) := fun hor => hor.elim hsize hlength
        rw [if_neg hsize, if_neg hlength, if_neg hsome, checkedSub_one (Nat.pos_of_ne_zero hsize)]
        rfl

/-- What asks for no range is answered with the whole file. -/
theorem wanted_of_none {headers : HeaderMap} {etag : String} (h : ∀ asked, ¬ Selects headers etag asked) (size : U64) :
    wanted headers size etag = some .whole := by
  rw [wanted]
  split
  · rfl
  · rename_i text htext
    split
    · rfl
    · rename_i hcondition
      have hif := ifRange_iff.1 (Bool.eq_false_iff.mpr hcondition)
      split
      · rfl
      · rename_i unit spec hunit
        obtain ⟨hno, htrim⟩ := Text.splitOnce_iff.mp hunit
        split
        · rfl
        · rename_i hunits
          obtain ⟨hbytes, _⟩ := not_or.mp hunits
          have hsel : ∀ asked : Asked, ¬ asked.Spelled spec.toList := fun asked hspelled =>
            h asked ⟨hif, text, unit, spec, htext, hno, htrim, not_not.mp hbytes, hspelled⟩
          split
          · rfl
          · rename_i head tail hspec
            obtain ⟨_, hparts⟩ := Text.splitOnce_iff.mp hspec
            split
            · rename_i hhead
              split
              · rename_i last hlast
                obtain ⟨m, hdec, _⟩ := decimal_iff.1 hlast
                exact absurd ⟨tail.toList, by rw [hparts, hhead]; rfl, hdec⟩ (hsel (.suffix m))
              · rfl
            · split
              · rename_i htail
                split
                · rename_i first hfirst
                  obtain ⟨m, hdec, _⟩ := decimal_iff.1 hfirst
                  exact absurd ⟨head.toList, by rw [hparts, htail]; rfl, hdec⟩ (hsel (.onwards m))
                · rfl
              · split
                · rename_i first last hfirst hlast
                  obtain ⟨m, hdec, _⟩ := decimal_iff.1 hfirst
                  obtain ⟨n, hdec', _⟩ := decimal_iff.1 hlast
                  exact absurd ⟨head.toList, tail.toList, hparts, hdec, hdec'⟩ (hsel (.between m n))
                · rfl

/-- Saturating changes the answer of a reversed range only, one that ends past every position. -/
theorem answer_saturated (asked : Asked) (size : U64) :
    asked.saturated.answer size.val = asked.answer size.val ↔
      ∀ first last, asked = .between first last → last < first → last < u64Max := by
  have hsize : size.val ≤ u64Max := by
    have := size.isLt
    rw [u64Max]
    omega
  cases asked with
  | between first last =>
    constructor
    · intro h first' last' he hlt
      cases he
      by_contra hlarge
      rw [Asked.saturated, Asked.answer, Asked.answer, if_pos hlt, min_eq_right (by omega), min_eq_right (by omega),
        if_neg (lt_irrefl _), if_pos hsize] at h
      cases h
    · intro h
      have hsmall := h first last rfl
      simp only [Asked.saturated, Asked.answer]
      by_cases hlt : last < first
      · have hlast := hsmall hlt
        rw [if_pos hlt, if_pos (by omega)]
      · rw [if_neg hlt, if_neg (by omega)]
        by_cases hpast : size.val ≤ first
        · rw [if_pos hpast, if_pos (by omega)]
        · rw [if_neg hpast, if_neg (by omega), min_eq_left (by omega)]
          congr 1
          omega
  | onwards first =>
    refine ⟨fun _ _ _ he => (by cases he), fun _ => ?_⟩
    simp only [Asked.saturated, Asked.answer]
    by_cases hpast : size.val ≤ first
    · rw [if_pos hpast, if_pos (by omega)]
    · rw [if_neg hpast, if_neg (by omega), min_eq_left (by omega)]
  | suffix length =>
    refine ⟨fun _ _ _ he => (by cases he), fun _ => ?_⟩
    have hzero : min length u64Max = 0 ↔ length = 0 := by
      rw [u64Max]
      omega
    simp only [Asked.saturated, Asked.answer, hzero]
    split
    · rfl
    · congr 1
      omega

theorem answer_part {asked : Asked} {size first last : Nat} (h : asked.answer size = .part first last) :
    first ≤ last ∧ last < size := by
  cases asked with
  | between f l =>
    rw [Asked.answer] at h
    split at h
    · cases h
    · split at h
      · cases h
      · cases h
        omega
  | onwards f =>
    rw [Asked.answer] at h
    split at h
    · cases h
    · cases h
      omega
  | suffix n =>
    rw [Asked.answer] at h
    split at h
    · cases h
    · rename_i hsome
      obtain ⟨hsize, hn⟩ := not_or.mp hsome
      cases h
      omega

/-- What a range request should be answered with. -/
structure Exact (headers : HeaderMap) (size : U64) (etag : String) (w : Wanted) : Prop where
  part : ∀ first last, w = .part first last → first ≤ last ∧ last < size.val
  selected : ∀ asked, Selects headers etag asked → w = asked.answer size.val
  whole : (∀ asked, ¬ Selects headers etag asked) → w = .whole

theorem last_lt_of_exact {headers : HeaderMap} {size : U64} {etag : String}
    (h : ∃ w, wanted headers size etag = some w ∧ Exact headers size etag w) {first last : Nat}
    (hsel : Selects headers etag (.between first last)) (hlt : last < first) : last < u64Max := by
  obtain ⟨w, hw, hexact⟩ := h
  have hsaturated := wanted_of_selects hsel size
  rw [hw, hexact.selected _ hsel] at hsaturated
  exact (answer_saturated _ size).mp (Option.some.inj hsaturated).symm first last rfl hlt

/-- `wanted` never underflows, and answers as exact arithmetic would unless a reversed range ends
at or past the last position a counter holds. -/
theorem wanted_iff (headers : HeaderMap) (size : U64) (etag : String) :
    (∃ w, wanted headers size etag = some w ∧ Exact headers size etag w) ↔
      ∀ first last, Selects headers etag (.between first last) → last < first → last < u64Max := by
  constructor
  · exact fun h first last hsel hlt => last_lt_of_exact h hsel hlt
  · intro h
    have hanswer : ∀ asked, Selects headers etag asked → wanted headers size etag = some (asked.answer size.val) := by
      intro asked hsel
      rw [wanted_of_selects hsel, (answer_saturated asked size).mpr]
      rintro first last rfl
      exact h first last hsel
    by_cases hsome : ∃ asked, Selects headers etag asked
    · obtain ⟨asked, hsel⟩ := hsome
      refine ⟨_, hanswer asked hsel, fun first last hpart => answer_part hpart, fun asked' hsel' => ?_, fun hnone =>
        absurd hsel (hnone asked)⟩
      exact Option.some.inj ((hanswer asked hsel).symm.trans (hanswer asked' hsel'))
    · have hnone : ∀ asked, ¬ Selects headers etag asked := not_exists.mp hsome
      refine ⟨.whole, wanted_of_none hnone size, fun first last hpart => (by cases hpart), fun asked hsel =>
        absurd hsel (hnone asked), fun _ => rfl⟩

/-- `bytes=18446744073709551616-18446744073709551615` is reversed, and called unsatisfiable. -/
theorem wanted_reversed : ¬ ∀ (headers : HeaderMap) (size : U64) (etag : String),
    ∃ w, wanted headers size etag = some w ∧ Exact headers size etag w := by
  intro h
  have hsel : Selects [("range", "bytes=18446744073709551616-18446744073709551615".toUTF8.toList)] ""
      (.between 18446744073709551616 18446744073709551615) :=
    ⟨.inl (by decide), "bytes=18446744073709551616-18446744073709551615", "bytes",
      "18446744073709551616-18446744073709551615", by decide +kernel, by decide, rfl, by decide +kernel,
      "18446744073709551616".toList, "18446744073709551615".toList, rfl,
      ⟨by decide, List.all_eq_true.mp (by decide), by decide⟩,
      ⟨by decide, List.all_eq_true.mp (by decide), by decide⟩⟩
  exact absurd (last_lt_of_exact (h _ 10 _) hsel (by decide)) (by decide)

end Gatel.Ranges
