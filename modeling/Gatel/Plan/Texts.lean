import Gatel.Plan.Matcher

namespace Gatel

/-- A number written with digits alone. -/
def Decimal (digits : List Char) (n : Nat) : Prop :=
  digits ≠ [] ∧ (∀ c ∈ digits, c.isDigit = true) ∧ digits.foldl (fun n c => n * 10 + (c.toNat - 48)) 0 = n

namespace Text

/-- What stands around a text goes, up to where the text begins and ends. -/
theorem strip_between {α : Type} {p q : α → Bool} {lead core trail : List α} (hl : ∀ c ∈ lead, p c = true)
    (ht : ∀ c ∈ trail, q c = true) (hfirst : ∀ c ∈ core.head?, p c = false) (hlast : ∀ c ∈ core.getLast?, q c = false) :
    (((lead ++ core ++ trail).dropWhile p).reverse.dropWhile q).reverse = core := by
  rw [List.append_assoc, List.dropWhile_append_of_pos hl]
  cases core with
  | nil =>
    rw [List.nil_append, List.reverse_eq_nil_iff, List.dropWhile_eq_nil_iff]
    exact fun c h => ht c ((List.dropWhile_suffix p).subset (List.mem_reverse.mp h))
  | cons c core =>
    rw [List.cons_append, List.dropWhile_cons, hfirst c rfl, if_neg Bool.false_ne_true, ← List.cons_append]
    rw [List.reverse_append, List.dropWhile_append_of_pos fun d hd => ht d (List.mem_reverse.mp hd)]
    have hback : (c :: core).reverse.dropWhile q = (c :: core).reverse := by
      cases hr : (c :: core).reverse with
      | nil => rfl
      | cons d rest =>
        have hd : d ∈ (c :: core).getLast? := by simp [← List.head?_reverse, hr]
        rw [List.dropWhile_cons, hlast d hd, if_neg Bool.false_ne_true]
    rw [hback, List.reverse_reverse]

/-- What stands around a text with none of it inside goes. -/
theorem strip_around {α : Type} {p q : α → Bool} {lead core trail : List α} (hl : ∀ c ∈ lead, p c = true)
    (ht : ∀ c ∈ trail, q c = true) (hc : ∀ c ∈ core, p c = false ∧ q c = false) :
    (((lead ++ core ++ trail).dropWhile p).reverse.dropWhile q).reverse = core :=
  strip_between hl ht (fun c h => (hc c (List.mem_of_mem_head? h)).1) fun c h => (hc c (List.mem_of_getLast? h)).2

theorem exists_around {α : Type} (p q : α → Bool) (l : List α) :
    ∃ lead trail : List α, (∀ c ∈ lead, p c = true) ∧ (∀ c ∈ trail, q c = true) ∧
      l = lead ++ ((l.dropWhile p).reverse.dropWhile q).reverse ++ trail := by
  refine ⟨l.takeWhile p, ((l.dropWhile p).reverse.takeWhile q).reverse, ?_, ?_, ?_⟩
  · exact fun c h => List.mem_takeWhile_imp h
  · exact fun c h => List.mem_takeWhile_imp (List.mem_reverse.mp h)
  · rw [List.append_assoc, ← List.reverse_append, List.takeWhile_append_dropWhile, List.reverse_reverse,
      List.takeWhile_append_dropWhile]

theorem trim_around {lead core trail : List Char} (hl : ∀ c ∈ lead, isWhitespace c = true)
    (ht : ∀ c ∈ trail, isWhitespace c = true) (hc : ∀ c ∈ core, isWhitespace c = false) :
    trim (String.ofList (lead ++ core ++ trail)) = String.ofList core := by
  rw [trim, String.toList_ofList, strip_around hl ht fun c h => ⟨hc c h, hc c h⟩]

theorem parseUnsigned_iff {limit n : Nat} {s : String} : parseUnsigned limit s = some n ↔
    n < limit ∧ (Decimal s.toList n ∨ ∃ digits, s.toList = '+' :: digits ∧ Decimal digits n) := by
  have hread : ∀ digits : List Char, (if digits = [] ∨ ¬ digits.all Char.isDigit then none
      else if digits.foldl (fun n c => n * 10 + (c.toNat - 48)) 0 < limit
        then some (digits.foldl (fun n c => n * 10 + (c.toNat - 48)) 0) else none) = some n ↔
      n < limit ∧ Decimal digits n := by
    intro digits
    split
    · rename_i hbad
      constructor
      · exact fun h => absurd h (by simp)
      · rintro ⟨_, hne, hall, _⟩
        rcases hbad with h | h
        · exact absurd h hne
        · exact absurd (List.all_eq_true.mpr hall) h
    · rename_i hgood
      obtain ⟨hne, hall⟩ := not_or.mp hgood
      have hall' := List.all_eq_true.mp (not_not.mp hall)
      split
      · rename_i hlt
        constructor
        · intro h
          obtain rfl := Option.some.inj h
          exact ⟨hlt, hne, hall', rfl⟩
        · rintro ⟨_, _, _, rfl⟩
          rfl
      · rename_i hge
        constructor
        · exact fun h => absurd h (by simp)
        · rintro ⟨hlt, _, _, rfl⟩
          exact absurd hlt hge
  have hplus : ∀ digits : List Char, ¬ ∃ m, Decimal ('+' :: digits) m := by
    rintro digits ⟨m, _, hall, _⟩
    exact absurd (hall '+' List.mem_cons_self) (by decide)
  rw [parseUnsigned]
  split
  · rename_i digits hs
    rw [hs, hread]
    constructor
    · exact fun h => ⟨h.1, .inr ⟨digits, rfl, h.2⟩⟩
    · rintro ⟨hlt, hd | ⟨digits', hd, hdec⟩⟩
      · exact absurd ⟨n, hd⟩ (hplus digits)
      · cases hd
        exact ⟨hlt, hdec⟩
  · rename_i hs
    rw [hread]
    constructor
    · exact fun h => ⟨h.1, .inl h.2⟩
    · rintro ⟨hlt, hd | ⟨digits, hd, _⟩⟩
      · exact ⟨hlt, hd⟩
      · exact absurd hd (hs digits)

/-- Splitting commutes with a map that tells the separator apart. -/
theorem splitOn_map {α β : Type} [DecidableEq α] [DecidableEq β] {f : α → β} {a : α} {l : List α}
    (h : ∀ x ∈ l, f x = f a → x = a) : (l.map f).splitOn (f a) = (l.splitOn a).map (List.map f) := by
  induction l with
  | nil => simp
  | cons x l ih =>
    have ih' := ih fun y hy => h y (List.mem_cons_of_mem x hy)
    rw [List.map_cons, List.splitOn_cons_eq_if_modifyHead, List.splitOn_cons_eq_if_modifyHead, ih']
    by_cases hx : x = a
    · simp [hx]
    · have hfx : f x ≠ f a := fun he => hx (h x List.mem_cons_self he)
      simp only [beq_iff_eq, hx, hfx, ↓reduceIte]
      cases l.splitOn a with
      | nil => rfl
      | cons first rest => rfl

theorem splitOnce_iff {c : Char} {s a b : String} :
    splitOnce c s = some (a, b) ↔ c ∉ a.toList ∧ s.toList = a.toList ++ c :: b.toList := by
  constructor
  · intro h
    unfold splitOnce at h
    split at h
    · rename_i head x tail hs
      cases h
      rw [List.span_eq_takeWhile_dropWhile] at hs
      obtain ⟨htake, hdrop⟩ := Prod.mk.inj hs
      have hx : x = c := by
        have hhead := List.head?_dropWhile_not (fun x => decide (x ≠ c)) s.toList
        rw [hdrop] at hhead
        simpa using hhead
      have hno : c ∉ head := by
        rw [← htake]
        intro hc
        have hne := List.mem_takeWhile_imp hc
        simp at hne
      rw [String.toList_ofList, String.toList_ofList]
      refine ⟨hno, ?_⟩
      rw [← hx, ← htake, ← hdrop, List.takeWhile_append_dropWhile]
    · cases h
  · rintro ⟨ha, hs⟩
    have hall : ∀ x ∈ a.toList, decide (x ≠ c) = true := by
      intro x hx
      refine decide_eq_true fun he => ha ?_
      rwa [he] at hx
    have hspan : s.toList.span (· ≠ c) = (a.toList, c :: b.toList) := by
      rw [List.span_eq_takeWhile_dropWhile, hs, List.takeWhile_append_of_pos hall, List.dropWhile_append_of_pos hall]
      simp
    rw [splitOnce, hspan]
    simp

theorem splitOnce_none_iff {c : Char} {s : String} : splitOnce c s = none ↔ c ∉ s.toList := by
  constructor
  · intro h hc
    obtain ⟨front, back, hs, hfront⟩ := List.eq_append_cons_of_mem hc
    have hsplit : splitOnce c s = some (String.ofList front, String.ofList back) := splitOnce_iff.2 (by simp [hs, hfront])
    rw [hsplit] at h
    cases h
  · intro h
    rw [Option.eq_none_iff_forall_ne_some]
    rintro ⟨a, b⟩ hs
    exact h ((splitOnce_iff.1 hs).2 ▸ by simp)

theorem rsplitOnce_last {c : Char} (head : List Char) {tail : List Char} (h : c ∉ tail) :
    rsplitOnce c (String.ofList (head ++ c :: tail)) = some (String.ofList head, String.ofList tail) := by
  have hall : ∀ x ∈ tail.reverse, decide (x ≠ c) = true := by
    intro x hx
    exact decide_eq_true fun he => h (he ▸ List.mem_reverse.mp hx)
  have hspan : (head ++ c :: tail).reverse.span (· ≠ c) = (tail.reverse, c :: head.reverse) := by
    rw [List.span_eq_takeWhile_dropWhile, List.reverse_append, List.reverse_cons, List.append_assoc,
      List.takeWhile_append_of_pos hall, List.dropWhile_append_of_pos hall]
    simp
  rw [rsplitOnce, String.toList_ofList, hspan]
  simp

theorem rsplitOnce_none {c : Char} {l : List Char} (h : c ∉ l) : rsplitOnce c (String.ofList l) = none := by
  have hall : ∀ x ∈ l.reverse, decide (x ≠ c) = true := by
    intro x hx
    exact decide_eq_true fun he => h (he ▸ List.mem_reverse.mp hx)
  have hspan : l.reverse.span (· ≠ c) = (l.reverse, []) := by
    rw [List.span_eq_takeWhile_dropWhile, List.takeWhile_eq_self_iff.mpr hall, List.dropWhile_eq_nil_iff.mpr hall]
  rw [rsplitOnce, String.toList_ofList, hspan]

theorem utf8ByteSize_of_ascii {l : List Char} (h : ∀ c ∈ l, c.toNat ≤ 127) : (String.ofList l).utf8ByteSize = l.length := by
  induction l with
  | nil => rfl
  | cons c l ih =>
    have hc : c.utf8Size = 1 := Char.utf8Size_eq_one_iff.mpr (h c List.mem_cons_self)
    rw [String.ofList_cons, String.utf8ByteSize_append, String.utf8ByteSize_singleton, hc,
      ih fun d hd => h d (List.mem_cons_of_mem c hd), List.length_cons, Nat.add_comm]

theorem utf8Size_toLower (c : Char) : c.toLower.utf8Size = c.utf8Size := by
  unfold Char.toLower
  split
  · rename_i h
    have h₁ : 65 ≤ c.toNat := h.1
    have h₂ : c.toNat ≤ 90 := h.2
    have hc : c.utf8Size = 1 := by
      rw [Char.utf8Size_eq_one_iff]
      show c.toNat ≤ 127
      omega
    rw [hc, Char.utf8Size_eq_one_iff]
    show (c.val + _).toNat ≤ 127
    rw [UInt32.toNat_add]
    simp
    omega
  · rfl

/-- Lower case takes as many bytes. -/
theorem utf8ByteSize_lower (s : String) : (lower s).utf8ByteSize = s.utf8ByteSize := by
  rw [lower]
  conv_rhs => rw [← String.ofList_toList (s := s)]
  generalize s.toList = l
  induction l with
  | nil => rfl
  | cons c l ih =>
    rw [List.map_cons, String.ofList_cons, String.ofList_cons, String.utf8ByteSize_append, String.utf8ByteSize_append, ih,
      String.utf8ByteSize_singleton, String.utf8ByteSize_singleton, utf8Size_toLower]

theorem rsplitOnce_iff {c : Char} {s a b : String} :
    rsplitOnce c s = some (a, b) ↔ c ∉ b.toList ∧ s.toList = a.toList ++ c :: b.toList := by
  constructor
  · intro h
    by_cases hc : c ∈ s.toList
    · obtain ⟨pre, post, hrev, hpre⟩ := List.eq_append_cons_of_mem (List.mem_reverse.mpr hc)
      have hs : s.toList = post.reverse ++ c :: pre.reverse := by
        have hback := congrArg List.reverse hrev
        simpa using hback
      have hlast := rsplitOnce_last post.reverse fun hm : c ∈ pre.reverse => hpre (List.mem_reverse.mp hm)
      rw [← hs, String.ofList_toList, h] at hlast
      obtain ⟨rfl, rfl⟩ := Prod.mk.inj (Option.some.inj hlast)
      rw [String.toList_ofList, String.toList_ofList]
      exact ⟨fun hm => hpre (List.mem_reverse.mp hm), hs⟩
    · have hnone := rsplitOnce_none hc
      rw [String.ofList_toList, h] at hnone
      cases hnone
  · intro h
    obtain ⟨hb, hs⟩ := h
    have hlast := rsplitOnce_last a.toList hb
    rwa [← hs, String.ofList_toList, String.ofList_toList, String.ofList_toList] at hlast

end Text
end Gatel
