import Mathlib

/-! Bytes in groups of three, written with sixty-four letters and a pad. -/

structure Base64 where
  letters : List UInt8
  pad : UInt8
  count : letters.length = 64
  distinct : letters.Nodup
  apart : pad ∉ letters

namespace Base64

/-- Six bits after six bits. -/
@[grind =] def values : List UInt8 → List ℕ
  | [] => []
  | [a] => [a.toNat / 4, a.toNat % 4 * 16]
  | [a, b] => [a.toNat / 4, a.toNat % 4 * 16 + b.toNat / 16, b.toNat % 16 * 4]
  | a :: b :: c :: rest =>
    a.toNat / 4 :: (a.toNat % 4 * 16 + b.toNat / 16) :: (b.toNat % 16 * 4 + c.toNat / 64) :: (c.toNat % 64) :: values rest

/-- The pads behind them fill the last group of four. -/
def pads (bytes : List UInt8) : ℕ := (3 - bytes.length % 3) % 3

def first (v w : ℕ) : UInt8 := UInt8.ofNat (v * 4 + w / 16)

def second (w x : ℕ) : UInt8 := UInt8.ofNat (w % 16 * 16 + x / 4)

def third (x y : ℕ) : UInt8 := UInt8.ofNat (x % 4 * 64 + y)

/-- The whole bytes in a list of values. -/
@[grind =] def bytes : List ℕ → List UInt8
  | v :: w :: x :: y :: rest => first v w :: second w x :: third x y :: bytes rest
  | [v, w, x] => [first v w, second w x]
  | [v, w] => [first v w]
  | _ => []

/-- The bits behind the last whole byte. -/
@[grind =] def left : List ℕ → ℕ
  | _ :: _ :: _ :: _ :: rest => left rest
  | [_, _, x] => x % 4
  | [_, w] => w % 16
  | [v] => v
  | [] => 0

theorem first_values (a : UInt8) {n : ℕ} (h : n < 16) : first (a.toNat / 4) (a.toNat % 4 * 16 + n) = a := by
  have ha := a.toNat_lt
  apply UInt8.toNat_inj.mp
  rw [first, UInt8.toNat_ofNat']
  omega

theorem second_values (m : ℕ) (b : UInt8) {n : ℕ} (h : n < 4) : second (m * 16 + b.toNat / 16) (b.toNat % 16 * 4 + n) = b := by
  have hb := b.toNat_lt
  apply UInt8.toNat_inj.mp
  rw [second, UInt8.toNat_ofNat']
  omega

theorem third_values (m : ℕ) (c : UInt8) : third (m * 4 + c.toNat / 64) (c.toNat % 64) = c := by
  have hc := c.toNat_lt
  apply UInt8.toNat_inj.mp
  rw [third, UInt8.toNat_ofNat']
  omega

theorem first_toNat {v w : ℕ} (hv : v < 64) (hw : w < 64) : (first v w).toNat = v * 4 + w / 16 := by
  rw [first, UInt8.toNat_ofNat']
  omega

theorem second_toNat {w x : ℕ} (hx : x < 64) : (second w x).toNat = w % 16 * 16 + x / 4 := by
  rw [second, UInt8.toNat_ofNat']
  omega

theorem third_toNat {x y : ℕ} (hy : y < 64) : (third x y).toNat = x % 4 * 64 + y := by
  rw [third, UInt8.toNat_ofNat']
  omega

theorem values_lt (bs : List UInt8) : ∀ v ∈ values bs, v < 64 := by
  have hbyte : ∀ a : UInt8, a.toNat < 256 := fun a => a.toNat_lt
  induction bs using values.induct with
  | case1 => simp [values]
  | case2 a =>
    have ha := hbyte a
    simp only [values, List.mem_cons, List.not_mem_nil, or_false, forall_eq_or_imp, forall_eq]
    omega
  | case3 a b =>
    have ha := hbyte a
    have hb := hbyte b
    simp only [values, List.mem_cons, List.not_mem_nil, or_false, forall_eq_or_imp, forall_eq]
    omega
  | case4 a b c rest ih =>
    have ha := hbyte a
    have hb := hbyte b
    have hc := hbyte c
    simp only [values, List.mem_cons, forall_eq_or_imp]
    exact ⟨by omega, by omega, by omega, by omega, ih⟩

theorem bytes_values (bs : List UInt8) : bytes (values bs) = bs ∧ left (values bs) = 0 := by
  induction bs using values.induct with
  | case1 => simp [values, bytes, left]
  | case2 a => simpa [values, bytes, left] using first_values a (n := 0) (by decide)
  | case3 a b =>
    have hb := b.toNat_lt
    have hfirst := first_values a (n := b.toNat / 16) (by omega)
    have hsecond := second_values (a.toNat % 4) b (n := 0) (by decide)
    simp only [Nat.add_zero] at hsecond
    simp [values, bytes, left, hfirst, hsecond]
  | case4 a b c rest ih =>
    have hb := b.toNat_lt
    have hc := c.toNat_lt
    have hfirst := first_values a (n := b.toNat / 16) (by omega)
    have hsecond := second_values (a.toNat % 4) b (n := c.toNat / 64) (by omega)
    have hthird := third_values (b.toNat % 16) c
    simp [values, bytes, left, hfirst, hsecond, hthird, ih]

theorem values_bytes (vs : List ℕ) (hlt : ∀ v ∈ vs, v < 64) (hleft : left vs = 0) (hlen : vs.length % 4 ≠ 1) :
    values (bytes vs) = vs := by
  induction vs using bytes.induct with
  | case1 v w x y rest ih =>
    simp only [List.mem_cons, forall_eq_or_imp] at hlt
    obtain ⟨hv, hw, hx, hy, hrest⟩ := hlt
    have hih := ih hrest hleft (by simp only [List.length_cons] at hlen; omega)
    simp only [bytes, values, first_toNat hv hw, second_toNat hx, third_toNat hy, hih]
    congr 1
    · omega
    · congr 1
      · omega
      · congr 1
        · omega
        · congr 1
          omega
  | case2 v w x =>
    simp only [List.mem_cons, List.not_mem_nil, or_false, forall_eq_or_imp, forall_eq] at hlt
    obtain ⟨hv, hw, hx⟩ := hlt
    simp only [left] at hleft
    simp only [bytes, values, first_toNat hv hw, second_toNat hx, List.cons.injEq, and_true]
    omega
  | case3 v w =>
    simp only [List.mem_cons, List.not_mem_nil, or_false, forall_eq_or_imp, forall_eq] at hlt
    obtain ⟨hv, hw⟩ := hlt
    simp only [left] at hleft
    simp only [bytes, values, first_toNat hv hw, List.cons.injEq, and_true]
    omega
  | case4 vs h4 h3 h2 =>
    match vs with
    | [] => rfl
    | [v] => simp at hlen
    | [v, w] => exact absurd rfl (h2 v w)
    | [v, w, x] => exact absurd rfl (h3 v w x)
    | v :: w :: x :: y :: rest => exact absurd rfl (h4 v w x y rest)

/-- Six bits a value leave two bits for each pad. -/
theorem values_length (bs : List UInt8) : (values bs).length * 6 % 8 = pads bs * 2 ∧ ((values bs).length + pads bs) % 4 = 0 := by
  induction bs using values.induct with
  | case1 => simp [values, pads]
  | case2 a => simp [values, pads]
  | case3 a b => simp [values, pads]
  | case4 a b c rest ih =>
    have hpads : pads (a :: b :: c :: rest) = pads rest := by
      simp only [pads, List.length_cons]
      omega
    simp only [hpads, values, List.length_cons]
    omega

theorem pads_le (bs : List UInt8) : pads bs ≤ 2 := by
  unfold pads
  omega

variable (A : Base64)

def letter (n : ℕ) : UInt8 := A.letters.getD n A.pad

def encode (bs : List UInt8) : List UInt8 := (values bs).map A.letter ++ List.replicate (pads bs) A.pad

theorem letter_ne_pad {n : ℕ} (h : n < 64) : A.letter n ≠ A.pad := by
  intro he
  rw [letter, List.getD_eq_getElem _ _ (A.count ▸ h)] at he
  exact A.apart (he ▸ List.getElem_mem _)

theorem idxOf_iff {x : UInt8} {n : ℕ} : A.letters.idxOf? x = some n ↔ n < 64 ∧ A.letter n = x := by
  rw [List.idxOf?_eq_some_iff, letter]
  constructor
  · rintro ⟨hn, hx, _⟩
    exact ⟨A.count ▸ hn, by rw [List.getD_eq_getElem _ _ hn, hx]⟩
  · rintro ⟨hn, hx⟩
    have hlt : n < A.letters.length := A.count ▸ hn
    rw [List.getD_eq_getElem _ _ hlt] at hx
    refine ⟨hlt, hx, ?_⟩
    intro j hj he
    have hsame : j = n := A.distinct.getElem_inj_iff.mp (he.trans hx.symm)
    exact absurd hsame hj.ne

theorem letters_values {vs : List ℕ} (hlt : ∀ v ∈ vs, v < 64) :
    (vs.map A.letter).map (fun x => (A.letters.idxOf? x).getD 0) = vs := by
  induction vs with
  | nil => rfl
  | cons v vs ih =>
    have hv := A.idxOf_iff.mpr ⟨hlt v (List.mem_cons_self ..), rfl⟩
    have hvs := ih fun w hw => hlt w (List.mem_cons_of_mem _ hw)
    simp only [List.map_cons, hv, Option.getD_some, hvs]

/-- The letters of a text are its values and its pads are behind them. -/
theorem encode_iff {bs : List UInt8} {vs : List ℕ} {n : ℕ} (hlt : ∀ v ∈ vs, v < 64) :
    vs.map A.letter ++ List.replicate n A.pad = A.encode bs ↔ values bs = vs ∧ pads bs = n := by
  constructor
  · intro h
    have hdrop : ∀ (us : List ℕ) (k : ℕ), (∀ v ∈ us, v < 64) →
        (us.map A.letter ++ List.replicate k A.pad).takeWhile (· != A.pad) = us.map A.letter := by
      intro us k hus
      rw [List.takeWhile_append_of_pos]
      · cases k <;> simp [List.replicate_succ]
      · simp only [List.mem_map, bne_iff_ne, forall_exists_index, and_imp, forall_apply_eq_imp_iff₂]
        exact fun v hv => A.letter_ne_pad (hus v hv)
    have hmap : vs.map A.letter = (values bs).map A.letter := by
      rw [← hdrop vs n hlt, h, encode, hdrop _ _ (values_lt bs)]
    have hvalues : values bs = vs := by
      rw [← A.letters_values (values_lt bs), ← hmap, A.letters_values hlt]
    refine ⟨hvalues, ?_⟩
    have hlen := congrArg List.length h
    simp only [encode, hvalues, List.length_append, List.length_map, List.length_replicate] at hlen
    omega
  · rintro ⟨rfl, rfl⟩
    rfl

theorem encode_eq_nil {bs : List UInt8} : A.encode bs = [] ↔ bs = [] := by
  constructor
  · intro h
    have hvalues := ((@encode_iff A bs [] 0 (by simp)).mp h.symm).1
    simpa [hvalues, bytes] using (bytes_values bs).1.symm
  · rintro rfl
    rfl

end Base64
