import Gatel.Lib.LittleEndian

namespace PrefixCode
open LittleEndian (bytes)

variable {α β : Type} {n : Nat} {P Q : α → Prop} {e f : α → List UInt8} {R S : α → α → Prop}

/-- A codeword in front of any continuation can be read back: the value up to `R`,
and the continuation. Streams are shorter than `n`. -/
def Reads (n : Nat) (P : α → Prop) (e : α → List UInt8) (R : α → α → Prop) : Prop :=
  ∀ a b r r', P a → P b → e a ++ r = e b ++ r' → (e a ++ r).length < n → R a b ∧ r = r'

/-- A payload behind its length, in front of anything. -/
theorem counted_inj {w m m' : Nat} {x x' r r' : List UInt8} (hm : m < 2 ^ 64) (hm' : m' < 2 ^ 64) (hx : x.length = w * m)
    (hx' : x'.length = w * m') (h : (bytes 8 m ++ x) ++ r = (bytes 8 m' ++ x') ++ r') : m = m' ∧ x = x' ∧ r = r' := by
  rw [List.append_assoc, List.append_assoc] at h
  obtain ⟨hcount, htail⟩ := List.append_inj h (by simp)
  obtain rfl : m = m' := LittleEndian.bytes_injective (w := 8) hm hm' hcount
  obtain ⟨hsame, hr⟩ := List.append_inj htail (by rw [hx, hx'])
  exact ⟨rfl, hsame, hr⟩

namespace Reads

theorem on (g : β → α) (h : Reads n P e R) :
    Reads n (fun b => P (g b)) (fun b => e (g b)) (fun b c => R (g b) (g c)) :=
  fun b c r r' => h (g b) (g c) r r'

/-- A second codeword, read knowing what the first one said. -/
theorem andThen (h : Reads n P e R)
    (h' : ∀ a b r r', P a → P b → R a b → f a ++ r = f b ++ r' → (f a ++ r).length < n → S a b ∧ r = r') :
    Reads n P (fun a => e a ++ f a) (fun a b => R a b ∧ S a b) := by
  intro a b r r' ha hb he hl
  simp only [List.append_assoc] at he hl
  obtain ⟨hr, he⟩ := h a b _ _ ha hb he hl
  have hl' : (f a ++ r).length < n := by
    simp only [List.length_append] at hl ⊢
    omega
  obtain ⟨hs, he⟩ := h' a b r r' ha hb hr he hl'
  exact ⟨⟨hr, hs⟩, he⟩

theorem imp (h : Reads n P e R) (hP : ∀ a, Q a → P a) (hR : ∀ a b, Q a → Q b → R a b → S a b) :
    Reads n Q e S := by
  intro a b r r' ha hb he hl
  obtain ⟨hr, he⟩ := h a b r r' (hP a ha) (hP b hb) he hl
  exact ⟨hR a b ha hb hr, he⟩

/-- One codeword after another. -/
theorem append (h : Reads n P e R) (h' : Reads n Q f S) :
    Reads n (fun a => P a ∧ Q a) (fun a => e a ++ f a) (fun a b => R a b ∧ S a b) := by
  have hp : Reads n (fun a => P a ∧ Q a) e R := h.imp (fun _ => And.left) fun _ _ _ _ hr => hr
  refine hp.andThen ?_
  intro a b r r' ha hb _ he hl
  exact h' a b r r' ha.2 hb.2 he hl

/-- Codewords of one length. -/
theorem fixed {w : Nat} (hw : ∀ a, (e a).length = w) (hi : ∀ a b, e a = e b → R a b) :
    Reads n (fun _ => True) e R := by
  intro a b r r' _ _ he _
  obtain ⟨he, hr⟩ := List.append_inj he ((hw a).trans (hw b).symm)
  exact ⟨hi a b he, hr⟩

/-- A constant tag in front. -/
theorem tagged (t : UInt8) (h : Reads n P e R) : Reads n P (fun a => t :: e a) R := by
  intro a b r r' ha hb he hl
  simp only [List.cons_append, List.cons.injEq, true_and, List.length_cons] at he hl
  exact h a b r r' ha hb he (by omega)

/-- A payload behind its length, in 64 bits. -/
theorem counted (w : Nat) (count : α → Nat) (hw : ∀ a, (e a).length = w * count a) (h1 : 1 ≤ w)
    (hi : ∀ a b, P a → P b → e a = e b → R a b) :
    Reads (2 ^ 64) P (fun a => bytes 8 (count a) ++ e a) R := by
  intro a b r r' ha hb he hl
  have hbound : ∀ c s, ((bytes 8 (count c) ++ e c) ++ s).length < 2 ^ 64 → count c < 2 ^ 64 := by
    intro c s hs
    simp only [List.length_append, hw] at hs
    have : count c ≤ w * count c := Nat.le_mul_of_pos_left _ h1
    omega
  have hlb := hl
  rw [he] at hlb
  obtain ⟨_, he, hr⟩ := counted_inj (hbound a r hl) (hbound b r' hlb) (hw a) (hw b) he
  exact ⟨hi a b ha hb he, hr⟩

/-- An optional part, whose absence has a mark no codeword starts with. -/
theorem option {t : UInt8} (h : Reads n P e R) (ht : ∀ a, ∃ t', (e a).head? = some t' ∧ t' ≠ t) :
    Reads n (fun o : Option α => ∀ a ∈ o, P a) (fun o => o.elim [t] e) (Option.Rel R) := by
  have hne : ∀ a r r', e a ++ r ≠ [t] ++ r' := by
    intro a r r' he
    obtain ⟨t', hd, hn⟩ := ht a
    have hh := congrArg List.head? he
    rw [List.head?_append, hd] at hh
    simp only [Option.some_or, List.cons_append, List.head?_cons, Option.some.injEq] at hh
    exact hn hh
  intro x y r r' hx hy he hl
  match x, y with
  | none, none =>
    simp only [Option.elim_none, List.cons_append, List.nil_append, List.cons.injEq, true_and] at he
    exact ⟨.none, he⟩
  | some a, some b =>
    obtain ⟨hr, he⟩ := h a b r r' (hx a rfl) (hy b rfl) he hl
    exact ⟨.some hr, he⟩
  | some a, none => exact absurd he (hne a r r')
  | none, some b => exact absurd he.symm (hne b r' r)

end Reads

/-- Blocks of one positive length are told apart by their concatenation. -/
theorem flatten_inj {w : Nat} (hw : 0 < w) {l l' : List (List UInt8)} (hl : ∀ x ∈ l, x.length = w)
    (hl' : ∀ x ∈ l', x.length = w) (h : l.flatten = l'.flatten) : l = l' := by
  induction l generalizing l' with
  | nil =>
    cases l' with
    | nil => rfl
    | cons x l' =>
      have hx := hl' x List.mem_cons_self
      have hlen := congrArg List.length h
      simp only [List.flatten_nil, List.length_nil, List.flatten_cons, List.length_append] at hlen
      omega
  | cons x l ih =>
    have hx := hl x List.mem_cons_self
    cases l' with
    | nil =>
      have hlen := congrArg List.length h
      simp only [List.flatten_nil, List.length_nil, List.flatten_cons, List.length_append] at hlen
      omega
    | cons y l' =>
      have hy := hl' y List.mem_cons_self
      rw [List.flatten_cons, List.flatten_cons] at h
      obtain ⟨rfl, hrest⟩ := List.append_inj h (hx.trans hy.symm)
      rw [ih (fun z hz => hl z (List.mem_cons_of_mem x hz)) (fun z hz => hl' z (List.mem_cons_of_mem x hz)) hrest]

theorem length_flatten {w : Nat} {l : List (List UInt8)} (hl : ∀ x ∈ l, x.length = w) :
    l.flatten.length = w * l.length := by
  induction l with
  | nil => simp
  | cons x l ih =>
    rw [List.flatten_cons, List.length_append, hl x List.mem_cons_self,
      ih fun z hz => hl z (List.mem_cons_of_mem x hz), List.length_cons, Nat.mul_succ, Nat.add_comm]

end PrefixCode
