import Mathlib

namespace Separated

/-- Fields free of the separator are told apart by the text they are joined into. -/
theorem intercalate_inj {c : Char} {l l' : List (List Char)} (hl : ∀ x ∈ l, c ∉ x) (hl' : ∀ x ∈ l', c ∉ x)
    (hn : l ≠ []) (hn' : l' ≠ []) (h : [c].intercalate l = [c].intercalate l') : l = l' := by
  rw [← List.splitOn_intercalate c hl hn, h, List.splitOn_intercalate c hl' hn']

theorem mem_intercalate {α : Type} {c d : α} {l : List (List α)} (h : c ∈ [d].intercalate l) :
    c = d ∨ ∃ x ∈ l, c ∈ x := by
  induction l with
  | nil => simp at h
  | cons x l ih =>
    cases l with
    | nil => exact Or.inr ⟨x, by simp, by simpa using h⟩
    | cons y l =>
      rw [List.intercalate_cons_cons] at h
      simp only [List.mem_append, List.mem_singleton] at h
      obtain (h | h) | h := h
      · exact Or.inr ⟨x, List.mem_cons_self, h⟩
      · exact Or.inl h
      · obtain h | ⟨z, hz, hc⟩ := ih h
        · exact Or.inl h
        · exact Or.inr ⟨z, List.mem_cons_of_mem x hz, hc⟩

theorem mem_intercalate_sep {d : Char} (x y : List Char) (l : List (List Char)) :
    d ∈ [d].intercalate (x :: y :: l) := by
  rw [List.intercalate_cons_cons]
  simp

/-- The first occurrence of a separator. -/
theorem split_inj {c : Char} {a b x y : List Char} (ha : c ∉ a) (hb : c ∉ b) (h : a ++ c :: x = b ++ c :: y) :
    a = b ∧ x = y := by
  induction a generalizing b with
  | nil =>
    cases b with
    | nil =>
      simp only [List.nil_append, List.cons.injEq, true_and] at h
      exact ⟨rfl, h⟩
    | cons d b =>
      simp only [List.nil_append, List.cons_append, List.cons.injEq] at h
      exact absurd (h.1 ▸ List.mem_cons_self) hb
  | cons d a ih =>
    cases b with
    | nil =>
      simp only [List.nil_append, List.cons_append, List.cons.injEq] at h
      exact absurd (h.1 ▸ List.mem_cons_self) ha
    | cons e b =>
      simp only [List.cons_append, List.cons.injEq] at h
      obtain ⟨rfl, h⟩ := h
      obtain ⟨rfl, hxy⟩ := ih (fun hc => ha (List.mem_cons_of_mem d hc)) (fun hc => hb (List.mem_cons_of_mem d hc)) h
      exact ⟨rfl, hxy⟩

/-- Two fields before the same separator, neither of which goes on behind it. -/
theorem split_apart {c : Char} {a b x y : List Char} (ha : ¬ a ++ [c] <+: b) (hb : ¬ b ++ [c] <+: a)
    (h : a ++ c :: x = b ++ c :: y) : a = b ∧ x = y := by
  have hab : a ++ [c] <+: b ++ c :: y := ⟨x, by rw [← h]; simp⟩
  have hba : b ++ [c] <+: a ++ c :: x := ⟨y, by rw [h]; simp⟩
  have hla : ¬ a.length < b.length := by
    intro hlt
    refine ha (List.prefix_of_prefix_length_le hab (List.prefix_append b _) ?_)
    rw [List.length_append]
    exact hlt
  have hlb : ¬ b.length < a.length := by
    intro hlt
    refine hb (List.prefix_of_prefix_length_le hba (List.prefix_append a _) ?_)
    rw [List.length_append]
    exact hlt
  obtain ⟨rfl, htail⟩ := List.append_inj h (by omega)
  exact ⟨rfl, (List.cons.inj htail).2⟩

/-- Fields are told apart by the text they are joined into when none of one list goes on
behind the separator in the other. -/
theorem intercalate_apart {c : Char} {l l' : List (List Char)}
    (ha : ∀ x ∈ l, ∀ y ∈ l', ¬ x ++ [c] <+: y ∧ ¬ y ++ [c] <+: x) (hl : ∀ x ∈ l, x ≠ [])
    (hl' : ∀ x ∈ l', x ≠ []) (h : [c].intercalate l = [c].intercalate l') : l = l' := by
  induction l generalizing l' with
  | nil =>
    cases l' with
    | nil => rfl
    | cons y l' =>
      have hy := hl' y List.mem_cons_self
      cases l' with
      | nil => exact absurd (by simpa using h.symm) hy
      | cons z l' =>
        rw [List.intercalate_cons_cons] at h
        simp at h
  | cons x l ih =>
    cases l' with
    | nil =>
      have hx := hl x List.mem_cons_self
      cases l with
      | nil => exact absurd (by simpa using h) hx
      | cons z l =>
        rw [List.intercalate_cons_cons] at h
        simp at h
    | cons y l' =>
      obtain ⟨hxy, hyx⟩ := ha x List.mem_cons_self y List.mem_cons_self
      cases l with
      | nil =>
        cases l' with
        | nil => simpa using h
        | cons z l' =>
          rw [List.intercalate_cons_cons, List.intercalate_singleton] at h
          exact absurd ⟨_, h.symm⟩ hyx
      | cons z l =>
        cases l' with
        | nil =>
          rw [List.intercalate_cons_cons, List.intercalate_singleton] at h
          exact absurd ⟨_, h⟩ hxy
        | cons z' l' =>
          rw [List.intercalate_cons_cons, List.intercalate_cons_cons, List.append_assoc,
            List.append_assoc] at h
          obtain ⟨rfl, hrest⟩ := split_apart hxy hyx h
          rw [ih (fun u hu v hv => ha u (List.mem_cons_of_mem x hu) v (List.mem_cons_of_mem x hv))
            (fun u hu => hl u (List.mem_cons_of_mem x hu))
            (fun u hu => hl' u (List.mem_cons_of_mem x hu)) hrest]

theorem digitChar_inj {m n : Nat} (hm : m < 16) (hn : n < 16) (h : m.digitChar = n.digitChar) : m = n := by
  have hall : ∀ m n : Fin 16, m.val.digitChar = n.val.digitChar → m = n := by decide
  exact Fin.val_eq_of_eq (hall ⟨m, hm⟩ ⟨n, hn⟩ h)

theorem mem_toDigits {b n : Nat} (hb : 1 < b) {c : Char} (hc : c ∈ Nat.toDigits b n) :
    ∃ d < b, c = d.digitChar := by
  induction n using Nat.strongRecOn with
  | ind n ih =>
    rw [Nat.toDigits_eq_if hb] at hc
    split at hc
    · rename_i hn
      exact ⟨n, hn, by simpa using hc⟩
    · rename_i hn
      simp only [List.mem_append, List.mem_singleton] at hc
      rcases hc with hc | hc
      · exact ih (n / b) (Nat.div_lt_self (by omega) hb) hc
      · exact ⟨n % b, Nat.mod_lt n (by omega), hc⟩

theorem toDigits_inj {b : Nat} (hb : 1 < b) (hb' : b ≤ 16) {m n : Nat}
    (h : Nat.toDigits b m = Nat.toDigits b n) : m = n := by
  induction m using Nat.strongRecOn generalizing n with
  | ind m ih =>
    rw [Nat.toDigits_eq_if hb, @Nat.toDigits_eq_if b n hb] at h
    split at h
    · rename_i hm
      split at h
      · rename_i hn
        exact digitChar_inj (by omega) (by omega) (List.cons.inj h).1
      · have hl := congrArg List.length h
        have hp := @Nat.length_toDigits_pos b (n / b)
        simp only [List.length_append, List.length_singleton] at hl
        omega
    · rename_i hm
      split at h
      · have hl := congrArg List.length h
        have hp := @Nat.length_toDigits_pos b (m / b)
        simp only [List.length_append, List.length_singleton] at hl
        omega
      · obtain ⟨hd, hc⟩ := List.append_inj' h rfl
        have hq := ih (m / b) (Nat.div_lt_self (by omega) hb) hd
        have hr : m % b = n % b := by
          have h₁ := Nat.mod_lt m (by omega : b > 0)
          have h₂ := Nat.mod_lt n (by omega : b > 0)
          exact digitChar_inj (by omega) (by omega) (List.cons.inj hc).1
        rw [← Nat.div_add_mod m b, ← Nat.div_add_mod n b, hq, hr]

theorem not_mem_toDigits {b n : Nat} (hb : 1 < b) (hb' : b ≤ 16) {c : Char}
    (hc : ∀ d : Fin 16, c ≠ d.val.digitChar) : c ∉ Nat.toDigits b n := by
  intro hm
  obtain ⟨d, hd, he⟩ := mem_toDigits hb hm
  exact hc ⟨d, by omega⟩ he

end Separated
