import Mathlib

namespace Utf8

/-! Where ASCII stands in UTF-8. -/

theorem encode_ascii {c : Char} (h : c.toNat < 128) : String.utf8EncodeChar c = [UInt8.ofNat c.toNat] := by
  have hle : c.val.toNat ≤ 127 := Nat.le_of_lt_succ h
  unfold String.utf8EncodeChar
  rw [if_pos hle]
  rfl

theorem encode_high {c : Char} (h : 128 ≤ c.toNat) : ∀ b ∈ String.utf8EncodeChar c, 128 ≤ b.toNat := by
  have hgt : ¬ c.val.toNat ≤ 127 := Nat.not_le.mpr h
  unfold String.utf8EncodeChar
  rw [if_neg hgt]
  intro b hb
  split at hb
  · simp only [List.mem_cons, List.not_mem_nil, or_false] at hb
    rcases hb with rfl | rfl <;> simp only [UInt8.toNat_ofNat'] <;> omega
  · split at hb
    · simp only [List.mem_cons, List.not_mem_nil, or_false] at hb
      rcases hb with rfl | rfl | rfl <;> simp only [UInt8.toNat_ofNat'] <;> omega
    · simp only [List.mem_cons, List.not_mem_nil, or_false] at hb
      rcases hb with rfl | rfl | rfl | rfl <;> simp only [UInt8.toNat_ofNat'] <;> omega

theorem ofNat_inj {a b : Char} (ha : a.toNat < 128) (hb : b.toNat < 128)
    (h : UInt8.ofNat a.toNat = UInt8.ofNat b.toNat) : a = b := by
  have hn := congrArg UInt8.toNat h
  simp only [UInt8.toNat_ofNat'] at hn
  apply Char.toNat_inj.mp
  omega

/-- The first character of a text can be read off its bytes. -/
theorem encode_inj {c d : Char} {a b : List UInt8} (h : String.utf8EncodeChar c ++ a = String.utf8EncodeChar d ++ b) : c = d := by
  have hbytes := congrArg (fun l => ByteArray.utf8DecodeChar? (List.toByteArray l) 0) h
  simpa [ByteArray.utf8DecodeChar?_utf8EncodeChar_append] using hbytes

/-- An ASCII byte occurs exactly where its character does. -/
theorem mem_flatMap_iff {c : Char} (hc : c.toNat < 128) (l : List Char) :
    UInt8.ofNat c.toNat ∈ l.flatMap String.utf8EncodeChar ↔ c ∈ l := by
  rw [List.mem_flatMap]
  constructor
  · intro h
    obtain ⟨d, hd, hb⟩ := h
    rcases Nat.lt_or_ge d.toNat 128 with hlow | hhigh
    · rw [encode_ascii hlow, List.mem_singleton] at hb
      rwa [ofNat_inj hc hlow hb]
    · have hbig := encode_high hhigh _ hb
      simp only [UInt8.toNat_ofNat'] at hbig
      omega
  · intro h
    exact ⟨c, h, by rw [encode_ascii hc]; exact List.mem_singleton_self _⟩

/-- A text whose bytes begin with an ASCII character begins with it. -/
theorem flatMap_eq_cons {c : Char} (hc : c.toNat < 128) {l : List Char} {bytes : List UInt8}
    (h : l.flatMap String.utf8EncodeChar = UInt8.ofNat c.toNat :: bytes) :
    ∃ rest, l = c :: rest ∧ rest.flatMap String.utf8EncodeChar = bytes := by
  cases l with
  | nil => cases h
  | cons d rest =>
    rw [List.flatMap_cons] at h
    rcases Nat.lt_or_ge d.toNat 128 with hlow | hhigh
    · rw [encode_ascii hlow, List.singleton_append] at h
      obtain ⟨hd, hrest⟩ := List.cons.inj h
      exact ⟨rest, by rw [ofNat_inj hlow hc hd], hrest⟩
    · cases henc : String.utf8EncodeChar d with
      | nil =>
        have hlen := String.length_utf8EncodeChar d
        rw [henc] at hlen
        exact absurd hlen.symm d.utf8Size_pos.ne'
      | cons b bs =>
        rw [henc, List.cons_append] at h
        obtain ⟨hb, -⟩ := List.cons.inj h
        have hbig := encode_high hhigh b (by rw [henc]; exact List.mem_cons_self)
        rw [hb] at hbig
        simp only [UInt8.toNat_ofNat'] at hbig
        omega

theorem flatMap_eq_append {lead : List Char} (hc : ∀ c ∈ lead, c.toNat < 128) {l : List Char} {bytes : List UInt8}
    (h : l.flatMap String.utf8EncodeChar = lead.flatMap String.utf8EncodeChar ++ bytes) :
    ∃ rest, l = lead ++ rest ∧ rest.flatMap String.utf8EncodeChar = bytes := by
  induction lead generalizing l with
  | nil => exact ⟨l, rfl, h⟩
  | cons c lead ih =>
    rw [List.flatMap_cons, encode_ascii (hc c List.mem_cons_self), List.singleton_append, List.cons_append] at h
    obtain ⟨l', rfl, h'⟩ := flatMap_eq_cons (hc c List.mem_cons_self) h
    obtain ⟨rest, rfl, hrest⟩ := ih (fun d hd => hc d (List.mem_cons_of_mem c hd)) h'
    exact ⟨rest, rfl, hrest⟩

end Utf8
