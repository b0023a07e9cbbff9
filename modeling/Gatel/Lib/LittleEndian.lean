import Mathlib

namespace LittleEndian

/-- The low `w` bytes of a number, least significant first. -/
@[grind =] def bytes : Nat → Nat → List UInt8
  | 0, _ => []
  | w + 1, n => UInt8.ofNat n :: bytes w (n / 256)

@[grind =] def value : List UInt8 → Nat
  | [] => 0
  | b :: l => b.toNat + 256 * value l

@[simp] theorem length_bytes (w n : Nat) : (bytes w n).length = w := by
  induction w generalizing n with
  | zero => rfl
  | succ w ih => simp [bytes, ih]

theorem value_bytes {w n : Nat} (h : n < 256 ^ w) : value (bytes w n) = n := by
  induction w generalizing n with
  | zero =>
    simp only [pow_zero, Nat.lt_one_iff] at h
    simp [bytes, value, h]
  | succ w ih =>
    have hd : n / 256 < 256 ^ w := by
      rw [Nat.div_lt_iff_lt_mul (by decide)]
      rw [pow_succ] at h
      exact h
    have hm : (UInt8.ofNat n).toNat = n % 256 := UInt8.toNat_ofNat'
    rw [bytes, value, ih hd, hm]
    exact Nat.mod_add_div n 256

theorem value_lt (l : List UInt8) : value l < 256 ^ l.length := by
  induction l with
  | nil => simp [value]
  | cons b l ih =>
    have hb : b.toNat < 256 := b.toNat_lt
    rw [value, List.length_cons, pow_succ]
    omega

theorem bytes_value (l : List UInt8) : bytes l.length (value l) = l := by
  induction l with
  | nil => rfl
  | cons b l ih =>
    have hb : b.toNat < 256 := b.toNat_lt
    have hm : UInt8.ofNat (b.toNat + 256 * value l) = b := by
      apply UInt8.toNat_inj.mp
      rw [UInt8.toNat_ofNat']
      omega
    have hd : (b.toNat + 256 * value l) / 256 = value l := by omega
    rw [value, List.length_cons, bytes, hm, hd, ih]

theorem bytes_injective {w n m : Nat} (hn : n < 256 ^ w) (hm : m < 256 ^ w)
    (h : bytes w n = bytes w m) : n = m := by
  rw [← value_bytes hn, ← value_bytes hm, h]

end LittleEndian
