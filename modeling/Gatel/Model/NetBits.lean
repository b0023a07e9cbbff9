import Gatel.Model.Net

namespace Gatel.IpAddr

/-- The bits of an octet, the leading one first. -/
def octetBits (b : UInt8) : List Bool := (List.range 8).map fun i => b.toNat.testBit (7 - i)

def bits (ip : IpAddr) : List Bool := ip.octets.flatMap octetBits

def width (ip : IpAddr) : Nat := if ip.isIpv4 then 32 else 128

theorem length_octetBits (b : UInt8) : (octetBits b).length = 8 := by
  rw [octetBits, List.length_map, List.length_range]

theorem take_octetBits {a b : UInt8} {n : Nat} (hn : n ≤ 8) :
    (octetBits a).take n = (octetBits b).take n ↔ ∀ j, 8 - n ≤ j → j < 8 → a.toNat.testBit j = b.toNat.testBit j := by
  rw [octetBits, octetBits, ← List.map_take, ← List.map_take, List.take_range, min_eq_left hn, List.map_inj_left]
  constructor
  · intro h j hlow hhigh
    have hj := h (7 - j) (List.mem_range.mpr (by omega))
    rwa [Nat.sub_sub_self (by omega)] at hj
  · intro h i hi
    have hlt := List.mem_range.mp hi
    exact h (7 - i) (by omega) (by omega)

theorem eq_of_testBit {a b : UInt8} (h : ∀ j < 8, a.toNat.testBit j = b.toNat.testBit j) : a = b := by
  refine UInt8.toNat_inj.mp (Nat.eq_of_testBit_eq fun j => ?_)
  by_cases hj : j < 8
  · exact h j hj
  · have hsmall : ∀ c : UInt8, c.toNat.testBit j = false := fun c =>
      Nat.testBit_lt_two_pow (lt_of_lt_of_le c.toNat_lt (Nat.pow_le_pow_right (by omega) (by omega)))
    rw [hsmall a, hsmall b]

theorem octetBits_inj {a b : UInt8} : octetBits a = octetBits b ↔ a = b := by
  constructor
  · intro h
    have hbits := (take_octetBits (a := a) (b := b) le_rfl).mp (by rw [h])
    exact eq_of_testBit fun j hj => hbits j (by omega) hj
  · exact fun h => h ▸ rfl

/-- The mask of a partial octet. -/
def mask (n : Nat) : UInt8 := if n = 0 then 0 else (0xff : UInt8) <<< (8 - n).toUInt8

theorem testBit_mask : ∀ n < 8, ∀ j < 8, (mask n).toNat.testBit j = decide (8 - n ≤ j) := by decide

theorem masked_octet {a b : UInt8} {n : Nat} (hn : n < 8) :
    a &&& mask n = b &&& mask n ↔ (octetBits a).take n = (octetBits b).take n := by
  rw [take_octetBits hn.le]
  have hbit : ∀ (c : UInt8) (j : Nat), j < 8 → (c &&& mask n).toNat.testBit j = (c.toNat.testBit j && decide (8 - n ≤ j)) := by
    intro c j hj
    rw [UInt8.toNat_and, Nat.testBit_and, testBit_mask n hn j hj]
  constructor
  · intro h j hlow hhigh
    have hj := hbit b j hhigh
    rw [← h, hbit a j hhigh, decide_eq_true hlow, Bool.and_true, Bool.and_true] at hj
    exact hj
  · intro h
    refine eq_of_testBit fun j hj => ?_
    rw [hbit a j hj, hbit b j hj]
    by_cases hlow : 8 - n ≤ j
    · rw [h j hlow hj]
    · rw [decide_eq_false hlow, Bool.and_false, Bool.and_false]

theorem masked_zero (l : List UInt8) : masked l 0 = List.replicate l.length 0 := by
  induction l with
  | nil => rfl
  | cons b rest ih => simp [masked, ih, List.replicate_succ]

/-- Masking keeps exactly the leading bits apart. -/
theorem masked_eq_iff {a b : List UInt8} (hlen : a.length = b.length) (n : Nat) :
    masked a n = masked b n ↔ (a.flatMap octetBits).take n = (b.flatMap octetBits).take n := by
  induction a generalizing b n with
  | nil =>
    obtain rfl := List.eq_nil_of_length_eq_zero hlen.symm
    exact ⟨fun _ => rfl, fun _ => rfl⟩
  | cons x a ih =>
    cases b with
    | nil => cases hlen
    | cons y b =>
      have hlen' : a.length = b.length := Nat.succ.inj hlen
      rw [List.flatMap_cons, List.flatMap_cons, List.take_append, List.take_append, length_octetBits, length_octetBits]
      by_cases hn : 8 ≤ n
      · have htake : ∀ c : UInt8, (octetBits c).take n = octetBits c := fun c =>
          List.take_of_length_le (by rw [length_octetBits]; exact hn)
        rw [masked, masked, if_pos hn, if_pos hn, List.cons.injEq, ih hlen', htake, htake]
        constructor
        · rintro ⟨rfl, hrest⟩
          rw [hrest]
        · intro h
          obtain ⟨hhead, hrest⟩ := List.append_inj h (by rw [length_octetBits, length_octetBits])
          exact ⟨octetBits_inj.1 hhead, hrest⟩
      · -- the partial octet decides; nothing behind it is looked at
        have hpart : n - 8 = 0 := by omega
        have hlast : masked a 0 = masked b 0 := by rw [masked_zero, masked_zero, hlen']
        rw [masked, masked, if_neg hn, if_neg hn, List.cons.injEq, hpart, List.take_zero, List.take_zero,
          List.append_nil, List.append_nil, ← masked_octet (Nat.lt_of_not_le hn)]
        exact ⟨fun h => h.1, fun h => ⟨h, hlast⟩⟩

theorem length_octets (ip : IpAddr) : ip.octets.length = if ip.isIpv4 then 4 else 16 := by
  cases ip <;> simp [octets, isIpv4]

/-- What a network is: one family, and the leading bits the same. -/
def Shares (ip network : IpAddr) (n : Nat) : Prop := ip.isIpv4 = network.isIpv4 ∧ ip.bits.take n = network.bits.take n

theorem masked_octets {ip network : IpAddr} (h : ip.isIpv4 = network.isIpv4) (n : Nat) :
    masked ip.octets n = masked network.octets n ↔ ip.bits.take n = network.bits.take n :=
  masked_eq_iff (by rw [length_octets, length_octets, h]) n

end Gatel.IpAddr
