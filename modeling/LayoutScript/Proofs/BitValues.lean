import Mathlib.Algebra.Ring.Int.Defs
import Mathlib.Algebra.Ring.Nat
import LayoutScript.Bits.Order

/-! # Numbers as bytes and as bits

A number is told by its bytes and by its bits as long as it has no more of them, in either
order, and bytes and bits are told by their number.
-/
namespace LayoutScript

theorem ofLowBytes_lowBytes (count n : Nat) : ofLowBytes (lowBytes count n) = n % 256 ^ count := by
  induction count generalizing n with
  | zero => simp [lowBytes, Nat.mod_one]
  | succ count ih =>
    rw [lowBytes, ofLowBytes_cons, ih, Nat.pow_succ', Nat.mod_mul]
    simp

theorem lowBytes_ofLowBytes (bytes : List UInt8) : lowBytes bytes.length (ofLowBytes bytes) = bytes := by
  induction bytes with
  | nil => rfl
  | cons b bytes ih =>
    have hlow : UInt8.ofNat (b.toNat + 256 * ofLowBytes bytes) = b := by
      apply UInt8.toNat_inj.mp
      rw [UInt8.toNat_ofNat']
      have hb := b.toNat_lt
      omega
    have hhigh : (b.toNat + 256 * ofLowBytes bytes) / 256 = ofLowBytes bytes := by
      have hb := b.toNat_lt
      omega
    rw [List.length_cons, lowBytes, ofLowBytes_cons, hlow, hhigh, ih]

theorem ofLowBytes_lt (bytes : List UInt8) : ofLowBytes bytes < 256 ^ bytes.length := by
  have hvalue := ofLowBytes_lowBytes bytes.length (ofLowBytes bytes)
  rw [lowBytes_ofLowBytes] at hvalue
  rw [hvalue]
  exact Nat.mod_lt _ (Nat.pow_pos (by decide))

namespace ByteOrder

/-- Reading gives back what writing produced. -/
theorem value_bytes (order : ByteOrder) (count n : Nat) :
    order.value (order.bytes count n) = n % 256 ^ count := by
  cases order <;> simp [value, bytes, ofLowBytes_lowBytes]

/-- Writing gives back what was read. -/
theorem bytes_value (order : ByteOrder) (bs : List UInt8) : order.bytes bs.length (order.value bs) = bs := by
  cases order with
  | little => exact lowBytes_ofLowBytes bs
  | big =>
    have hlow := lowBytes_ofLowBytes bs.reverse
    rw [List.length_reverse] at hlow
    rw [bytes, value, hlow, List.reverse_reverse]

theorem value_lt (order : ByteOrder) (bs : List UInt8) : order.value bs < 256 ^ bs.length := by
  cases order with
  | little => exact ofLowBytes_lt bs
  | big => simpa [value] using ofLowBytes_lt bs.reverse

end ByteOrder

theorem ofLowBits_lt (bits : List Bool) : ofLowBits bits < 2 ^ bits.length := by
  induction bits with
  | nil => simp
  | cons b bits ih =>
    have := Bool.toNat_le b
    simp only [ofLowBits_cons, List.length_cons, Nat.pow_succ]
    omega

@[simp] theorem lowBits_zero (n : Nat) : lowBits 0 n = [] := rfl

theorem lowBits_succ (count n : Nat) : lowBits (count + 1) n = n.testBit 0 :: lowBits count (n / 2) := by
  have hbits : n.testBit ∘ Nat.succ = (n / 2).testBit := by
    funext i
    exact Nat.testBit_succ n i
  rw [lowBits, List.range_succ_eq_map, List.map_cons, List.map_map, hbits, lowBits]

theorem lowBits_ofLowBits (bits : List Bool) : lowBits bits.length (ofLowBits bits) = bits := by
  induction bits with
  | nil => rfl
  | cons b bits ih =>
    have hlow : (b.toNat + 2 * ofLowBits bits).testBit 0 = b := by
      rw [Nat.testBit_zero]
      cases b <;> simp [Nat.add_mod]
    have hhigh : (b.toNat + 2 * ofLowBits bits) / 2 = ofLowBits bits := by
      have hb := Bool.toNat_le b
      omega
    rw [List.length_cons, lowBits_succ, ofLowBits_cons, hlow, hhigh, ih]

theorem ofLowBits_lowBits (count n : Nat) : ofLowBits (lowBits count n) = n % 2 ^ count := by
  induction count generalizing n with
  | zero => rw [lowBits_zero, ofLowBits_nil, Nat.pow_zero, Nat.mod_one]
  | succ count ih =>
    have hbit : (n.testBit 0).toNat = n % 2 := by
      rw [Nat.testBit_zero]
      rcases Nat.mod_two_eq_zero_or_one n with h | h <;> rw [h] <;> rfl
    rw [lowBits_succ, ofLowBits_cons, ih, hbit, Nat.pow_succ', Nat.mod_mul]

theorem ofLowBits_append (bits bits' : List Bool) :
    ofLowBits (bits ++ bits') = ofLowBits bits + 2 ^ bits.length * ofLowBits bits' := by
  induction bits with
  | nil => simp
  | cons b bits ih =>
    rw [List.cons_append, ofLowBits_cons, ofLowBits_cons, ih, List.length_cons, Nat.pow_succ']
    rw [Nat.mul_add, Nat.add_assoc, Nat.mul_assoc]

theorem ofLowBits_zeros (count : Nat) : ofLowBits (List.replicate count false) = 0 := by
  induction count with
  | zero => rfl
  | succ count ih => rw [List.replicate_succ, ofLowBits_cons, ih]; rfl

namespace BitOrder

theorem value_lt (order : BitOrder) (bits : List Bool) :
    order.value bits < 2 ^ bits.length := by
  cases order with
  | lsb0 => exact ofLowBits_lt bits
  | msb0 => simpa [value] using ofLowBits_lt bits.reverse

/-- Bits are told by their number. -/
theorem bits_value (order : BitOrder) (bs : List Bool) : order.bits bs.length (order.value bs) = bs := by
  cases order with
  | lsb0 => exact lowBits_ofLowBits bs
  | msb0 =>
    have hlow := lowBits_ofLowBits bs.reverse
    rw [List.length_reverse] at hlow
    rw [bits, value, hlow, List.reverse_reverse]

theorem value_bits (order : BitOrder) (count n : Nat) : order.value (order.bits count n) = n % 2 ^ count := by
  cases order <;> simp [value, bits, ofLowBits_lowBits]

/-- Up to eight bits are told by their byte. -/
theorem bits_byte (order : BitOrder) (bs : List Bool) (h : bs.length ≤ 8) :
    order.bits bs.length (UInt8.ofNat (order.value bs)).toNat = bs := by
  have hsmall : order.value bs < 256 := calc
    order.value bs < 2 ^ bs.length := order.value_lt bs
    _ ≤ 2 ^ 8 := Nat.pow_le_pow_right (by decide) h
  rw [UInt8.toNat_ofNat', Nat.mod_eq_of_lt hsmall, order.bits_value]

theorem ofByte_injective (order : BitOrder) : Function.Injective order.ofByte := by
  intro a b h
  have hvalue : order.value (order.ofByte a) = order.value (order.ofByte b) := congrArg order.value h
  rw [ofByte, ofByte, value_bits, value_bits] at hvalue
  apply UInt8.toNat_inj.mp
  have ha := a.toNat_lt
  have hb := b.toNat_lt
  omega

end BitOrder
end LayoutScript
