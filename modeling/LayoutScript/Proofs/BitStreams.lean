import LayoutScript.Apply.Fields
import LayoutScript.Bits.Reader
import LayoutScript.Bits.Writer
import LayoutScript.Proofs.BitValues
import LayoutScript.Proofs.Stateful

/-! # Readers and writers as streams of bits

What a reader gives is the front of the bits that are still to come, and what a writer is given
goes behind the bits that it has. A writer that has the first bits of some bytes turns into
these bytes up to the last bit.
-/
namespace LayoutScript

namespace Reader

/-- No more has been read than there is. -/
structure Sound (r : Reader) : Prop where
  pos_le : r.pos ≤ r.data.size
  pending_le : r.pending.length ≤ 8 * r.pos

/-- Bits are read from the front of `r`, and `r'` is left. -/
structure Gives (r : Reader) (front : List Bool) (r' : Reader) : Prop where
  bits : r.bits = front ++ r'.bits
  order : r'.order = r.order
  data : r'.data = r.data
  sound : r.Sound → r'.Sound

namespace Gives

theorem refl (r : Reader) : Gives r [] r := ⟨rfl, rfl, rfl, id⟩

theorem trans {r r' r'' : Reader} {front front' : List Bool} (h : Gives r front r') (h' : Gives r' front' r'') :
    Gives r (front ++ front') r'' where
  bits := by rw [h.bits, h'.bits, List.append_assoc]
  order := h'.order.trans h.order
  data := h'.data.trans h.data
  sound := h'.sound ∘ h.sound

/-- Where no bits are taken, none are given. -/
theorem eq_nil {r r' : Reader} {front : List Bool} (h : Gives r front r') (hleft : r.left ≤ r'.left) : front = [] := by
  have hlength := congrArg List.length h.bits
  rw [List.length_append, r.length_bits, r'.length_bits] at hlength
  exact List.length_eq_zero_iff.mp (by omega)

end Gives

/-- Some bits are read from `r`, and `r'` is left. -/
def Passes (r r' : Reader) : Prop := ∃ front, Gives r front r'

theorem Passes.refl (r : Reader) : Passes r r := ⟨[], .refl r⟩

theorem Passes.trans {r r' r'' : Reader} (h : Passes r r') (h' : Passes r' r'') : Passes r r'' := by
  obtain ⟨front, h⟩ := h
  obtain ⟨front', h'⟩ := h'
  exact ⟨front ++ front', h.trans h'⟩

variable {r r' : Reader}

theorem consumed_add_left (h : r.Sound) : r.consumed + r.left = 8 * r.data.size := by
  have hpos := h.pos_le
  have hpending := h.pending_le
  rw [consumed, left, remaining]
  omega

theorem sound_ofBytes (bytes : List UInt8) (order : BitOrder) : (ofBytes bytes order).Sound :=
  ⟨Nat.zero_le _, Nat.le_refl 0⟩

theorem bits_of_some {b : UInt8} (h : r.data[r.pos]? = some b) :
    r.bits = r.pending ++ (r.order.ofByte b ++ (r.data.toList.drop (r.pos + 1)).flatMap r.order.ofByte) := by
  obtain ⟨hlt, hb⟩ := Array.getElem?_eq_some_iff.mp h
  have hlist : r.pos < r.data.toList.length := hlt
  have hdrop : r.data.toList.drop r.pos = b :: r.data.toList.drop (r.pos + 1) := by
    rw [List.drop_eq_getElem_cons hlist, Array.getElem_toList, hb]
  rw [bits, hdrop, List.flatMap_cons]

theorem bits_of_none (h : r.data[r.pos]? = none) : r.bits = r.pending := by
  have hsize : r.data.toList.length ≤ r.pos := Array.getElem?_eq_none_iff.mp h
  rw [bits, List.drop_eq_nil_of_le hsize, List.flatMap_nil, List.append_nil]

/-- The first of the bits that are left are given as a number. -/
theorem gives_take {all rest : List Bool} {count : Nat} (hbits : r.bits = all ++ rest)
    (hbits' : r'.bits = all.drop count ++ rest) (hcount : count ≤ all.length) (hbyte : count ≤ 8)
    (horder : r'.order = r.order) (hdata : r'.data = r.data) (hsound : r.Sound → r'.Sound) :
    Gives r (r.order.bits count (UInt8.ofNat (r.order.value (all.take count))).toNat) r' ∧ count = min count r.left := by
  have hlength : (all.take count).length = count := List.length_take_of_le hcount
  have hnumber := r.order.bits_byte (all.take count) (by omega)
  have hleft := r.length_bits
  rw [hlength] at hnumber
  rw [hbits, List.length_append] at hleft
  refine ⟨⟨?_, horder, hdata, hsound⟩, by omega⟩
  rw [hnumber, hbits, hbits', ← List.append_assoc, List.take_append_drop]

/-- Bits that are taken are as many as asked for, or else all that are left. -/
theorem gives_takeBits {count k : Nat} {lenient : Bool} {v : UInt8} (h : takeBits count lenient r = (.ok (v, k), r')) :
    Gives r (r.order.bits k v.toNat) r' ∧ 1 ≤ k ∧ k ≤ 8 ∧ k = min count r.left ∧ (lenient = false → k = count) := by
  unfold takeBits at h
  split at h
  · cases h
  rename_i hcount
  split at h
  · rename_i hpending
    cases h
    let r₁ : Reader := { r with pending := r.pending.drop count }
    have hsound : r.Sound → r₁.Sound := by
      intro hsound
      refine ⟨hsound.pos_le, ?_⟩
      change (r.pending.drop count).length ≤ 8 * r.pos
      have hle := hsound.pending_le
      rw [List.length_drop]
      omega
    have hbits₁ : r₁.bits = r.pending.drop count ++ _ := rfl
    obtain ⟨hgives, hleft⟩ := gives_take rfl hbits₁ hpending (by omega) rfl rfl hsound
    exact ⟨hgives, by omega, by omega, hleft, fun _ => rfl⟩
  rename_i hpending
  split at h
  · -- Some of the bits are those of the next byte.
    rename_i b hb
    cases h
    have hpos : r.pos < r.data.size := (Array.getElem?_eq_some_iff.mp hb).1
    have hwhole : (r.pending ++ r.order.ofByte b).length = r.pending.length + 8 := by
      rw [List.length_append, BitOrder.length_ofByte]
    let r₁ : Reader := { r with pos := r.pos + 1, pending := (r.pending ++ r.order.ofByte b).drop count }
    have hsound : r.Sound → r₁.Sound := by
      intro hsound
      refine ⟨hpos, ?_⟩
      change ((r.pending ++ r.order.ofByte b).drop count).length ≤ 8 * (r.pos + 1)
      have hle := hsound.pending_le
      rw [List.length_drop]
      omega
    have hbits := bits_of_some hb
    rw [← List.append_assoc] at hbits
    have hbits₁ : r₁.bits = (r.pending ++ r.order.ofByte b).drop count ++ _ := rfl
    obtain ⟨hgives, hleft⟩ := gives_take hbits hbits₁ (by omega) (by omega) rfl rfl hsound
    exact ⟨hgives, by omega, by omega, hleft, fun _ => rfl⟩
  rename_i hnone
  split at h
  · -- There is no next byte, so the pending bits are all that is left.
    rename_i hlenient
    cases h
    simp only [Bool.and_eq_true, Bool.not_eq_true', List.isEmpty_eq_false_iff] at hlenient
    have hpositive := List.length_pos_iff.mpr hlenient.2
    have hbits := bits_of_none hnone
    have hend : r.align.bits = r.pending.drop r.pending.length ++ [] := by
      rw [List.drop_length, bits_of_none (r := r.align) hnone]
      rfl
    have hsound : r.Sound → r.align.Sound := fun hsound => ⟨hsound.pos_le, Nat.zero_le _⟩
    obtain ⟨hgives, hleft⟩ := gives_take (hbits.trans (List.append_nil _).symm) hend (Nat.le_refl _) (by omega) rfl rfl hsound
    rw [List.take_length] at hgives
    have hall := r.length_bits
    rw [hbits] at hall
    refine ⟨hgives, hpositive, by omega, by omega, ?_⟩
    rintro rfl
    cases hlenient.1
  · cases h

theorem gives_readBits {count : Nat} {v : UInt8} (h : readBits count r = (.ok v, r')) :
    Gives r (r.order.bits count v.toNat) r' ∧ 1 ≤ count ∧ count ≤ 8 := by
  obtain ⟨⟨v', k⟩, r₁, htake, h⟩ := Stateful.of_bind_ok h
  cases h
  obtain ⟨hgives, hpos, hle, -, hk⟩ := gives_takeBits htake
  obtain rfl := hk rfl
  exact ⟨hgives, hpos, hle⟩

theorem gives_readByte {b : UInt8} (h : readByte r = (.ok b, r')) : Gives r (r.order.ofByte b) r' := by
  unfold readByte at h
  split at h
  · rename_i hempty
    have hpending := List.isEmpty_iff.mp hempty
    split at h
    · rename_i b' hb
      cases h
      have hpos : r.pos < r.data.size := (Array.getElem?_eq_some_iff.mp hb).1
      refine ⟨?_, rfl, rfl, ?_⟩
      · rw [bits_of_some hb, hpending]
        rfl
      · intro hsound
        refine ⟨hpos, ?_⟩
        change r.pending.length ≤ 8 * (r.pos + 1)
        rw [hpending]
        exact Nat.zero_le _
    · cases h
  · exact (gives_readBits h).1

theorem gives_readBytes {count : Nat} {bytes : List UInt8} (h : BitSource.readBytes count r = (.ok bytes, r')) :
    bytes.length = count ∧ Gives r (bytes.flatMap r.order.ofByte) r' := by
  induction count generalizing r bytes with
  | zero =>
    cases h
    exact ⟨rfl, .refl _⟩
  | succ count ih =>
    rw [BitSource.readBytes_succ] at h
    obtain ⟨b, r₁, hb, h⟩ := Stateful.of_bind_ok h
    obtain ⟨bytes', r₂, hbytes, h⟩ := Stateful.of_bind_ok h
    cases h
    have hfirst : Gives r (r.order.ofByte b) r₁ := gives_readByte hb
    obtain ⟨hlength, hothers⟩ := ih hbytes
    rw [hfirst.order] at hothers
    refine ⟨congrArg (· + 1) hlength, ?_⟩
    rw [List.flatMap_cons]
    exact hfirst.trans hothers

end Reader

namespace WholeType

/-- The number that the bytes of a value stand for. -/
def pattern : (t : WholeType) → t.Carrier → Nat
  | .bool, v => v.toNat
  | .ubyte, v => v.toNat
  | .byte, v => v.toUInt8.toNat
  | .ushort, v => v.toNat
  | .short, v => v.toUInt16.toNat
  | .int, v => v.toUInt32.toNat
  | .long, v => v.toUInt64.toNat

end WholeType

theorem ByteOrder.bytes_one (order : ByteOrder) (b : UInt8) : order.bytes 1 b.toNat = [b] := by
  cases order <;> simp [bytes, lowBytes]

namespace Reader
variable {r r' : Reader}

theorem gives_readNumber {count n : Nat} {order : ByteOrder} (h : BitSource.readNumber count order r = (.ok n, r')) :
    n < 256 ^ count ∧ Gives r ((order.bytes count n).flatMap r.order.ofByte) r' := by
  obtain ⟨bytes, r₁, hbytes, h⟩ := Stateful.of_bind_ok h
  cases h
  obtain ⟨rfl, hgives⟩ := gives_readBytes hbytes
  rw [order.bytes_value]
  exact ⟨order.value_lt bytes, hgives⟩

/-- A number is read from the bytes that it is written as. -/
theorem gives_readWhole {order : ByteOrder} {t : WholeType} (ht : t ≠ .bool) {v : t.Carrier}
    (h : readWhole order t r = (.ok v, r')) :
    Gives r ((order.bytes t.size (t.pattern v)).flatMap r.order.ofByte) r' := by
  cases t with
  | bool => exact absurd rfl ht
  | ubyte =>
    rw [WholeType.pattern, WholeType.size, order.bytes_one, List.flatMap_singleton]
    exact gives_readByte h
  | byte =>
    obtain ⟨b, r₁, hb, h⟩ := Stateful.of_bind_ok h
    cases h
    rw [WholeType.pattern, WholeType.size, UInt8.toUInt8_toInt8, order.bytes_one, List.flatMap_singleton]
    exact gives_readByte hb
  | ushort =>
    obtain ⟨n, r₁, hn, h⟩ := Stateful.of_bind_ok h
    cases h
    obtain ⟨hlt, hgives⟩ := gives_readNumber hn
    rw [WholeType.pattern, UInt16.toNat_ofNat', Nat.mod_eq_of_lt (show n < 2 ^ 16 from hlt)]
    exact hgives
  | short =>
    obtain ⟨v', r₂, h', hv⟩ := Stateful.of_bind_ok h
    obtain ⟨n, r₁, hn, h'⟩ := Stateful.of_bind_ok h'
    cases hv
    cases h'
    obtain ⟨hlt, hgives⟩ := gives_readNumber hn
    rw [WholeType.pattern, UInt16.toUInt16_toInt16, UInt16.toNat_ofNat', Nat.mod_eq_of_lt (show n < 2 ^ 16 from hlt)]
    exact hgives
  | int =>
    obtain ⟨v', r₂, h', hv⟩ := Stateful.of_bind_ok h
    obtain ⟨n, r₁, hn, h'⟩ := Stateful.of_bind_ok h'
    cases hv
    cases h'
    obtain ⟨hlt, hgives⟩ := gives_readNumber hn
    rw [WholeType.pattern, UInt32.toUInt32_toInt32, UInt32.toNat_ofNat', Nat.mod_eq_of_lt (show n < 2 ^ 32 from hlt)]
    exact hgives
  | long =>
    obtain ⟨v', r₂, h', hv⟩ := Stateful.of_bind_ok h
    obtain ⟨n, r₁, hn, h'⟩ := Stateful.of_bind_ok h'
    cases hv
    cases h'
    obtain ⟨hlt, hgives⟩ := gives_readNumber hn
    rw [WholeType.pattern, UInt64.toUInt64_toInt64, UInt64.toNat_ofNat', Nat.mod_eq_of_lt (show n < 2 ^ 64 from hlt)]
    exact hgives

end Reader

namespace BitOrder

theorem toByte_eq (order : BitOrder) {bs : List Bool} (h : bs.length ≤ 8) :
    order.toByte bs = UInt8.ofNat (order.value (bs ++ List.replicate (8 - bs.length) false)) := by
  rw [toByte, List.take_append, List.take_of_length_le h, List.take_replicate, Nat.min_eq_left (Nat.sub_le _ _)]

theorem ofByte_toByte (order : BitOrder) (bs : List Bool) (h : bs.length = 8) : order.ofByte (order.toByte bs) = bs := by
  have hbits := order.bits_byte bs (by omega)
  rw [h] at hbits
  rw [order.toByte_eq (by omega), h, Nat.sub_self, List.replicate_zero, List.append_nil, ofByte, hbits]

/-- The first bits of a byte, the others being zero. -/
def keep : BitOrder → (count : Nat) → UInt8 → UInt8
  | .lsb0, count, b => UInt8.ofNat (b.toNat % 2 ^ count)
  | .msb0, count, b => UInt8.ofNat (b.toNat / 2 ^ (8 - count) * 2 ^ (8 - count))

theorem toByte_take (order : BitOrder) {count : Nat} (h : count ≤ 8) (b : UInt8) :
    order.toByte ((order.ofByte b).take count) = order.keep count b := by
  have hlength : ((order.ofByte b).take count).length = count := by
    rw [List.length_take, length_ofByte]
    omega
  rw [order.toByte_eq (by omega), hlength]
  cases order with
  | lsb0 =>
    have hlow : (lowBits 8 b.toNat).take count = lowBits count b.toNat := by
      rw [lowBits, ← List.map_take, List.take_range, Nat.min_eq_left h, lowBits]
    apply congrArg UInt8.ofNat
    change ofLowBits ((lowBits 8 b.toNat).take count ++ _) = b.toNat % 2 ^ count
    rw [hlow, ofLowBits_append, ofLowBits_zeros, Nat.mul_zero, Nat.add_zero, ofLowBits_lowBits]
  | msb0 =>
    have hsplit : lowBits 8 b.toNat = (lowBits 8 b.toNat).take (8 - count) ++ (lowBits 8 b.toNat).drop (8 - count) :=
      (List.take_append_drop _ _).symm
    have htake : ((lowBits 8 b.toNat).take (8 - count)).length = 8 - count := by
      rw [List.length_take, length_lowBits]
      omega
    have hsmall := ofLowBits_lt ((lowBits 8 b.toNat).take (8 - count))
    have hwhole := congrArg ofLowBits hsplit
    rw [ofLowBits_append, htake, ofLowBits_lowBits, Nat.mod_eq_of_lt b.toNat_lt] at hwhole
    rw [htake] at hsmall
    have hhigh : ofLowBits ((lowBits 8 b.toNat).drop (8 - count)) = b.toNat / 2 ^ (8 - count) := by
      generalize ofLowBits ((lowBits 8 b.toNat).take (8 - count)) = low at hwhole hsmall
      generalize ofLowBits ((lowBits 8 b.toNat).drop (8 - count)) = high at hwhole ⊢
      rw [hwhole, Nat.add_mul_div_left _ _ (Nat.pow_pos (by decide)), Nat.div_eq_of_lt hsmall, Nat.zero_add]
    apply congrArg UInt8.ofNat
    change ofLowBits (((lowBits 8 b.toNat).reverse.take count ++ _).reverse) = b.toNat / 2 ^ (8 - count) * 2 ^ (8 - count)
    rw [List.reverse_append, List.reverse_replicate, List.take_reverse, List.reverse_reverse, length_lowBits,
      ofLowBits_append, ofLowBits_zeros, List.length_replicate, hhigh, Nat.zero_add, Nat.mul_comm]

/-- The bytes that the first bits of some bytes lie in, with zero bits behind them. -/
def firstBits (order : BitOrder) (count : Nat) (bytes : List UInt8) : List UInt8 :=
  bytes.take (count / 8) ++ if count % 8 = 0 then [] else bytes[count / 8]?.toList.map (order.keep (count % 8))

theorem length_firstBits (order : BitOrder) {count : Nat} {bytes : List UInt8} (h : count ≤ 8 * bytes.length) :
    (order.firstBits count bytes).length = (count + 7) / 8 := by
  rw [firstBits, List.length_append, List.length_take]
  by_cases hwhole : count % 8 = 0
  · rw [if_pos hwhole, List.length_nil]
    omega
  · have hlt : count / 8 < bytes.length := by omega
    rw [if_neg hwhole, List.getElem?_eq_getElem hlt, Option.toList_some, List.map_singleton, List.length_singleton]
    omega

/-- Bits that start with those of some bytes come from bytes that start with these. -/
theorem of_flatMap_ofByte_append (order : BitOrder) {bytes whole : List UInt8} {rest : List Bool}
    (h : bytes.flatMap order.ofByte ++ rest = whole.flatMap order.ofByte) :
    ∃ others, whole = bytes ++ others ∧ rest = others.flatMap order.ofByte := by
  induction bytes generalizing whole with
  | nil => exact ⟨whole, rfl, h⟩
  | cons b bytes ih =>
    cases whole with
    | nil =>
      have hlength := congrArg List.length h
      simp only [List.flatMap_cons, List.flatMap_nil, List.length_append, length_ofByte, List.length_nil] at hlength
      omega
    | cons b' whole =>
      rw [List.flatMap_cons, List.flatMap_cons, List.append_assoc] at h
      obtain ⟨hb, hrest⟩ := List.append_inj h (by rw [length_ofByte, length_ofByte])
      obtain rfl := order.ofByte_injective hb
      obtain ⟨others, rfl, hothers⟩ := ih hrest
      exact ⟨others, rfl, hothers⟩

end BitOrder

namespace Writer

/-- Bits are written behind those of `w`. -/
structure Adds (w : Writer) (back : List Bool) (w' : Writer) : Prop where
  bits : w'.bits = w.bits ++ back
  order : w'.order = w.order
  pending_lt : w.pending.length < 8 → w'.pending.length < 8

theorem Adds.refl (w : Writer) : Adds w [] w := ⟨(List.append_nil _).symm, rfl, id⟩

theorem Adds.trans {w w' w'' : Writer} {back back' : List Bool} (h : Adds w back w') (h' : Adds w' back' w'') :
    Adds w (back ++ back') w'' where
  bits := by rw [h'.bits, h.bits, List.append_assoc]
  order := h'.order.trans h.order
  pending_lt := h'.pending_lt ∘ h.pending_lt

theorem adds_writeBits (w : Writer) (value : UInt8) {count : Nat} (hpos : 1 ≤ count) (hle : count ≤ 8) :
    Adds w (w.order.bits count value.toNat) (w.writeBits value count) := by
  have hcount : min (max count 1) 8 = count := by omega
  have hlength : (w.pending ++ w.order.bits count value.toNat).length = w.pending.length + count := by
    rw [List.length_append, BitOrder.length_bits]
  unfold writeBits
  rw [hcount]
  dsimp only
  split
  · rename_i hshort
    exact ⟨(List.append_assoc ..).symm, rfl, fun _ => hshort⟩
  · rename_i hlong
    have hbyte := w.order.ofByte_toByte ((w.pending ++ w.order.bits count value.toNat).take 8)
      (by rw [List.length_take]; omega)
    refine ⟨?_, rfl, fun hpending => ?_⟩
    · change (w.bytes.push _).toList.flatMap w.order.ofByte ++ _ = _
      rw [Array.toList_push, List.flatMap_append, List.flatMap_singleton, hbyte, List.append_assoc,
        List.take_append_drop, bits, List.append_assoc]
    · change ((w.pending ++ w.order.bits count value.toNat).drop 8).length < 8
      rw [List.length_drop]
      omega

theorem adds_writeByte (w : Writer) (value : UInt8) : Adds w (w.order.ofByte value) (w.writeByte value) := by
  unfold writeByte
  split
  · rename_i hempty
    have hpending := List.isEmpty_iff.mp hempty
    refine ⟨?_, rfl, id⟩
    change (w.bytes.push _).toList.flatMap w.order.ofByte ++ w.pending = _
    rw [Array.toList_push, List.flatMap_append, List.flatMap_singleton, bits, hpending, List.append_nil, List.append_nil]
  · exact w.adds_writeBits value (by decide) (by decide)

theorem adds_writeNumber (w : Writer) (count : Nat) (order : ByteOrder) (value : Nat) :
    Adds w ((order.bytes count value).flatMap w.order.ofByte) (w.writeNumber count order value) := by
  unfold writeNumber
  induction order.bytes count value generalizing w with
  | nil => exact .refl w
  | cons b bytes ih =>
    have hfirst := w.adds_writeByte b
    have hothers := ih (w.writeByte b)
    rw [hfirst.order] at hothers
    exact hfirst.trans hothers

/-- A writer that has the first bits of some bytes gives the bytes that they lie in. -/
theorem toBytes_eq_firstBits {w : Writer} {bytes : List UInt8} (hpending : w.pending.length < 8)
    (h : w.bits <+: bytes.flatMap w.order.ofByte) : w.toBytes = w.order.firstBits w.bits.length bytes := by
  obtain ⟨rest, hrest⟩ := h
  have hlength : w.bits.length = 8 * w.bytes.toList.length + w.pending.length := by
    rw [bits, List.length_append, BitOrder.length_flatMap_ofByte]
  have hdiv : w.bits.length / 8 = w.bytes.toList.length := by omega
  have hmod : w.bits.length % 8 = w.pending.length := by omega
  rw [bits, List.append_assoc] at hrest
  obtain ⟨others, rfl, hothers⟩ := w.order.of_flatMap_ofByte_append hrest
  rw [BitOrder.firstBits, hdiv, hmod, List.take_left, toBytes, align]
  by_cases hnone : w.pending = []
  · rw [if_pos (List.isEmpty_iff.mpr hnone), hnone, List.length_nil, if_pos rfl, List.append_nil]
  · have hsome : w.pending.length ≠ 0 := by simpa using hnone
    rw [if_neg (by simpa using hnone), if_neg hsome]
    cases others with
    | nil =>
      have hempty : w.pending = [] := (List.append_eq_nil_iff.mp hothers).1
      exact absurd hempty hnone
    | cons b others =>
      rw [List.flatMap_cons] at hothers
      have htake := congrArg (List.take w.pending.length) hothers
      rw [List.take_left, List.take_append_of_le_length (by rw [BitOrder.length_ofByte]; omega)] at htake
      have hkeep : w.order.toByte w.pending = w.order.keep w.pending.length b := by
        conv_lhs => rw [htake]
        exact w.order.toByte_take (Nat.le_of_lt hpending) b
      rw [List.getElem?_append_right (Nat.le_refl _), Nat.sub_self, List.getElem?_cons_zero, Option.toList_some,
        List.map_singleton, ← hkeep]
      exact Array.toList_push

end Writer
end LayoutScript
