import Mathlib.Data.Nat.Bitwise
import LayoutScript.Bits.Buffered
import LayoutScript.Proofs.BitStreams

/-! # Shifted bits as lists

The unread bits of a buffer and those of a byte being filled are lists of bits in reading order.
Shifting bits out of a byte takes them from the front of its list, and shifting them into a number
puts them behind. The buffered reader and writer do on their bits what the reader and the writer
of lists do.
-/
namespace LayoutScript

/-! ## Sixteen bits -/

theorem toNat_shiftLeft_ofNat {k : Nat} (hk : k < 16) (n : UInt16) :
    (n <<< UInt16.ofNat k).toNat = n.toNat * 2 ^ k % 2 ^ 16 := by
  have hamount : (UInt16.ofNat k).toNat % 16 = k := by
    rw [UInt16.toNat_ofNat']
    omega
  rw [UInt16.toNat_shiftLeft, hamount, Nat.shiftLeft_eq]

theorem toNat_shiftRight_ofNat {k : Nat} (hk : k < 16) (n : UInt16) :
    (n >>> UInt16.ofNat k).toNat = n.toNat / 2 ^ k := by
  have hamount : (UInt16.ofNat k).toNat % 16 = k := by
    rw [UInt16.toNat_ofNat']
    omega
  rw [UInt16.toNat_shiftRight, hamount, Nat.shiftRight_eq_div_pow]

theorem toNat_and_lowMask {k : Nat} (hk : k < 16) (n : UInt16) : (n &&& lowMask k).toNat = n.toNat % 2 ^ k := by
  have hpow : 2 ^ k < 2 ^ 16 := Nat.pow_lt_pow_right (by decide) hk
  have hone : (1 <<< UInt16.ofNat k : UInt16).toNat = 2 ^ k := by
    rw [toNat_shiftLeft_ofNat hk, UInt16.toNat_one, Nat.one_mul, Nat.mod_eq_of_lt hpow]
  have hmask : (lowMask k).toNat = 2 ^ k - 1 := by
    rw [lowMask, UInt16.toNat_sub_of_le, hone, UInt16.toNat_one]
    rw [UInt16.le_iff_toNat_le, hone]
    exact Nat.one_le_two_pow
  rw [UInt16.toNat_and, hmask, Nat.and_two_pow_sub_one_eq_mod]

theorem toNat_and_low (n : UInt16) : (n &&& 0xFF).toUInt8.toNat = n.toNat % 2 ^ 8 := by
  have hmask : (0xFF : UInt16).toNat = 2 ^ 8 - 1 := rfl
  rw [UInt16.toNat_toUInt8, UInt16.toNat_and, hmask, Nat.and_two_pow_sub_one_eq_mod, Nat.mod_mod]

theorem lowBits_append (j k n : Nat) : lowBits (j + k) n = lowBits j n ++ lowBits k (n / 2 ^ j) := by
  induction j generalizing n with
  | zero => simp [lowBits]
  | succ j ih =>
    rw [Nat.succ_add, lowBits_succ, ih, lowBits_succ, List.cons_append, Nat.div_div_eq_div_mul, Nat.pow_succ']

namespace BitOrder
variable (order : BitOrder)

theorem toNat_front (take : Nat) (htake : take ≤ 8) (b : UInt8) :
    (order.front take b).toNat = order.value ((order.ofByte b).take take) := by
  have hlow : lowBits 8 b.toNat = lowBits take b.toNat ++ lowBits (8 - take) (b.toNat / 2 ^ take) := by
    rw [← lowBits_append, Nat.add_sub_cancel' htake]
  have hhigh : lowBits 8 b.toNat = lowBits (8 - take) b.toNat ++ lowBits take (b.toNat / 2 ^ (8 - take)) := by
    rw [← lowBits_append, Nat.sub_add_cancel htake]
  cases order with
  | lsb0 =>
    rw [front, toNat_and_lowMask (by omega), UInt8.toNat_toUInt16, ofByte, bits, hlow, List.take_left' (length_lowBits ..)]
    exact (ofLowBits_lowBits take b.toNat).symm
  | msb0 =>
    rw [front, toNat_and_lowMask (by omega), toNat_shiftRight_ofNat (by omega), UInt8.toNat_toUInt16, ofByte, bits, hhigh,
      List.reverse_append, List.take_left' (by simp), value, List.reverse_reverse, ofLowBits_lowBits]

/-- What is left of a byte are its further bits. -/
theorem take_ofByte_shiftOut (take k : Nat) (h : take + k ≤ 8) (b : UInt8) :
    (order.ofByte (order.shiftOut take b)).take k = ((order.ofByte b).drop take).take k := by
  have hb := b.toNat_lt
  apply List.ext_getElem
  · simp only [List.length_take, List.length_drop, length_ofByte]
    omega
  intro i hi hi'
  have hik : i < k := by
    rw [List.length_take] at hi
    omega
  cases order with
  | lsb0 =>
    have hshift : (lsb0.shiftOut take b).toNat = b.toNat / 2 ^ take := by
      have hle := Nat.div_le_self b.toNat (2 ^ take)
      rw [shiftOut, UInt16.toNat_toUInt8, toNat_shiftRight_ofNat (by omega), UInt8.toNat_toUInt16]
      exact Nat.mod_eq_of_lt (Nat.lt_of_le_of_lt hle hb)
    simp [ofByte, bits, lowBits, hshift, Nat.testBit_div_two_pow, Nat.add_comm]
  | msb0 =>
    have hshift : (msb0.shiftOut take b).toNat = b.toNat * 2 ^ take % 2 ^ 8 := by
      rw [shiftOut, toNat_and_low, toNat_shiftLeft_ofNat (by omega), UInt8.toNat_toUInt16]
      omega
    simp only [ofByte, bits, hshift, List.getElem_take, List.getElem_drop, List.getElem_reverse, lowBits,
      List.getElem_map, List.getElem_range, List.length_map, List.length_range, Nat.testBit_mod_two_pow, Nat.testBit_mul_two_pow]
    have hplace : 8 - 1 - i - take = 8 - 1 - (take + i) := by omega
    have hlow : 8 - 1 - i < 8 := by omega
    have hhigh : take ≤ 8 - 1 - i := by omega
    simp only [hlow, hhigh, hplace, decide_true, Bool.true_and]

theorem value_nil : (0 : UInt16).toNat = order.value [] := by cases order <;> rfl

theorem value_append_lsb0 (bits more : List Bool) :
    lsb0.value (bits ++ more) = lsb0.value more * 2 ^ bits.length + lsb0.value bits := by
  rw [value, value, value, ofLowBits_append, Nat.mul_comm, Nat.add_comm]

theorem value_append_msb0 (bits more : List Bool) :
    msb0.value (bits ++ more) = msb0.value bits * 2 ^ more.length + msb0.value more := by
  rw [value, value, value, List.reverse_append, ofLowBits_append, List.length_reverse, Nat.mul_comm, Nat.add_comm]

/-- Bits that are shifted in go behind those that are there. -/
theorem toNat_shiftIn {bits more : List Bool} {acc n : UInt16} (hacc : acc.toNat = order.value bits)
    (hn : n.toNat = order.value more) (hlength : bits.length + more.length < 16) :
    (order.shiftIn bits.length acc more.length n).toNat = order.value (bits ++ more) := by
  have hroom : ∀ {m j k : Nat}, m < 2 ^ j → j + k < 16 → m * 2 ^ k < 2 ^ 16 := fun {m j k} hm hjk => calc
    m * 2 ^ k < 2 ^ j * 2 ^ k := Nat.mul_lt_mul_of_pos_right hm (Nat.two_pow_pos k)
    _ ≤ 2 ^ 16 := by
      rw [← Nat.pow_add]
      exact Nat.pow_le_pow_right (by decide) hjk.le
  have hbits := order.value_lt bits
  have hmore := order.value_lt more
  rw [← hacc] at hbits
  rw [← hn] at hmore
  cases order with
  | lsb0 =>
    rw [shiftIn, UInt16.toNat_or, toNat_shiftLeft_ofNat (by omega), Nat.mod_eq_of_lt (hroom hmore (by omega)),
      ← Nat.shiftLeft_eq, Nat.or_comm, ← Nat.shiftLeft_add_eq_or_of_lt hbits, Nat.shiftLeft_eq, value_append_lsb0, hacc, hn]
  | msb0 =>
    rw [shiftIn, UInt16.toNat_or, toNat_shiftLeft_ofNat (by omega), Nat.mod_eq_of_lt (hroom hbits hlength),
      ← Nat.shiftLeft_eq, ← Nat.shiftLeft_add_eq_or_of_lt hmore, Nat.shiftLeft_eq, value_append_msb0, hacc, hn]

end BitOrder

/-! ## The reader -/

namespace BufferedReader

/-- The unread bits of the buffer, in reading order. -/
def pending (r : BufferedReader) : List Bool := (r.order.ofByte r.buffer).take r.held

/-- The reader of lists with the same unread bits. -/
def view (r : BufferedReader) : Reader := ⟨r.data, r.order, r.pos, r.base, r.pending⟩

variable {r : BufferedReader} {count filled : Nat} {lenient : Bool} {acc : UInt16} {bits : List Bool}

@[simp]
theorem data_view (r : BufferedReader) : r.view.data = r.data := rfl

@[simp]
theorem pos_view (r : BufferedReader) : r.view.pos = r.pos := rfl

@[simp]
theorem pending_view (r : BufferedReader) : r.view.pending = r.pending := rfl

theorem length_pending (r : BufferedReader) : r.pending.length = r.held := by
  rw [pending, List.length_take, BitOrder.length_ofByte, Nat.min_eq_left r.held_le]

theorem isEmpty_pending (r : BufferedReader) : r.pending.isEmpty = decide (r.held = 0) := by
  rw [← r.length_pending]
  cases r.pending <;> rfl

theorem consumed_view (r : BufferedReader) : r.view.consumed = r.consumed := by
  simp [consumed, Reader.consumed, length_pending]

theorem left_view (r : BufferedReader) : r.view.left = r.left := by
  simp [left, remaining, Reader.left, Reader.remaining, length_pending]

theorem hasMore_view (r : BufferedReader) : BitSource.hasMore r.view = BitSource.hasMore r :=
  congrArg (fun n => decide (0 < n)) r.left_view

theorem pending_drop {take : Nat} (h : take ≤ r.held) : (r.drop take).pending = r.pending.drop take := by
  have hheld := r.held_le
  have hbits := r.order.take_ofByte_shiftOut take (r.held - take) (by omega) r.buffer
  rw [pending, pending, List.drop_take]
  exact hbits

theorem view_drop {take : Nat} (h : take ≤ r.held) :
    (r.drop take).view = { r.view with pending := r.pending.drop take } := by
  rw [← pending_drop h]
  rfl

theorem gather_full (h : count ≤ filled) : gather count lenient acc filled r = (.ok (acc.toUInt8, filled), r) := by
  rw [gather, if_neg (Nat.not_lt.mpr h)]

/-- Bits of the buffer go behind those that are gathered. -/
theorem gather_held (lenient : Bool) (filled : Nat) (bits : List Bool) (hbits : bits.length = filled)
    (hacc : acc.toNat = r.order.value bits) (hless : filled < count) (hcount : count ≤ 8) (hheld : r.held ≠ 0) :
    ∃ acc', gather count lenient acc filled r =
        gather count lenient acc' (filled + min (count - filled) r.held) (r.drop (min (count - filled) r.held)) ∧
      acc'.toNat = r.order.value (bits ++ r.pending.take (count - filled)) := by
  refine ⟨_, by rw [gather, if_pos hless, if_neg hheld], ?_⟩
  subst hbits
  have hfront := r.order.toNat_front (min (count - bits.length) r.held) (by omega) r.buffer
  have hlength : ((r.order.ofByte r.buffer).take (min (count - bits.length) r.held)).length = min (count - bits.length) r.held := by
    have hle := r.held_le
    rw [List.length_take, BitOrder.length_ofByte]
    omega
  have hvalue := r.order.toNat_shiftIn hacc hfront (by rw [hlength]; omega)
  rw [hlength] at hvalue
  rw [pending, List.take_take]
  exact hvalue

/-- The byte at hand has what is missing. -/
theorem gather_enough (lenient : Bool) (filled : Nat) (bits : List Bool) (hbits : bits.length = filled)
    (hacc : acc.toNat = r.order.value bits) (hless : filled < count) (hcount : count ≤ 8) (henough : count ≤ filled + r.held) :
    gather count lenient acc filled r =
      (.ok (UInt8.ofNat (r.order.value (bits ++ r.pending.take (count - filled))), count), r.drop (count - filled)) := by
  obtain ⟨acc', hgather, hacc'⟩ := gather_held lenient filled bits hbits hacc hless hcount (by omega)
  have htake : min (count - filled) r.held = count - filled := by omega
  have hwhole : filled + (count - filled) = count := by omega
  rw [hgather, htake, hwhole, gather_full (Nat.le_refl count), ← hacc']
  rfl

/-- What the byte at hand has is taken, and it is not enough. -/
theorem gather_short (lenient : Bool) (hcount : count ≤ 8) (hshort : r.held < count) :
    ∃ r' acc, gather count lenient 0 0 r = gather count lenient acc r.held r' ∧ acc.toNat = r.order.value r.pending ∧
      r'.held = 0 ∧ r'.view = r.view.align := by
  by_cases hheld : r.held = 0
  · have hnone : r.pending = [] := by rw [pending, hheld, List.take_zero]
    refine ⟨r, 0, by rw [hheld], ?_, hheld, ?_⟩
    · rw [hnone]
      exact r.order.value_nil
    · rw [view, hnone]
      rfl
  · obtain ⟨acc, hgather, hacc⟩ := gather_held (r := r) lenient 0 [] rfl r.order.value_nil (by omega) hcount hheld
    have hmin : min (count - 0) r.held = r.held := by omega
    rw [hmin, Nat.zero_add] at hgather
    rw [List.nil_append, List.take_of_length_le (by rw [length_pending]; omega)] at hacc
    refine ⟨r.drop r.held, acc, hgather, hacc, Nat.sub_self _, ?_⟩
    rw [view, pending_drop (Nat.le_refl _), List.drop_of_length_le (Nat.le_of_eq r.length_pending)]
    rfl

/-- The reader with the byte in its buffer that comes next. -/
def refilled (r : BufferedReader) (b : UInt8) : BufferedReader := load { r with pos := r.pos + 1 } b

theorem pending_refilled (r : BufferedReader) (b : UInt8) : (r.refilled b).pending = r.order.ofByte b :=
  List.take_of_length_le (Nat.le_of_eq (r.order.length_ofByte b))

theorem gather_refilled {b : UInt8} (lenient : Bool) (hless : filled < count) (hempty : r.held = 0) (hb : r.data[r.pos]? = some b) :
    gather count lenient acc filled r = gather count lenient acc filled (r.refilled b) := by
  have hpos : ¬r.data.size ≤ r.pos := Nat.not_le.mpr (Array.getElem?_eq_some_iff.mp hb).1
  rw [gather, if_pos hless, if_pos hempty, decide_eq_false hpos, Bool.and_false, if_neg Bool.false_ne_true, nextByte, hb]
  rfl

theorem gather_end (lenient : Bool) (hless : filled < count) (hempty : r.held = 0) (hnone : r.data[r.pos]? = none) :
    gather count lenient acc filled r =
      if lenient && decide (0 < filled) then (.ok (acc.toUInt8, filled), r)
      else (.error (.input (.endOfInput r.counter (count - filled))), r) := by
  have hpos : r.data.size ≤ r.pos := Array.getElem?_eq_none_iff.mp hnone
  rw [gather, if_pos hless, if_pos hempty, decide_eq_true hpos, Bool.and_true, nextByte, hnone]

/-- The bits are those of the byte at hand and the first ones of the next byte. -/
theorem gather_across {b : UInt8} (lenient : Bool) (hcount : count ≤ 8) (hshort : r.held < count) (hb : r.data[r.pos]? = some b) :
    ∃ r', gather count lenient 0 0 r =
        (.ok (UInt8.ofNat (r.order.value ((r.pending ++ r.order.ofByte b).take count)), count), r') ∧
      r'.view = { r.view with pos := r.pos + 1, pending := (r.pending ++ r.order.ofByte b).drop count } := by
  obtain ⟨r', acc, hgather, hacc, hempty, hview⟩ := gather_short lenient hcount hshort
  have horder : r'.order = r.order := congrArg Reader.order hview
  have hb' : r'.data[r'.pos]? = some b := by
    rw [show r'.data = r.data from congrArg Reader.data hview, show r'.pos = r.pos from congrArg Reader.pos hview, hb]
  have hacc' : acc.toNat = (r'.refilled b).order.value r.pending := by
    rw [hacc, ← horder]
    rfl
  have henough : count ≤ r.held + (r'.refilled b).held := by
    change count ≤ r.held + 8
    omega
  have htake : (r.pending ++ r.order.ofByte b).take count = r.pending ++ (r.order.ofByte b).take (count - r.held) := by
    rw [List.take_append, r.length_pending, List.take_of_length_le (by rw [r.length_pending]; omega)]
  have hdrop : (r.pending ++ r.order.ofByte b).drop count = (r.order.ofByte b).drop (count - r.held) := by
    rw [List.drop_append, r.length_pending, List.drop_of_length_le (by rw [r.length_pending]; omega), List.nil_append]
  refine ⟨(r'.refilled b).drop (count - r.held), ?_, ?_⟩
  · rw [hgather, gather_refilled lenient hshort hempty hb',
      gather_enough lenient r.held r.pending r.length_pending hacc' hshort hcount henough, pending_refilled, htake, horder]
    exact congrArg (fun order : BitOrder => (Except.ok (UInt8.ofNat (order.value _), count), _)) horder
  · rw [view_drop (by change count - r.held ≤ 8; omega), pending_refilled, horder, hdrop]
    exact congrArg (fun v : Reader => { v with pos := v.pos + 1, pending := (r.order.ofByte b).drop (count - r.held) }) hview

/-- There is no next byte. -/
theorem gather_last (lenient : Bool) (hcount : count ≤ 8) (hshort : r.held < count) (hnone : r.data[r.pos]? = none) :
    ∃ r', gather count lenient 0 0 r =
        (if lenient && decide (0 < r.held) then .ok (UInt8.ofNat (r.order.value r.pending), r.held)
          else .error (.input (.endOfInput r.counter (count - r.held))), r') ∧ r'.view = r.view.align := by
  obtain ⟨r', acc, hgather, hacc, hempty, hview⟩ := gather_short lenient hcount hshort
  have hnone' : r'.data[r'.pos]? = none := by
    rw [show r'.data = r.data from congrArg Reader.data hview, show r'.pos = r.pos from congrArg Reader.pos hview, hnone]
  have hcounter : r'.counter = r.counter := congrArg Reader.counter hview
  refine ⟨r', ?_, hview⟩
  rw [hgather, gather_end lenient hshort hempty hnone', hcounter, ← hacc]
  split <;> rfl

theorem lifts_takeBits (count : Nat) (lenient : Bool) :
    Stateful.Lifts view (takeBits count lenient) (Reader.takeBits count lenient) := by
  intro r
  rw [takeBits, Reader.takeBits]
  by_cases hcount : count = 0 ∨ 8 < count
  · rw [if_pos hcount, if_pos hcount]
    rfl
  rw [if_neg hcount, if_neg hcount, pending_view, length_pending]
  by_cases hheld : count ≤ r.held
  · rw [if_pos hheld, gather_enough lenient 0 [] rfl r.order.value_nil (by omega) (by omega) (by omega), Nat.sub_zero]
    exact congrArg (Prod.mk _) (view_drop hheld)
  rw [if_neg hheld]
  cases hb : r.data[r.pos]? with
  | some b =>
    obtain ⟨r', hgather, hview⟩ := gather_across lenient (by omega) (Nat.lt_of_not_le hheld) hb
    simp only [hgather, hview, data_view, pos_view, hb]
    rfl
  | none =>
    obtain ⟨r', hgather, hview⟩ := gather_last lenient (by omega) (Nat.lt_of_not_le hheld) hb
    have hsome : (!r.pending.isEmpty) = decide (0 < r.held) := by simp [r.isEmpty_pending, Nat.pos_iff_ne_zero]
    simp only [hgather, hview, data_view, pos_view, hb, hsome]
    split <;> rfl

theorem lifts_readBits (count : Nat) : Stateful.Lifts view (readBits count) (Reader.readBits count) :=
  (lifts_takeBits count false).bind fun _ => .pure _

theorem lifts_readByte : Stateful.Lifts view readByte Reader.readByte := by
  intro r
  rw [readByte, Reader.readByte, pending_view, isEmpty_pending]
  by_cases hempty : r.held = 0
  · rw [if_pos hempty, if_pos (decide_eq_true hempty), nextByte]
    cases hb : r.data[r.pos]? with
    | some b =>
      simp only [data_view, pos_view, hb]
      rfl
    | none =>
      simp only [data_view, pos_view, hb]
      rfl
  · rw [if_neg hempty, if_neg (by simpa using hempty)]
    exact lifts_readBits 8 r

theorem lifts_skipBytes (count : Nat) : Stateful.Lifts view (skipBytes count) (Reader.skipBytes count) := by
  intro r
  rw [skipBytes, Reader.skipBytes, pending_view, isEmpty_pending]
  by_cases hempty : r.held = 0
  · rw [if_neg (by omega), if_pos (decide_eq_true hempty)]
    change _ = if r.remaining < count then _ else _
    split
    · rfl
    · rfl
  · rw [if_pos (Nat.pos_of_ne_zero hempty), if_neg (by simpa using hempty)]
    exact lifts_readByte.repeatedly count r

theorem lifts_fill (count : Nat) (r : BufferedReader) :
    ((BitSource.fill count r).1, (BitSource.fill count r).2.view) = BitSource.fill count r.view := by
  induction count generalizing r with
  | zero => rfl
  | succ count ih =>
    have hbyte : ((BitSource.readByte.on r).1, (BitSource.readByte.on r).2.view) = BitSource.readByte.on r.view :=
      lifts_readByte r
    rw [BitSource.fill, BitSource.fill, ← hbyte]
    rcases BitSource.readByte.on r with ⟨fault | b, r'⟩
    · rfl
    · dsimp only
      rw [← ih r']

theorem lifts_readBytes (count : Nat) :
    Stateful.Lifts view (BitSource.readBytes count) (BitSource.readBytes count) := by
  intro r
  rw [BitSource.readBytes, BitSource.readBytes, ← lifts_fill]
  rcases BitSource.fill count r with ⟨⟨_ | fault, bytes⟩, r'⟩ <;> rfl

theorem lifts_readNumber (count : Nat) (order : ByteOrder) :
    Stateful.Lifts view (BitSource.readNumber count order) (BitSource.readNumber count order) :=
  (lifts_readBytes count).bind fun _ => .pure _

theorem lifts_alignTo (size : Nat) : Stateful.Lifts view (BitSource.alignTo size) (BitSource.alignTo size) := by
  refine Stateful.Lifts.bind (fun _ => rfl) fun _ => ?_
  by_cases hsize : 1 < size
  · simp only [if_pos hsize]
    exact fun r => lifts_readByte.repeatedly _ r
  · simp only [if_neg hsize]
    exact .pure _

end BufferedReader

/-! ## The writer -/

namespace BufferedWriter

/-- The bits of the byte being filled, in writing order. -/
def pending (w : BufferedWriter) : List Bool := w.order.bits w.held w.acc.toNat

/-- The writer of lists with the same bits. -/
def view (w : BufferedWriter) : Writer := ⟨w.order, w.bytes, w.pending⟩

/-- Fewer than eight bits are held, and the number has no others. -/
structure Fits (w : BufferedWriter) : Prop where
  held_lt : w.held < 8
  acc_lt : w.acc.toNat < 2 ^ w.held

variable {w : BufferedWriter}

theorem Fits.value_pending (h : w.Fits) : w.acc.toNat = w.order.value w.pending := by
  rw [pending, BitOrder.value_bits, Nat.mod_eq_of_lt h.acc_lt]

@[simp]
theorem pending_view (w : BufferedWriter) : w.view.pending = w.pending := rfl

theorem length_pending (w : BufferedWriter) : w.pending.length = w.held := w.order.length_bits _ _

theorem isEmpty_pending (w : BufferedWriter) : w.pending.isEmpty = decide (w.held = 0) := by
  rw [← w.length_pending]
  cases w.pending <;> rfl

theorem fits_of_value {order : BitOrder} {bits : List Bool} {acc : UInt16} (hacc : acc.toNat = order.value bits) {held : Nat}
    (hlength : bits.length = held) (hheld : held < 8) (bytes : Array UInt8) :
    Fits ⟨order, bytes, acc, held⟩ ∧ view ⟨order, bytes, acc, held⟩ = ⟨order, bytes, bits⟩ := by
  have hbits : order.bits held acc.toNat = bits := by
    rw [hacc, ← hlength, order.bits_value]
  refine ⟨⟨hheld, ?_⟩, congrArg (Writer.mk order bytes) hbits⟩
  change acc.toNat < 2 ^ held
  rw [hacc, ← hlength]
  exact order.value_lt bits

/-- The number with the bits to be written behind those that are held. -/
theorem Fits.toNat_shiftIn (h : w.Fits) (value : UInt8) {count : Nat} (hcount : count ≤ 8) :
    (w.order.shiftIn w.held w.acc count (value.toUInt16 &&& lowMask count)).toNat =
      w.order.value (w.pending ++ w.order.bits count value.toNat) := by
  have hheld := h.held_lt
  have hnew : (value.toUInt16 &&& lowMask count).toNat = w.order.value (w.order.bits count value.toNat) := by
    rw [toNat_and_lowMask (by omega), UInt8.toNat_toUInt16, BitOrder.value_bits]
  have hshift := w.order.toNat_shiftIn h.value_pending hnew (by rw [w.length_pending, BitOrder.length_bits]; omega)
  rwa [w.length_pending, BitOrder.length_bits] at hshift

theorem toNat_toByte (order : BitOrder) {bits : List Bool} (h : bits.length ≤ 8) :
    (order.toByte bits).toNat = order.value (bits ++ List.replicate (8 - bits.length) false) := by
  have hlt := order.value_lt (bits ++ List.replicate (8 - bits.length) false)
  rw [List.length_append, List.length_replicate, Nat.add_sub_cancel' h] at hlt
  rw [order.toByte_eq h, UInt8.toNat_ofNat', Nat.mod_eq_of_lt hlt]

theorem toNat_toByte_take (order : BitOrder) {bits : List Bool} (h : 8 ≤ bits.length) :
    (order.toByte (bits.take 8)).toNat = order.value (bits.take 8) := by
  have hlength : (bits.take 8).length = 8 := List.length_take_of_le h
  rw [toNat_toByte order hlength.le, hlength, Nat.sub_self, List.replicate_zero, List.append_nil]

/-- The first eight bits of a number make a byte, and the others are left. -/
theorem split_lsb0 {bits : List Bool} {acc : UInt16} (hacc : acc.toNat = BitOrder.lsb0.value bits) (hlength : 8 ≤ bits.length) :
    (acc &&& 0xFF).toUInt8 = BitOrder.lsb0.toByte (bits.take 8) ∧ (acc >>> 8).toNat = BitOrder.lsb0.value (bits.drop 8) := by
  have hfirst := BitOrder.lsb0.value_lt (bits.take 8)
  have hsplit := BitOrder.value_append_lsb0 (bits.take 8) (bits.drop 8)
  rw [List.take_append_drop, ← hacc, List.length_take_of_le hlength] at hsplit
  rw [List.length_take_of_le hlength] at hfirst
  constructor
  · apply UInt8.toNat_inj.mp
    rw [toNat_and_low, toNat_toByte_take _ hlength]
    omega
  · rw [show acc >>> 8 = acc >>> UInt16.ofNat 8 from rfl, toNat_shiftRight_ofNat (by decide)]
    omega

theorem split_msb0 {bits : List Bool} {acc : UInt16} (hacc : acc.toNat = BitOrder.msb0.value bits) {held : Nat}
    (hlength : bits.length = 8 + held) (hheld : held < 8) :
    ((acc >>> UInt16.ofNat held) &&& 0xFF).toUInt8 = BitOrder.msb0.toByte (bits.take 8) ∧
      (acc &&& lowMask held).toNat = BitOrder.msb0.value (bits.drop 8) := by
  have hfirst := BitOrder.msb0.value_lt (bits.take 8)
  have hrest := BitOrder.msb0.value_lt (bits.drop 8)
  have hdrop : (bits.drop 8).length = held := by
    rw [List.length_drop, hlength, Nat.add_sub_cancel_left]
  have hsplit := BitOrder.value_append_msb0 (bits.take 8) (bits.drop 8)
  rw [List.take_append_drop, ← hacc, hdrop] at hsplit
  rw [List.length_take_of_le (by omega)] at hfirst
  rw [hdrop] at hrest
  constructor
  · apply UInt8.toNat_inj.mp
    rw [toNat_and_low, toNat_toByte_take _ (by omega), toNat_shiftRight_ofNat (by omega), hsplit, Nat.mul_comm,
      Nat.mul_add_div (Nat.two_pow_pos held), Nat.div_eq_of_lt hrest, Nat.add_zero, Nat.mod_eq_of_lt hfirst]
  · rw [toNat_and_lowMask (by omega), hsplit, Nat.mul_comm, Nat.mul_add_mod, Nat.mod_eq_of_lt hrest]

/-- A number of fewer than eight bits makes a byte with zero bits behind them. -/
theorem padded_lsb0 {bits : List Bool} {acc : UInt16} (hacc : acc.toNat = BitOrder.lsb0.value bits) (hlength : bits.length < 8) :
    (acc &&& 0xFF).toUInt8 = BitOrder.lsb0.toByte bits := by
  have hlt := BitOrder.lsb0.value_lt bits
  have hpow : 2 ^ bits.length < 2 ^ 8 := Nat.pow_lt_pow_right (by decide) hlength
  have hzero : BitOrder.lsb0.value (List.replicate (8 - bits.length) false) = 0 := ofLowBits_zeros _
  apply UInt8.toNat_inj.mp
  rw [toNat_and_low, toNat_toByte _ hlength.le, BitOrder.value_append_lsb0, hzero, Nat.zero_mul, Nat.zero_add, hacc]
  exact Nat.mod_eq_of_lt (Nat.lt_trans hlt hpow)

theorem padded_msb0 {bits : List Bool} {acc : UInt16} (hacc : acc.toNat = BitOrder.msb0.value bits) (hlength : bits.length < 8) :
    ((acc <<< UInt16.ofNat (8 - bits.length)) &&& 0xFF).toUInt8 = BitOrder.msb0.toByte bits := by
  have hzero : BitOrder.msb0.value (List.replicate (8 - bits.length) false) = 0 := by
    rw [BitOrder.value, List.reverse_replicate, ofLowBits_zeros]
  have hsmall := (BitOrder.msb0.toByte bits).toNat_lt
  apply UInt8.toNat_inj.mp
  rw [toNat_toByte _ hlength.le, BitOrder.value_append_msb0, hzero, Nat.add_zero, List.length_replicate, ← hacc] at hsmall ⊢
  rw [toNat_and_low, toNat_shiftLeft_ofNat (by omega), Nat.mod_eq_of_lt (Nat.lt_trans hsmall (by decide)), Nat.mod_eq_of_lt hsmall]

theorem Fits.writeBits (h : w.Fits) (value : UInt8) (count : Nat) :
    (w.writeBits value count).Fits ∧ (w.writeBits value count).view = w.view.writeBits value count := by
  rw [BufferedWriter.writeBits, Writer.writeBits]
  have hcount : min (max count 1) 8 ≤ 8 := Nat.min_le_right _ _
  generalize min (max count 1) 8 = c at *
  have hacc := h.toNat_shiftIn value hcount
  have hlength : (w.pending ++ w.order.bits c value.toNat).length = w.held + c := by
    rw [List.length_append, w.length_pending, BitOrder.length_bits]
  have hheld := h.held_lt
  change _ ∧ _ = if (w.pending ++ w.order.bits c value.toNat).length < 8
    then (⟨w.order, w.bytes, w.pending ++ w.order.bits c value.toNat⟩ : Writer)
    else ⟨w.order, w.bytes.push (w.order.toByte ((w.pending ++ w.order.bits c value.toNat).take 8)),
      (w.pending ++ w.order.bits c value.toNat).drop 8⟩
  generalize w.order.shiftIn w.held w.acc c (value.toUInt16 &&& lowMask c) = acc at *
  generalize w.pending ++ w.order.bits c value.toNat = bits at *
  rw [hlength]
  by_cases hroom : w.held + c < 8
  · rw [if_pos hroom, if_pos hroom]
    exact fits_of_value hacc hlength hroom w.bytes
  rw [if_neg hroom, if_neg hroom]
  have hdrop : (bits.drop 8).length = w.held + c - 8 := by
    rw [List.length_drop, hlength]
  have hless : w.held + c - 8 < 8 := by omega
  cases horder : w.order with
  | lsb0 =>
    rw [horder] at hacc
    obtain ⟨hbyte, hrest⟩ := split_lsb0 hacc (by omega)
    dsimp only
    rw [hbyte]
    exact fits_of_value hrest hdrop hless _
  | msb0 =>
    rw [horder] at hacc
    obtain ⟨hbyte, hrest⟩ := split_msb0 hacc (show bits.length = 8 + (w.held + c - 8) by omega) hless
    dsimp only
    rw [hbyte]
    exact fits_of_value hrest hdrop hless _

theorem Fits.align (h : w.Fits) : w.align.Fits ∧ w.align.view = w.view.align := by
  rw [BufferedWriter.align, Writer.align, pending_view, isEmpty_pending]
  by_cases hheld : w.held = 0
  · rw [if_pos hheld, if_pos (decide_eq_true hheld)]
    exact ⟨h, rfl⟩
  rw [if_neg hheld, if_neg (by simpa using hheld)]
  have hacc := h.value_pending
  have hlength := w.length_pending
  have hless : w.pending.length < 8 := by simpa [hlength] using h.held_lt
  have hzero := w.order.value_nil
  change _ ∧ _ = (⟨w.order, w.bytes.push (w.order.toByte w.pending), []⟩ : Writer)
  rw [← hlength]
  cases horder : w.order with
  | lsb0 =>
    rw [horder] at hacc hzero
    dsimp only
    rw [padded_lsb0 hacc hless]
    exact fits_of_value hzero rfl (by decide) _
  | msb0 =>
    rw [horder] at hacc hzero
    dsimp only
    rw [padded_msb0 hacc hless]
    exact fits_of_value hzero rfl (by decide) _

theorem Fits.writeByte (h : w.Fits) (value : UInt8) :
    (w.writeByte value).Fits ∧ (w.writeByte value).view = w.view.writeByte value := by
  rw [BufferedWriter.writeByte, Writer.writeByte, pending_view, isEmpty_pending]
  by_cases hheld : w.held = 0
  · rw [if_pos hheld, if_pos (decide_eq_true hheld)]
    exact ⟨⟨h.held_lt, h.acc_lt⟩, rfl⟩
  · rw [if_neg hheld, if_neg (by simpa using hheld)]
    exact h.writeBits value 8

theorem Fits.writeNumber (h : w.Fits) (count : Nat) (order : ByteOrder) (value : Nat) :
    (w.writeNumber count order value).Fits ∧ (w.writeNumber count order value).view = w.view.writeNumber count order value := by
  rw [BufferedWriter.writeNumber, Writer.writeNumber]
  induction order.bytes count value generalizing w with
  | nil => exact ⟨h, rfl⟩
  | cons b bytes ih =>
    obtain ⟨hfits, hview⟩ := h.writeByte b
    rw [List.foldl_cons, List.foldl_cons, ← hview]
    exact ih hfits

theorem Fits.toBytes (h : w.Fits) : w.toBytes = w.view.toBytes := by
  rw [Writer.toBytes, ← h.align.2]
  rfl

end BufferedWriter
end LayoutScript
