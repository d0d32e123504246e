import Mathlib.Data.Nat.Digits.Defs
import LayoutScript.Proofs.BufferedBits

/-! # A reader as a tape of bits

Seen from outside, a reader is the sequence of all bits of its input and a position in it. A
tape answers every request from the two alone, with no byte at hand and no bits put by. The
ordinary reader answers as its tape does, whatever it was asked before, also behind requests
that failed.
-/
namespace LayoutScript

/-- What can be asked of a source of bits. -/
inductive ReadRequest where
  | bits (count : Nat)
  | bitsUpTo (count : Nat)
  | byte
  | uint16 (order : ByteOrder)
  | uint32 (order : ByteOrder)
  | uint64 (order : ByteOrder)
  | bytes (count : Nat)
  | skip (count : Nat)
  | align
  | restart
  | alignTo (size : Nat)

inductive ReadAnswer where
  | number (n : Nat)
  /-- A number and how many bits it has. -/
  | part (n width : Nat)
  /-- The bytes that were read, and the fault that kept further ones from being read. -/
  | bytes (bytes : List UInt8) (fault? : Option Fault)
  | done
  | failed (fault : Fault)

namespace ReadAnswer

/-- The answer of an action that may fail. -/
def of {α σ : Type} (answer : α → ReadAnswer) : Except Fault α × σ → ReadAnswer × σ
  | (.ok a, s) => (answer a, s)
  | (.error fault, s) => (.failed fault, s)

theorem of_ok {α σ : Type} (answer : α → ReadAnswer) (a : α) (s : σ) : of answer (.ok a, s) = (answer a, s) := rfl

theorem of_error {α σ : Type} (answer : α → ReadAnswer) (fault : Fault) (s : σ) :
    of answer (.error fault, s) = (.failed fault, s) := rfl

/-- The answer tells of the end of the input. -/
def isEndOfInput : ReadAnswer → Bool
  | .failed fault | .bytes _ (some fault) => fault.isEndOfInput
  | _ => false

end ReadAnswer

namespace ReadRequest

/-- Asks a source of bits. -/
def ask {σ : Type} [BitSource σ] : ReadRequest → σ → ReadAnswer × σ
  | .bits count, s => ReadAnswer.of (fun v => .number v.toNat) (BitSource.readBits count s)
  | .bitsUpTo count, s => ReadAnswer.of (fun p => .part p.1.toNat p.2) (BitSource.readBitsUpTo count s)
  | .byte, s => ReadAnswer.of (fun b => .number b.toNat) (BitSource.readByte s)
  | .uint16 order, s => ReadAnswer.of (fun v => .number v.toNat) (BitSource.readUInt16 order s)
  | .uint32 order, s => ReadAnswer.of (fun v => .number v.toNat) (BitSource.readUInt32 order s)
  | .uint64 order, s => ReadAnswer.of (fun v => .number v.toNat) (BitSource.readUInt64 order s)
  | .bytes count, s =>
    match BitSource.fill count s with
    | ((fault?, read), s') => (.bytes read fault?, s')
  | .skip count, s => ReadAnswer.of (fun _ => .done) (BitSource.skipBytes count s)
  | .align, s => (.done, BitSource.align s)
  | .restart, s => (.done, BitSource.restart s)
  | .alignTo size, s => ReadAnswer.of (fun _ => .done) (BitSource.alignTo size s)

/-- The answers to requests that are made one after the other. -/
def answers {σ : Type} (answer : ReadRequest → σ → ReadAnswer × σ) : List ReadRequest → σ → List ReadAnswer × σ
  | [], s => ([], s)
  | request :: requests, s =>
    match answer request s with
    | (a, s') =>
      match answers answer requests s' with
      | (as, s'') => (a :: as, s'')

end ReadRequest

/-- The bits of an input, from its first byte to its last, and a position among them. -/
structure BitTape where
  bits : List Bool
  order : BitOrder
  pos : Nat := 0
  /-- The bytes that had been begun when the counter was last restarted. -/
  base : Nat := 0

namespace BitTape

/-- The bits of a byte, its low bit first or its high bit first. -/
def bitsOf (order : BitOrder) (b : UInt8) : List Bool :=
  (List.range 8).map fun i =>
    b.toNat.testBit (match order with
      | .lsb0 => i
      | .msb0 => 7 - i)

def ofBytes (bytes : List UInt8) (order : BitOrder) : BitTape := ⟨bytes.flatMap (bitsOf order), order, 0, 0⟩

/-- The number with the given bits. The first of them is the lowest where bytes are read from
their low end, and the highest where they are read from their high end. -/
def number (order : BitOrder) (bits : List Bool) : Nat :=
  Nat.ofDigits 2 ((match order with
    | .lsb0 => bits
    | .msb0 => bits.reverse).map Bool.toNat)

/-- The number with the given bytes. -/
def combined (order : ByteOrder) (bytes : List UInt8) : Nat :=
  Nat.ofDigits 256 ((match order with
    | .little => bytes
    | .big => bytes.reverse).map UInt8.toNat)

variable (t : BitTape)

def left : Nat := t.bits.length - t.pos

/-- The bytes that are begun, or read to their end. -/
def begun : Nat := (t.pos + 7) / 8

def counter : Nat := t.begun - t.base

/-- The bits that come next. -/
def next (count : Nat) : List Bool := (t.bits.drop t.pos).take count

/-- The bytes that come next, wherever in a byte of the input they start. -/
def nextBytes (count : Nat) : List UInt8 :=
  (List.range count).map fun i => UInt8.ofNat (number t.order ((t.bits.drop (t.pos + 8 * i)).take 8))

def forward (count : Nat) : BitTape := { t with pos := t.pos + count }

def atEnd : BitTape := { t with pos := t.bits.length }

/-- The tape at the next boundary of a byte. -/
def aligned : BitTape := { t with pos := 8 * t.begun }

/-- The fault of reading units of `width` bits when the last unit lacks some of its bits. -/
def shortage (width : Nat) : Fault := .input (.endOfInput t.atEnd.counter (width - t.left % width))

/-- Moves over units of bits if they are all there, and else to the end. -/
def pass (width count : Nat) (answer : ReadAnswer) : ReadAnswer × BitTape :=
  if width * count ≤ t.left then (answer, t.forward (width * count))
  else (.failed (t.shortage width), t.atEnd)

/-- The least number of bytes after which the counter is a multiple of `size`. -/
def padding (size : Nat) : Nat := ((List.range size).find? fun n => size ∣ t.counter + n).getD 0

/-- Answers a request from the bits behind the position. -/
def answer : ReadRequest → BitTape → ReadAnswer × BitTape
  | .bits count, t =>
    if 1 ≤ count ∧ count ≤ 8 then t.pass count 1 (.number (number t.order (t.next count)))
    else (.failed (.input (.bitWidth t.begun count)), t)
  | .bitsUpTo count, t =>
    if 1 ≤ count ∧ count ≤ 8 then
      let width := if t.left = 0 then count else min count t.left
      t.pass width 1 (.part (number t.order (t.next width)) width)
    else (.failed (.input (.bitWidth t.begun count)), t)
  | .byte, t => t.pass 8 1 (.number (number t.order (t.next 8)))
  | .uint16 order, t => t.pass 8 2 (.number (combined order (t.nextBytes 2)))
  | .uint32 order, t => t.pass 8 4 (.number (combined order (t.nextBytes 4)))
  | .uint64 order, t => t.pass 8 8 (.number (combined order (t.nextBytes 8)))
  | .bytes count, t =>
    if 8 * count ≤ t.left then (.bytes (t.nextBytes count) none, t.forward (8 * count))
    else (.bytes (t.nextBytes (t.left / 8)) (some (t.shortage 8)), t.atEnd)
  | .skip count, t => t.pass 8 count .done
  | .align, t => (.done, t.aligned)
  | .restart, t => (.done, { t.aligned with base := t.begun })
  | .alignTo size, t => t.aligned.pass 8 (t.aligned.padding size) .done

/-- The bits without which a request fails at the end of the input. -/
def needs : ReadRequest → Nat
  | .bits count => if count ≤ 8 then count else 0
  | .bitsUpTo count => if 1 ≤ count ∧ count ≤ 8 then 1 else 0
  | .byte => 8
  | .uint16 _ => 16
  | .uint32 _ => 32
  | .uint64 _ => 64
  | .bytes count | .skip count => 8 * count
  | .align | .restart => 0
  | .alignTo size => (t.aligned.pos - t.pos) + 8 * t.aligned.padding size

theorem bitsOf_eq (order : BitOrder) (b : UInt8) : bitsOf order b = order.ofByte b := by
  cases order with
  | lsb0 => rfl
  | msb0 =>
    apply List.ext_getElem
    · simp [bitsOf]
    · intro i hi hi'
      simp [bitsOf, BitOrder.ofByte, BitOrder.bits, lowBits]

theorem ofDigits_bits (bits : List Bool) : Nat.ofDigits 2 (bits.map Bool.toNat) = ofLowBits bits := by
  induction bits with
  | nil => rfl
  | cons b bits ih => rw [List.map_cons, Nat.ofDigits_cons, ih, ofLowBits_cons]

theorem number_eq (order : BitOrder) (bits : List Bool) : number order bits = order.value bits := by
  cases order <;> exact ofDigits_bits _

theorem ofDigits_bytes (bytes : List UInt8) : Nat.ofDigits 256 (bytes.map UInt8.toNat) = ofLowBytes bytes := by
  induction bytes with
  | nil => rfl
  | cons b bytes ih => rw [List.map_cons, Nat.ofDigits_cons, ih, ofLowBytes_cons]

theorem combined_eq (order : ByteOrder) (bytes : List UInt8) : combined order bytes = order.value bytes := by
  cases order <;> exact ofDigits_bytes _

variable {t}

theorem length_next {count : Nat} (h : count ≤ t.left) : (t.next count).length = count := by
  rw [next, List.length_take, List.length_drop]
  exact Nat.min_eq_left h

/-- The bits that come next fit a byte. -/
theorem toNat_next {count : Nat} (hcount : count ≤ 8) (h : count ≤ t.left) :
    (UInt8.ofNat (number t.order (t.next count))).toNat = number t.order (t.next count) := by
  have hsmall : number t.order (t.next count) < 256 := calc
    number t.order (t.next count) < 2 ^ (t.next count).length := by
      rw [number_eq]
      exact t.order.value_lt _
    _ ≤ 2 ^ 8 := Nat.pow_le_pow_right (by decide) (by rw [length_next h]; exact hcount)
  rw [UInt8.toNat_ofNat', Nat.mod_eq_of_lt hsmall]

theorem nextBytes_succ (count : Nat) :
    t.nextBytes (count + 1) = UInt8.ofNat (number t.order (t.next 8)) :: (t.forward 8).nextBytes count := by
  rw [nextBytes, List.range_succ_eq_map, List.map_cons, List.map_map]
  congr 1
  refine List.map_congr_left fun i _ => ?_
  simp only [Function.comp_apply, forward, Nat.mul_succ, Nat.add_assoc, Nat.add_comm 8]

theorem length_nextBytes (count : Nat) : (t.nextBytes count).length = count := by
  rw [nextBytes, List.length_map, List.length_range]

theorem padding_eq {size : Nat} (h : 0 < size) : t.padding size = (size - t.counter % size) % size := by
  have hlt := Nat.mod_lt t.counter h
  have hfind : (List.range size).find? (fun n => size ∣ t.counter + n) = some ((size - t.counter % size) % size) := by
    rw [List.find?_range_eq_some]
    have hdvd : ∀ n, size ∣ t.counter + n ↔ (t.counter % size + n) % size = 0 := by
      intro n
      rw [Nat.dvd_iff_mod_eq_zero, Nat.mod_add_mod]
    refine ⟨?_, List.mem_range.mpr (Nat.mod_lt _ h), ?_⟩
    · rw [decide_eq_true_iff, hdvd, Nat.add_mod_mod]
      have hwhole : t.counter % size + (size - t.counter % size) = size := by omega
      rw [hwhole, Nat.mod_self]
    · intro n hn
      rw [Bool.not_eq_true', decide_eq_false_iff_not, hdvd]
      generalize t.counter % size = c at *
      rcases Nat.eq_zero_or_pos c with rfl | hc
      · rw [Nat.sub_zero, Nat.mod_self] at hn
        omega
      · rw [Nat.mod_eq_of_lt (by omega)] at hn
        rw [Nat.mod_eq_of_lt (by omega)]
        omega
  rw [padding, hfind, Option.getD_some]

end BitTape

theorem BitOrder.drop_flatMap_ofByte (order : BitOrder) (count : Nat) (bytes : List UInt8) :
    (bytes.flatMap order.ofByte).drop (8 * count) = (bytes.drop count).flatMap order.ofByte := by
  induction count generalizing bytes with
  | zero => rfl
  | succ count ih =>
    cases bytes with
    | nil => rw [List.drop_nil, List.flatMap_nil, List.drop_nil]
    | cons b bytes =>
      have hlength : 8 * (count + 1) = (order.ofByte b).length + 8 * count := by
        rw [length_ofByte]
        omega
      rw [List.flatMap_cons, hlength, List.drop_length_add_append, ih, List.drop_succ_cons]

namespace Reader
variable {r r' : Reader} {t : BitTape}

/-- The tape has the bits of the reader's input and stands where the reader does. At most seven
bits of the last byte are still to be read. -/
structure Shows (r : Reader) (t : BitTape) : Prop where
  whole : t.bits = r.data.toList.flatMap r.order.ofByte
  order : t.order = r.order
  base : t.base = r.base
  base_le : r.base ≤ r.pos
  pos_le : r.pos ≤ r.data.size
  pending_lt : r.pending.length < 8
  place : t.pos + r.pending.length = 8 * r.pos
  bits : r.bits = t.bits.drop t.pos

theorem shows_ofBytes (bytes : List UInt8) (order : BitOrder) : (ofBytes bytes order).Shows (.ofBytes bytes order) := by
  have hwhole : (BitTape.ofBytes bytes order).bits = bytes.flatMap order.ofByte := by
    rw [BitTape.ofBytes, funext (BitTape.bitsOf_eq order)]
  refine ⟨hwhole, rfl, rfl, Nat.le_refl _, Nat.zero_le _, Nat.zero_lt_succ _, rfl, ?_⟩
  rw [hwhole]
  rfl

namespace Shows

theorem length (h : r.Shows t) : t.bits.length = 8 * r.data.size := by
  rw [h.whole, BitOrder.length_flatMap_ofByte, Array.length_toList]

theorem pos_le_length (h : r.Shows t) : t.pos ≤ t.bits.length := by
  have hplace := h.place
  have hpos := h.pos_le
  have hlength := h.length
  omega

theorem left (h : r.Shows t) : r.left = t.left := by
  rw [← r.length_bits, h.bits, List.length_drop, BitTape.left]

theorem begun (h : r.Shows t) : t.begun = r.pos := by
  have hplace := h.place
  have hpending := h.pending_lt
  rw [BitTape.begun]
  omega

theorem counter (h : r.Shows t) : t.counter = r.counter := by
  rw [BitTape.counter, h.begun, h.base, Reader.counter]

theorem consumed (h : r.Shows t) : r.consumed = t.pos := by
  have hplace := h.place
  rw [Reader.consumed]
  omega

theorem next (h : r.Shows t) (count : Nat) : t.next count = r.bits.take count := by
  rw [BitTape.next, h.bits]

/-- The reader has passed over some bits and the tape has moved on by as many. -/
theorem forward (h : r.Shows t) {count : Nat} (hdata : r'.data = r.data) (horder : r'.order = r.order)
    (hbase : r'.base = r.base) (hpos : r'.pos ≤ r.data.size) (hpending : r'.pending.length < 8)
    (hplace : t.pos + count + r'.pending.length = 8 * r'.pos) (hbits : r'.bits = r.bits.drop count) :
    r'.Shows (t.forward count) where
  whole := by rw [hdata, horder]; exact h.whole
  order := h.order.trans horder.symm
  base := h.base.trans hbase.symm
  base_le := by
    have hle := h.base_le
    have hbefore := h.place
    have hless := h.pending_lt
    omega
  pos_le := by rw [hdata]; exact hpos
  pending_lt := hpending
  place := hplace
  bits := by rw [hbits, h.bits, List.drop_drop]; rfl

theorem forward_left (h : r.Shows t) : t.forward t.left = t.atEnd := by
  have hle := h.pos_le_length
  have hend : t.pos + t.left = t.bits.length := by
    rw [BitTape.left]
    omega
  rw [BitTape.forward, hend, BitTape.atEnd]

/-- The reader has passed over all bits. -/
theorem atEnd (h : r.Shows t) (hdata : r'.data = r.data) (horder : r'.order = r.order) (hbase : r'.base = r.base)
    (hpos : r'.pos = r.data.size) (hpending : r'.pending = []) : r'.Shows t.atEnd := by
  have hle := h.pos_le_length
  have hlength := h.length
  have hleft := h.left
  rw [← h.forward_left]
  refine h.forward hdata horder hbase (Nat.le_of_eq hpos) (by simp [hpending]) ?_ ?_
  · rw [hpending, hpos, BitTape.left, List.length_nil]
    omega
  · have hnone : r'.data[r'.pos]? = none := Array.getElem?_eq_none (by rw [hdata, hpos])
    rw [bits_of_none hnone, hpending, List.drop_eq_nil_of_le]
    rw [r.length_bits]
    exact Nat.le_of_eq hleft

theorem aligned (h : r.Shows t) : r.align.Shows t.aligned := by
  have hplace := h.place
  have haligned : t.aligned = t.forward r.pending.length := by
    rw [BitTape.aligned, BitTape.forward, h.begun, hplace]
  rw [haligned]
  refine h.forward rfl rfl rfl h.pos_le (show 0 < 8 by decide) hplace ?_
  rw [Reader.bits, Reader.bits, List.drop_left]
  rfl

theorem restarted (h : r.Shows t) : r.restart.Shows { t.aligned with base := t.begun } :=
  { h.aligned with base := h.begun, base_le := Nat.le_refl _ }

theorem shortage (h : r.Shows t) (width : Nat) :
    t.shortage width = .input (.endOfInput (r.data.size - r.base) (width - r.left % width)) := by
  have hlength := h.length
  have hcounter : t.atEnd.counter = r.data.size - r.base := by
    rw [BitTape.counter, BitTape.begun, BitTape.atEnd]
    dsimp only
    rw [hlength, h.base]
    omega
  rw [BitTape.shortage, hcounter, h.left]

/-- There is no byte at the position where fewer bits are left than a byte has. -/
theorem no_byte (h : r.Shows t) {count : Nat} (hpending : r.pending.length < count)
    (hleft : t.left < count) (hcount : count ≤ 8) : r.data[r.pos]? = none ∧ r.pos = r.data.size := by
  have hsize := h.left
  have hle := h.pos_le
  rw [Reader.left, remaining] at hsize
  have hpos : r.pos = r.data.size := by omega
  exact ⟨Array.getElem?_eq_none (Nat.le_of_eq hpos.symm), hpos⟩

theorem takeBits (h : r.Shows t) {count : Nat} (hcount : 1 ≤ count ∧ count ≤ 8) (hleft : count ≤ t.left) (lenient : Bool) :
    ∃ r', takeBits count lenient r = (.ok (UInt8.ofNat (BitTape.number t.order (t.next count)), count), r') ∧
      r'.Shows (t.forward count) := by
  have hplace := h.place
  have hvalue : BitTape.number t.order (t.next count) = r.order.value (r.bits.take count) := by
    rw [BitTape.number_eq, h.next, h.order]
  rw [hvalue, Reader.takeBits, if_neg (by omega)]
  by_cases hpending : count ≤ r.pending.length
  · -- The bits are those of the byte at hand.
    rw [if_pos hpending]
    have htake : r.bits.take count = r.pending.take count := List.take_append_of_le_length hpending
    rw [htake]
    refine ⟨_, rfl, h.forward rfl rfl rfl h.pos_le ?_ ?_ ?_⟩
    · exact Nat.lt_of_le_of_lt (by simp) h.pending_lt
    · change t.pos + count + (r.pending.drop count).length = 8 * r.pos
      rw [List.length_drop]
      omega
    · exact (List.drop_append_of_le_length hpending).symm
  rw [if_neg hpending]
  cases hbyte : r.data[r.pos]? with
  | none =>
    have hbits := bits_of_none hbyte
    have hsame := h.left
    rw [← r.length_bits, hbits] at hsame
    omega
  | some b =>
    have hlt := (Array.getElem?_eq_some_iff.mp hbyte).1
    have hbits := bits_of_some hbyte
    have hlength : (r.pending ++ r.order.ofByte b).length = r.pending.length + 8 := by
      rw [List.length_append, BitOrder.length_ofByte]
    rw [← List.append_assoc] at hbits
    have hfits : count ≤ (r.pending ++ r.order.ofByte b).length := by omega
    have htake : r.bits.take count = (r.pending ++ r.order.ofByte b).take count := by
      rw [hbits, List.take_append_of_le_length hfits]
    rw [htake]
    refine ⟨_, rfl, h.forward rfl rfl rfl hlt ?_ ?_ ?_⟩
    · change ((r.pending ++ r.order.ofByte b).drop count).length < 8
      rw [List.length_drop]
      omega
    · change t.pos + count + ((r.pending ++ r.order.ofByte b).drop count).length = 8 * (r.pos + 1)
      rw [List.length_drop]
      omega
    · rw [hbits, List.drop_append_of_le_length hfits]
      rfl

/-- A lenient reading of too many bits gives those that are left. -/
theorem takeBits_rest (h : r.Shows t) {count : Nat} (hcount : count ≤ 8) (hleft : t.left < count) (hsome : t.left ≠ 0) :
    ∃ r', Reader.takeBits count true r =
        (.ok (UInt8.ofNat (BitTape.number t.order (t.next t.left)), t.left), r') ∧ r'.Shows t.atEnd := by
  have hsame := h.left
  have hpending : r.pending.length < count := by
    rw [Reader.left] at hsame
    omega
  obtain ⟨hnone, hpos⟩ := h.no_byte hpending hleft hcount
  have hbits := bits_of_none hnone
  have hlength : r.pending.length = t.left := by
    rw [← hbits, r.length_bits, hsame]
  have hne : r.pending.isEmpty = false := by
    rw [List.isEmpty_eq_false_iff]
    rintro hnil
    rw [hnil] at hlength
    exact hsome hlength.symm
  rw [Reader.takeBits, if_neg (by omega), if_neg (by omega), hnone]
  simp only [hne, Bool.not_false, Bool.and_self, if_true]
  refine ⟨r.align, ?_, h.atEnd rfl rfl rfl hpos rfl⟩
  rw [h.next, hbits, ← hlength, List.take_length, BitTape.number_eq, h.order]

theorem takeBits_ended (h : r.Shows t) {count : Nat} (hcount : 1 ≤ count ∧ count ≤ 8) (hleft : t.left < count)
    (lenient : Bool) (hnone : lenient = true → t.left = 0) :
    ∃ r', Reader.takeBits count lenient r = (.error (t.shortage count), r') ∧ r'.Shows t.atEnd := by
  have hsame := h.left
  have hpending : r.pending.length < count := by
    rw [Reader.left] at hsame
    omega
  obtain ⟨hbyte, hpos⟩ := h.no_byte hpending hleft hcount.2
  have hlength : r.pending.length = r.left := by
    rw [← r.length_bits, bits_of_none hbyte]
  have hstrict : (lenient && !r.pending.isEmpty) = false := by
    cases lenient with
    | false => rfl
    | true =>
      have hzero := hnone rfl
      have hnil : r.pending = [] := List.length_eq_zero_iff.mp (by omega)
      rw [hnil]
      rfl
  rw [Reader.takeBits, if_neg (by omega), if_neg (by omega), hbyte]
  simp only [hstrict, Bool.false_eq_true, if_false]
  refine ⟨r.align, ?_, h.atEnd rfl rfl rfl hpos rfl⟩
  rw [h.shortage, Nat.mod_eq_of_lt (by omega), Reader.counter, hpos, hlength]

theorem readByte (h : r.Shows t) (hleft : 8 ≤ t.left) :
    ∃ r', Reader.readByte r = (.ok (UInt8.ofNat (BitTape.number t.order (t.next 8))), r') ∧
      r'.Shows (t.forward 8) := by
  rw [Reader.readByte]
  cases hempty : r.pending.isEmpty with
  | false =>
    obtain ⟨r', htake, hshows⟩ := h.takeBits (by decide) hleft false
    refine ⟨r', ?_, hshows⟩
    rw [if_neg (by decide), readBits, Stateful.bind_ok htake]
    rfl
  | true =>
    -- A byte at a boundary is taken whole, and its bits are the next eight.
    have hnil := List.isEmpty_iff.mp hempty
    have hplace := h.place
    rw [if_pos rfl]
    cases hbyte : r.data[r.pos]? with
    | none =>
      have hsame := h.left
      rw [← r.length_bits, bits_of_none hbyte, hnil, List.length_nil] at hsame
      omega
    | some b =>
      have hlt := (Array.getElem?_eq_some_iff.mp hbyte).1
      have hbits := bits_of_some hbyte
      rw [hnil, List.nil_append] at hbits
      have hlength := r.order.length_ofByte b
      have hnext : t.next 8 = r.order.ofByte b := by
        rw [h.next, hbits, List.take_append_of_le_length (Nat.le_of_eq hlength.symm),
          List.take_of_length_le (Nat.le_of_eq hlength)]
      have hvalue : UInt8.ofNat (BitTape.number t.order (t.next 8)) = b := by
        rw [hnext, BitTape.number_eq, h.order, BitOrder.ofByte, BitOrder.value_bits]
        exact UInt8.toNat_inj.mp (by simp)
      rw [hvalue]
      refine ⟨_, rfl, h.forward rfl rfl rfl hlt ?_ ?_ ?_⟩
      · rw [hnil]
        decide
      · rw [hnil] at hplace ⊢
        simp only [List.length_nil] at hplace ⊢
        omega
      · rw [hbits, List.drop_append_of_le_length (Nat.le_of_eq hlength.symm),
          List.drop_eq_nil_of_le (Nat.le_of_eq hlength), List.nil_append, Reader.bits, hnil]
        rfl

theorem readByte_ended (h : r.Shows t) (hleft : t.left < 8) :
    ∃ r', Reader.readByte r = (.error (t.shortage 8), r') ∧ r'.Shows t.atEnd := by
  rw [Reader.readByte]
  cases hempty : r.pending.isEmpty with
  | false =>
    obtain ⟨r', htake, hshows⟩ := h.takeBits_ended (by decide) hleft false (fun h => by cases h)
    refine ⟨r', ?_, hshows⟩
    rw [if_neg (by decide), readBits, Stateful.bind_error htake]
  | true =>
    have hnil := List.isEmpty_iff.mp hempty
    obtain ⟨hbyte, hpos⟩ := h.no_byte (by rw [hnil]; decide) hleft (Nat.le_refl 8)
    have hzero : r.left = 0 := by
      rw [← r.length_bits, bits_of_none hbyte, hnil, List.length_nil]
    rw [if_pos rfl, hbyte]
    refine ⟨_, ?_, h.atEnd rfl rfl rfl hpos hnil⟩
    rw [h.shortage, hzero, Reader.counter, hpos]

end Shows
end Reader

namespace BitSource
variable {σ : Type} [BitSource σ]

/-- Doing nothing but reading bytes fails where reading bytes to keep them fails. -/
theorem repeatedly_readByte (count : Nat) (s : σ) :
    (readByte (σ := σ)).repeatedly count s =
      match fill count s with
      | ((none, _), s') => (.ok (), s')
      | ((some fault, _), s') => (.error fault, s') := by
  induction count generalizing s with
  | zero => rfl
  | succ count ih =>
    rw [Stateful.repeatedly, Stateful.bind_apply, fill, Stateful.on]
    rcases readByte (σ := σ) s with ⟨fault | b, s₁⟩
    · rfl
    · dsimp only
      rw [ih]
      rcases fill count s₁ with ⟨⟨_ | fault, bytes⟩, s₂⟩ <;> rfl

end BitSource

namespace BitTape
variable {t : BitTape}

theorem left_forward (count : Nat) : (t.forward count).left = t.left - count := by
  rw [left, left, forward]
  dsimp only
  omega

/-- Whole units that are there do not change what a reading of units lacks. -/
theorem shortage_forward {width : Nat} (h : width ≤ t.left) : (t.forward width).shortage width = t.shortage width := by
  have hmod : (t.left - width) % width = t.left % width := by
    rw [Nat.mod_eq_sub_mod h]
  rw [shortage, shortage, left_forward, hmod]
  rfl

end BitTape

namespace Reader.Shows
variable {r : Reader} {t : BitTape}

theorem fill (h : r.Shows t) {count : Nat} (hleft : 8 * count ≤ t.left) :
    ∃ r', BitSource.fill count r = ((none, t.nextBytes count), r') ∧ r'.Shows (t.forward (8 * count)) := by
  induction count generalizing r t with
  | zero => exact ⟨r, rfl, h⟩
  | succ count ih =>
    obtain ⟨r₁, hbyte, h₁⟩ := h.readByte (by omega)
    have hmore : 8 * count ≤ (t.forward 8).left := by
      rw [BitTape.left_forward]
      omega
    obtain ⟨r₂, hbytes, h₂⟩ := ih h₁ hmore
    have hon : (BitSource.readByte (σ := Reader)).on r = _ := hbyte
    have hplace : (t.forward 8).forward (8 * count) = t.forward (8 * (count + 1)) := by
      simp only [BitTape.forward, Nat.mul_succ, Nat.add_assoc, Nat.add_comm 8]
    refine ⟨r₂, ?_, hplace ▸ h₂⟩
    rw [BitSource.fill, hon]
    dsimp only
    rw [hbytes, BitTape.nextBytes_succ]

/-- The whole bytes in front of the end are read. -/
theorem fill_ended (h : r.Shows t) {count : Nat} (hleft : t.left < 8 * count) :
    ∃ r', BitSource.fill count r = ((some (t.shortage 8), t.nextBytes (t.left / 8)), r') ∧ r'.Shows t.atEnd := by
  induction count generalizing r t with
  | zero => omega
  | succ count ih =>
    by_cases hbyte : 8 ≤ t.left
    · obtain ⟨r₁, hread, h₁⟩ := h.readByte hbyte
      have hmore : (t.forward 8).left < 8 * count := by
        rw [BitTape.left_forward]
        omega
      obtain ⟨r₂, hbytes, h₂⟩ := ih h₁ hmore
      have hon : (BitSource.readByte (σ := Reader)).on r = _ := hread
      have hcount : t.left / 8 = (t.left - 8) / 8 + 1 := by omega
      refine ⟨r₂, ?_, h₂⟩
      rw [BitSource.fill, hon]
      dsimp only
      rw [hbytes, BitTape.left_forward, hcount, BitTape.nextBytes_succ, BitTape.shortage_forward hbyte]
    · obtain ⟨r₁, hread, h₁⟩ := h.readByte_ended (by omega)
      have hon : (BitSource.readByte (σ := Reader)).on r = _ := hread
      have hzero : t.left / 8 = 0 := by omega
      refine ⟨r₁, ?_, h₁⟩
      rw [BitSource.fill, hon, hzero]
      rfl

/-- A request that is answered by reading bytes and making something of them. -/
theorem pass_bytes (h : r.Shows t) {α : Type} (action : Stateful Reader α) (count : Nat) (answer : α → ReadAnswer)
    (value : List UInt8 → α)
    (haction : action r = match BitSource.fill count r with
      | ((none, bytes), r') => (.ok (value bytes), r')
      | ((some fault, _), r') => (.error fault, r')) :
    ∃ r', ReadAnswer.of answer (action r) = ((t.pass 8 count (answer (value (t.nextBytes count)))).1, r') ∧
      r'.Shows (t.pass 8 count (answer (value (t.nextBytes count)))).2 := by
  by_cases hleft : 8 * count ≤ t.left
  · obtain ⟨r', hfill, h'⟩ := h.fill hleft
    rw [haction, hfill, BitTape.pass, if_pos hleft]
    exact ⟨r', rfl, h'⟩
  · obtain ⟨r', hfill, h'⟩ := h.fill_ended (Nat.lt_of_not_le hleft)
    rw [haction, hfill, BitTape.pass, if_neg hleft]
    exact ⟨r', rfl, h'⟩

/-- A number of some bytes is that of the bytes that come next. -/
theorem pass_number (h : r.Shows t) (order : ByteOrder) {count : Nat} {α : Type} (value : Nat → α) (toNat : α → Nat)
    (hvalue : ∀ n, n < 256 ^ count → toNat (value n) = n) :
    ∃ r', ReadAnswer.of (fun v => .number (toNat v))
          ((do return value (← BitSource.readNumber count order) : Stateful Reader α) r) =
        ((t.pass 8 count (.number (BitTape.combined order (t.nextBytes count)))).1, r') ∧
      r'.Shows (t.pass 8 count (.number (BitTape.combined order (t.nextBytes count)))).2 := by
  have hnumber : toNat (value (order.value (t.nextBytes count))) = BitTape.combined order (t.nextBytes count) := by
    rw [BitTape.combined_eq]
    apply hvalue
    have hlt := order.value_lt (t.nextBytes count)
    rwa [BitTape.length_nextBytes] at hlt
  have hpass := h.pass_bytes (do return value (← BitSource.readNumber count order)) count
    (fun v => .number (toNat v)) (fun bytes => value (order.value bytes)) (by
      rw [Stateful.bind_apply, BitSource.readNumber, Stateful.bind_apply, BitSource.readBytes]
      rcases BitSource.fill count r with ⟨⟨_ | fault, bytes⟩, r'⟩ <;> rfl)
  rwa [hnumber] at hpass

theorem pass_skip (h : r.Shows t) (count : Nat) :
    ∃ r', ReadAnswer.of (fun _ => .done) (Reader.skipBytes count r) = ((t.pass 8 count .done).1, r') ∧
      r'.Shows (t.pass 8 count .done).2 := by
  rw [Reader.skipBytes]
  cases hempty : r.pending.isEmpty with
  | false =>
    rw [if_neg (by decide)]
    exact h.pass_bytes ((BitSource.readByte (σ := Reader)).repeatedly count) count (fun _ => .done)
      (fun _ => ()) (by
        rw [BitSource.repeatedly_readByte]
        rcases BitSource.fill count r with ⟨⟨_ | fault, bytes⟩, r'⟩ <;> rfl)
  | true =>
    have hnil := List.isEmpty_iff.mp hempty
    have hplace := h.place
    have hsame := h.left
    have hle := h.pos_le
    rw [Reader.left, hnil, List.length_nil, Nat.add_zero, remaining] at hsame
    rw [if_pos rfl, BitTape.pass, remaining]
    by_cases hleft : 8 * count ≤ t.left
    · rw [if_neg (by omega), if_pos hleft]
      refine ⟨_, rfl, h.forward rfl rfl rfl ?_ h.pending_lt ?_ ?_⟩
      · change r.pos + count ≤ r.data.size
        omega
      · rw [hnil] at hplace ⊢
        simp only [List.length_nil] at hplace ⊢
        omega
      · rw [Reader.bits, Reader.bits, hnil, List.nil_append, List.nil_append, ← List.drop_drop]
        exact (r.order.drop_flatMap_ofByte count _).symm
    · rw [if_pos (by omega), if_neg hleft]
      refine ⟨{ r with pos := r.data.size }, ?_, h.atEnd rfl rfl rfl rfl hnil⟩
      have hwhole : r.left % 8 = 0 := by
        rw [h.left]
        omega
      have hcounter : r.counter + (r.data.size - r.pos) = r.data.size - r.base := by
        have hbase := h.base_le
        rw [Reader.counter]
        omega
      rw [ReadAnswer.of, h.shortage, hwhole, hcounter]

theorem pass_alignTo (h : r.Shows t) (size : Nat) :
    ∃ r', ReadAnswer.of (fun _ => .done) (BitSource.alignTo size r) =
        ((t.aligned.pass 8 (t.aligned.padding size) .done).1, r') ∧
      r'.Shows (t.aligned.pass 8 (t.aligned.padding size) .done).2 := by
  have hpass := h.aligned.pass_bytes ((BitSource.readByte (σ := Reader)).repeatedly (t.aligned.padding size))
    (t.aligned.padding size) (fun _ => .done) (fun _ => ()) (by
      rw [BitSource.repeatedly_readByte]
      rcases BitSource.fill (t.aligned.padding size) r.align with ⟨⟨_ | fault, bytes⟩, r'⟩ <;> rfl)
  have halign : BitSource.alignTo size r =
      (BitSource.readByte (σ := Reader)).repeatedly (t.aligned.padding size) r.align := by
    have hcounter : BitSource.counter r.align = t.aligned.counter := h.aligned.counter.symm
    by_cases hsize : 1 < size
    · rw [BitTape.padding_eq (by omega), ← hcounter]
      simp only [BitSource.alignTo, if_pos hsize]
      rfl
    · have hzero : t.aligned.padding size = 0 := by
        rcases Nat.eq_zero_or_pos size with rfl | hpos
        · rfl
        · obtain rfl : size = 1 := by omega
          rw [BitTape.padding_eq (by decide), Nat.mod_one]
      rw [hzero]
      simp only [BitSource.alignTo, if_neg hsize]
      rfl
  rwa [halign]

/-- A width that no reading of bits has leaves the reader where it is. -/
theorem takeBits_invalid (h : r.Shows t) {count : Nat} (hcount : ¬(1 ≤ count ∧ count ≤ 8)) (lenient : Bool) :
    Reader.takeBits count lenient r = (.error (.input (.bitWidth t.begun count)), r) := by
  rw [Reader.takeBits, if_pos (by omega), h.begun]

theorem pass_readBits (h : r.Shows t) {count : Nat} (hcount : 1 ≤ count ∧ count ≤ 8) :
    ∃ r', ReadAnswer.of (fun v => .number v.toNat) (Reader.readBits count r) =
        ((t.pass count 1 (.number (BitTape.number t.order (t.next count)))).1, r') ∧
      r'.Shows (t.pass count 1 (.number (BitTape.number t.order (t.next count)))).2 := by
  rw [BitTape.pass, Nat.mul_one]
  by_cases hleft : count ≤ t.left
  · obtain ⟨r', htake, h'⟩ := h.takeBits hcount hleft false
    have hread : Reader.readBits count r = (.ok (UInt8.ofNat (BitTape.number t.order (t.next count))), r') :=
      Stateful.bind_ok htake _
    refine ⟨r', ?_, by rwa [if_pos hleft]⟩
    rw [hread, ReadAnswer.of_ok, BitTape.toNat_next hcount.2 hleft, if_pos hleft]
  · obtain ⟨r', htake, h'⟩ := h.takeBits_ended hcount (by omega) false (fun h => by cases h)
    refine ⟨r', ?_, by rwa [if_neg hleft]⟩
    have hread : Reader.readBits count r = (.error (t.shortage count), r') := Stateful.bind_error htake _
    rw [hread, ReadAnswer.of_error, if_neg hleft]

theorem pass_readBitsUpTo (h : r.Shows t) {count width : Nat} (hcount : 1 ≤ count ∧ count ≤ 8)
    (hwidth : width = if t.left = 0 then count else min count t.left) :
    ∃ r', ReadAnswer.of (fun p => .part p.1.toNat p.2) (Reader.takeBits count true r) =
        ((t.pass width 1 (.part (BitTape.number t.order (t.next width)) width)).1, r') ∧
      r'.Shows (t.pass width 1 (.part (BitTape.number t.order (t.next width)) width)).2 := by
  rw [BitTape.pass, Nat.mul_one]
  by_cases hzero : t.left = 0
  · rw [if_pos hzero] at hwidth
    subst hwidth
    obtain ⟨r', htake, h'⟩ := h.takeBits_ended hcount (by omega) true (fun _ => hzero)
    refine ⟨r', ?_, by rwa [if_neg (by omega)]⟩
    rw [htake, ReadAnswer.of_error, if_neg (by omega)]
  rw [if_neg hzero] at hwidth
  have hleft : width ≤ t.left := hwidth ▸ Nat.min_le_right _ _
  have hnumber := BitTape.toNat_next (hwidth ▸ Nat.le_trans (Nat.min_le_left _ _) hcount.2) hleft
  rw [if_pos hleft]
  rcases Nat.lt_or_ge t.left count with hless | henough
  · obtain rfl : width = t.left := by omega
    obtain ⟨r', htake, h'⟩ := h.takeBits_rest hcount.2 hless hzero
    refine ⟨r', ?_, h.forward_left ▸ h'⟩
    rw [htake, ReadAnswer.of_ok, hnumber]
  · obtain rfl : width = count := by omega
    obtain ⟨r', htake, h'⟩ := h.takeBits hcount henough true
    refine ⟨r', ?_, h'⟩
    rw [htake, ReadAnswer.of_ok, hnumber]

/-- Whatever a reader is asked for, it answers as its tape does and then still shows it. -/
theorem ask (h : r.Shows t) (request : ReadRequest) :
    ∃ r', request.ask r = ((t.answer request).1, r') ∧ r'.Shows (t.answer request).2 := by
  cases request with
  | bits count =>
    by_cases hcount : 1 ≤ count ∧ count ≤ 8
    · simp only [BitTape.answer, if_pos hcount]
      exact h.pass_readBits hcount
    · simp only [BitTape.answer, if_neg hcount]
      refine ⟨r, ?_, h⟩
      have hread : BitSource.readBits count r = _ := Stateful.bind_error (h.takeBits_invalid hcount false) _
      rw [ReadRequest.ask, hread]
      rfl
  | bitsUpTo count =>
    by_cases hcount : 1 ≤ count ∧ count ≤ 8
    · simp only [BitTape.answer, if_pos hcount]
      exact h.pass_readBitsUpTo hcount rfl
    · simp only [BitTape.answer, if_neg hcount]
      refine ⟨r, ?_, h⟩
      have hread : BitSource.readBitsUpTo count r = _ := h.takeBits_invalid hcount true
      rw [ReadRequest.ask, hread]
      rfl
  | byte =>
    simp only [BitTape.answer, BitTape.pass, Nat.mul_one]
    by_cases hleft : 8 ≤ t.left
    · obtain ⟨r', hread, h'⟩ := h.readByte hleft
      have hbyte : BitSource.readByte r = _ := hread
      refine ⟨r', ?_, by rwa [if_pos hleft]⟩
      rw [ReadRequest.ask, hbyte, ReadAnswer.of_ok, BitTape.toNat_next (Nat.le_refl 8) hleft, if_pos hleft]
    · obtain ⟨r', hread, h'⟩ := h.readByte_ended (by omega)
      have hbyte : BitSource.readByte r = _ := hread
      refine ⟨r', ?_, by rwa [if_neg hleft]⟩
      rw [ReadRequest.ask, hbyte, ReadAnswer.of_error, if_neg hleft]
  | uint16 order => exact h.pass_number order UInt16.ofNat UInt16.toNat fun n hn => UInt16.toNat_ofNat_of_lt hn
  | uint32 order => exact h.pass_number order UInt32.ofNat UInt32.toNat fun n hn => UInt32.toNat_ofNat_of_lt hn
  | uint64 order => exact h.pass_number order UInt64.ofNat UInt64.toNat fun n hn => UInt64.toNat_ofNat_of_lt hn
  | bytes count =>
    simp only [BitTape.answer]
    by_cases hleft : 8 * count ≤ t.left
    · obtain ⟨r', hfill, h'⟩ := h.fill hleft
      refine ⟨r', ?_, by rwa [if_pos hleft]⟩
      rw [ReadRequest.ask, hfill, if_pos hleft]
    · obtain ⟨r', hfill, h'⟩ := h.fill_ended (Nat.lt_of_not_le hleft)
      refine ⟨r', ?_, by rwa [if_neg hleft]⟩
      rw [ReadRequest.ask, hfill, if_neg hleft]
  | skip count => exact h.pass_skip count
  | align => exact ⟨r.align, rfl, h.aligned⟩
  | restart => exact ⟨r.restart, rfl, h.restarted⟩
  | alignTo size => exact h.pass_alignTo size

/-- A reader answers any sequence of requests as its tape does. -/
theorem answers (h : r.Shows t) (requests : List ReadRequest) :
    ∃ r', ReadRequest.answers ReadRequest.ask requests r =
        ((ReadRequest.answers BitTape.answer requests t).1, r') ∧
      r'.Shows (ReadRequest.answers BitTape.answer requests t).2 := by
  induction requests generalizing r t with
  | nil => exact ⟨r, rfl, h⟩
  | cons request requests ih =>
    obtain ⟨r₁, hask, h₁⟩ := h.ask request
    obtain ⟨r₂, hrest, h₂⟩ := ih h₁
    refine ⟨r₂, ?_, h₂⟩
    rw [ReadRequest.answers, hask]
    dsimp only
    rw [hrest]
    rfl

end Reader.Shows

namespace BitTape
variable {t : BitTape}

theorem pass_isEndOfInput {width count : Nat} {answer : ReadAnswer} (h : answer.isEndOfInput = false) :
    (t.pass width count answer).1.isEndOfInput = true ↔ t.left < width * count := by
  rw [pass]
  by_cases hleft : width * count ≤ t.left
  · rw [if_pos hleft, h]
    simpa using hleft
  · rw [if_neg hleft]
    exact ⟨fun _ => Nat.lt_of_not_le hleft, fun _ => rfl⟩

/-- A request fails at the end of the input where bits that it needs are not there. -/
theorem answer_isEndOfInput (request : ReadRequest) (hpos : t.pos ≤ t.bits.length)
    (hbegun : 8 * t.begun ≤ t.bits.length) :
    (t.answer request).1.isEndOfInput = true ↔ t.left < t.needs request := by
  cases request with
  | bits count =>
    simp only [answer, needs]
    by_cases hcount : 1 ≤ count ∧ count ≤ 8
    · rw [if_pos hcount, if_pos hcount.2, pass_isEndOfInput rfl, Nat.mul_one]
    · rw [if_neg hcount]
      have hzero : (if count ≤ 8 then count else 0) = 0 := by
        split <;> omega
      rw [hzero]
      exact ⟨nofun, fun h => absurd h (Nat.not_lt_zero _)⟩
  | bitsUpTo count =>
    simp only [answer, needs]
    by_cases hcount : 1 ≤ count ∧ count ≤ 8
    · rw [if_pos hcount, if_pos hcount, pass_isEndOfInput rfl]
      split <;> omega
    · rw [if_neg hcount, if_neg hcount]
      exact ⟨nofun, fun h => absurd h (Nat.not_lt_zero _)⟩
  | byte | uint16 | uint32 | uint64 | skip => exact pass_isEndOfInput rfl
  | bytes count =>
    simp only [answer, needs]
    by_cases hleft : 8 * count ≤ t.left
    · rw [if_pos hleft]
      exact ⟨nofun, fun h => absurd hleft (Nat.not_le_of_lt h)⟩
    · rw [if_neg hleft]
      exact ⟨fun _ => Nat.lt_of_not_le hleft, fun _ => rfl⟩
  | align | restart => exact ⟨nofun, fun h => absurd h (Nat.not_lt_zero _)⟩
  | alignTo size =>
    simp only [answer, needs]
    rw [pass_isEndOfInput rfl, left, left, aligned]
    have hforward : t.pos ≤ 8 * t.begun := by
      rw [begun]
      omega
    dsimp only
    omega

end BitTape

/-! ## The buffered reader -/

theorem ReadAnswer.of_lifts {α σ τ : Type} {view : τ → σ} {x : Stateful τ α} {y : Stateful σ α}
    (h : Stateful.Lifts view x y) (answer : α → ReadAnswer) (t : τ) :
    ((of answer (x t)).1, view (of answer (x t)).2) = of answer (y (view t)) := by
  rw [← h t]
  rcases x t with ⟨_ | _, t'⟩ <;> rfl

namespace BufferedReader

/-- A buffered reader answers as the reader of lists with the same bits. -/
theorem ask_view (request : ReadRequest) (r : BufferedReader) :
    ((request.ask r).1, (request.ask r).2.view) = request.ask r.view := by
  cases request with
  | bits count => exact ReadAnswer.of_lifts (lifts_readBits count) _ r
  | bitsUpTo count => exact ReadAnswer.of_lifts (lifts_takeBits count true) _ r
  | byte => exact ReadAnswer.of_lifts lifts_readByte _ r
  | uint16 order => exact ReadAnswer.of_lifts ((lifts_readNumber 2 order).bind fun _ => .pure _) _ r
  | uint32 order => exact ReadAnswer.of_lifts ((lifts_readNumber 4 order).bind fun _ => .pure _) _ r
  | uint64 order => exact ReadAnswer.of_lifts ((lifts_readNumber 8 order).bind fun _ => .pure _) _ r
  | bytes count =>
    rw [ReadRequest.ask, ReadRequest.ask, ← lifts_fill]
  | skip count => exact ReadAnswer.of_lifts (lifts_skipBytes count) _ r
  | align | restart => rfl
  | alignTo size => exact ReadAnswer.of_lifts (lifts_alignTo size) _ r

theorem answers_view (requests : List ReadRequest) (r : BufferedReader) :
    ((ReadRequest.answers ReadRequest.ask requests r).1, (ReadRequest.answers ReadRequest.ask requests r).2.view) =
      ReadRequest.answers ReadRequest.ask requests r.view := by
  induction requests generalizing r with
  | nil => rfl
  | cons request requests ih =>
    rw [ReadRequest.answers, ReadRequest.answers, ← ask_view]
    dsimp only
    rw [← ih]

theorem answers_of_view {requests : List ReadRequest} (b : BufferedReader) {as : List ReadAnswer} {r : Reader}
    (h : ReadRequest.answers ReadRequest.ask requests b.view = (as, r)) :
    ∃ b', ReadRequest.answers ReadRequest.ask requests b = (as, b') ∧ b'.view = r := by
  rw [← answers_view] at h
  obtain ⟨rfl, rfl⟩ := Prod.mk.inj h
  exact ⟨_, rfl, rfl⟩

end BufferedReader

/-- A reader of some bytes answers requests one after the other as the tape of their bits does. Its
position, its counter and whether there is more are those of the tape, and the next request fails
at the end of the input where bits that it needs are not there. So does a reader that shifts its
bits out of a buffer. -/
theorem Reader.answers_ofBytes (bytes : List UInt8) (order : BitOrder) (requests : List ReadRequest) :
    ∃ (as : List ReadAnswer) (r : Reader) (b : BufferedReader) (t : BitTape),
      ReadRequest.answers ReadRequest.ask requests (ofBytes bytes order) = (as, r) ∧
      ReadRequest.answers ReadRequest.ask requests (BufferedReader.ofBytes bytes order) = (as, b) ∧
      ReadRequest.answers BitTape.answer requests (.ofBytes bytes order) = (as, t) ∧
      r.consumed = t.pos ∧ b.consumed = t.pos ∧
      BitSource.counter r = t.counter ∧ BitSource.counter b = t.counter ∧
      (BitSource.hasMore r = true ↔ t.pos < t.bits.length) ∧
      (BitSource.hasMore b = true ↔ t.pos < t.bits.length) ∧
      ∀ request : ReadRequest, ((request.ask r).1.isEndOfInput = true ↔ t.left < t.needs request) ∧
        (request.ask b).1 = (request.ask r).1 := by
  have h := shows_ofBytes bytes order
  obtain ⟨r, hanswers, hshows⟩ := h.answers requests
  have hpos := hshows.pos_le_length
  have hbegun : 8 * (ReadRequest.answers BitTape.answer requests (.ofBytes bytes order)).2.begun ≤
      (ReadRequest.answers BitTape.answer requests (.ofBytes bytes order)).2.bits.length := by
    rw [hshows.begun, hshows.length]
    exact Nat.mul_le_mul_left 8 hshows.pos_le
  have hmore : BitSource.hasMore r = true ↔ (ReadRequest.answers BitTape.answer requests (.ofBytes bytes order)).2.pos <
      (ReadRequest.answers BitTape.answer requests (.ofBytes bytes order)).2.bits.length := by
    rw [show BitSource.hasMore r = decide (0 < r.left) from rfl, decide_eq_true_iff, hshows.left, BitTape.left]
    omega
  obtain ⟨b, hbuffered, rfl⟩ := BufferedReader.answers_of_view (.ofBytes bytes order) hanswers
  refine ⟨_, b.view, b, _, hanswers, hbuffered, rfl, hshows.consumed, b.consumed_view ▸ hshows.consumed, hshows.counter.symm,
    hshows.counter.symm, hmore, b.hasMore_view ▸ hmore, fun request => ⟨?_, ?_⟩⟩
  · obtain ⟨r', hask, -⟩ := hshows.ask request
    rw [hask]
    exact BitTape.answer_isEndOfInput request hpos hbegun
  · exact congrArg Prod.fst (b.ask_view request)

end LayoutScript
