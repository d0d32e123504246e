import LayoutScript.Bits.Source

/-! # Readers of a byte array

The ordinary source. A reader holds the bytes, the position of the next unread byte and the
bits of the byte before it that are still unread, in reading order. Everything it does can
be told from `Reader.bits`, the bits that are still to come.
-/
namespace LayoutScript

structure Reader where
  data : Array UInt8
  order : BitOrder
  /-- Offset of the next unread byte. -/
  pos : Nat := 0
  /-- Offset at which the byte counter was last restarted. -/
  base : Nat := 0
  /-- Unread bits of the byte before `pos`. -/
  pending : List Bool := []
deriving DecidableEq

namespace Reader

def ofBytes (data : List UInt8) (order : BitOrder) : Reader where
  data := data.toArray
  order := order

def remaining (r : Reader) : Nat := r.data.size - r.pos

def left (r : Reader) : Nat := 8 * r.remaining + r.pending.length

def consumed (r : Reader) : Nat := 8 * r.pos - r.pending.length

def counter (r : Reader) : Nat := r.pos - r.base

/-- The bits that are still to come, in reading order. -/
def bits (r : Reader) : List Bool :=
  r.pending ++ (r.data.toList.drop r.pos).flatMap r.order.ofByte

theorem length_bits (r : Reader) : r.bits.length = r.left := by
  rw [bits, List.length_append, BitOrder.length_flatMap_ofByte]
  simp [left, remaining, Nat.add_comm]

def align (r : Reader) : Reader := { r with pending := [] }

def restart (r : Reader) : Reader := { r with pending := [], base := r.pos }

/-- Reads `count` bits, from the byte at hand and then from the next one. At the end of the
input a lenient read makes do with the bits at hand, if there are any. -/
def takeBits (count : Nat) (lenient : Bool) : Stateful Reader (UInt8 × Nat) := fun r =>
  if count = 0 ∨ 8 < count then (.error (.input (.bitWidth r.pos count)), r)
  else if count ≤ r.pending.length then
    (.ok (UInt8.ofNat (r.order.value (r.pending.take count)), count),
      { r with pending := r.pending.drop count })
  else
    match r.data[r.pos]? with
    | some b =>
      let bits := r.pending ++ r.order.ofByte b
      (.ok (UInt8.ofNat (r.order.value (bits.take count)), count),
        { r with pos := r.pos + 1, pending := bits.drop count })
    | none =>
      if lenient && !r.pending.isEmpty then
        (.ok (UInt8.ofNat (r.order.value r.pending), r.pending.length), r.align)
      else (.error (.input (.endOfInput r.counter (count - r.pending.length))), r.align)

def readBits (count : Nat) : Stateful Reader UInt8 := do
  return (← takeBits count false).1

/-- Reads eight bits; a byte that starts on a byte boundary is taken whole. -/
def readByte : Stateful Reader UInt8 := fun r =>
  if r.pending.isEmpty then
    match r.data[r.pos]? with
    | some b => (.ok b, { r with pos := r.pos + 1 })
    | none => (.error (.input (.endOfInput r.counter 8)), r)
  else readBits 8 r

/-- Skips whole bytes, at once on a byte boundary and else one by one. A skip past the end
stops there. -/
def skipBytes (count : Nat) : Stateful Reader Unit := fun r =>
  if r.pending.isEmpty then
    if r.remaining < count then
      (.error (.input (.endOfInput (r.counter + r.remaining) 8)), { r with pos := r.data.size })
    else (.ok (), { r with pos := r.pos + count })
  else readByte.repeatedly count r

end Reader

instance : BitSource Reader where
  left := Reader.left
  counter := Reader.counter
  readBits := Reader.readBits
  readByte := Reader.readByte
  align := Reader.align
  restart := Reader.restart
  readBitsUpTo count := Reader.takeBits count true
  skipBytes := Reader.skipBytes

/-- A source that lends out a reader's bits and bytes and nothing more: it skips byte by byte
and never makes do with fewer bits than asked for. -/
structure PlainReader where
  reader : Reader

namespace PlainReader

def lift {α : Type} (action : Stateful Reader α) : Stateful PlainReader α := fun s =>
  match action s.reader with
  | (outcome, reader) => (outcome, ⟨reader⟩)

end PlainReader

instance : BitSource PlainReader where
  left s := s.reader.left
  counter s := s.reader.counter
  readBits count := PlainReader.lift (Reader.readBits count)
  readByte := PlainReader.lift Reader.readByte
  align s := ⟨s.reader.align⟩
  restart s := ⟨s.reader.restart⟩

end LayoutScript
