import LayoutScript.Bits.Reader
import LayoutScript.Bits.Writer

/-! # Shifting bits

Bits come out of a byte and go into a number by shifting. The buffered reader keeps the byte at
hand with its unread bits shifted to the end that bits are read from. The buffered writer keeps
the bits of the byte being filled in sixteen bits, so that up to eight more fit behind them.
-/
namespace LayoutScript

def lowMask (count : Nat) : UInt16 := (1 <<< UInt16.ofNat count) - 1

namespace BitOrder

/-- The next `take` bits of a byte as a number. -/
def front (order : BitOrder) (take : Nat) (b : UInt8) : UInt16 :=
  match order with
  | .lsb0 => b.toUInt16 &&& lowMask take
  | .msb0 => (b.toUInt16 >>> UInt16.ofNat (8 - take)) &&& lowMask take

/-- The byte with its next `take` bits shifted out. -/
def shiftOut (order : BitOrder) (take : Nat) (b : UInt8) : UInt8 :=
  match order with
  | .lsb0 => (b.toUInt16 >>> UInt16.ofNat take).toUInt8
  | .msb0 => ((b.toUInt16 <<< UInt16.ofNat take) &&& 0xFF).toUInt8

/-- A number of `filled` bits with a number of `take` bits behind it. -/
def shiftIn (order : BitOrder) (filled : Nat) (acc : UInt16) (take : Nat) (n : UInt16) : UInt16 :=
  match order with
  | .lsb0 => acc ||| (n <<< UInt16.ofNat filled)
  | .msb0 => (acc <<< UInt16.ofNat take) ||| n

end BitOrder

structure BufferedReader where
  data : Array UInt8
  order : BitOrder
  /-- Offset of the next unread byte. -/
  pos : Nat := 0
  /-- Offset at which the byte counter was last restarted. -/
  base : Nat := 0
  buffer : UInt8 := 0
  /-- Unread bits of the buffer. -/
  held : Nat := 0
  held_le : held ≤ 8 := by decide

namespace BufferedReader

def ofBytes (data : List UInt8) (order : BitOrder) : BufferedReader where
  data := data.toArray
  order := order

def remaining (r : BufferedReader) : Nat := r.data.size - r.pos

def left (r : BufferedReader) : Nat := 8 * r.remaining + r.held

def consumed (r : BufferedReader) : Nat := 8 * r.pos - r.held

def counter (r : BufferedReader) : Nat := r.pos - r.base

def align (r : BufferedReader) : BufferedReader := { r with buffer := 0, held := 0, held_le := Nat.zero_le 8 }

def restart (r : BufferedReader) : BufferedReader := { r.align with base := r.pos }

/-- Takes the next byte of the input. The fault names the bits that are missed. -/
def nextByte (missing : Nat) : Stateful BufferedReader UInt8 := fun r =>
  match r.data[r.pos]? with
  | some b => (.ok b, { r with pos := r.pos + 1 })
  | none => (.error (.input (.endOfInput r.counter missing)), r)

def load (r : BufferedReader) (b : UInt8) : BufferedReader := { r with buffer := b, held := 8, held_le := Nat.le_refl 8 }

/-- Shifts the next bits out of the buffer. -/
def drop (r : BufferedReader) (take : Nat) : BufferedReader :=
  { r with
    buffer := r.order.shiftOut take r.buffer
    held := r.held - take
    held_le := Nat.le_trans (Nat.sub_le _ _) r.held_le }

/-- Shifts bits from the buffer behind the `filled` ones of `acc` until there are `count`. The
buffer is filled where it is empty. At the end of the input a lenient read makes do with the
bits it has, if there are any. -/
def gather (count : Nat) (lenient : Bool) (acc : UInt16) (filled : Nat) : Stateful BufferedReader (UInt8 × Nat) := fun r =>
  if filled < count then
    if r.held = 0 then
      if lenient && decide (0 < filled) && decide (r.data.size ≤ r.pos) then (.ok (acc.toUInt8, filled), r)
      else
        match nextByte (count - filled) r with
        | (.ok b, r) => gather count lenient acc filled (r.load b)
        | (.error fault, r) => (.error fault, r)
    else
      let take := min (count - filled) r.held
      gather count lenient (r.order.shiftIn filled acc take (r.order.front take r.buffer)) (filled + take) (r.drop take)
  else (.ok (acc.toUInt8, filled), r)
termination_by r => (count - filled, if r.held = 0 then 1 else 0)
decreasing_by
  · rename_i hempty _
    have hload : (r.load b).held ≠ 0 := Nat.succ_ne_zero 7
    rw [if_pos hempty, if_neg hload]
    exact .right _ Nat.one_pos
  · exact .left _ _ (by omega)

def takeBits (count : Nat) (lenient : Bool) : Stateful BufferedReader (UInt8 × Nat) := fun r =>
  if count = 0 ∨ 8 < count then (.error (.input (.bitWidth r.pos count)), r) else gather count lenient 0 0 r

def readBits (count : Nat) : Stateful BufferedReader UInt8 := do
  return (← takeBits count false).1

def readByte : Stateful BufferedReader UInt8 := fun r =>
  if r.held = 0 then nextByte 8 r else readBits 8 r

def skipBytes (count : Nat) : Stateful BufferedReader Unit := fun r =>
  if 0 < r.held then readByte.repeatedly count r
  else if r.remaining < count then
    (.error (.input (.endOfInput (r.counter + r.remaining) 8)), { r with pos := r.data.size })
  else (.ok (), { r with pos := r.pos + count })

end BufferedReader

instance : BitSource BufferedReader where
  left := BufferedReader.left
  counter := BufferedReader.counter
  readBits := BufferedReader.readBits
  readByte := BufferedReader.readByte
  align := BufferedReader.align
  restart := BufferedReader.restart
  readBitsUpTo count := BufferedReader.takeBits count true
  skipBytes := BufferedReader.skipBytes

structure BufferedWriter where
  order : BitOrder
  bytes : Array UInt8 := #[]
  /-- The bits of the byte being filled, as a number. -/
  acc : UInt16 := 0
  held : Nat := 0

namespace BufferedWriter

/-- Writes the low `count` bits of `value`, at least one and at most eight. -/
def writeBits (w : BufferedWriter) (value : UInt8) (count : Nat) : BufferedWriter :=
  let count := min (max count 1) 8
  let acc := w.order.shiftIn w.held w.acc count (value.toUInt16 &&& lowMask count)
  let held := w.held + count
  if held < 8 then { w with acc, held }
  else
    let held := held - 8
    match w.order with
    | .lsb0 => { w with bytes := w.bytes.push (acc &&& 0xFF).toUInt8, acc := acc >>> 8, held }
    | .msb0 =>
      { w with
        bytes := w.bytes.push ((acc >>> UInt16.ofNat held) &&& 0xFF).toUInt8
        acc := acc &&& lowMask held
        held }

def writeByte (w : BufferedWriter) (value : UInt8) : BufferedWriter :=
  if w.held = 0 then { w with bytes := w.bytes.push value } else w.writeBits value 8

def writeNumber (w : BufferedWriter) (count : Nat) (order : ByteOrder) (value : Nat) : BufferedWriter :=
  (order.bytes count value).foldl writeByte w

/-- Completes the byte being filled with zero bits. -/
def align (w : BufferedWriter) : BufferedWriter :=
  if w.held = 0 then w
  else
    let b := match w.order with
      | .lsb0 => w.acc &&& 0xFF
      | .msb0 => (w.acc <<< UInt16.ofNat (8 - w.held)) &&& 0xFF
    { w with bytes := w.bytes.push b.toUInt8, acc := 0, held := 0 }

def toBytes (w : BufferedWriter) : List UInt8 := w.align.bytes.toList

end BufferedWriter
end LayoutScript
