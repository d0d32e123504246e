import LayoutScript.Bits.Order

/-! # Bit writers

A writer collects bits in the order a reader of the same bit order gives them back. It holds
the finished bytes and the bits of the byte it is filling; the last byte is completed with
zero bits.
-/
namespace LayoutScript

/-- The byte with the given bits in reading order, zero bits standing for missing ones. -/
def BitOrder.toByte (order : BitOrder) (bits : List Bool) : UInt8 :=
  UInt8.ofNat (order.value ((bits ++ List.replicate 8 false).take 8))

structure Writer where
  order : BitOrder
  bytes : Array UInt8 := #[]
  /-- Bits of the byte being filled, fewer than eight. -/
  pending : List Bool := []

namespace Writer

/-- The bits written so far, in writing order. -/
def bits (w : Writer) : List Bool := w.bytes.toList.flatMap w.order.ofByte ++ w.pending

/-- Completes the byte being filled with zero bits. -/
def align (w : Writer) : Writer :=
  if w.pending.isEmpty then w
  else { w with bytes := w.bytes.push (w.order.toByte w.pending), pending := [] }

/-- Writes the low `count` bits of `value`, at least one and at most eight. -/
def writeBits (w : Writer) (value : UInt8) (count : Nat) : Writer :=
  let count := min (max count 1) 8
  let bits := w.pending ++ w.order.bits count value.toNat
  if bits.length < 8 then { w with pending := bits }
  else { w with bytes := w.bytes.push (w.order.toByte (bits.take 8)), pending := bits.drop 8 }

def writeByte (w : Writer) (value : UInt8) : Writer :=
  if w.pending.isEmpty then { w with bytes := w.bytes.push value } else w.writeBits value 8

def writeNumber (w : Writer) (count : Nat) (order : ByteOrder) (value : Nat) : Writer :=
  (order.bytes count value).foldl writeByte w

def toBytes (w : Writer) : List UInt8 := w.align.bytes.toList

end Writer
end LayoutScript
