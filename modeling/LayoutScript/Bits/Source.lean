import LayoutScript.Fault
import LayoutScript.Bits.Order

/-! # Bit sources

A source of bits is anything that reads bits and whole bytes, knows how many bits are left
and counts the bytes it has given out. Reads may fail, and a failed read leaves the source
where it stopped. Reading several bytes, skipping and aligning are made of single bytes;
a source may replace reading up to a number of bits and skipping by faster or more lenient
ways of its own.
-/
namespace LayoutScript

/-- A computation on a state that may fail; the state survives the failure. -/
abbrev Stateful (σ α : Type) := ExceptT Fault (StateM σ) α

namespace Stateful
variable {σ α : Type}

def on (action : Stateful σ α) (s : σ) : Except Fault α × σ := action s

def repeatedly (action : Stateful σ α) : Nat → Stateful σ Unit
  | 0 => pure ()
  | n + 1 => do
    let _ ← action
    repeatedly action n

end Stateful

class BitSource (σ : Type) where
  /-- Bits that can still be read. -/
  left : σ → Nat
  /-- Bytes begun since the start or the last restart of the counter. -/
  counter : σ → Nat
  readBits : Nat → Stateful σ UInt8
  readByte : Stateful σ UInt8
  align : σ → σ
  restart : σ → σ
  /-- Reads up to a number of bits, together with how many there were. -/
  readBitsUpTo : Nat → Stateful σ (UInt8 × Nat) := fun n => do return (← readBits n, n)
  skipBytes : Nat → Stateful σ Unit := fun n => readByte.repeatedly n

namespace BitSource
variable {σ : Type} [BitSource σ]

def hasMore (s : σ) : Bool := 0 < left s

/-- Reads bytes until `count` are there or a read fails, keeping those that were read. -/
def fill : (count : Nat) → σ → (Option Fault × List UInt8) × σ
  | 0, s => ((none, []), s)
  | count + 1, s =>
    match (readByte (σ := σ)).on s with
    | (.error fault, s') => ((some fault, []), s')
    | (.ok b, s') =>
      match fill count s' with
      | ((fault?, bytes), s'') => ((fault?, b :: bytes), s'')

def readBytes (count : Nat) : Stateful σ (List UInt8) := fun s =>
  match fill count s with
  | ((none, bytes), s') => (.ok bytes, s')
  | ((some fault, _), s') => (.error fault, s')

def readNumber (count : Nat) (order : ByteOrder) : Stateful σ Nat := do
  return order.value (← readBytes count)

def readUInt16 (order : ByteOrder) : Stateful σ UInt16 := do
  return UInt16.ofNat (← readNumber 2 order)

def readUInt32 (order : ByteOrder) : Stateful σ UInt32 := do
  return UInt32.ofNat (← readNumber 4 order)

def readUInt64 (order : ByteOrder) : Stateful σ UInt64 := do
  return UInt64.ofNat (← readNumber 8 order)

/-- Aligns to a byte, then reads bytes until the counter is a multiple of `size`. -/
def alignTo (size : Nat) : Stateful σ Unit := do
  modify align
  if 1 < size then
    let counter := counter (← get)
    (readByte (σ := σ)).repeatedly ((size - counter % size) % size)

end BitSource
end LayoutScript
