import LayoutScript.Apply.Request

/-! # Reading fields

The value of every kind but structures. An array that meets the end of the input is cut
off there when the options are tolerant.
-/
namespace LayoutScript

inductive Reply where
  | nothing
  | value (v : Value)
  /-- An array whose next element is cut off by the end of the input. -/
  | cut (v : Value)

variable {σ : Type} [BitSource σ]

def readWhole (order : ByteOrder) : (t : WholeType) → Stateful σ t.Carrier
  | .bool => do return (← BitSource.readByte) != 0
  | .ubyte => BitSource.readByte
  | .byte => do return (← BitSource.readByte).toInt8
  | .ushort => BitSource.readUInt16 order
  | .short => do return (← BitSource.readUInt16 order).toInt16
  | .int => do return (← BitSource.readUInt32 order).toInt32
  | .long => do return (← BitSource.readUInt64 order).toInt64

section elements
variable {α : Type} (options : ReadOptions) (read : Stateful σ α)

/-- Reads `n` more elements after those in `acc`, the last one in front. Answers whether the
array is cut off. -/
def readExactly : (n : Nat) → (acc : List α) → Stateful σ (List α × Bool)
  | 0, acc => pure (acc.reverse, false)
  | n + 1, acc => fun s =>
    match read s with
    | (.ok v, s') => readExactly n (v :: acc) s'
    | (.error fault, s') =>
      if fault.isEndOfInput && options.tolerant then (.ok (acc.reverse, true), s')
      else (.error fault, s')

/-- Reads elements after the `size` ones in `acc` as long as there is input. Every element
takes some, else it is the last. -/
def readUntilEnd (size : Nat) (acc : List α) (s : σ) : Except Fault (List α × Bool) × σ :=
  if BitSource.left s = 0 then (.ok (acc.reverse, false), s)
  else if options.maxElements ≤ size then
    (.error (.input (.arrayTooLarge (size + 1) options.maxElements)), s)
  else
    match read s with
    | (.ok v, s') =>
      if BitSource.left s' < BitSource.left s then readUntilEnd (size + 1) (v :: acc) s'
      else (.ok ((v :: acc).reverse, false), s')
    | (.error fault, s') =>
      if fault.isEndOfInput && options.tolerant then (.ok (acc.reverse, true), s')
      else (.error fault, s')
termination_by BitSource.left s

def readArray (type : ScalarType) (read : Stateful σ type.Carrier) (count : ElementCount) :
    Stateful σ Reply := do
  let (values, cut) ←
    match count with
    | .one => readExactly options read 1 []
    | .exactly n => readExactly options read n []
    | .untilEnd => readUntilEnd options read 0 []
  return if cut then .cut (.array type values) else .value (.array type values)

end elements

def readScalars (options : ReadOptions) (type : ScalarType) (count : ElementCount)
    (read : Stateful σ type.Carrier) : Stateful σ Reply :=
  match count with
  | .one => do return .value (.scalar type (← read))
  | _ => readArray options type read count

/-- The extra of a modifier, which must not be negative. -/
def nonNegative (line : CodeLine) (extra : Int32) : Stateful σ Nat :=
  if extra < 0 then throw (.input (.negativeExtra line.offset extra.toInt))
  else pure extra.toInt.toNat

namespace Setting

def readField (s : Setting σ) (line : CodeLine) (r : Request) (readings : Readings) :
    Stateful σ Reply :=
  match line.instruction.action with
  | .align _ => do
    BitSource.alignTo (max (← nonNegative line r.extra) 1)
    return .nothing
  | .skip _ => do
    BitSource.skipBytes (← nonNegative line r.extra)
    return .nothing
  | .restart => do
    modify BitSource.restart
    return .nothing
  | .bit _ =>
    let width := r.extra.toInt.toNat
    if 1 ≤ r.extra ∧ r.extra ≤ 8 then
      readScalars s.options (.bit width) r.count
        (match r.count with
          | .untilEnd => do return (← BitSource.readBitsUpTo width).1
          | _ => BitSource.readBits width)
    else throw (.input (.bitWidth line.offset r.extra.toInt))
  | .whole type => readScalars s.options (.whole type) r.count (readWhole r.order type)
  | .var _ => do
    match s.collaborators.readVar with
    | some read => return .value (← read r readings)
    | none => throw (.supply (.varReader line.offset))
  | .custom index _ => do
    match s.layout.customTypes[index]? with
    | none => throw (.corrupt line.offset)
    | some type =>
      match s.collaborators.readCustom with
      | some read => return .value (← read type r readings)
      | none => throw (.supply (.customReader line.offset type.name))
  | .opening | .closing _ => throw (.corrupt line.offset)

end Setting
end LayoutScript
