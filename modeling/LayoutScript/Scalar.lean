/-! # Scalar types

A scalar is a run of one to eight bits or a number that fills whole bytes. Each type
carries values of its own width, so a value never needs a range check.
-/
namespace LayoutScript

/-- The types that fill whole bytes. -/
inductive WholeType where
  | bool | ubyte | byte | ushort | short | int | long
deriving DecidableEq

namespace WholeType

def label : WholeType → String
  | .bool => "bool"
  | .ubyte => "ubyte"
  | .byte => "byte"
  | .ushort => "ushort"
  | .short => "short"
  | .int => "int"
  | .long => "long"

/-- The bytes that a value fills. -/
def size : WholeType → Nat
  | .bool | .ubyte | .byte => 1
  | .ushort | .short => 2
  | .int => 4
  | .long => 8

/-- The values of a type. -/
@[reducible] def Carrier : WholeType → Type
  | .bool => Bool
  | .ubyte => UInt8
  | .byte => Int8
  | .ushort => UInt16
  | .short => Int16
  | .int => Int32
  | .long => Int64

instance (t : WholeType) : DecidableEq t.Carrier :=
  match t with
  | .bool => inferInstanceAs (DecidableEq Bool)
  | .ubyte => inferInstanceAs (DecidableEq UInt8)
  | .byte => inferInstanceAs (DecidableEq Int8)
  | .ushort => inferInstanceAs (DecidableEq UInt16)
  | .short => inferInstanceAs (DecidableEq Int16)
  | .int => inferInstanceAs (DecidableEq Int32)
  | .long => inferInstanceAs (DecidableEq Int64)

/-- The value as an integer; a truth value is one or zero. -/
def toInt : (t : WholeType) → t.Carrier → Int
  | .bool, v => v.toInt
  | .ubyte, v => v.toNat
  | .byte, v => v.toInt
  | .ushort, v => v.toNat
  | .short, v => v.toInt
  | .int, v => v.toInt
  | .long, v => v.toInt

end WholeType

/-- The types of scalars; the width of a run of bits belongs to its type. -/
inductive ScalarType where
  | bit (width : Nat)
  | whole (type : WholeType)
deriving DecidableEq

namespace ScalarType

def label : ScalarType → String
  | .bit _ => "bit"
  | .whole t => t.label

@[reducible] def Carrier : ScalarType → Type
  | .bit _ => UInt8
  | .whole t => t.Carrier

instance (t : ScalarType) : DecidableEq t.Carrier :=
  match t with
  | .bit _ => inferInstanceAs (DecidableEq UInt8)
  | .whole t => inferInstanceAs (DecidableEq t.Carrier)

def toInt : (t : ScalarType) → t.Carrier → Int
  | .bit _, v => v.toNat
  | .whole t, v => t.toInt v

end ScalarType
end LayoutScript
