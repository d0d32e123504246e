import LayoutScript.Readings
import LayoutScript.Scalar

/-! # Field trees

Reading an input gives a tree of fields. A value is a scalar, an array of scalars of one
type, a text, a structure or an array of structures; every structure keeps its fields in
the order in which they were read.
-/
namespace LayoutScript

mutual

inductive Value where
  | scalar (type : ScalarType) (value : type.Carrier)
  | array (type : ScalarType) (values : List type.Carrier)
  | text (text : String)
  | record (fields : Record)
  | records (items : List Record)

/-- A value and its declaration, which an unnamed field has not. -/
structure Field where
  info : Option NamedField
  value : Value

structure Record where
  fields : List Field

end

/-- The types of values by which fields are looked up. -/
inductive FieldType where
  | bit | bits
  | whole (type : WholeType)
  | wholes (type : WholeType)
  | text | record | records
deriving DecidableEq

namespace FieldType

def label : FieldType → String
  | .bit => "bit"
  | .bits => "bit[]"
  | .whole t => t.label
  | .wholes t => t.label ++ "[]"
  | .text => "string"
  | .record => "struct"
  | .records => "struct[]"

def wholeTypes : List WholeType := [.bool, .ubyte, .byte, .ushort, .short, .int, .long]

def all : List FieldType :=
  [.bit, .bits, .text, .record, .records] ++ wholeTypes.map .whole ++ wholeTypes.map .wholes

/-- The type with the given label. -/
def ofLabel? (label : String) : Option FieldType := all.find? (·.label == label)

end FieldType

namespace Value

def fieldType : Value → FieldType
  | .scalar (.bit _) _ => .bit
  | .scalar (.whole t) _ => .whole t
  | .array (.bit _) _ => .bits
  | .array (.whole t) _ => .wholes t
  | .text _ => .text
  | .record _ => .record
  | .records _ => .records

/-- The number that a scalar stands for. -/
def number? : Value → Option Int64
  | .scalar t v => some (Int64.ofInt (t.toInt v))
  | _ => none

def length? : Value → Option Nat
  | .array _ vs => some vs.length
  | .records items => some items.length
  | _ => none

def isArray (v : Value) : Bool := v.length?.isSome

def element? (v : Value) (index : Nat) : Option Value :=
  match v with
  | .array t vs => vs[index]?.map (.scalar t)
  | .records items => items[index]?.map .record
  | _ => none

end Value

namespace Field

def name? (f : Field) : Option String := f.info.map (·.name)

def path? (f : Field) : Option String := f.info.map (·.path)

/-- Whether the field has the given name, in any case. -/
def hasName (name : String) (f : Field) : Bool := f.name?.any (sameName name)

/-- Whether the field has the given path, in any case. -/
def hasPath (path : String) (f : Field) : Bool := f.path?.any (sameName path)

def hasType (type : FieldType) (f : Field) : Bool := f.value.fieldType == type

end Field
end LayoutScript
