import LayoutScript.Scalar

/-! # Kinds of declarations

Everything a script can declare has a kind. Each kind has a number in code, a label in
listings and, structures and custom types apart, a keyword in scripts.
-/
namespace LayoutScript

inductive Kind where
  | align | bit | whole (type : WholeType) | opening | closing | skip | var | restart | custom
deriving DecidableEq

namespace Kind

def code : Kind → UInt8
  | .align => 0x01
  | .bit => 0x02
  | .whole .bool => 0x03
  | .whole .ubyte => 0x04
  | .whole .byte => 0x05
  | .whole .ushort => 0x06
  | .whole .short => 0x07
  | .whole .int => 0x08
  | .whole .long => 0x09
  | .opening => 0x0a
  | .closing => 0x0b
  | .skip => 0x0c
  | .var => 0x0d
  | .restart => 0x0e
  | .custom => 0x0f

def all : List Kind :=
  [.align, .bit, .whole .bool, .whole .ubyte, .whole .byte, .whole .ushort, .whole .short,
    .whole .int, .whole .long, .opening, .closing, .skip, .var, .restart, .custom]

theorem mem_all (k : Kind) : k ∈ all := by
  rcases k with _ | _ | t | _ | _ | _ | _ | _ | _
  case whole => cases t <;> decide
  all_goals decide

/-- The kind whose number is in the low half of a byte. -/
def ofCode? (b : UInt8) : Option Kind := all.find? (·.code == b &&& 0x0f)

theorem ofCode?_code (k : Kind) : ofCode? k.code = some k := by
  rcases k with _ | _ | t | _ | _ | _ | _ | _ | _
  case whole => cases t <;> decide
  all_goals decide

def label : Kind → String
  | .align => "align"
  | .bit => "bit"
  | .whole t => t.label
  | .opening => "struct"
  | .closing => "end"
  | .skip => "skip"
  | .var => "var"
  | .restart => "reset$$"
  | .custom => "custom"

/-- Whether scripts declare the kind by its label. -/
def hasKeyword : Kind → Bool
  | .opening | .closing | .custom => false
  | _ => true

def ofKeyword? (name : String) : Option Kind :=
  all.find? fun k => k.hasKeyword && k.label == name

def hasExtra : Kind → Bool
  | .align | .bit | .skip | .var | .custom => true
  | _ => false

/-- Whether a value of the kind can be the size of a later field. -/
def isNumeric : Kind → Bool
  | .bit | .whole _ | .var | .custom => true
  | _ => false

/-- Whether the kind only moves the reading position or its counter. -/
def isModifier : Kind → Bool
  | .align | .skip | .restart => true
  | _ => false

end Kind
end LayoutScript
