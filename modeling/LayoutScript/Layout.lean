import LayoutScript.Code.Instruction
import LayoutScript.Expr
import LayoutScript.Readings
import LayoutScript.Token

/-! # Compiled layouts

A layout is the code of a script with the tables that its instructions draw on in turn: the
named declarations, the sources of computed sizes and extras, and the custom types.
-/
namespace LayoutScript

inductive SizeSource where
  | expression (program : ExprProgram)
  /-- One earlier field, with the name by which the script calls it. -/
  | field (index : Nat) (name : String)
  | external (name : String)
  /-- The bytes begun since the last restart of the counter. -/
  | position
deriving DecidableEq

namespace SizeSource

def render : SizeSource → String
  | .expression program => program.source
  | .field _ name => name
  | .external name => "$" ++ name
  | .position => "$$"

def usesExternal : SizeSource → Bool
  | .expression program => program.usesExternal
  | .external _ => true
  | .field .. | .position => false

end SizeSource

inductive SizeSpec where
  | fixed (n : Int32)
  /-- As many elements as there are up to the end of the input. -/
  | wholeStream
  | computed (source : SizeSource)
deriving DecidableEq

structure Layout where
  source : String := ""
  code : List UInt8 := []
  named : List NamedField := []
  sizes : List SizeSource := []
  customTypes : List TypeSpec := []
deriving DecidableEq

namespace Layout

/-- The first named declaration with the given path, in any case, and its index. -/
def findPath? (layout : Layout) (path : String) : Option (Nat × NamedField) := do
  let index ← layout.named.findIdx? (sameName path ·.path)
  let field ← layout.named[index]?
  return (index, field)

def usesExternal (layout : Layout) : Bool := layout.sizes.any SizeSource.usesExternal

def lines (layout : Layout) : Except Fault (List CodeLine) := CodeLine.ofCode layout.code

end Layout

/-- A source of external values, which may look at what has been read. -/
abbrev Provider := String → Readings → Layout → Option Int32

/-- What sizes and extras are computed from. -/
structure SizeContext where
  layout : Layout
  readings : Readings := {}
  provider : Option Provider := none
  /-- Bytes begun since the last restart of the counter. -/
  position : Nat := 0

namespace SizeContext

/-- The number read for the named declaration at an index, cut to 32 bits. -/
def valueAt (cx : SizeContext) (index : Nat) : Except Fault Int32 :=
  match cx.layout.named[index]? with
  | none => .error (.corrupt index)
  | some field =>
    match cx.readings.get? field with
    | none => .error (.input (.noValue field.path))
    | some value => .ok value.toInt32

def external (cx : SizeContext) (name : String) : Except Fault Int32 :=
  match cx.provider.bind fun provide => provide name cx.readings cx.layout with
  | none => .error (.supply (.externalValue name))
  | some value => .ok value

def positionValue (cx : SizeContext) : Int32 := Int32.ofNat cx.position

end SizeContext
end LayoutScript
