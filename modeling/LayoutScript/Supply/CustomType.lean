import LayoutScript.Compile
import LayoutScript.Supply.Readers

/-! # Tables of custom types

A table of custom types says for each name which declarations it accepts and how its values
are read.
-/
namespace LayoutScript

inductive Demand where
  | zeroExtra | computedExtra | name | littleEndian
deriving DecidableEq

inductive Encoding where
  | number (size : Nat)
  | text
  | probe
deriving DecidableEq

structure CustomType where
  name : String
  encoding : Encoding := .number 1
  arrays : Bool := true
  demand : Option Demand := none
deriving DecidableEq

namespace CustomType

def accepts (c : CustomType) (type : TypeSpec) (name : Option String) (extra : Option Int32)
    (isArray : Bool) : Bool :=
  (c.arrays || !isArray) &&
    match c.demand with
    | some .zeroExtra => extra == some 0
    | some .computedExtra => extra.isNone
    | some .name => name.isSome
    | some .littleEndian => type.order == .little
    | none => true

/-- The first type of a table with the given name, in any case. -/
def find? (table : List CustomType) (name : String) : Option CustomType :=
  table.find? (sameName name ·.name)

def declared (table : List CustomType) : CustomTypes where
  names := table.map (·.name)
  allows type name extra isArray := (find? table type.name).any (·.accepts type name extra isArray)

def reader {σ : Type} [BitSource σ] (table : List CustomType) (type : TypeSpec) : FieldReader σ :=
  fun r readings =>
    match find? table type.name with
    | none => throw (.supply (.customReader 0 type.name))
    | some c =>
      match c.encoding with
      | .probe => FieldReader.probe type.render r readings
      | .text => FieldReader.readText r.extra.toInt.toNat
      | .number size => FieldReader.packedNumbers (min (max size 1) 8) r readings

end CustomType
end LayoutScript
