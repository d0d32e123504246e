import LayoutScript.Json
import LayoutScript.Value

/-! # Field trees as JSON

A structure becomes an object with its fields under their names. An anonymous structure gives
its members to the structure around it, and any other field without a name gets its position
in its own structure as a key.
-/
namespace LayoutScript

def ScalarType.toJson : (t : ScalarType) → t.Carrier → Json
  | .whole .bool, v => .bool v
  | t, v => .number (t.toInt v)

mutual

def Value.toJson : Value → Json
  | .scalar t v => t.toJson v
  | .array t vs => .array (vs.map t.toJson)
  | .text s => .text s
  | .record r => .ofMembers r.members
  | .records items => .array (itemsToJson items)

/-- The members that a structure gives to its object, in reading order. -/
def Record.members : Record → List (String × Json)
  | ⟨fields⟩ => membersFrom 0 fields

/-- The members of the fields from a position on. -/
def membersFrom (position : Nat) : List Field → List (String × Json)
  | [] => []
  | ⟨some info, value⟩ :: rest => (info.name, value.toJson) :: membersFrom (position + 1) rest
  | ⟨none, .record r⟩ :: rest => r.members ++ membersFrom (position + 1) rest
  | ⟨none, value⟩ :: rest => ("_" ++ toString position, value.toJson) :: membersFrom (position + 1) rest

def itemsToJson : List Record → List Json
  | [] => []
  | item :: items => .ofMembers item.members :: itemsToJson items

end

def Record.toJson (r : Record) : Json := .ofMembers r.members

end LayoutScript
