import LayoutScript.Path
import LayoutScript.Value

/-! # Looking up fields

Fields are found by name, by path, by type or by a path with indices. Names and paths match
in any case, and of several matches the first in reading order counts.
-/
namespace LayoutScript

mutual

/-- Every field of a value, a structure before its members. -/
def Value.allFields : Value → List Field
  | .record fields => fields.allFields
  | .records items => allFieldsOfItems items
  | _ => []

def Record.allFields : Record → List Field
  | ⟨fields⟩ => allFieldsOf fields

def allFieldsOf : List Field → List Field
  | [] => []
  | ⟨info, value⟩ :: rest => ⟨info, value⟩ :: (value.allFields ++ allFieldsOf rest)

def allFieldsOfItems : List Record → List Field
  | [] => []
  | item :: items => item.allFields ++ allFieldsOfItems items

end

mutual

/-- The fields of a value that are not elements of structure arrays. -/
def Value.plainFields : Value → List Field
  | .record fields => fields.plainFields
  | _ => []

def Record.plainFields : Record → List Field
  | ⟨fields⟩ => plainFieldsOf fields

def plainFieldsOf : List Field → List Field
  | [] => []
  | ⟨info, value⟩ :: rest => ⟨info, value⟩ :: (value.plainFields ++ plainFieldsOf rest)

end

namespace Record

def field? (r : Record) (name : String) : Option Field := r.fields.find? (Field.hasName name)

def findPath? (r : Record) (path : String) : Option Field := r.allFields.find? (Field.hasPath path)

def findName? (r : Record) (name : String) : Option Field := r.allFields.find? (Field.hasName name)

def requirePath (r : Record) (path : String) : Except Fault Field :=
  match r.findPath? path with
  | some field => .ok field
  | none => .error (.lookup (.notFound path))

/-- The fields of a type outside structure arrays. -/
def ofType (r : Record) (type : FieldType) : List Field := r.plainFields.filter (Field.hasType type)

def first? (r : Record) (type : FieldType) : Option Field := (r.ofType type).head?

def last? (r : Record) (type : FieldType) : Option Field := (r.ofType type).getLast?

/-- The field of a type, of which there must not be two. -/
def only? (r : Record) (type : FieldType) : Except Fault (Option Field) :=
  match r.ofType type with
  | [] => .ok none
  | [field] => .ok (some field)
  | fields => .error (.lookup (.ambiguous type.label fields.length))

def findNamed? (r : Record) (name : String) (type : FieldType) : Option Field :=
  (r.ofType type).find? (Field.hasName name)

end Record

namespace Value

/-- The part of a value that a step selects. -/
def step? (v : Value) : PathStep → Option Value
  | .field name =>
    match v with
    | .record r => (r.field? name).map (·.value)
    | _ => none
  | .index n => v.element? n

end Value

def Record.select (r : Record) (path : FieldPath) : Except Fault Value :=
  match path.steps.foldlM Value.step? (.record r) with
  | some value => .ok value
  | none => .error (.lookup (.notFound path.render))

end LayoutScript
