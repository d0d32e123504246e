import LayoutScript.Value

/-! # Reports of field trees

A report shows a field a line, the members of a structure between braces and two blanks
further in. What goes beyond the limits of a report is counted instead of shown.
-/
namespace LayoutScript

structure ReportLimits where
  fields : Nat := 200
  characters : Nat := 200
  items : Nat := 32
  depth : Nat := 8
deriving DecidableEq

namespace ReportLimits

def clipped (limits : ReportLimits) (s : String) : String :=
  let shown :=
    if s.length ≤ limits.characters then s
    else String.ofList (s.toList.take limits.characters) ++ "..."
  "\"" ++ shown ++ "\""

def listed {α : Type} (limits : ReportLimits) (text : α → String) (elements : List α) : String :=
  let more :=
    if limits.items < elements.length then [s!"... {elements.length - limits.items} more"] else []
  "[" ++ ", ".intercalate ((elements.take limits.items).map text ++ more) ++ "]"

end ReportLimits

def ScalarType.render : (t : ScalarType) → t.Carrier → String
  | .whole .bool, v => if v then "true" else "false"
  | t, v => toString (t.toInt v)

/-- A value in one line; of structures only the size is told. -/
def Value.line (limits : ReportLimits) : Value → String
  | .scalar t v => t.render v
  | .array t vs => limits.listed t.render vs
  | .text s => limits.clipped s
  | .record r => s!"struct \x7b {r.fields.length} fields \x7d"
  | .records items => s!"struct[{items.length}]"

def blanks (indent : Nat) : String := String.ofList (List.replicate indent ' ')

mutual

/-- The lines of a value, the first of which starts with `title`. -/
def Value.titledLines (limits : ReportLimits) (indent depth : Nat) (title : String) :
    Value → List String
  | .record r =>
    (blanks indent ++ title ++ "struct \x7b") :: (r.nestedLines limits indent depth ++
      [blanks indent ++ "\x7d"])
  | .records items =>
    (blanks indent ++ title ++ s!"struct[{items.length}] [") ::
      (itemLines limits (indent + 2) depth 0 limits.items items ++ [blanks indent ++ "]"])
  | v => [blanks indent ++ title ++ v.fieldType.label ++ " = " ++ v.line limits]

def Record.nestedLines (limits : ReportLimits) (indent depth : Nat) : Record → List String
  | ⟨fields⟩ =>
    if limits.depth ≤ depth + 1 then [blanks indent ++ s!"  ... {fields.length} fields"]
    else fieldLines limits (indent + 2) (depth + 1) limits.fields fields

/-- The lines of fields, of which at most `left` are shown. -/
def fieldLines (limits : ReportLimits) (indent depth : Nat) : (left : Nat) → List Field → List String
  | _, [] => []
  | 0, _ :: rest => [blanks indent ++ s!"... {rest.length + 1} more fields"]
  | left + 1, ⟨info, value⟩ :: rest =>
    value.titledLines limits indent depth ((info.map (·.name)).getD "_" ++ ": ") ++
      fieldLines limits indent depth left rest

/-- The lines of the elements of a structure array from an index on, of which at most `left`
are shown. -/
def itemLines (limits : ReportLimits) (indent depth index : Nat) :
    (left : Nat) → List Record → List String
  | _, [] => []
  | 0, _ :: rest => [blanks indent ++ s!"... {rest.length + 1} more"]
  | left + 1, item :: rest =>
    (blanks indent ++ s!"[{index}] \x7b") :: (item.nestedLines limits indent depth ++
      (blanks indent ++ "\x7d") :: itemLines limits indent depth (index + 1) left rest)

end

def joinLines (lines : List String) : String := String.join (lines.map (· ++ "\n"))

def Record.report (r : Record) (limits : ReportLimits) (indent depth : Nat) : String :=
  joinLines (fieldLines limits indent depth limits.fields r.fields)

def Value.report (v : Value) (limits : ReportLimits) : String :=
  joinLines (v.titledLines limits 0 0 "")

end LayoutScript
