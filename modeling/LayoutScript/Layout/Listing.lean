import LayoutScript.Layout
import LayoutScript.Text.Numeral

/-! # Listings of layouts

A listing shows the code one instruction a line: its offset, indented by the structures around
it, and what it declares. Names and computed sizes are taken from the tables in the order in
which reading takes them.
-/
namespace LayoutScript

/-- The lines of a text, without the line feeds that end them and a carriage return before
each. -/
def textLines (s : String) : List String :=
  (split s.toList []).map String.ofList
where
  /-- Splits a text behind the line `line`, whose last character is in front. -/
  split : List Char → (line : List Char) → List (List Char)
    | [], [] => []
    | [], line => [line.reverse]
    | '\n' :: cs, line =>
      (match line with
        | '\r' :: line => line.reverse
        | line => line.reverse) :: split cs []
    | c :: cs, line => split cs (c :: line)

namespace Layout

def nextText : List SizeSource → String × List SizeSource
  | [] => ("", [])
  | size :: sizes => (size.render, sizes)

def lineHead (offset depth : Nat) : String :=
  hexPadded 4 offset ++ "  " ++ String.join (List.replicate depth "  ")

def extraText (extra : Option Packed) (sizes : List SizeSource) : String × List SizeSource :=
  match extra with
  | none => ("", sizes)
  | some (.value n) => (":" ++ toString n.toInt, sizes)
  | some .computed =>
    let (text, sizes) := nextText sizes
    (":(" ++ text ++ ")", sizes)

def countText (count : Count) (sizes : List SizeSource) : String × List SizeSource :=
  match count with
  | .one => ("", sizes)
  | .fixed length => (" [" ++ toString length ++ "]", sizes)
  | .wholeStream => (" [_]", sizes)
  | .computed =>
    let (text, sizes) := nextText sizes
    (" [" ++ text ++ "]", sizes)

def nameText (named : Bool) (names : List NamedField) : String × List NamedField :=
  match named, names with
  | true, field :: names => (" " ++ field.path, names)
  | _, names => ("", names)

/-- The text of a type: that of a custom type is its name. -/
def typeText (layout : Layout) (action : Action) : String :=
  match action.customIndex?.bind (layout.customTypes[·]?) with
  | some type => type.name
  | none => action.kind.label

/-- The lines from a place on, with `depth` structures open. -/
def listingFrom (layout : Layout) (depth : Nat) :
    List CodeLine → List NamedField → List SizeSource → List String
  | [], _, _ => []
  | line :: lines, names, sizes =>
    match line.instruction.action with
    | .closing start =>
      (lineHead line.offset (depth - 1) ++ "end -> " ++ hexPadded 4 start.toInt64.toUInt64.toNat) ::
        layout.listingFrom (depth - 1) lines names sizes
    | action =>
      let (extra, sizes) := extraText action.extra? sizes
      let (count, sizes) := countText line.instruction.count sizes
      let (name, names) := nameText line.instruction.named names
      (lineHead line.offset depth ++ (if line.instruction.little then "<" else "") ++
          layout.typeText action ++ extra ++ count ++ name) ::
        layout.listingFrom (if line.kind = .opening then depth + 1 else depth) lines names sizes

def listing (layout : Layout) : Except Fault String := do
  let lines ← layout.lines
  return String.join
    ((layout.listingFrom 0 lines layout.named layout.sizes).map fun line => line ++ "\n")

end Layout
end LayoutScript
