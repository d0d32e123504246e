import LayoutScript.Text.Numeral

/-! # JSON texts

A JSON value keeps the members of an object in the order in which they are written. A text is
written in one line, or with one item a line and two blanks for every level.
-/
namespace LayoutScript

inductive Json where
  | bool (value : Bool)
  | number (value : Int)
  | text (value : String)
  | array (items : List Json)
  | object (members : List (String × Json))

namespace Json

/-- The form of one character between quotes. Controls without a letter of their own are
written as four hexadecimal digits. -/
def escapedChar (c : Char) : List Char :=
  match c with
  | '"' => ['\\', '"']
  | '\\' => ['\\', '\\']
  | '\x08' => ['\\', 'b']
  | '\x0c' => ['\\', 'f']
  | '\n' => ['\\', 'n']
  | '\r' => ['\\', 'r']
  | '\t' => ['\\', 't']
  | c =>
    if c.toNat < 0x20 then ['\\', 'u', '0', '0', hexDigit (c.toNat / 16), hexDigit c.toNat] else [c]

def quotedText (s : String) : String :=
  "\"" ++ String.ofList (s.toList.flatMap escapedChar) ++ "\""

inductive Style where
  | compact | indented
deriving DecidableEq

namespace Style

/-- A line feed and the blanks in front of an item. -/
def lineStart (depth : Nat) : String := "\n" ++ String.ofList (List.replicate (2 * depth) ' ')

/-- The items of an array or object at a depth, between its brackets. -/
def enclosed (style : Style) (depth : Nat) (opening closing : String) (items : List String) :
    String :=
  match style, items with
  | _, [] => opening ++ closing
  | .compact, items => opening ++ ",".intercalate items ++ closing
  | .indented, items =>
    opening ++ lineStart (depth + 1) ++ ("," ++ lineStart (depth + 1)).intercalate items ++
      lineStart depth ++ closing

def colon : Style → String
  | .compact => ":"
  | .indented => ": "

end Style

mutual

def write (style : Style) (depth : Nat) : Json → String
  | .bool value => if value then "true" else "false"
  | .number value => toString value
  | .text value => quotedText value
  | .array items => style.enclosed depth "[" "]" (writeItems style (depth + 1) items)
  | .object members => style.enclosed depth "\x7b" "\x7d" (writeMembers style (depth + 1) members)

def writeItems (style : Style) (depth : Nat) : List Json → List String
  | [] => []
  | item :: items => write style depth item :: writeItems style depth items

def writeMembers (style : Style) (depth : Nat) : List (String × Json) → List String
  | [] => []
  | (key, value) :: members =>
    (quotedText key ++ style.colon ++ write style depth value) :: writeMembers style depth members

end

def render (style : Style) (value : Json) : String := value.write style 0

/-- Puts a member into a list with ascending keys. A member with the same key gives way. -/
def insertMember (key : String) (value : Json) : List (String × Json) → List (String × Json)
  | [] => [(key, value)]
  | (key', value') :: members =>
    if key < key' then (key, value) :: (key', value') :: members
    else if key = key' then (key, value) :: members
    else (key', value') :: insertMember key value members

/-- The object with the given members by ascending key; of several with one key the last
counts. -/
def ofMembers (members : List (String × Json)) : Json :=
  .object (members.foldl (fun sorted (key, value) => insertMember key value sorted) [])

end Json
end LayoutScript
