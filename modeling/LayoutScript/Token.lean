import LayoutScript.Bits.Order
import LayoutScript.Text.Ascii

/-! # Tokens of a script

A script is a sequence of field declarations, openings and ends of structures, and
comments. A token keeps its size and its extra data as they are written; `Token.render`
writes the token in one canonical way, which messages quote.
-/
namespace LayoutScript

/-- A type as it is written: `[<>]? name (":" extra)?`. -/
structure TypeSpec where
  order : ByteOrder
  /-- The type name, in lower case. -/
  name : String
  /-- A decimal integer or an expression in parentheses. -/
  extra : Option String := none
deriving DecidableEq

namespace TypeSpec

/-- A decimal integer, or a text in parentheses that is not empty. -/
def isExtra : List Char → Bool
  | '(' :: cs => 2 ≤ cs.length && cs.getLast? == some ')'
  | '-' :: cs => !cs.isEmpty && cs.all Char.isDigit
  | cs => !cs.isEmpty && cs.all Char.isDigit

/-- A letter, digit or underscore, and then also dollar signs. -/
def isTypeName : List Char → Bool
  | [] => false
  | c :: cs => isNameChar c && cs.all fun c => isNameChar c || c == '$'

def splitOrder : List Char → ByteOrder × List Char
  | '<' :: cs => (.little, cs)
  | '>' :: cs => (.big, cs)
  | cs => (.big, cs)

def parse? (text : List Char) : Option TypeSpec :=
  let (order, text) := splitOrder text
  let name := text.takeWhile (· != ':')
  let spec (extra : Option String) : TypeSpec :=
    { order, name := foldCase (String.ofList name), extra }
  if isTypeName name then
    match text.dropWhile (· != ':') with
    | [] => some (spec none)
    | _ :: extra => if isExtra extra then some (spec (String.ofList extra)) else none
  else none

def isComputed (t : TypeSpec) : Bool :=
  match t.extra with
  | some extra => extra.toList.head? == some '('
  | none => false

/-- The type as it is written, in lower case and with the byte order only where it is little. -/
def render (t : TypeSpec) : String :=
  (if t.order = .little then "<" else "") ++ t.name ++
    (match t.extra with
      | some extra => ":" ++ extra
      | none => "")

end TypeSpec

inductive Declared where
  | field (type : TypeSpec) (size : Option String) (name : Option String)
  | opening (size : Option String) (name : Option String)
  | closing
  | comment (text : String)
deriving DecidableEq

structure Token where
  position : Nat
  declared : Declared
deriving DecidableEq

namespace Declared

/-- The text of a size and a name after a type, or of an anonymous declaration. -/
def renderSizeName (type : String) (size name : Option String) : String :=
  let head := type ++ (match size with
    | some size => "[" ++ size ++ "]"
    | none => "")
  match name with
  | some name => if head = "" then name else head ++ " " ++ name
  | none => head

def render : Declared → String
  | .field type size name => renderSizeName type.render size name ++ ";"
  | .opening size name => renderSizeName "" size name ++ " \x7b"
  | .closing => "\x7d"
  | .comment text => "//" ++ text

def size? : Declared → Option String
  | .field _ size _ | .opening size _ => size
  | _ => none

def name? : Declared → Option String
  | .field _ _ name | .opening _ name => name
  | .comment text => some text
  | .closing => none

def type? : Declared → Option TypeSpec
  | .field type _ _ => some type
  | _ => none

end Declared

namespace Token

def render (t : Token) : String := t.declared.render

end Token
end LayoutScript
