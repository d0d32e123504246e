import LayoutScript.Text.Ascii

/-! # Lexemes of expressions

An expression is a sequence of numbers, names and signs with blanks between them. A number
takes letters along, which makes it invalid later; every other character is a sign.
-/
namespace LayoutScript

inductive Lexeme where
  | number (text : List Char)
  | name (text : List Char)
  | sign (c : Char)
deriving DecidableEq

/-- A lexeme and the offset of its first byte. -/
structure PlacedLexeme where
  pos : Nat
  lexeme : Lexeme
deriving DecidableEq

namespace PlacedLexeme

/-- A letter, an underscore or a dollar sign starts a name. -/
def startsName (c : Char) : Bool := c.isAlpha || c == '_' || c == '$'

def isExprNameChar (c : Char) : Bool := c.isAlphanum || c == '_' || c == '.' || c == '$'

/-- The lexemes of a text that starts at the offset `pos`. -/
def scanFrom (pos : Nat) : List Char → List PlacedLexeme
  | [] => []
  | c :: cs =>
    if isBlank c then scanFrom (pos + c.utf8Size) cs
    else if c.isDigit then
      let word := c :: cs.takeWhile Char.isAlphanum
      ⟨pos, .number word⟩ :: scanFrom (pos + byteLength word) (cs.dropWhile Char.isAlphanum)
    else if startsName c then
      let word := c :: cs.takeWhile isExprNameChar
      ⟨pos, .name word⟩ :: scanFrom (pos + byteLength word) (cs.dropWhile isExprNameChar)
    else ⟨pos, .sign c⟩ :: scanFrom (pos + c.utf8Size) cs
termination_by cs => cs.length
decreasing_by
  all_goals simp only [List.length_cons]
  all_goals first
    | omega
    | exact Nat.lt_succ_of_le (length_dropWhile_le _ _)

def scan (text : String) : List PlacedLexeme := scanFrom 0 text.toList

end PlacedLexeme
end LayoutScript
