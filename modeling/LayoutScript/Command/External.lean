import LayoutScript.Text.Blank
import LayoutScript.Text.Numeral
import LayoutScript.Text.Quoted

/-! # External values on a command line

An external value is given as a name and a number with an equals sign between them. The name
may have dollar signs in front; the number is decimal, or hexadecimal behind `0x`.
-/
namespace LayoutScript

inductive ExternalFault where
  | noEquals | noName | badNumber
deriving DecidableEq

def ExternalFault.message (word : String) : ExternalFault → String
  | .noEquals => s!"expected NAME=VALUE, got {quoted word}"
  | .noName => s!"missing name in {quoted word}"
  | .badNumber => s!"invalid value in {quoted word}"

/-- The parts of a text before and behind its first equals sign. -/
def splitEquals? (cs : List Char) : Option (List Char × List Char) :=
  match cs.dropWhile (· != '=') with
  | [] => none
  | _ :: rest => some (cs.takeWhile (· != '='), rest)

/-- The number that a text stands for. A sign stands behind `0x`. -/
def signedNumeral? : List Char → Option Int
  | '0' :: 'x' :: cs | '0' :: 'X' :: cs => signed? hexadecimal? cs
  | cs => signed? decimal? cs

def parseExternal (word : String) : Except ExternalFault (String × Int32) :=
  match splitEquals? word.toList with
  | none => .error .noEquals
  | some (name, value) =>
    match (trimmed name).dropWhile (· == '$') with
    | [] => .error .noName
    | name =>
      match (signedNumeral? (trimmed value)).filter (fitsSigned 32) with
      | none => .error .badNumber
      | some n => .ok (String.ofList name, Int32.ofInt n)

end LayoutScript
