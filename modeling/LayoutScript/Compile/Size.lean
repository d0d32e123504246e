import LayoutScript.Expr.Evaluate
import LayoutScript.Expr.Compile
import LayoutScript.Text.Blank

/-! # Classifying sizes

A size or an extra in parentheses is a number known from the script, or is computed when
the layout is applied. A lone name or number is taken as it is; every other text is compiled
as an expression, and one that depends on nothing but literals is computed at once unless
its value is negative.
-/
namespace LayoutScript

/-- A text that is one number or one name, and no expression. -/
def isSingleReference (cs : List Char) : Bool :=
  !cs.isEmpty && cs.all PlacedLexeme.isExprNameChar &&
    (cs.all Char.isDigit || !(cs.head?.any Char.isDigit))

structure SizeScope where
  position : Nat
  /-- The canonical text of the token. -/
  token : String
  resolve : Resolver

namespace SizeScope

def reference (scope : SizeScope) (text : String) : Except Fault SizeSpec :=
  if text.toList.all Char.isDigit then
    let n := decimalValue text.toList
    if n < 1 <<< 31 then .ok (.fixed (Int32.ofNat n))
    else .error (.expression (.literalOutOfRange text text))
  else
    match text.toList with
    | '$' :: name =>
      .ok (.computed (if name = [] ∨ name = ['$'] then .position else .external (String.ofList name)))
    | _ => do
      match ← scope.resolve text with
      | some index => return .computed (.field index (foldCase text))
      | none => throw (.script scope.position scope.token (.unknownSizeField text))

def build (scope : SizeScope) (text : String) : Except Fault SizeSpec :=
  if isSingleReference text.toList then scope.reference text
  else do
    let program ← ExprProgram.compile text scope.resolve
    match program.constant? with
    | some value => return if 0 ≤ value then .fixed value else .computed (.expression program)
    | none => return .computed (.expression program)

/-- Classifies an array size; an underscore stands for the whole input. -/
def arraySize (scope : SizeScope) (text : String) : Except Fault SizeSpec :=
  let text := trimText text
  if text = "_" then .ok .wholeStream else scope.build text

def extra (scope : SizeScope) (text : String) : Except Fault SizeSpec := scope.build (trimText text)

end SizeScope
end LayoutScript
