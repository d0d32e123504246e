/-! # Size expressions

An expression computes a 32-bit integer from literals, the values of earlier fields,
external values and the position in the input. `Expr.postfixOps` lists its operations in
the order in which a stack evaluates them.
-/
namespace LayoutScript

inductive UnaryOp where
  | plus | neg | not
deriving DecidableEq

inductive BinaryOp where
  | add | sub | mul | div | rem | or | and | xor
deriving DecidableEq

namespace UnaryOp

/-- The sign of an operator in postfix listings, where it differs from the binary one. -/
def sign : UnaryOp → String
  | .plus => "u+"
  | .neg => "u-"
  | .not => "~"

/-- The operator that a character stands for before an operand. -/
def ofChar? : Char → Option UnaryOp
  | '+' => some .plus
  | '-' => some .neg
  | '~' => some .not
  | _ => none

end UnaryOp

namespace BinaryOp

def sign : BinaryOp → String
  | .add => "+"
  | .sub => "-"
  | .mul => "*"
  | .div => "/"
  | .rem => "%"
  | .or => "|"
  | .and => "&"
  | .xor => "^"

/-- The operator that a character stands for after an operand. -/
def ofChar? : Char → Option BinaryOp
  | '+' => some .add
  | '-' => some .sub
  | '*' => some .mul
  | '/' => some .div
  | '%' => some .rem
  | '|' => some .or
  | '&' => some .and
  | '^' => some .xor
  | _ => none

end BinaryOp

/-- The syntax tree of an expression. Fields are named by their index among the named
declarations. -/
inductive Expr where
  | literal (n : Int32)
  | field (index : Nat)
  | external (name : String)
  | position
  | unary (op : UnaryOp) (operand : Expr)
  | binary (op : BinaryOp) (left right : Expr)
deriving DecidableEq

inductive ExprOp where
  | literal (n : Int32)
  | field (index : Nat)
  | external (name : String)
  | position
  | unary (op : UnaryOp)
  | binary (op : BinaryOp)
deriving DecidableEq

/-- The operations of an expression, operands before their operators. -/
def Expr.postfixOps : Expr → List ExprOp
  | .literal n => [.literal n]
  | .field index => [.field index]
  | .external name => [.external name]
  | .position => [.position]
  | .unary op operand => operand.postfixOps ++ [.unary op]
  | .binary op left right => left.postfixOps ++ right.postfixOps ++ [.binary op]

def ExprOp.render : ExprOp → String
  | .literal n => toString n.toInt
  | .field index => "#" ++ toString index
  | .external name => "$" ++ name
  | .position => "$$"
  | .unary op => op.sign
  | .binary op => op.sign

/-- A compiled expression: the text it was written as and its operations. -/
structure ExprProgram where
  source : String
  ops : List ExprOp
deriving DecidableEq

namespace ExprProgram

def render (p : ExprProgram) : String := " ".intercalate (p.ops.map ExprOp.render)

def usesExternal (p : ExprProgram) : Bool :=
  p.ops.any fun
    | .external _ => true
    | _ => false

/-- Whether the program depends on nothing but its literals. -/
def isConstant (p : ExprProgram) : Bool :=
  p.ops.all fun
    | .field _ | .external _ | .position => false
    | _ => true

end ExprProgram
end LayoutScript
