import LayoutScript.Layout

/-! # Evaluating expressions

Arithmetic wraps around at 32 bits; only division and remainder by zero fail. Compiled
expressions run on a stack of sixteen values, and a seventeenth value is a fault as well.
-/
namespace LayoutScript

def UnaryOp.apply : UnaryOp → Int32 → Int32
  | .plus, n => n
  | .neg, n => -n
  | .not, n => ~~~n

def BinaryOp.apply (op : BinaryOp) (left right : Int32) : Except Fault Int32 :=
  match op with
  | .add => .ok (left + right)
  | .sub => .ok (left - right)
  | .mul => .ok (left * right)
  | .div => if right = 0 then .error (.expression .divisionByZero) else .ok (left / right)
  | .rem => if right = 0 then .error (.expression .divisionByZero) else .ok (left % right)
  | .or => .ok (left ||| right)
  | .and => .ok (left &&& right)
  | .xor => .ok (left ^^^ right)

namespace ExprProgram

def stackDepth : Nat := 16

/-- A program that takes more values from the stack than it has put there, or leaves more
than one. -/
def unbalanced (left : Nat) : Fault := .expression (.unbalanced left)

/-- What an operation takes from the top of the stack, and the value that it puts there. -/
def operate (cx : SizeContext) : ExprOp → List Int32 → Except Fault (Int32 × List Int32)
  | .literal n, stack => .ok (n, stack)
  | .field index, stack => do return (← cx.valueAt index, stack)
  | .external name, stack => do return (← cx.external name, stack)
  | .position, stack => .ok (cx.positionValue, stack)
  | .unary op, n :: stack => .ok (op.apply n, stack)
  | .binary op, right :: left :: stack => do return (← op.apply left right, stack)
  | _, _ => .error (unbalanced 0)

/-- Runs operations on a stack, the top in front. -/
def run (cx : SizeContext) : List ExprOp → List Int32 → Except Fault (List Int32)
  | [], stack => .ok stack
  | op :: ops, stack => do
    let (n, stack) ← operate cx op stack
    if stack.length = stackDepth then throw (.expression (.stackOverflow stackDepth))
    run cx ops (n :: stack)

def evaluate (cx : SizeContext) (p : ExprProgram) : Except Fault Int32 := do
  match ← run cx p.ops [] with
  | [n] => return n
  | stack => throw (unbalanced stack.length)

/-- The value of a program that depends on nothing but its literals. -/
def constant? (p : ExprProgram) : Option Int32 :=
  if p.isConstant then (p.evaluate { layout := {} }).toOption else none

end ExprProgram

def SizeSource.evaluate (cx : SizeContext) : SizeSource → Except Fault Int32
  | .expression program => program.evaluate cx
  | .field index _ => cx.valueAt index
  | .external name => cx.external name
  | .position => .ok cx.positionValue

end LayoutScript
