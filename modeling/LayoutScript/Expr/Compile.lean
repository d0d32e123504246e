import LayoutScript.Expr
import LayoutScript.Expr.Lexeme
import LayoutScript.Fault
import LayoutScript.Text.Numeral

/-! # Compiling expressions

An expression becomes operations in one pass over its lexemes. Operands are put out at once;
operators and brackets wait on a stack. An operator comes out when one that does not bind
tighter, a closing bracket or the end of the text follows. Names resolve as they are met, so
the first fault from the left is the one reported.
-/
namespace LayoutScript

/-- What the names of an expression stand for: an index, nothing, or a fault. -/
abbrev Resolver := String → Except Fault (Option Nat)

namespace Expr

def malformed (text : String) (pos : Nat) (rule : ExprRule) : Fault :=
  .expression (.malformed text pos rule)

def ofNumber (text : String) (pos : Nat) (digits : List Char) : Except Fault Expr :=
  match decimal? digits with
  | none => .error (malformed text pos .invalidNumber)
  | some n =>
    if n < 1 <<< 31 then .ok (.literal (Int32.ofNat n))
    else .error (.expression (.literalOutOfRange text (String.ofList digits)))

/-- A name as an operand: a field, or behind a dollar sign an external value, or the
position in the input. -/
def ofName (text : String) (resolve : Resolver) : List Char → Except Fault Expr
  | '$' :: name => .ok (if name = [] ∨ name = ['$'] then .position else .external (String.ofList name))
  | name => do
    match ← resolve (String.ofList name) with
    | some index => return .field index
    | none => throw (.expression (.unknownIdentifier text (String.ofList name)))

end Expr

def ExprOp.priority : ExprOp → Nat
  | .unary _ => 4
  | .binary .mul | .binary .div | .binary .rem => 3
  | .binary .add | .binary .sub => 2
  | .binary .or | .binary .and | .binary .xor => 1
  | .literal _ | .field _ | .external _ | .position => 0

inductive Pending where
  | operator (op : ExprOp)
  | bracket (pos : Nat)

/-- Where a compilation stands. The last thing that waits is in front. -/
structure Compilation where
  ops : List ExprOp := []
  pending : List Pending := []
  expectsOperand : Bool := true

namespace Compilation
open LayoutScript.Expr (malformed)

/-- Puts out the operators that wait with at least the given priority, up to a bracket. -/
def release (priority : Nat) (ops : List ExprOp) : List Pending → List ExprOp × List Pending
  | .operator op :: pending =>
    if op.priority < priority then (ops, .operator op :: pending)
    else release priority (ops ++ [op]) pending
  | pending => (ops, pending)

/-- Puts out the operators that wait up to the bracket that closes at `pos`. -/
def close (text : String) (pos : Nat) (ops : List ExprOp) : List Pending → Except Fault (List ExprOp × List Pending)
  | .operator op :: pending => close text pos (ops ++ [op]) pending
  | .bracket _ :: pending => .ok (ops, pending)
  | [] => .error (.expression (.unmatchedBracket text pos))

def finish (text : String) (ops : List ExprOp) : List Pending → Except Fault (List ExprOp)
  | .operator op :: pending => finish text (ops ++ [op]) pending
  | .bracket pos :: _ => .error (.expression (.unmatchedBracket text pos))
  | [] => .ok ops

def operand (c : Compilation) (e : Expr) : Compilation :=
  { c with ops := c.ops ++ e.postfixOps, expectsOperand := false }

def step (text : String) (resolve : Resolver) (c : Compilation) (t : PlacedLexeme) : Except Fault Compilation :=
  match t.lexeme with
  | .number digits =>
    if c.expectsOperand then do return c.operand (← Expr.ofNumber text t.pos digits)
    else .error (malformed text t.pos .missingOperator)
  | .name name =>
    if c.expectsOperand then do return c.operand (← Expr.ofName text resolve name)
    else .error (malformed text t.pos .missingOperator)
  | .sign sign =>
    if sign = '(' then
      if c.expectsOperand then .ok { c with pending := .bracket t.pos :: c.pending }
      else .error (malformed text t.pos .missingOperatorBeforeBracket)
    else if sign = ')' then
      if c.expectsOperand then .error (malformed text t.pos .missingOperandBeforeClose)
      else do
        let (ops, pending) ← close text t.pos c.ops c.pending
        return { c with ops, pending }
    else
      match UnaryOp.ofChar? sign, BinaryOp.ofChar? sign, c.expectsOperand with
      | some op, _, true => .ok { c with pending := .operator (.unary op) :: c.pending }
      | _, some op, false =>
        let (ops, pending) := release (ExprOp.binary op).priority c.ops c.pending
        .ok ⟨ops, .operator (.binary op) :: pending, true⟩
      | none, some _, true => .error (malformed text t.pos .missingLeftOperand)
      | some _, none, false => .error (malformed text t.pos .unaryAfterOperand)
      | none, none, _ => .error (malformed text t.pos .unexpectedCharacter)

/-- The operations of an expression whose last lexemes are left. -/
def run (text : String) (resolve : Resolver) (c : Compilation) : List PlacedLexeme → Except Fault (List ExprOp)
  | t :: ts => do run text resolve (← c.step text resolve t) ts
  | [] =>
    if c.expectsOperand then .error (malformed text text.utf8ByteSize .missingLastOperand)
    else finish text c.ops c.pending

end Compilation

def ExprProgram.compile (text : String) (resolve : Resolver) : Except Fault ExprProgram :=
  match PlacedLexeme.scan text with
  | [] => .error (.expression .empty)
  | ts => do return ⟨text, ← Compilation.run text resolve {} ts⟩

end LayoutScript
