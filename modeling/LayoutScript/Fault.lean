/-! # Causes of failure

Every failure of the library is a value of `Fault`, one constructor for each stage that can
fail. A fault carries what its message needs and nothing else; positions in scripts and
expressions are byte offsets, positions in code are offsets of instructions.
-/
namespace LayoutScript

inductive NameRule where
  | dotted | dollar | reserved | customType | shape
deriving DecidableEq

inductive LexicalCause where
  | strayText | openParenthesis | emptySize | typedStructure | missingType | badType
  | name (rule : NameRule)
deriving DecidableEq

/-- What `align`, `skip` and `reset$$` must not be. -/
inductive ModifierRule where
  | named | array
deriving DecidableEq

inductive ScriptCause where
  | unknownType (typeName : String)
  | duplicateName (path : String)
  | modifierMisuse (rule : ModifierRule)
  | invalidExtra (extra : String)
  | bitWidth (width : Int)
  | unknownSizeField (name : String)
  | arraySizeSource (field : String)
  | nonNumericSizeSource (field : String)
  | secondWholeStream
  | afterWholeStream
  | unmatchedClose
  | unclosed
  | customTypeRejected (typeName : String)
deriving DecidableEq

/-- What stands in the wrong place in an expression. -/
inductive ExprRule where
  | missingOperator | invalidNumber | missingOperatorBeforeBracket | missingOperandBeforeClose
  | missingLeftOperand | unaryAfterOperand | unexpectedCharacter | missingLastOperand
deriving DecidableEq

inductive ExprCause where
  | empty
  | unmatchedBracket (text : String) (pos : Nat)
  | malformed (text : String) (pos : Nat) (rule : ExprRule)
  | unknownIdentifier (text : String) (name : String)
  | literalOutOfRange (text : String) (literal : String)
  | stackOverflow (depth : Nat)
  | unbalanced (left : Nat)
  | divisionByZero
deriving DecidableEq

inductive InputCause where
  | endOfInput (counter : Nat) (needBits : Nat)
  | negativeLength (offset : Nat) (length : Int)
  | negativeExtra (offset : Nat) (value : Int)
  | bitWidth (offset : Nat) (width : Int)
  | arrayTooLarge (count : Nat) (limit : Nat)
  | tooDeep (limit : Nat)
  | corruptCode (offset : Nat)
  | noValue (path : String)
  | inputTooLarge (limit : Nat)
deriving DecidableEq

inductive SupplyCause where
  | externalValue (name : String)
  | varReader (offset : Nat)
  | customReader (offset : Nat) (typeName : String)
deriving DecidableEq

inductive LookupCause where
  | notFound (path : String)
  | ambiguous (kind : String) (count : Nat)
  | badPath (path : String)
deriving DecidableEq

inductive FileCause where
  | missing | notText | badFrame
deriving DecidableEq

inductive Fault where
  | file (cause : FileCause)
  | lexical (offset : Nat) (text : String) (cause : LexicalCause)
  | script (offset : Nat) (token : String) (cause : ScriptCause)
  | expression (cause : ExprCause)
  | input (cause : InputCause)
  | supply (cause : SupplyCause)
  | lookup (cause : LookupCause)
deriving DecidableEq

/-- The input ended before a read was complete. -/
def Fault.isEndOfInput : Fault → Bool
  | .input (.endOfInput ..) => true
  | _ => false

end LayoutScript
