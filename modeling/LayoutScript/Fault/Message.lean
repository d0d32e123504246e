import LayoutScript.Fault
import LayoutScript.Text.Quoted

/-! # Messages of faults

The wording of every fault. Texts taken from a script are quoted, paths and type labels of
lookups stand as they are.
-/
namespace LayoutScript

def NameRule.message : NameRule → String
  | .dotted => "field name must not contain '.'"
  | .dollar => "field name must not start with '$'"
  | .reserved => "field name is a reserved word"
  | .customType => "field name is a custom type name"
  | .shape => "invalid field name"

def LexicalCause.message : LexicalCause → String
  | .strayText => "unexpected text"
  | .openParenthesis => "unclosed parenthesis in type"
  | .emptySize => "empty array size"
  | .typedStructure => "structure has both type and name"
  | .missingType => "field type is missing"
  | .badType => "invalid type descriptor"
  | .name rule => rule.message

def ModifierRule.message : ModifierRule → String
  | .named => "align, skip and reset$$ must not be named"
  | .array => "align, skip and reset$$ must not be arrays"

/-- The wording of a broken rule at a token. -/
def ScriptCause.message (offset : Nat) (token : String) : ScriptCause → String
  | .unknownType name => s!"unknown type {quoted name}" ++ place
  | .duplicateName path => s!"duplicated field name {quoted path}" ++ place
  | .modifierMisuse rule => rule.message ++ place
  | .invalidExtra extra => s!"invalid extra data {quoted extra}" ++ place
  | .bitWidth width => s!"bit width {width} out of range 1..=8" ++ place
  | .unknownSizeField name => s!"unknown size field {quoted name}" ++ place
  | .arraySizeSource field =>
    s!"array field {quoted field} can't be used as size source" ++ place
  | .nonNumericSizeSource field => s!"field {quoted field} is not numeric" ++ place
  | .secondWholeStream => "only one whole-stream array is allowed, second one" ++ place
  | .afterWholeStream => "field after whole-stream array" ++ place
  | .unmatchedClose => s!"structure close without open at {offset}"
  | .unclosed => s!"structure opened at {offset} is not closed ({quoted token})"
  | .customTypeRejected name => s!"custom type {quoted name} rejected" ++ place
where
  place : String := s!" at {offset} ({quoted token})"

def ExprRule.message : ExprRule → String
  | .missingOperator => "missing operator between operands"
  | .invalidNumber => "invalid number"
  | .missingOperatorBeforeBracket => "missing operator before bracket"
  | .missingOperandBeforeClose => "missing operand before closing bracket"
  | .missingLeftOperand => "binary operator without left operand"
  | .unaryAfterOperand => "unary operator after operand"
  | .unexpectedCharacter => "unexpected character"
  | .missingLastOperand => "expression ends without operand"

def ExprCause.message : ExprCause → String
  | .empty => "empty expression"
  | .unmatchedBracket text pos => s!"unmatched bracket at {pos} in {quoted text}"
  | .malformed text pos rule => s!"malformed expression {quoted text} at {pos}: {rule.message}"
  | .unknownIdentifier text name => s!"unknown identifier {quoted name} in {quoted text}"
  | .literalOutOfRange text literal =>
    s!"literal {quoted literal} out of i32 range in {quoted text}"
  | .stackOverflow depth => s!"expression stack overflow (max={depth})"
  | .unbalanced left => s!"malformed expression program, {left} values left on stack"
  | .divisionByZero => "division by zero in expression"

def InputCause.message : InputCause → String
  | .endOfInput counter need => s!"unexpected eof at byte {counter}, need {need} bits"
  | .negativeLength offset length => s!"negative array length {length} for instruction at {offset}"
  | .negativeExtra offset value => s!"negative extra value {value} for instruction at {offset}"
  | .bitWidth offset width => s!"computed bit width {width} out of range 1..=8 at {offset}"
  | .arrayTooLarge count limit => s!"array too large: count={count}, max={limit}"
  | .tooDeep limit => s!"structure depth exceeded (max={limit})"
  | .corruptCode offset => s!"corrupt bytecode at {offset}"
  | .noValue path => s!"no value read for field {quoted path}"
  | .inputTooLarge limit => s!"decompressed output exceeded limit {limit} bytes"

def SupplyCause.message : SupplyCause → String
  | .externalValue name => s!"no external value provided for {quoted name}"
  | .varReader offset => s!"var field at {offset} needs a var field processor"
  | .customReader offset name =>
    s!"custom type {quoted name} at {offset} needs a custom type processor"

def LookupCause.message : LookupCause → String
  | .notFound path => s!"field not found: {path}"
  | .ambiguous kind count => s!"{count} fields of type {kind} found, expected at most one"
  | .badPath path => s!"invalid field path: {path}"

def FileCause.message : FileCause → String
  | .missing => "No such file or directory (os error 2)"
  | .notText => "stream did not contain valid UTF-8"
  | .badFrame => "compressed input is damaged"

def Fault.message : Fault → String
  | .file cause => s!"io: {cause.message}"
  | .lexical offset text cause => s!"lexical error at {offset}: {cause.message} ({quoted text})"
  | .script offset token cause => cause.message offset token
  | .expression cause => cause.message
  | .input cause => cause.message
  | .supply cause => cause.message
  | .lookup cause => cause.message

end LayoutScript
