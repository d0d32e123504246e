import LayoutScript.Text.Unprintable
import LayoutScript.Text.Extending
import LayoutScript.Text.Numeral

/-! # Quoted texts in messages

A text is quoted between double quotes. The quote and the backslash are escaped, four
controls have a letter of their own, and every character that would not show, or would
alter the one before it, is written as its code number in braces.
-/
namespace LayoutScript

/-- The code number form: the hexadecimal code point in braces after a backslash and a `u`. -/
def codeNumberForm (c : Char) : List Char :=
  ['\\', 'u', '\x7b'] ++ Nat.toDigits 16 c.toNat ++ ['\x7d']

/-- The form of one character between the quotes. -/
def quotedChar (c : Char) : List Char :=
  if c = '"' then ['\\', '"']
  else if c = '\\' then ['\\', '\\']
  else if c = '\n' then ['\\', 'n']
  else if c = '\r' then ['\\', 'r']
  else if c = '\t' then ['\\', 't']
  else if c = '\x00' then ['\\', '0']
  else if 0x20 ≤ c.toNat ∧ c.toNat < 0x7f then [c]
  else if isExtending c || isUnprintable c then codeNumberForm c
  else [c]

def quoted (s : String) : String :=
  String.ofList (['"'] ++ s.toList.flatMap quotedChar ++ ['"'])

@[simp] theorem toList_quoted (s : String) :
    (quoted s).toList = ['"'] ++ s.toList.flatMap quotedChar ++ ['"'] := String.toList_ofList

end LayoutScript
