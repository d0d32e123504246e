/-! # Reading and writing numerals

Decimal and hexadecimal numerals are read as unbounded numbers; a caller with a fixed
width checks the range of the value, so leading zeros never matter.
-/
namespace LayoutScript

def decimalValue (cs : List Char) : Nat := cs.foldl (fun n c => 10 * n + (c.toNat - 48)) 0

/-- A nonempty run of decimal digits. -/
def decimal? (cs : List Char) : Option Nat :=
  if cs.isEmpty || !cs.all Char.isDigit then none else some (decimalValue cs)

def hexDigit? (c : Char) : Option Nat :=
  if '0' ≤ c ∧ c ≤ '9' then some (c.toNat - 48)
  else if 'a' ≤ c ∧ c ≤ 'f' then some (c.toNat - 87)
  else if 'A' ≤ c ∧ c ≤ 'F' then some (c.toNat - 55)
  else none

def hexadecimal? (cs : List Char) : Option Nat :=
  if cs.isEmpty then none
  else cs.foldlM (fun n c => (hexDigit? c).map (16 * n + ·)) 0

/-- A numeral read by `magnitude`, with an optional sign before it. -/
def signed? (magnitude : List Char → Option Nat) : List Char → Option Int
  | '+' :: cs => (magnitude cs).map Int.ofNat
  | '-' :: cs => (magnitude cs).map (fun n => -(Int.ofNat n))
  | cs => (magnitude cs).map Int.ofNat

/-- The numbers that fit `bits` bits in two's complement. -/
def fitsSigned (bits : Nat) (n : Int) : Bool :=
  let bound := Int.ofNat (1 <<< (bits - 1))
  n < bound && -bound ≤ n

def hexDigit (n : Nat) : Char := Nat.digitChar (n % 16)

def hexByte (b : UInt8) : List Char := [hexDigit (b.toNat / 16), hexDigit b.toNat]

def hexText (bytes : List UInt8) : String := String.ofList (bytes.flatMap hexByte)

/-- A number in lowercase hexadecimal digits, with zeros in front up to `width` digits. -/
def hexPadded (width n : Nat) : String :=
  let ds := Nat.toDigits 16 n
  String.ofList (List.replicate (width - ds.length) '0' ++ ds)

end LayoutScript
