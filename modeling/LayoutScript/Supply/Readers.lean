import LayoutScript.Apply.Request

/-! # Readers of texts, probes and packed numbers

Ready-made readers for the fields that a script does not describe. A text takes each byte as
the character with that code; a probe takes no input and tells what is known of the field;
a packed number is a signed number of any size up to eight bytes.
-/
namespace LayoutScript

variable {σ : Type} [BitSource σ]

namespace FieldReader

/-- Reads values as long as there is input and reading takes some. -/
def whileMore {α : Type} (read : Stateful σ α) (acc : List α) (s : σ) :
    Except Fault (List α) × σ :=
  if BitSource.left s = 0 then (.ok acc.reverse, s)
  else
    match read s with
    | (.ok v, s') =>
      if BitSource.left s' < BitSource.left s then whileMore read (v :: acc) s'
      else (.ok (v :: acc).reverse, s')
    | (.error fault, s') => (.error fault, s')
termination_by BitSource.left s

/-- Reads `n` more values after those in `acc`, the last one in front. -/
def times {α : Type} (read : Stateful σ α) : (n : Nat) → (acc : List α) → Stateful σ (List α)
  | 0, acc => pure acc.reverse
  | n + 1, acc => do times read n ((← read) :: acc)

def counted {α : Type} (read : Stateful σ α) : ElementCount → Stateful σ (List α)
  | .one => times read 1 []
  | .exactly n => times read n []
  | .untilEnd => whileMore read []

def readText (n : Nat) : Stateful σ Value := do
  let bytes ← times BitSource.readByte n []
  return .text (String.ofList (bytes.map fun b => Char.ofNat b.toNat))

/-- A text behind its length in one byte, or of as many bytes as the extra says; a negative
extra is a value of its own. An array holds the bytes as they are. -/
def lengthPrefixed : FieldReader σ := fun r _ =>
  match r.count with
  | .one =>
    if r.extra < 0 then pure (.scalar (.whole .int) r.extra)
    else if r.extra = 0 then do readText (← BitSource.readByte).toNat
    else readText r.extra.toInt.toNat
  | count => do return .array (.whole .ubyte) (← counted BitSource.readByte count)

def probeText (type : String) (r : Request) (readings : Readings) : String :=
  "|".intercalate [
    type,
    (r.info.map (·.path)).getD "-",
    r.order.label,
    toString r.extra.toInt,
    match r.count with
    | .one => "Single"
    | .exactly n => "Exact(" ++ toString n ++ ")"
    | .untilEnd => "UntilEnd",
    ",".intercalate (readings.entries.map fun e => e.field.path ++ "=" ++ toString e.value.toInt)]

def probe (type : String) : FieldReader σ := fun r readings =>
  pure (.text (probeText type r readings))

/-- The number that `bits` bits stand for in two's complement. -/
def signExtended (bits n : Nat) : Int := (Int.ofNat n).bmod (1 <<< bits)

/-- Signed numbers of `size` bytes, in four bytes if they fit and in eight if not. -/
def packedNumbers (size : Nat) : FieldReader σ := fun r _ => do
  let read : Stateful σ Int := do
    return signExtended (8 * size) (← BitSource.readNumber size r.order)
  let values ← counted read r.count
  if size ≤ 4 then
    return match r.count, values with
      | .one, v :: _ => .scalar (.whole .int) (Int32.ofInt v)
      | _, _ => .array (.whole .int) (values.map Int32.ofInt)
  else
    return match r.count, values with
      | .one, v :: _ => .scalar (.whole .long) (Int64.ofInt v)
      | _, _ => .array (.whole .long) (values.map Int64.ofInt)

end FieldReader
end LayoutScript
