/-! # Byte order and bit order

Multi-byte values choose the order of their bytes, sub-byte values the end of a byte they
start from. Both orders are stated once on lists, the first element being the one read
first.
-/
namespace LayoutScript

inductive ByteOrder where
  | big | little
deriving DecidableEq

def ByteOrder.label : ByteOrder → String
  | .big => "big"
  | .little => "little"

/-- The low `count` bytes of a number, least significant first. -/
def lowBytes : (count : Nat) → Nat → List UInt8
  | 0, _ => []
  | count + 1, n => UInt8.ofNat n :: lowBytes count (n / 256)

@[simp] theorem length_lowBytes (count n : Nat) : (lowBytes count n).length = count := by
  induction count generalizing n with
  | zero => rfl
  | succ count ih => simp [lowBytes, ih]

/-- The number with the given bytes, least significant first. -/
def ofLowBytes (bytes : List UInt8) : Nat := bytes.foldr (fun b n => b.toNat + 256 * n) 0

@[simp] theorem ofLowBytes_nil : ofLowBytes [] = 0 := rfl

@[simp] theorem ofLowBytes_cons (b : UInt8) (bytes : List UInt8) :
    ofLowBytes (b :: bytes) = b.toNat + 256 * ofLowBytes bytes := rfl

/-- The low `count` bytes of a number, as they are written. -/
def ByteOrder.bytes : ByteOrder → (count : Nat) → Nat → List UInt8
  | .big, count, n => (lowBytes count n).reverse
  | .little, count, n => lowBytes count n

/-- The number whose bytes are read in the given order. -/
def ByteOrder.value : ByteOrder → List UInt8 → Nat
  | .big, bytes => ofLowBytes bytes.reverse
  | .little, bytes => ofLowBytes bytes

/-- The end of a byte from which its bits are read. -/
inductive BitOrder where
  | lsb0 | msb0
deriving DecidableEq

def BitOrder.label : BitOrder → String
  | .lsb0 => "lsb0"
  | .msb0 => "msb0"

/-- The low `count` bits of a number, least significant first. -/
def lowBits (count n : Nat) : List Bool := (List.range count).map n.testBit

@[simp] theorem length_lowBits (count n : Nat) : (lowBits count n).length = count := by
  simp [lowBits]

/-- The number with the given bits, least significant first. -/
def ofLowBits (bits : List Bool) : Nat := bits.foldr (fun b n => b.toNat + 2 * n) 0

@[simp] theorem ofLowBits_nil : ofLowBits [] = 0 := rfl

@[simp] theorem ofLowBits_cons (b : Bool) (bits : List Bool) :
    ofLowBits (b :: bits) = b.toNat + 2 * ofLowBits bits := rfl

/-- The low `count` bits of a number in reading order. -/
def BitOrder.bits : BitOrder → (count : Nat) → Nat → List Bool
  | .lsb0, count, n => lowBits count n
  | .msb0, count, n => (lowBits count n).reverse

@[simp] theorem BitOrder.length_bits (order : BitOrder) (count n : Nat) :
    (order.bits count n).length = count := by
  cases order <;> simp [BitOrder.bits]

/-- The number whose bits are read in the given order. -/
def BitOrder.value : BitOrder → List Bool → Nat
  | .lsb0, bits => ofLowBits bits
  | .msb0, bits => ofLowBits bits.reverse

/-- The bits of a byte in reading order. -/
def BitOrder.ofByte (order : BitOrder) (b : UInt8) : List Bool := order.bits 8 b.toNat

@[simp] theorem BitOrder.length_ofByte (order : BitOrder) (b : UInt8) :
    (order.ofByte b).length = 8 := order.length_bits 8 _

theorem BitOrder.length_flatMap_ofByte (order : BitOrder) (bytes : List UInt8) :
    (bytes.flatMap order.ofByte).length = 8 * bytes.length := by
  induction bytes with
  | nil => rfl
  | cons b bytes ih => simp [ih, Nat.mul_add, Nat.add_comm]

end LayoutScript
