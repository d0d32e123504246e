import LayoutScript.Fault

/-! # Inputs

An input is taken as it is, unless it starts with the mark of a compressed frame: then its
content is unpacked, up to a limit. What unpacks it is a decoder that hands the content out
piece by piece.
-/
namespace LayoutScript

inductive InputEncoding where
  | plain | framed
deriving DecidableEq

def InputEncoding.label : InputEncoding → String
  | .plain => "raw"
  | .framed => "zstd"

/-- A decoder of compressed frames. Both operations fail where an input is damaged. -/
structure FrameDecoder (δ : Type) where
  start : List UInt8 → Option δ
  /-- The next piece of the content, which is empty at its end. -/
  next : δ → Option (List UInt8 × δ)

variable {δ : Type}

/-- Takes pieces behind those in `pieces`, the last one in front, which hold `size` bytes. A
piece that passes the limit is refused, whatever there is behind it. -/
def FrameDecoder.drain (decoder : FrameDecoder δ) (limit size : Nat) (pieces : List (List UInt8)) (state : δ) :
    Except Fault (List UInt8) :=
  match decoder.next state with
  | none => .error (.file .badFrame)
  | some ([], _) => .ok pieces.reverse.flatten
  | some (b :: bytes, state) =>
    if limit < size + (b :: bytes).length then .error (.input (.inputTooLarge limit))
    else decoder.drain limit (size + (b :: bytes).length) ((b :: bytes) :: pieces) state
termination_by limit - size
decreasing_by simp only [List.length_cons] at *; omega

/-- No more bytes are taken than the limit allows. -/
theorem FrameDecoder.length_of_drain {decoder : FrameDecoder δ} {limit size : Nat} {pieces : List (List UInt8)} {state : δ}
    {bytes : List UInt8} (hsize : pieces.flatten.length = size) (hle : size ≤ limit)
    (h : decoder.drain limit size pieces state = .ok bytes) : bytes.length ≤ limit := by
  fun_induction decoder.drain limit size pieces state with
  | case1 => cases h
  | case2 =>
    cases h
    simp only [List.length_flatten, List.map_reverse, List.sum_reverse] at hsize ⊢
    omega
  | case3 => cases h
  | case4 size pieces state b piece state' hnext hlimit ih =>
    refine ih ?_ (Nat.le_of_not_lt hlimit) h
    rw [List.flatten_cons, List.length_append, hsize, Nat.add_comm]

namespace Input

def frameMark : List UInt8 := [0x28, 0xb5, 0x2f, 0xfd]

/-- The number of bytes that an input may unpack to. -/
def maxUnpacked : Nat := 512 * 1024 * 1024

/-- The content of an input and how it was encoded. -/
def unpack (decoder : FrameDecoder δ) (limit : Nat) (bytes : List UInt8) : Except Fault (InputEncoding × List UInt8) :=
  if frameMark.isPrefixOf bytes then
    match decoder.start bytes with
    | none => .error (.file .badFrame)
    | some state => do return (.framed, ← decoder.drain limit 0 [] state)
  else .ok (.plain, bytes)

end Input
end LayoutScript
