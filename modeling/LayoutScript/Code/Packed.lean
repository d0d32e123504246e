import LayoutScript.Fault
import LayoutScript.Bits.Source

/-! # Packed integers

Code stores 32-bit integers in one, three or five bytes, the more the larger they are, and
one further byte stands for a value that is computed when the code runs. The first byte
tells the form, so packed integers can follow each other without separators.
-/
namespace LayoutScript

inductive Packed where
  | value (n : Int32)
  | computed
deriving DecidableEq

/-- A place in code: its offset and the bytes from there on. -/
structure CodeCursor where
  pos : Nat
  rest : List UInt8
deriving DecidableEq

/-- The place at an offset of `code`, which may lie past the end. -/
def CodeCursor.ofCode (code : List UInt8) (pos : Nat) : CodeCursor := ⟨pos, code.drop pos⟩

/-- The second place lies at or behind the first one, in the same code. -/
def CodeCursor.Reaches (c c' : CodeCursor) : Prop :=
  ∃ taken, c.rest = taken ++ c'.rest ∧ c'.pos = c.pos + taken.length

namespace CodeCursor.Reaches
variable {c c' c'' : CodeCursor}

theorem refl (c : CodeCursor) : c.Reaches c := ⟨[], rfl, rfl⟩

theorem trans (h : c.Reaches c') (h' : c'.Reaches c'') : c.Reaches c'' := by
  obtain ⟨taken, hrest, hpos⟩ := h
  obtain ⟨taken', hrest', hpos'⟩ := h'
  exact ⟨taken ++ taken', by rw [hrest, hrest', List.append_assoc], by simp [hpos, hpos', Nat.add_assoc]⟩

theorem advances (h : c.Reaches c') : c.pos ≤ c'.pos ∧ c'.pos + c'.rest.length = c.pos + c.rest.length := by
  obtain ⟨taken, hrest, hpos⟩ := h
  simp only [hrest, List.length_append]
  omega

end CodeCursor.Reaches

/-- Code that does not decode at an offset. -/
def Fault.corrupt (pos : Nat) : Fault := .input (.corruptCode pos)

/-- What reading code from a place can come to: a place at or behind it in the same code, or code
that is corrupt at or behind an offset. -/
inductive CodeCursor.Decodes {α : Type} (offset : Nat) (c : CodeCursor) : Except Fault (α × CodeCursor) → Prop where
  | ok (a : α) {c' : CodeCursor} (h : c.Reaches c') : Decodes offset c (.ok (a, c'))
  | corrupt {pos : Nat} (h : offset ≤ pos) : Decodes offset c (.error (.corrupt pos))

namespace CodeCursor.Decodes
variable {α β : Type} {offset : Nat} {c c' : CodeCursor} {x : Except Fault (α × CodeCursor)}

theorem bind {f : α × CodeCursor → Except Fault (β × CodeCursor)} (h : Decodes offset c x)
    (h' : ∀ a c', c.Reaches c' → Decodes offset c (f (a, c'))) : Decodes offset c (x >>= f) := by
  cases h with
  | ok a hc => exact h' a _ hc
  | corrupt h => exact .corrupt h

theorem behind (h : Decodes offset c' x) (hc : c.Reaches c') : Decodes offset c x := by
  cases h with
  | ok a h => exact .ok a (hc.trans h)
  | corrupt h => exact .corrupt h

theorem reaches {a : α} (h : Decodes offset c (.ok (a, c'))) : c.Reaches c' := by
  cases h with
  | ok _ h => exact h

theorem fault {fault : Fault} (h : Decodes offset c (.error fault : Except Fault (α × CodeCursor))) :
    ∃ pos, offset ≤ pos ∧ fault = .corrupt pos := by
  cases h with
  | corrupt h => exact ⟨_, h, rfl⟩

end CodeCursor.Decodes

namespace Packed

def encode : Packed → List UInt8
  | .computed => [0x82]
  | .value n =>
    let i := n.toInt
    if 0 ≤ i ∧ i < 0x80 then [UInt8.ofNat i.toNat]
    else if 0 ≤ i ∧ i < 0x10000 then 0x80 :: ByteOrder.big.bytes 2 i.toNat
    else 0x81 :: ByteOrder.big.bytes 4 n.toUInt32.toNat

def read (c : CodeCursor) : Except Fault (Packed × CodeCursor) :=
  match c.rest with
  | [] => .error (.corrupt c.pos)
  | head :: rest =>
    if head < 0x80 then .ok (.value (Int32.ofNat head.toNat), ⟨c.pos + 1, rest⟩)
    else if head = 0x80 then
      match rest with
      | a :: b :: rest =>
        .ok (.value (Int32.ofNat (ByteOrder.big.value [a, b])), ⟨c.pos + 3, rest⟩)
      | _ => .error (.corrupt c.pos)
    else if head = 0x81 then
      match rest with
      | a :: b :: d :: e :: rest =>
        .ok (.value (UInt32.ofNat (ByteOrder.big.value [a, b, d, e])).toInt32, ⟨c.pos + 5, rest⟩)
      | _ => .error (.corrupt c.pos)
    else if head = 0x82 then .ok (.computed, ⟨c.pos + 1, rest⟩)
    else .error (.corrupt c.pos)

/-- A read takes at least one byte, and what it takes stands at the beginning. -/
theorem read_reaches {c c' : CodeCursor} {p : Packed} (h : read c = .ok (p, c')) :
    c.Reaches c' ∧ c.pos < c'.pos := by
  obtain ⟨pos, rest⟩ := c
  cases rest with
  | nil => cases h
  | cons head rest =>
    simp only [read] at h
    split at h
    · cases h
      exact ⟨⟨[head], rfl, rfl⟩, by simp⟩
    split at h
    · split at h
      · cases h
        exact ⟨⟨[head, _, _], rfl, rfl⟩, by simp⟩
      · cases h
    split at h
    · split at h
      · cases h
        exact ⟨⟨[head, _, _, _, _], rfl, rfl⟩, by simp⟩
      · cases h
    split at h
    · cases h
      exact ⟨⟨[head], rfl, rfl⟩, by simp⟩
    · cases h

/-- Where no packed integer can be read, the code is corrupt at the place itself. -/
theorem read_fault {c : CodeCursor} {fault : Fault} (h : read c = .error fault) : fault = .corrupt c.pos := by
  unfold read at h
  repeat' split at h
  all_goals cases h
  all_goals rfl

theorem decodes_read {offset : Nat} {c : CodeCursor} (h : offset ≤ c.pos) : c.Decodes offset (read c) := by
  cases hread : read c with
  | ok answer => exact .ok answer.1 (read_reaches hread).1
  | error fault =>
    cases read_fault hread
    exact .corrupt h

/-- Reads a packed integer in place. The place moves behind it, or stays where none can be read. -/
def next : Stateful CodeCursor Packed := fun c =>
  match read c with
  | .ok (p, c') => (.ok p, c')
  | .error fault => (.error fault, c)

end Packed
end LayoutScript
