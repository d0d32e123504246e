import LayoutScript.Text.Ascii

/-! # Places in a text

A place is the offset of a byte and the characters from there on. Scanning moves a place
forward; the text between two places is recovered from their offsets.
-/
namespace LayoutScript

structure TextCursor where
  pos : Nat
  rest : List Char
deriving DecidableEq

/-- The leading characters that fill `n` bytes. -/
def takeBytes : Nat → List Char → List Char
  | _, [] => []
  | 0, _ => []
  | n + 1, c :: cs => c :: takeBytes (n + 1 - c.utf8Size) cs

theorem takeBytes_append (cs ds : List Char) : takeBytes (byteLength cs) (cs ++ ds) = cs := by
  induction cs with
  | nil => cases ds <;> rfl
  | cons c cs ih =>
    have hc := c.utf8Size_pos
    obtain ⟨n, hn⟩ : ∃ n, byteLength (c :: cs) = n + 1 :=
      ⟨byteLength (c :: cs) - 1, by simp; omega⟩
    rw [hn, List.cons_append, takeBytes, ← hn]
    simp [ih]

namespace TextCursor

/-- The start of a text. -/
def ofList (cs : List Char) : TextCursor := ⟨0, cs⟩

/-- Past the leading characters that satisfy `p`. -/
def dropWhile (p : Char → Bool) (c : TextCursor) : TextCursor :=
  ⟨c.pos + byteLength (c.rest.takeWhile p), c.rest.dropWhile p⟩

/-- The text from one place to a later one. -/
def upTo (start stop : TextCursor) : List Char := takeBytes (stop.pos - start.pos) start.rest

/-- `stop` is reached from `start` by passing over `text`. -/
def Passes (start : TextCursor) (text : List Char) (stop : TextCursor) : Prop :=
  start.rest = text ++ stop.rest ∧ stop.pos = start.pos + byteLength text

theorem Passes.upTo {start stop : TextCursor} {text : List Char} (h : Passes start text stop) :
    start.upTo stop = text := by
  rw [TextCursor.upTo, h.1, h.2, Nat.add_sub_cancel_left, takeBytes_append]

theorem passes_refl (c : TextCursor) : Passes c [] c := ⟨rfl, rfl⟩

theorem Passes.trans {a b c : TextCursor} {s t : List Char} (h : Passes a s b) (k : Passes b t c) :
    Passes a (s ++ t) c :=
  ⟨by rw [h.1, k.1, List.append_assoc], by rw [k.2, h.2, byteLength_append, Nat.add_assoc]⟩

theorem passes_dropWhile (p : Char → Bool) (c : TextCursor) :
    Passes c (c.rest.takeWhile p) (c.dropWhile p) :=
  ⟨List.takeWhile_append_dropWhile.symm, rfl⟩

theorem Passes.length_le {a b : TextCursor} {s : List Char} (h : Passes a s b) :
    b.rest.length ≤ a.rest.length := by
  rw [h.1, List.length_append]
  omega

end TextCursor
end LayoutScript
