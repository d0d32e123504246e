import LayoutScript.Text.Ascii

/-! # White space around a text

Texts quoted in messages and the texts between brackets lose the white space around them.
White space here is the Unicode property, wider than the blanks that separate tokens.
-/
namespace LayoutScript

/-- The property White_Space. -/
def isWhiteSpace (c : Char) : Bool :=
  let n := c.toNat
  (0x9 ≤ n && n ≤ 0xd) || n == 0x20 || n == 0x85 || n == 0xa0 || n == 0x1680 ||
    (0x2000 ≤ n && n ≤ 0x200a) || n == 0x2028 || n == 0x2029 || n == 0x202f || n == 0x205f ||
    n == 0x3000

theorem isWhiteSpace_of_isBlank {c : Char} (h : isBlank c = true) : isWhiteSpace c = true := by
  simp only [isBlank, Bool.or_eq_true, beq_iff_eq] at h
  rcases h with (((rfl | rfl) | rfl) | rfl) | rfl <;> decide

/-- The text without the leading and trailing characters that satisfy `p`. -/
def trimBy (p : Char → Bool) (cs : List Char) : List Char :=
  ((cs.dropWhile p).reverse.dropWhile p).reverse

def trimmed (cs : List Char) : List Char := trimBy isWhiteSpace cs

/-- The string without the white space around it. -/
def trimText (s : String) : String := String.ofList (trimmed s.toList)

end LayoutScript
