/-! # Letters, digits and blanks of the script grammar

The grammar of scripts, size expressions and field paths knows ASCII alone: a letter
outside ASCII is never part of a name, and names compare after folding `A`-`Z` to
`a`-`z`. Positions in a text count the bytes of its UTF-8 form.
-/
namespace LayoutScript

/-- Space, tab, line feed, form feed and carriage return separate tokens. -/
def isBlank (c : Char) : Bool :=
  c == ' ' || c == '\t' || c == '\n' || c == '\x0c' || c == '\r'

/-- A letter, a digit or an underscore. -/
def isNameChar (c : Char) : Bool := c.isAlphanum || c == '_'

/-- `A`-`Z` become `a`-`z`, every other character stays. -/
def foldCase (s : String) : String := String.ofList (s.toList.map Char.toLower)

@[simp] theorem toList_foldCase (s : String) :
    (foldCase s).toList = s.toList.map Char.toLower := String.toList_ofList

/-- Names are equal up to ASCII case. -/
def sameName (a b : String) : Bool := foldCase a == foldCase b

theorem sameName_iff {a b : String} : sameName a b = true ↔ foldCase a = foldCase b := beq_iff_eq

/-- The length of a text in bytes of its UTF-8 form. -/
def byteLength (cs : List Char) : Nat := cs.foldr (fun c n => c.utf8Size + n) 0

@[simp] theorem byteLength_nil : byteLength [] = 0 := rfl

@[simp] theorem byteLength_cons (c : Char) (cs : List Char) :
    byteLength (c :: cs) = c.utf8Size + byteLength cs := rfl

@[simp] theorem byteLength_append (cs ds : List Char) :
    byteLength (cs ++ ds) = byteLength cs + byteLength ds := by
  induction cs with
  | nil => simp
  | cons c cs ih => rw [List.cons_append, byteLength_cons, byteLength_cons, ih, Nat.add_assoc]

theorem length_dropWhile_le {α : Type} (p : α → Bool) (xs : List α) :
    (xs.dropWhile p).length ≤ xs.length := (List.dropWhile_suffix p).length_le

end LayoutScript
