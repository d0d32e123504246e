import Mathlib.Data.List.TakeWhile
import LayoutScript.Proofs.ExprNames

/-! # The grammar of expressions

A phrase is an expression as it is written: numbers by their digits, names by their letters.
The grammar says which texts are written forms of a phrase, with blanks wherever one likes
between its parts. The parser accepts exactly these texts, as long as the numbers fit 32 bits
and the names stand for something, and gives the expression of the phrase.
-/
namespace LayoutScript

inductive Phrase where
  | number (digits : List Char)
  | name (word : List Char)
  | unary (op : UnaryOp) (operand : Phrase)
  | binary (op : BinaryOp) (left right : Phrase)

namespace Phrase

/-- The texts of a phrase. Rank zero is an operand with signs before it; the operators of every
further rank bind less tightly and associate to the left. -/
inductive Written : (rank : Nat) → List Char → Phrase → Prop where
  | number {digits : List Char} (hne : digits ≠ []) (hd : ∀ c ∈ digits, c.isDigit) :
    Written 0 digits (.number digits)
  | name {c : Char} {cs : List Char} (hc : PlacedLexeme.startsName c)
    (hcs : ∀ c ∈ cs, PlacedLexeme.isExprNameChar c) : Written 0 (c :: cs) (.name (c :: cs))
  | brackets {cs : List Char} {p : Phrase} (h : Written 3 cs p) : Written 0 ('(' :: (cs ++ [')'])) p
  | unary {c : Char} {op : UnaryOp} {cs : List Char} {p : Phrase} (hop : UnaryOp.ofChar? c = some op)
    (h : Written 0 cs p) : Written 0 (c :: cs) (.unary op p)
  | tighter {rank : Nat} {cs : List Char} {p : Phrase} (h : Written rank cs p) : Written (rank + 1) cs p
  | binary {rank : Nat} {c : Char} {op : BinaryOp} {cs ds : List Char} {p q : Phrase}
    (hop : BinaryOp.ofChar? c = some op) (hrank : op.rank = rank + 1) (hl : Written (rank + 1) cs p)
    (hr : Written rank ds q) : Written (rank + 1) (cs ++ c :: ds) (.binary op p q)
  | blankBefore {rank : Nat} {c : Char} {cs : List Char} {p : Phrase} (hc : isBlank c) (h : Written rank cs p) :
    Written rank (c :: cs) p
  | blankBehind {rank : Nat} {c : Char} {cs : List Char} {p : Phrase} (hc : isBlank c) (h : Written rank cs p) :
    Written rank (cs ++ [c]) p

/-- The numbers and names of a phrase, from left to right. -/
def leaves : Phrase → List Lexeme
  | .number digits => [.number digits]
  | .name word => [.name word]
  | .unary _ operand => operand.leaves
  | .binary _ left right => left.leaves ++ right.leaves

/-- Every number fits a signed number of 32 bits. -/
def Fits (p : Phrase) : Prop := ∀ digits, .number digits ∈ p.leaves → decimalValue digits < 2 ^ 31

/-- Every name that does not start with a dollar sign stands for a field. -/
def Resolves (resolve : Resolver) (p : Phrase) : Prop :=
  ∀ word, .name word ∈ p.leaves → word.head? ≠ some '$' → ∃ index, resolve (String.ofList word) = .ok (some index)

/-- The expression of a phrase. One or two dollar signs are the position, and a name behind a
dollar sign is that of an external value. -/
def expr? (resolve : Resolver) : Phrase → Option Expr
  | .number digits =>
    if decimalValue digits < 2 ^ 31 then some (.literal (Int32.ofNat (decimalValue digits))) else none
  | .name ('$' :: letters) =>
    some (if letters = [] ∨ letters = ['$'] then .position else .external (String.ofList letters))
  | .name word =>
    match resolve (String.ofList word) with
    | .ok (some index) => some (.field index)
    | _ => none
  | .unary op operand => (operand.expr? resolve).map (.unary op)
  | .binary op left right => do return .binary op (← left.expr? resolve) (← right.expr? resolve)

theorem exists_expr?_name (resolve : Resolver) (word : List Char) :
    (∃ e, expr? resolve (.name word) = some e) ↔
      (word.head? ≠ some '$' → ∃ index, resolve (String.ofList word) = .ok (some index)) := by
  by_cases hhead : word.head? = some '$'
  · obtain ⟨letters, rfl⟩ := List.head?_eq_some_iff.mp hhead
    exact ⟨fun _ h => absurd rfl h, fun _ => ⟨_, rfl⟩⟩
  have hname : expr? resolve (.name word) =
      match resolve (String.ofList word) with
      | .ok (some index) => some (.field index)
      | _ => none := by
    rw [expr?]
    rintro letters rfl
    exact hhead rfl
  rw [hname]
  constructor
  · rintro ⟨e, he⟩ -
    split at he
    · rename_i index hindex
      exact ⟨index, hindex⟩
    · cases he
  · intro h
    obtain ⟨index, hindex⟩ := h hhead
    rw [hindex]
    exact ⟨_, rfl⟩

/-- A phrase has an expression where its numbers fit and its names stand for something. -/
theorem exists_expr?_iff {resolve : Resolver} {p : Phrase} :
    (∃ e, p.expr? resolve = some e) ↔ p.Fits ∧ p.Resolves resolve := by
  induction p with
  | number digits =>
    simp only [expr?, Fits, Resolves, leaves, List.mem_singleton, Lexeme.number.injEq, forall_eq, reduceCtorEq,
      false_implies, implies_true, and_true]
    simp
  | name word =>
    rw [exists_expr?_name]
    simp only [Fits, Resolves, leaves, List.mem_singleton, Lexeme.name.injEq, forall_eq, reduceCtorEq,
      false_implies, implies_true, true_and]
  | unary op p ih =>
    have hsome : (∃ e, (unary op p).expr? resolve = some e) ↔ ∃ e, p.expr? resolve = some e := by
      rw [expr?]
      cases p.expr? resolve <;> simp
    rw [hsome, ih]
    rfl
  | binary op p q ihp ihq =>
    have hsome : (∃ e, (binary op p q).expr? resolve = some e) ↔
        (∃ e, p.expr? resolve = some e) ∧ ∃ e, q.expr? resolve = some e := by
      rw [expr?]
      cases p.expr? resolve <;> cases q.expr? resolve <;> simp
    rw [hsome, ihp, ihq, and_and_and_comm]
    simp only [Fits, Resolves, leaves, List.mem_append, or_imp, forall_and]

namespace Written
variable {rank : Nat} {cs : List Char} {p : Phrase}

theorem blanksBefore {bs : List Char} (hb : ∀ c ∈ bs, isBlank c) (h : Written rank cs p) : Written rank (bs ++ cs) p := by
  induction bs with
  | nil => exact h
  | cons c bs ih =>
    obtain ⟨hc, hb⟩ := List.forall_mem_cons.mp hb
    exact .blankBefore hc (ih hb)

theorem blanksBehind {bs : List Char} (hb : ∀ c ∈ bs, isBlank c) (h : Written rank cs p) : Written rank (cs ++ bs) p := by
  induction bs generalizing cs with
  | nil => rwa [List.append_nil]
  | cons c bs ih =>
    obtain ⟨hc, hb⟩ := List.forall_mem_cons.mp hb
    have hnext := ih hb (.blankBehind hc h)
    rwa [List.append_assoc, List.singleton_append] at hnext

end Written

/-- The lexemes of a phrase. -/
inductive Spelled : (rank : Nat) → List Lexeme → Phrase → Prop where
  | number {digits : List Char} (hne : digits ≠ []) (hd : ∀ c ∈ digits, c.isDigit) :
    Spelled 0 [.number digits] (.number digits)
  | name (word : List Char) : Spelled 0 [.name word] (.name word)
  | brackets {ts : List Lexeme} {p : Phrase} (h : Spelled 3 ts p) :
    Spelled 0 (.sign '(' :: (ts ++ [.sign ')'])) p
  | unary {c : Char} {op : UnaryOp} {ts : List Lexeme} {p : Phrase} (hop : UnaryOp.ofChar? c = some op)
    (h : Spelled 0 ts p) : Spelled 0 (.sign c :: ts) (.unary op p)
  | tighter {rank : Nat} {ts : List Lexeme} {p : Phrase} (h : Spelled rank ts p) : Spelled (rank + 1) ts p
  | binary {rank : Nat} {c : Char} {op : BinaryOp} {ts us : List Lexeme} {p q : Phrase}
    (hop : BinaryOp.ofChar? c = some op) (hrank : op.rank = rank + 1) (hl : Spelled (rank + 1) ts p)
    (hr : Spelled rank us q) : Spelled (rank + 1) (ts ++ .sign c :: us) (.binary op p q)

end Phrase

/-! ## Lexemes of a text -/

theorem isBlank_cases {c : Char} (h : isBlank c = true) :
    c = ' ' ∨ c = '\t' ∨ c = '\n' ∨ c = '\x0c' ∨ c = '\r' := by
  simpa [isBlank, or_assoc] using h

namespace PlacedLexeme

theorem isBlank_of_isExprNameChar {c : Char} (h : isExprNameChar c = true) : isBlank c = false := by
  by_contra hb
  rw [Bool.not_eq_false] at hb
  rcases isBlank_cases hb with rfl | rfl | rfl | rfl | rfl <;> revert h <;> decide

theorem isExprNameChar_of_isAlphanum {c : Char} (h : c.isAlphanum = true) : isExprNameChar c = true := by
  rw [isExprNameChar, h]
  rfl

theorem isAlphanum_of_isDigit {c : Char} (h : c.isDigit = true) : c.isAlphanum = true := by
  rw [Char.isAlphanum, h, Bool.or_true]

theorem not_isDigit_of_startsName {c : Char} (h : startsName c = true) : c.isDigit = false := by
  simp only [startsName, Bool.or_eq_true, beq_iff_eq] at h
  rcases h with (h | rfl) | rfl
  · change (decide (c.val ≥ 65 ∧ c.val ≤ 90) || (decide (c.val ≥ 97) && decide (c.val ≤ 122))) = true at h
    change (decide (c.val ≥ 48) && decide (c.val ≤ 57)) = false
    simp only [ge_iff_le, UInt32.le_iff_toNat_le, UInt32.reduceToNat, Bool.or_eq_true, Bool.and_eq_true, decide_eq_true_eq,
      Bool.and_eq_false_iff, decide_eq_false_iff_not] at h ⊢
    omega
  · decide
  · decide

theorem isExprNameChar_of_startsName {c : Char} (h : startsName c = true) : isExprNameChar c = true := by
  simp only [startsName, Bool.or_eq_true, beq_iff_eq] at h
  rcases h with (h | rfl) | rfl
  · exact isExprNameChar_of_isAlphanum (by rw [Char.isAlphanum, h, Bool.true_or])
  · decide
  · decide

/-- A character that is a lexeme of its own. -/
def IsSign (c : Char) : Prop := ¬isBlank c ∧ ¬c.isDigit ∧ ¬startsName c

theorem char_cases (c : Char) : isBlank c ∨ c.isDigit ∨ startsName c ∨ IsSign c := by
  by_cases hblank : isBlank c
  · exact .inl hblank
  by_cases hdigit : c.isDigit
  · exact .inr (.inl hdigit)
  by_cases hname : startsName c
  · exact .inr (.inr (.inl hname))
  · exact .inr (.inr (.inr ⟨hblank, hdigit, hname⟩))

/-- No lexeme goes on into the text. -/
def Apart (cs : List Char) : Prop := ∀ c ∈ cs.head?, isExprNameChar c = false

theorem isSign_of_unary {c : Char} {op : UnaryOp} (h : UnaryOp.ofChar? c = some op) : IsSign c := by
  rw [UnaryOp.ofChar?.eq_def] at h
  split at h
  all_goals first | exact ⟨by decide, by decide, by decide⟩ | cases h

theorem isSign_of_binary {c : Char} {op : BinaryOp} (h : BinaryOp.ofChar? c = some op) : IsSign c ∧ c ≠ '.' := by
  rw [BinaryOp.ofChar?.eq_def] at h
  split at h
  all_goals first | exact ⟨⟨by decide, by decide, by decide⟩, by decide⟩ | cases h

theorem IsSign.apart {c : Char} (h : IsSign c) (hdot : c ≠ '.') (cs : List Char) : Apart (c :: cs) := by
  intro c' hc'
  obtain rfl : c = c' := by simpa using hc'
  obtain ⟨-, hdigit, hname⟩ := h
  simp only [startsName, Bool.or_eq_true, not_or, Bool.not_eq_true] at hname hdigit
  simp only [isExprNameChar, Char.isAlphanum, hdigit, hname, beq_eq_false_iff_ne.mpr hdot, Bool.or_false]

theorem apart_of_isBlank {c : Char} (h : isBlank c = true) (cs : List Char) : Apart (c :: cs) := by
  intro c' hc'
  obtain rfl : c = c' := by simpa using hc'
  by_contra hne
  rw [Bool.not_eq_false] at hne
  exact absurd (isBlank_of_isExprNameChar hne) (by simp [h])

/-- The lexemes of a text without their places. -/
def lexemes (cs : List Char) : List Lexeme := (scanFrom 0 cs).map (·.lexeme)

/-- Lexemes do not depend on where the text starts. -/
theorem map_lexeme_scanFrom (pos : Nat) (cs : List Char) : (scanFrom pos cs).map (·.lexeme) = lexemes cs := by
  suffices h : ∀ pos', (scanFrom pos cs).map (·.lexeme) = (scanFrom pos' cs).map (·.lexeme) from h 0
  fun_induction scanFrom pos cs with
  | case1 pos => exact fun pos' => by rw [scanFrom]
  | case2 pos c cs hblank ih =>
    intro pos'
    rw [scanFrom, if_pos hblank]
    exact ih _
  | case3 pos c cs hblank hdigit word ih =>
    intro pos'
    rw [scanFrom, if_neg hblank, if_pos hdigit, List.map_cons, List.map_cons, ih]
  | case4 pos c cs hblank hdigit hname word ih =>
    intro pos'
    rw [scanFrom, if_neg hblank, if_neg hdigit, if_pos hname, List.map_cons, List.map_cons, ih]
  | case5 pos c cs hblank hdigit hname ih =>
    intro pos'
    rw [scanFrom, if_neg hblank, if_neg hdigit, if_neg hname, List.map_cons, List.map_cons, ih]

@[simp] theorem lexemes_nil : lexemes [] = [] := by rw [lexemes, scanFrom, List.map_nil]

theorem lexemes_blank {c : Char} (h : isBlank c = true) (cs : List Char) : lexemes (c :: cs) = lexemes cs := by
  rw [lexemes, scanFrom, if_pos h, map_lexeme_scanFrom]

theorem lexemes_digit {c : Char} (h : c.isDigit = true) (cs : List Char) :
    lexemes (c :: cs) = .number (c :: cs.takeWhile Char.isAlphanum) :: lexemes (cs.dropWhile Char.isAlphanum) := by
  have hblank := isBlank_of_isExprNameChar (isExprNameChar_of_isAlphanum (isAlphanum_of_isDigit h))
  rw [lexemes, scanFrom, if_neg (by simp [hblank]), if_pos h, List.map_cons, map_lexeme_scanFrom]

theorem lexemes_name {c : Char} (h : startsName c = true) (cs : List Char) :
    lexemes (c :: cs) = .name (c :: cs.takeWhile isExprNameChar) :: lexemes (cs.dropWhile isExprNameChar) := by
  have hblank := isBlank_of_isExprNameChar (isExprNameChar_of_startsName h)
  rw [lexemes, scanFrom, if_neg (by simp [hblank]), if_neg (by simp [not_isDigit_of_startsName h]), if_pos h,
    List.map_cons, map_lexeme_scanFrom]

theorem lexemes_sign {c : Char} (h : IsSign c) (cs : List Char) : lexemes (c :: cs) = .sign c :: lexemes cs := by
  rw [lexemes, scanFrom, if_neg h.1, if_neg h.2.1, if_neg h.2.2, List.map_cons, map_lexeme_scanFrom]

theorem takeWhile_append_apart {p : Char → Bool} (cs : List Char) {ds : List Char} (h : ∀ c ∈ ds.head?, p c = false) :
    (cs ++ ds).takeWhile p = cs.takeWhile p ∧ (cs ++ ds).dropWhile p = cs.dropWhile p ++ ds := by
  induction cs with
  | nil =>
    cases ds with
    | nil => exact ⟨rfl, rfl⟩
    | cons d ds =>
      have hd : ¬ p d = true := by simp [h d rfl]
      exact ⟨List.takeWhile_cons_of_neg hd, List.dropWhile_cons_of_neg hd⟩
  | cons c cs ih =>
    by_cases hc : p c = true
    · simp [hc, ih.1, ih.2]
    · simp [hc]

theorem Apart.isAlphanum {cs : List Char} (h : Apart cs) : ∀ c ∈ cs.head?, c.isAlphanum = false := by
  intro c hc
  by_contra hne
  rw [Bool.not_eq_false] at hne
  exact absurd (isExprNameChar_of_isAlphanum hne) (by simp [h c hc])

/-- A text that no lexeme goes on into has lexemes of its own. -/
theorem lexemes_append {cs ds : List Char} (h : Apart ds) : lexemes (cs ++ ds) = lexemes cs ++ lexemes ds := by
  induction hn : cs.length using Nat.strongRecOn generalizing cs with
  | _ n ih =>
    cases cs with
    | nil => simp
    | cons c cs =>
      have hcs : cs.length < n := by simp [← hn]
      have hdrop : ∀ p : Char → Bool, (cs.dropWhile p).length < n := fun p =>
        Nat.lt_of_le_of_lt (length_dropWhile_le p cs) hcs
      rw [List.cons_append]
      rcases char_cases c with hblank | hdigit | hname | hsign
      · rw [lexemes_blank hblank, lexemes_blank hblank, ih _ hcs rfl]
      · obtain ⟨htake, hrest⟩ := takeWhile_append_apart cs h.isAlphanum
        rw [lexemes_digit hdigit, lexemes_digit hdigit, htake, hrest, ih _ (hdrop _) rfl, List.cons_append]
      · obtain ⟨htake, hrest⟩ := takeWhile_append_apart cs h
        rw [lexemes_name hname, lexemes_name hname, htake, hrest, ih _ (hdrop _) rfl, List.cons_append]
      · rw [lexemes_sign hsign, lexemes_sign hsign, ih _ hcs rfl, List.cons_append]

end PlacedLexeme

/-- The texts of a lexeme. -/
def Lexeme.Spells (word : List Char) : Lexeme → Prop
  | .number w => w = word ∧ ∃ c cs, word = c :: cs ∧ c.isDigit
  | .name w => w = word ∧ ∃ c cs, word = c :: cs ∧ PlacedLexeme.startsName c ∧ ∀ c ∈ cs, PlacedLexeme.isExprNameChar c
  | .sign c => word = [c] ∧ PlacedLexeme.IsSign c

/-- Numbers and names are operands. -/
def Lexeme.isOperand : Lexeme → Bool
  | .number _ | .name _ => true
  | .sign _ => false

namespace PlacedLexeme

theorem takeWhile_append_prefix {p : Char → Bool} {cs xs : List Char} (h : xs <+: cs.dropWhile p) :
    (cs.takeWhile p ++ xs).takeWhile p = cs.takeWhile p ∧ (cs.takeWhile p ++ xs).dropWhile p = xs := by
  have hhead : ∀ c ∈ xs.head?, p c = false := by
    intro c hc
    obtain ⟨ys, hys⟩ := h
    cases xs with
    | nil => cases hc
    | cons x xs =>
      obtain rfl : x = c := by simpa using hc
      have hfirst := List.head?_dropWhile_not p cs
      rw [← hys] at hfirst
      simpa using hfirst
  obtain ⟨htake, hdrop⟩ := takeWhile_append_apart (cs.takeWhile p) hhead
  have hall : ∀ c ∈ cs.takeWhile p, p c = true := fun c hc => List.mem_takeWhile_imp hc
  exact ⟨htake.trans (List.takeWhile_eq_self_iff.mpr hall), by rw [hdrop, List.dropWhile_eq_nil_iff.mpr hall, List.nil_append]⟩

/-- Where a first lexeme comes from: blanks, its text, and a rest that it does not go on into. -/
theorem lexemes_eq_cons {cs : List Char} {t : Lexeme} {ts : List Lexeme} (h : lexemes cs = t :: ts) :
    ∃ blanks word rest, cs = blanks ++ (word ++ rest) ∧ (∀ c ∈ blanks, isBlank c) ∧ t.Spells word ∧
      lexemes rest = ts ∧ ∀ front, front <+: rest → lexemes (blanks ++ (word ++ front)) = t :: lexemes front := by
  induction cs with
  | nil => simp at h
  | cons c cs ih =>
    rcases char_cases c with hblank | hdigit | hname | hsign
    · rw [lexemes_blank hblank] at h
      obtain ⟨blanks, word, rest, rfl, hblanks, hspells, hrest, hfront⟩ := ih h
      refine ⟨c :: blanks, word, rest, rfl, List.forall_mem_cons.mpr ⟨hblank, hblanks⟩, hspells, hrest, ?_⟩
      intro front hprefix
      rw [List.cons_append, lexemes_blank hblank, hfront front hprefix]
    · rw [lexemes_digit hdigit] at h
      obtain ⟨rfl, rfl⟩ := List.cons.inj h
      refine ⟨[], c :: cs.takeWhile Char.isAlphanum, cs.dropWhile Char.isAlphanum, ?_, List.forall_mem_nil _,
        ⟨rfl, c, _, rfl, hdigit⟩, rfl, ?_⟩
      · simp [List.takeWhile_append_dropWhile]
      · intro front hprefix
        obtain ⟨htake, hdrop⟩ := takeWhile_append_prefix hprefix
        rw [List.nil_append, List.cons_append, lexemes_digit hdigit, htake, hdrop]
    · rw [lexemes_name hname] at h
      obtain ⟨rfl, rfl⟩ := List.cons.inj h
      refine ⟨[], c :: cs.takeWhile isExprNameChar, cs.dropWhile isExprNameChar, ?_, List.forall_mem_nil _,
        ⟨rfl, c, _, rfl, hname, fun _ => List.mem_takeWhile_imp⟩, rfl, ?_⟩
      · simp [List.takeWhile_append_dropWhile]
      · intro front hprefix
        obtain ⟨htake, hdrop⟩ := takeWhile_append_prefix hprefix
        rw [List.nil_append, List.cons_append, lexemes_name hname, htake, hdrop]
    · rw [lexemes_sign hsign] at h
      obtain ⟨rfl, rfl⟩ := List.cons.inj h
      exact ⟨[], [c], cs, rfl, List.forall_mem_nil _, ⟨rfl, hsign⟩, rfl, fun front _ => lexemes_sign hsign front⟩

/-- Only blanks have no lexemes. -/
theorem isBlank_of_lexemes_nil {cs : List Char} (h : lexemes cs = []) : ∀ c ∈ cs, isBlank c = true := by
  induction cs with
  | nil => exact List.forall_mem_nil _
  | cons c cs ih =>
    rcases char_cases c with hblank | hdigit | hname | hsign
    · rw [lexemes_blank hblank] at h
      exact List.forall_mem_cons.mpr ⟨hblank, ih h⟩
    · rw [lexemes_digit hdigit] at h
      cases h
    · rw [lexemes_name hname] at h
      cases h
    · rw [lexemes_sign hsign] at h
      cases h

/-- A text splits where its lexemes do. -/
theorem lexemes_eq_append {cs : List Char} {ts us : List Lexeme} (h : lexemes cs = ts ++ us) :
    ∃ ds es, cs = ds ++ es ∧ lexemes ds = ts ∧ lexemes es = us := by
  induction ts generalizing cs with
  | nil => exact ⟨[], cs, rfl, lexemes_nil, h⟩
  | cons t ts ih =>
    obtain ⟨blanks, word, rest, rfl, -, -, hrest, hfront⟩ := lexemes_eq_cons h
    obtain ⟨ds, es, rfl, hds, hes⟩ := ih hrest
    refine ⟨blanks ++ (word ++ ds), es, ?_, ?_, hes⟩
    · simp only [List.append_assoc]
    · rw [hfront ds (List.prefix_append ds es), hds]

end PlacedLexeme

namespace Phrase
open PlacedLexeme
variable {rank : Nat} {p : Phrase}

/-- The lexemes of a text of a phrase are those of the phrase. -/
theorem Written.spelled {cs : List Char} (h : Written rank cs p) : Spelled rank (lexemes cs) p := by
  induction h with
  | @number digits hne hd =>
    obtain ⟨c, cs, rfl⟩ := List.exists_cons_of_ne_nil hne
    have hall : ∀ d ∈ cs, d.isAlphanum = true := fun d hm => isAlphanum_of_isDigit (hd d (List.mem_cons_of_mem _ hm))
    rw [lexemes_digit (hd c (List.mem_cons_self ..)), List.takeWhile_eq_self_iff.mpr hall,
      List.dropWhile_eq_nil_iff.mpr hall, lexemes_nil]
    exact .number hne hd
  | name hc hcs =>
    rw [lexemes_name hc, List.takeWhile_eq_self_iff.mpr hcs, List.dropWhile_eq_nil_iff.mpr hcs, lexemes_nil]
    exact .name _
  | brackets _ ih =>
    have hopening : IsSign '(' := ⟨by decide, by decide, by decide⟩
    have hclosing : IsSign ')' := ⟨by decide, by decide, by decide⟩
    rw [lexemes_sign hopening, lexemes_append (hclosing.apart (by decide) []), lexemes_sign hclosing, lexemes_nil]
    exact .brackets ih
  | unary hop _ ih =>
    rw [lexemes_sign (isSign_of_unary hop)]
    exact .unary hop ih
  | tighter _ ih => exact .tighter ih
  | binary hop hrank _ _ ihl ihr =>
    obtain ⟨hsign, hdot⟩ := isSign_of_binary hop
    rw [lexemes_append (hsign.apart hdot _), lexemes_sign hsign]
    exact .binary hop hrank ihl ihr
  | blankBefore hc _ ih => rwa [lexemes_blank hc]
  | blankBehind hc _ ih => rwa [lexemes_append (apart_of_isBlank hc []), lexemes_blank hc, lexemes_nil, List.append_nil]

/-- A text with the lexemes of a phrase is a text of the phrase. -/
theorem Spelled.written {ts : List Lexeme} (h : Spelled rank ts p) {cs : List Char} (hcs : lexemes cs = ts) :
    Written rank cs p := by
  induction h generalizing cs with
  | number hne hd =>
    obtain ⟨blanks, word, rest, rfl, hblanks, ⟨rfl, -⟩, hrest, -⟩ := lexemes_eq_cons hcs
    exact .blanksBefore hblanks (.blanksBehind (isBlank_of_lexemes_nil hrest) (.number hne hd))
  | name =>
    obtain ⟨blanks, word, rest, rfl, hblanks, ⟨rfl, c, cs, rfl, hc, hletters⟩, hrest, -⟩ := lexemes_eq_cons hcs
    exact .blanksBefore hblanks (.blanksBehind (isBlank_of_lexemes_nil hrest) (.name hc hletters))
  | brackets _ ih =>
    obtain ⟨blanks, word, rest, rfl, hblanks, ⟨rfl, -⟩, hrest, -⟩ := lexemes_eq_cons hcs
    obtain ⟨inner, closing, rfl, hinner, hclosing⟩ := lexemes_eq_append hrest
    obtain ⟨blanks', word', rest', rfl, hblanks', ⟨rfl, -⟩, hrest', -⟩ := lexemes_eq_cons hclosing
    have hwritten := Written.blanksBehind (isBlank_of_lexemes_nil hrest')
      (.brackets (.blanksBehind hblanks' (ih hinner)))
    refine .blanksBefore hblanks ?_
    simpa only [List.singleton_append, List.cons_append, List.append_assoc, List.nil_append] using hwritten
  | unary hop _ ih =>
    obtain ⟨blanks, word, rest, rfl, hblanks, ⟨rfl, -⟩, hrest, -⟩ := lexemes_eq_cons hcs
    exact .blanksBefore hblanks (.unary hop (ih hrest))
  | tighter _ ih => exact .tighter (ih hcs)
  | binary hop hrank _ _ ihl ihr =>
    obtain ⟨left, rest, rfl, hleft, hrest⟩ := lexemes_eq_append hcs
    obtain ⟨blanks, word, right, rfl, hblanks, ⟨rfl, -⟩, hright, -⟩ := lexemes_eq_cons hrest
    have hwritten := Written.binary hop hrank (.blanksBehind hblanks (ihl hleft)) (ihr hright)
    simpa only [List.singleton_append, List.append_assoc] using hwritten

theorem written_iff {cs : List Char} : Written rank cs p ↔ Spelled rank (lexemes cs) p :=
  ⟨Written.spelled, fun h => h.written rfl⟩

/-- The numbers and names of a phrase are those among its lexemes. -/
theorem Spelled.leaves_eq {ts : List Lexeme} (h : Spelled rank ts p) : p.leaves = ts.filter Lexeme.isOperand := by
  induction h with
  | number | name => rfl
  | brackets _ ih => rw [ih]; simp [Lexeme.isOperand]
  | unary _ _ ih => rw [leaves, ih]; rfl
  | tighter _ ih => exact ih
  | binary _ _ _ _ ihl ihr => rw [leaves, ihl, ihr, List.filter_append]; rfl

end Phrase

/-! ## The parser -/

namespace Expr
open Phrase
variable {text : String} {resolve : Resolver}

theorem ofNumber_ok {pos : Nat} {digits : List Char} {e : Expr} (h : ofNumber text pos digits = .ok e) :
    digits ≠ [] ∧ (∀ c ∈ digits, c.isDigit) ∧ expr? resolve (.number digits) = some e := by
  rw [ofNumber] at h
  split at h
  · cases h
  · rename_i n hn
    rw [decimal?] at hn
    split at hn
    · cases hn
    · rename_i hdigits
      cases hn
      simp only [Bool.or_eq_true, List.isEmpty_iff, Bool.not_eq_true', not_or, Bool.not_eq_false, List.all_eq_true] at hdigits
      refine ⟨hdigits.1, hdigits.2, ?_⟩
      rw [expr?]
      split at h
      · rename_i hfits
        cases h
        exact if_pos hfits
      · cases h

theorem ofName_eq_ok_iff {word : List Char} {e : Expr} :
    ofName text resolve word = .ok e ↔ expr? resolve (.name word) = some e := by
  rw [ofName.eq_def]
  split
  · simp only [expr?, Except.ok.injEq, Option.some.injEq]
  · rename_i hdollar
    rw [expr?.eq_3 _ _ hdollar]
    rcases resolve (String.ofList word) with fault | _ | index
    · exact ⟨fun h => (by cases h), fun h => (by cases h)⟩
    · exact ⟨fun h => (by cases h), fun h => (by cases h)⟩
    · simp only [bind, Except.bind, pure, Except.pure, Except.ok.injEq, Option.some.injEq]

mutual

theorem parseOperand_sound {ts : List PlacedLexeme} {e : Expr} {rest : Rest ts}
    (h : parseOperand text resolve ts = .ok (e, rest)) :
    ∃ used p, ts = used ++ rest.1 ∧ Spelled 0 (used.map (·.lexeme)) p ∧ p.expr? resolve = some e := by
  match ts with
  | [] =>
    rw [parseOperand] at h
    cases h
  | ⟨pos, .number digits⟩ :: ts' =>
    rw [parseOperand] at h
    obtain ⟨e₁, he₁, h⟩ := of_bind_ok h
    cases h
    obtain ⟨hne, hd, he⟩ := ofNumber_ok he₁
    exact ⟨[⟨pos, .number digits⟩], .number digits, rfl, .number hne hd, he⟩
  | ⟨pos, .name word⟩ :: ts' =>
    rw [parseOperand] at h
    obtain ⟨e₁, he₁, h⟩ := of_bind_ok h
    cases h
    exact ⟨[⟨pos, .name word⟩], .name word, rfl, .name word, ofName_eq_ok_iff.mp he₁⟩
  | ⟨pos, .sign c⟩ :: ts' =>
    rw [parseOperand] at h
    cases hop : UnaryOp.ofChar? c with
    | some op =>
      simp only [hop] at h
      obtain ⟨⟨e₁, rest₁⟩, he₁, h⟩ := of_bind_ok h
      cases h
      obtain ⟨used, p, hts, hp, he⟩ := parseOperand_sound he₁
      exact ⟨⟨pos, .sign c⟩ :: used, .unary op p, congrArg (_ :: ·) hts, .unary hop hp, by rw [expr?, he]; rfl⟩
    | none =>
      simp only [hop] at h
      by_cases hc : c = '('
      · rw [if_pos hc] at h
        obtain ⟨⟨e₁, rest₁⟩, he₁, h⟩ := of_bind_ok h
        obtain ⟨used, p, hts, hp, he⟩ := parseRank_sound he₁
        rcases rest₁ with ⟨_ | ⟨t, rest₁⟩, hrest⟩
        · cases h
        · dsimp only at h
          by_cases ht : t.lexeme = .sign ')'
          · rw [if_pos ht] at h
            cases h
            refine ⟨⟨pos, .sign c⟩ :: (used ++ [t]), p, ?_, ?_, he⟩
            · simp [hts]
            · rw [List.map_cons, List.map_append, List.map_singleton, hc, ht]
              exact .brackets hp
          · rw [if_neg ht] at h
            cases h
      · rw [if_neg hc] at h
        cases h
termination_by (ts.length, 0)

theorem parseRank_sound {rank : Nat} {ts : List PlacedLexeme} {e : Expr} {rest : Rest ts}
    (h : parseRank text resolve rank ts = .ok (e, rest)) :
    ∃ used p, ts = used ++ rest.1 ∧ Spelled rank (used.map (·.lexeme)) p ∧ p.expr? resolve = some e := by
  match rank with
  | 0 =>
    rw [parseRank] at h
    exact parseOperand_sound h
  | rank + 1 =>
    rw [parseRank] at h
    obtain ⟨⟨e₁, rest₁⟩, h₁, h⟩ := of_bind_ok h
    obtain ⟨⟨e₂, rest₂⟩, h₂, h⟩ := of_bind_ok h
    cases h
    obtain ⟨used, p, hts, hp, he₁⟩ := parseRank_sound h₁
    obtain ⟨used', q, hts', hq, he⟩ := parseChain_sound (.tighter hp) he₁ h₂
    exact ⟨used ++ used', q, hts.trans ((congrArg (used ++ ·) hts').trans (List.append_assoc ..).symm), by rwa [List.map_append], he⟩
termination_by (ts.length, 2 * rank + 1)

theorem parseChain_sound {rank : Nat} {e₀ e : Expr} {ts : List PlacedLexeme}
    {rest : { rest : List PlacedLexeme // rest.length ≤ ts.length }} {before : List Lexeme} {p : Phrase}
    (hp : Spelled (rank + 1) before p) (he₀ : p.expr? resolve = some e₀)
    (h : parseChain text resolve rank e₀ ts = .ok (e, rest)) :
    ∃ used q, ts = used ++ rest.1 ∧ Spelled (rank + 1) (before ++ used.map (·.lexeme)) q ∧ q.expr? resolve = some e := by
  match ts with
  | [] =>
    rw [parseChain] at h
    cases h
    exact ⟨[], p, rfl, by simpa using hp, he₀⟩
  | t :: ts' =>
    rw [parseChain] at h
    cases hop : operator? t with
    | none =>
      simp only [hop] at h
      cases h
      exact ⟨[], p, rfl, by simpa using hp, he₀⟩
    | some op =>
      simp only [hop] at h
      by_cases hrank : op.rank = rank + 1
      · rw [if_pos hrank] at h
        obtain ⟨⟨e₁, rest₁⟩, h₁, h⟩ := of_bind_ok h
        obtain ⟨⟨e₂, rest₂⟩, h₂, h⟩ := of_bind_ok h
        cases h
        obtain ⟨c, ht, hc⟩ := operator?_eq_some hop
        obtain ⟨used, q, hts, hq, he₁⟩ := parseRank_sound h₁
        have hboth : expr? resolve (.binary op p q) = some (.binary op e₀ e₁) := by rw [expr?, he₀, he₁]; rfl
        obtain ⟨used', q', hts', hq', he⟩ := parseChain_sound (.binary hc hrank hp hq) hboth h₂
        refine ⟨t :: (used ++ used'), q', ?_, ?_, he⟩
        · rw [List.cons_append, List.append_assoc]
          exact congrArg (t :: ·) (hts.trans (congrArg (used ++ ·) hts'))
        · rw [List.map_cons, List.map_append, ht]
          simpa only [List.append_assoc, List.cons_append] using hq'
      · rw [if_neg hrank] at h
        cases h
        exact ⟨[], p, rfl, by simpa using hp, he₀⟩
termination_by (ts.length, 2 * rank + 2)

end

theorem ofNumber_eq_ok {pos : Nat} {digits : List Char} (hne : digits ≠ []) (hd : ∀ c ∈ digits, c.isDigit) {e : Expr}
    (h : expr? resolve (.number digits) = some e) : ofNumber text pos digits = .ok e := by
  have hvalue : decimal? digits = some (decimalValue digits) := by
    rw [decimal?, if_neg]
    simpa [hne] using hd
  rw [expr?] at h
  rw [ofNumber, hvalue]
  split at h
  · rename_i hfits
    cases h
    exact if_pos hfits
  · cases h

theorem parseChain_of_stops {rank : Nat} {ts : List PlacedLexeme} (h : Stops (rank + 1) ts) (e : Expr) :
    parseChain text resolve rank e ts = .ok (e, ⟨ts, Nat.le_refl _⟩) := by
  cases ts with
  | nil => rw [parseChain]
  | cons t ts =>
    rw [parseChain]
    cases hop : operator? t with
    | none => rfl
    | some op =>
      have hrank : op.rank ≠ rank + 1 := (h t rfl op hop).ne'
      simp only [if_neg hrank]

theorem parseChain_of_operator {rank : Nat} {t : PlacedLexeme} {ts rest rest' : List PlacedLexeme} {op : BinaryOp}
    {left right e : Expr} {h : rest.length < ts.length} {h' : rest'.length ≤ rest.length} (hop : operator? t = some op)
    (hrank : op.rank = rank + 1) (hright : parseRank text resolve rank ts = .ok (right, ⟨rest, h⟩))
    (hchain : parseChain text resolve rank (.binary op left right) rest = .ok (e, ⟨rest', h'⟩)) :
    ∃ h, parseChain text resolve rank left (t :: ts) = .ok (e, ⟨rest', h⟩) := by
  refine ⟨by rw [List.length_cons]; omega, ?_⟩
  rw [parseChain]
  simp only [hop, if_pos hrank, hright, bind, Except.bind, hchain]
  rfl

/-- An operand is taken whole; behind an expression of a higher rank the parser stands in front of
the operators that its last rank goes on with. -/
def Takes (text : String) (resolve : Resolver) : (rank : Nat) → List PlacedLexeme → Expr → Prop
  | 0, used, e => ∀ rest, ∃ h, parseOperand text resolve (used ++ rest) = .ok (e, ⟨rest, h⟩)
  | rank + 1, used, e => ∀ rest, Stops rank rest → ∀ e' rest' h, parseChain text resolve rank e rest = .ok (e', ⟨rest', h⟩) →
      ∃ h, parseRank text resolve (rank + 1) (used ++ rest) = .ok (e', ⟨rest', h⟩)

theorem Takes.parseRank {rank : Nat} {used : List PlacedLexeme} {e : Expr} (h : Takes text resolve rank used e)
    {rest : List PlacedLexeme} (hrest : Stops rank rest) :
    ∃ h, Expr.parseRank text resolve rank (used ++ rest) = .ok (e, ⟨rest, h⟩) := by
  cases rank with
  | zero =>
    rw [Expr.parseRank]
    exact h rest
  | succ rank =>
    have hless : Stops rank rest := fun t ht op hop => Nat.lt_of_succ_lt (hrest t ht op hop)
    exact h rest hless e rest _ (parseChain_of_stops hrest e)

theorem takes_of_spelled {rank : Nat} {ts : List Lexeme} {p : Phrase} (h : Spelled rank ts p)
    {used : List PlacedLexeme} (hused : used.map (·.lexeme) = ts) {e : Expr} (he : p.expr? resolve = some e) :
    Takes text resolve rank used e := by
  induction h generalizing used e with
  | @number digits hne hd =>
    obtain ⟨⟨pos, _⟩, rfl, rfl⟩ := List.map_eq_singleton_iff.mp hused
    intro rest
    rw [List.singleton_append]
    refine ⟨by simp, ?_⟩
    rw [parseOperand, ofNumber_eq_ok hne hd he]
    rfl
  | name word =>
    obtain ⟨⟨pos, _⟩, rfl, rfl⟩ := List.map_eq_singleton_iff.mp hused
    intro rest
    rw [List.singleton_append]
    refine ⟨by simp, ?_⟩
    rw [parseOperand, ofName_eq_ok_iff.mpr he]
    rfl
  | brackets _ ih =>
    obtain ⟨⟨pos, _⟩, more, rfl, rfl, hmore⟩ := List.map_eq_cons_iff.mp hused
    obtain ⟨inner, closing, rfl, hinner, hclosing⟩ := List.map_eq_append_iff.mp hmore
    obtain ⟨t, rfl, ht⟩ := List.map_eq_singleton_iff.mp hclosing
    intro rest
    have hstops : Stops 3 (t :: rest) := by
      apply stops_cons.mpr
      intro op hop
      rw [operator?, ht] at hop
      cases hop
    obtain ⟨hlength, hparse⟩ := (ih hinner he).parseRank hstops
    rw [List.cons_append, List.append_assoc, List.singleton_append]
    refine ⟨by simp only [List.length_cons, List.length_append]; omega, ?_⟩
    rw [parseOperand]
    simp only [show UnaryOp.ofChar? '(' = none from rfl, if_true, hparse, bind, Except.bind, if_pos ht]
    rfl
  | unary hop _ ih =>
    obtain ⟨⟨pos, _⟩, more, rfl, rfl, hmore⟩ := List.map_eq_cons_iff.mp hused
    rw [expr?, Option.map_eq_some_iff] at he
    obtain ⟨e₁, he₁, rfl⟩ := he
    intro rest
    obtain ⟨hlength, hparse⟩ := ih hmore he₁ rest
    rw [List.cons_append]
    refine ⟨by simp only [List.length_cons, List.length_append]; omega, ?_⟩
    rw [parseOperand]
    simp only [hop, hparse, bind, Except.bind]
    rfl
  | @tighter rank _ _ _ ih =>
    intro rest hrest e' rest' h hchain
    obtain ⟨hlength, hparse⟩ := (ih hused he).parseRank hrest
    refine ⟨by omega, ?_⟩
    rw [parseRank, hparse]
    simp only [bind, Except.bind, hchain]
    rfl
  | @binary rank c op _ _ p q hop hrank _ _ ihl ihr =>
    -- The parser of the left operand goes on with the operator by itself, as its rank is the same.
    obtain ⟨left, more, rfl, hleft, hmore⟩ := List.map_eq_append_iff.mp hused
    obtain ⟨t, right, rfl, ht, hright⟩ := List.map_eq_cons_iff.mp hmore
    have hoperator : operator? t = some op := by rw [operator?, ht]; exact hop
    rw [expr?] at he
    obtain ⟨e₁, he₁, he⟩ := Option.bind_eq_some_iff.mp he
    obtain ⟨e₂, he₂, he⟩ := Option.bind_eq_some_iff.mp he
    cases he
    intro rest hrest e' rest' h hchain
    have hstops : Stops rank (t :: (right ++ rest)) := by
      apply stops_cons.mpr
      intro op' hop'
      rw [hoperator] at hop'
      cases hop'
      omega
    obtain ⟨hlength, hparse⟩ := (ihr hright he₂).parseRank hrest
    obtain ⟨hle, hgoes⟩ := parseChain_of_operator hoperator hrank hparse hchain
    obtain ⟨hless, hwhole⟩ := ihl hleft he₁ _ hstops e' rest' hle hgoes
    rw [List.append_assoc, List.cons_append]
    exact ⟨hless, hwhole⟩

theorem ne_nil_of_spelled {rank : Nat} {ts : List Lexeme} {p : Phrase} (h : Spelled rank ts p) : ts ≠ [] := by
  induction h with
  | number | name | brackets | unary => exact List.cons_ne_nil _ _
  | tighter _ ih => exact ih
  | binary => exact List.append_ne_nil_of_right_ne_nil _ (List.cons_ne_nil _ _)

/-- What the parser gives is the expression of a phrase that the text is a written form of, and
it gives the expression of every such phrase. -/
theorem parse_eq_ok_iff {e : Expr} :
    parse text resolve = .ok e ↔ ∃ p, Written 3 text.toList p ∧ p.expr? resolve = some e := by
  have hlexemes : PlacedLexeme.lexemes text.toList = (PlacedLexeme.scan text).map (·.lexeme) := rfl
  constructor
  · intro h
    rw [parse.eq_def] at h
    split at h
    · cases h
    · obtain ⟨⟨e₁, ⟨rest, hrest⟩⟩, he₁, h⟩ := of_bind_ok h
      obtain ⟨used, p, hts, hp, he⟩ := parseRank_sound he₁
      cases rest with
      | cons t rest => cases h
      | nil =>
        cases h
        rw [List.append_nil] at hts
        refine ⟨p, written_iff.mpr ?_, he⟩
        rwa [hlexemes, hts]
  · rintro ⟨p, hp, he⟩
    have hspelled := hp.spelled
    rw [hlexemes] at hspelled
    have htakes : Takes text resolve 3 (PlacedLexeme.scan text) e := takes_of_spelled hspelled rfl he
    have hstops : Stops 3 [] := fun _ h => by cases h
    have hwhole := htakes.parseRank hstops
    rw [List.append_nil] at hwhole
    obtain ⟨hless, hparse⟩ := hwhole
    rw [parse.eq_def]
    split
    · rename_i hnil
      rw [hnil] at hspelled
      exact absurd rfl (ne_nil_of_spelled hspelled)
    · simp only [hparse, bind, Except.bind]
      rfl

end Expr

/-- The expression of a text that compiles is that of every phrase that it is a written form of. -/
theorem Phrase.Written.expr?_eq {text : String} {resolve : Resolver} {e : Expr} (h : Expr.parse text resolve = .ok e)
    {p : Phrase} (hp : Written 3 text.toList p) : p.expr? resolve = some e := by
  obtain ⟨q, hq, he⟩ := Expr.parse_eq_ok_iff.mp h
  have hleaves : p.leaves = q.leaves := by rw [hp.spelled.leaves_eq, hq.spelled.leaves_eq]
  have hp' : p.Fits ∧ p.Resolves resolve := by
    rw [Fits, Resolves, hleaves]
    exact exists_expr?_iff.mp ⟨e, he⟩
  obtain ⟨e', he'⟩ := exists_expr?_iff.mpr hp'
  have hparse := Expr.parse_eq_ok_iff.mpr ⟨p, hp, he'⟩
  rw [h] at hparse
  cases hparse
  exact he'

end LayoutScript
