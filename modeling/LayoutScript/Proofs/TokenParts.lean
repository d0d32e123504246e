import Mathlib.Data.List.DropRight
import LayoutScript.Proofs.ExprGrammar
import LayoutScript.Proofs.DraftSteps
import LayoutScript.Proofs.LetterCase
import LayoutScript.Token.Scan

/-! # What scanned tokens are made of

Not every declaration can be written: the type of a field closes its parentheses, a size has no
blanks around it and no bracket in it, a name breaks no rule and a comment is one line. Scanning
gives nothing else.
-/
namespace LayoutScript

namespace Token

/-- The character stands for itself wherever a type is read: it ends none, and parenthesizes
nothing. -/
def isPlain (c : Char) : Bool := !(isStop c || isBlank c || c == '(' || c == ')')

theorem isPlain_spec {c : Char} (h : isPlain c = true) :
    isStop c = false ∧ isBlank c = false ∧ (c == '(') = false ∧ (c == ')') = false := by
  simpa only [isPlain, Bool.not_eq_true', Bool.or_eq_false_iff, and_assoc] using h

theorem isStop_cases {c : Char} (h : isStop c = true) : c = ';' ∨ c = '[' ∨ c = ']' ∨ c = '\x7b' ∨ c = '\x7d' := by
  simpa [isStop, or_assoc] using h

theorem isPlain_of_isNameChar {c : Char} (h : isNameChar c = true) : isPlain c = true := by
  by_contra hplain
  simp only [isPlain, Bool.not_eq_true', Bool.or_eq_false_iff, beq_eq_false_iff_ne, not_and_or, Bool.not_eq_false, ne_eq,
    not_not] at hplain
  rcases hplain with ((hstop | hblank) | rfl) | rfl
  · rcases isStop_cases hstop with rfl | rfl | rfl | rfl | rfl <;> revert h <;> decide
  · rcases isBlank_cases hblank with rfl | rfl | rfl | rfl | rfl <;> revert h <;> decide
  · revert h
    decide
  · revert h
    decide

/-- A text that starts inside `depth` parentheses and is a type up to its end. -/
def closesAt : Nat → List Char → Bool
  | depth, [] => depth == 0
  | depth, c :: cs =>
    !(isStop c || (depth == 0 && isBlank c)) &&
      closesAt (if c == '(' then depth + 1 else if c == ')' then depth - 1 else depth) cs

theorem closesAt_plain {c : Char} (hc : isPlain c = true) (depth : Nat) (cs : List Char) :
    closesAt depth (c :: cs) = closesAt depth cs := by
  obtain ⟨hstop, hblank, hopen, hclose⟩ := isPlain_spec hc
  rw [closesAt, hstop, hblank, hopen, hclose]
  simp

theorem closesAt_append_plain {word : List Char} (hword : ∀ c ∈ word, isPlain c = true) (depth : Nat) (cs : List Char) :
    closesAt depth (word ++ cs) = closesAt depth cs := by
  induction word with
  | nil => rfl
  | cons c word ih =>
    rw [List.forall_mem_cons] at hword
    rw [List.cons_append, closesAt_plain hword.1, ih hword.2]

/-- What comes next does not belong to the type before it. -/
def EndsType (rest : List Char) : Prop := ∀ c ∈ rest.head?, isStop c = true ∨ isBlank c = true

theorem passType_append {depth pos : Nat} {text rest : List Char} (h : closesAt depth text = true) (hrest : EndsType rest) :
    passType depth pos (text ++ rest) = (true, ⟨pos + byteLength text, rest⟩) := by
  induction text generalizing depth pos with
  | nil =>
    obtain rfl : depth = 0 := beq_iff_eq.mp h
    cases rest with
    | nil => rfl
    | cons c rest =>
      have hc := hrest c rfl
      rw [List.nil_append, passType, if_pos]
      · rfl
      · rcases hc with hc | hc <;> simp [hc]
  | cons c text ih =>
    rw [closesAt, Bool.and_eq_true, Bool.not_eq_true'] at h
    rw [List.cons_append, passType, if_neg (Bool.not_eq_true _ ▸ h.1)]
    dsimp only
    rw [ih h.2, byteLength_cons, Nat.add_assoc]

theorem closesAt_of_passType {depth pos : Nat} {cs : List Char} {stop : TextCursor}
    (h : passType depth pos cs = (true, stop)) :
    ∃ text, TextCursor.Passes ⟨pos, cs⟩ text stop ∧ closesAt depth text = true := by
  induction cs generalizing depth pos with
  | nil =>
    rw [passType, Prod.mk.injEq] at h
    exact ⟨[], h.2 ▸ TextCursor.passes_refl _, h.1⟩
  | cons c cs ih =>
    rw [passType] at h
    split at h
    · rw [Prod.mk.injEq] at h
      exact ⟨[], h.2 ▸ TextCursor.passes_refl _, h.1⟩
    · rename_i hc
      obtain ⟨text, hpasses, hclose⟩ := ih h
      refine ⟨c :: text, ?_, ?_⟩
      · have hfirst : TextCursor.Passes ⟨pos, c :: cs⟩ [c] ⟨pos + c.utf8Size, cs⟩ := ⟨rfl, rfl⟩
        exact hfirst.trans hpasses
      · rw [Bool.not_eq_true] at hc
        rw [closesAt, hclose, hc]
        rfl

end Token

namespace TypeSpec
open Token

/-- The parts of a type that scripts can be written with. -/
structure Written (t : TypeSpec) : Prop where
  name : isTypeName t.name.toList = true
  lower : foldCase t.name = t.name
  extra : ∀ extra ∈ t.extra, isExtra extra.toList = true ∧ closesAt 0 extra.toList = true

/-- A character of a type name. -/
def isTypeNameChar (c : Char) : Bool := isNameChar c || c == '$'

theorem isTypeName_cons (c : Char) (cs : List Char) :
    isTypeName (c :: cs) = (isNameChar c && cs.all isTypeNameChar) := rfl

theorem isTypeNameChar_spec {c : Char} (h : isTypeNameChar c = true) : isPlain c = true ∧ c ≠ ':' := by
  rw [isTypeNameChar, Bool.or_eq_true, beq_iff_eq] at h
  rcases h with h | rfl
  · refine ⟨isPlain_of_isNameChar h, ?_⟩
    rintro rfl
    revert h
    decide
  · decide

theorem isTypeName_all {name : List Char} (h : isTypeName name = true) : ∀ c ∈ name, isTypeNameChar c = true := by
  cases name with
  | nil => exact List.forall_mem_nil _
  | cons c cs =>
    rw [isTypeName_cons, Bool.and_eq_true, List.all_eq_true] at h
    refine List.forall_mem_cons.mpr ⟨?_, h.2⟩
    rw [isTypeNameChar, h.1]
    rfl

theorem caseless_isTypeName : Caseless isTypeName := by
  intro cs
  cases cs with
  | nil => rfl
  | cons c cs =>
    have hrest : CaseBlind isTypeNameChar := CaseBlind.isNameChar.or (.eq rfl)
    rw [List.map_cons, isTypeName_cons, isTypeName_cons, CaseBlind.isNameChar c, hrest.all_map]

/-- The mark of the byte order stands for nothing else. -/
theorem splitOrder_mark (text : List Char) :
    ∃ mark, text = mark ++ (splitOrder text).2 ∧ ∀ c ∈ mark, isPlain c = true := by
  rw [splitOrder.eq_def]
  split
  · exact ⟨['<'], rfl, List.forall_mem_singleton.mpr rfl⟩
  · exact ⟨['>'], rfl, List.forall_mem_singleton.mpr rfl⟩
  · exact ⟨[], rfl, List.forall_mem_nil _⟩

theorem splitOrder_typeName {name : List Char} (h : isTypeName name = true) (rest : List Char) :
    splitOrder (name ++ rest) = (.big, name ++ rest) := by
  cases name with
  | nil => cases h
  | cons c cs =>
    rw [isTypeName_cons, Bool.and_eq_true] at h
    have hc := h.1
    rw [splitOrder.eq_def]
    split
    · rename_i heq
      obtain rfl : c = '<' := (List.cons.inj heq).1
      exact absurd hc (by decide)
    · rename_i heq
      obtain rfl : c = '>' := (List.cons.inj heq).1
      exact absurd hc (by decide)
    · rfl

/-- The text of an extra behind the name of its type. -/
def extraText : Option String → List Char
  | some extra => ':' :: extra.toList
  | none => []

theorem toList_render (t : TypeSpec) :
    t.render.toList = (if t.order = .little then ['<'] else []) ++ (t.name.toList ++ extraText t.extra) := by
  rw [render, String.toList_append, String.toList_append, List.append_assoc]
  congr 1
  · split <;> rfl
  · congr 1
    rcases t.extra with _ | extra
    · rfl
    · exact String.toList_append

theorem splitName {name : List Char} (h : isTypeName name = true) (extra : Option String) :
    (name ++ extraText extra).takeWhile (· != ':') = name ∧
      (name ++ extraText extra).dropWhile (· != ':') = extraText extra := by
  have hname : ∀ c ∈ name, (c != ':') = true := fun c hc =>
    bne_iff_ne.mpr (isTypeNameChar_spec (isTypeName_all h c hc)).2
  rw [List.takeWhile_append_of_pos hname, List.dropWhile_append_of_pos hname]
  cases extra with
  | none => exact ⟨List.append_nil _, rfl⟩
  | some extra =>
    rw [extraText, List.takeWhile_cons_of_neg (by decide), List.dropWhile_cons_of_neg (by decide)]
    exact ⟨List.append_nil _, rfl⟩

theorem written_of_parse? {text : List Char} {t : TypeSpec} (hclose : closesAt 0 text = true)
    (h : parse? text = some t) : t.Written := by
  obtain ⟨mark, hmark, hplain⟩ := splitOrder_mark text
  rw [hmark, closesAt_append_plain hplain] at hclose
  rw [parse?] at h
  generalize splitOrder text = split at hclose h
  obtain ⟨order, body⟩ := split
  dsimp only at hclose h
  split at h
  · rename_i hname
    rw [← List.takeWhile_append_dropWhile (p := (· != ':')) (l := body), closesAt_append_plain fun c hc =>
      (isTypeNameChar_spec (isTypeName_all hname c hc)).1] at hclose
    have hlower : isTypeName (foldCase (String.ofList (body.takeWhile (· != ':')))).toList = true := by
      rw [toList_foldCase, String.toList_ofList, caseless_isTypeName, hname]
    split at h
    · cases h
      exact ⟨hlower, foldCase_foldCase _, fun s hs => by cases hs⟩
    · rename_i colon extra hdrop
      split at h
      · rename_i hextra
        cases h
        refine ⟨hlower, foldCase_foldCase _, ?_⟩
        rintro _ ⟨⟩
        have hcolon : colon = ':' := by
          have hhead := List.head?_dropWhile_not (· != ':') body
          rw [hdrop] at hhead
          simpa using hhead
        rw [hdrop, hcolon, closesAt_plain (by decide)] at hclose
        rw [String.toList_ofList]
        exact ⟨hextra, hclose⟩
      · cases h
  · cases h

theorem Written.render_head {t : TypeSpec} (h : t.Written) :
    ∃ c cs, t.render.toList = c :: cs ∧ (c = '<' ∨ isNameChar c = true) := by
  rw [toList_render]
  split
  · exact ⟨_, _, rfl, .inl rfl⟩
  · have hname := h.name
    cases hchars : t.name.toList with
    | nil =>
      rw [hchars] at hname
      cases hname
    | cons c cs =>
      rw [hchars, isTypeName_cons, Bool.and_eq_true] at hname
      exact ⟨c, _, rfl, .inr hname.1⟩

theorem Written.closesAt_render {t : TypeSpec} (h : t.Written) : closesAt 0 t.render.toList = true := by
  have hmark : ∀ c ∈ (if t.order = .little then ['<'] else []), isPlain c = true := by
    split
    · exact List.forall_mem_singleton.mpr rfl
    · exact List.forall_mem_nil _
  rw [toList_render, closesAt_append_plain hmark, closesAt_append_plain fun c hc =>
      (isTypeNameChar_spec (isTypeName_all h.name c hc)).1]
  cases hextra : t.extra with
  | none => rfl
  | some extra =>
    rw [extraText, closesAt_plain (by decide)]
    exact (h.extra extra hextra).2

theorem Written.parse?_render {t : TypeSpec} (h : t.Written) : parse? t.render.toList = some t := by
  have hsplit : splitOrder t.render.toList = (t.order, t.name.toList ++ extraText t.extra) := by
    rw [toList_render]
    cases horder : t.order with
    | little => rfl
    | big => exact splitOrder_typeName h.name _
  obtain ⟨htake, hdrop⟩ := splitName h.name t.extra
  rw [parse?, hsplit]
  dsimp only
  rw [htake, hdrop, if_pos h.name, String.ofList_toList, h.lower]
  obtain ⟨order, name, extra⟩ := t
  cases extra with
  | none => rfl
  | some extra =>
    simp only [extraText, if_pos (h.extra extra rfl).1, String.ofList_toList]

end TypeSpec
namespace TextCursor

/-- Moving over a text that ends where the condition does. -/
theorem dropWhile_append {p : Char → Bool} {text rest : List Char} (htext : ∀ c ∈ text, p c = true)
    (hrest : ∀ c ∈ rest.head?, p c = false) (pos : Nat) :
    (⟨pos, text ++ rest⟩ : TextCursor).dropWhile p = ⟨pos + byteLength text, rest⟩ := by
  have hstay : rest.takeWhile p = [] ∧ rest.dropWhile p = rest := by
    cases rest with
    | nil => exact ⟨rfl, rfl⟩
    | cons c rest =>
      have hc := hrest c rfl
      exact ⟨List.takeWhile_cons_of_neg (by simp [hc]), List.dropWhile_cons_of_neg (by simp [hc])⟩
  rw [dropWhile]
  dsimp only
  rw [List.takeWhile_append_of_pos htext, List.dropWhile_append_of_pos htext, hstay.1, hstay.2, List.append_nil]

theorem dropWhile_same {p : Char → Bool} {rest : List Char} (hrest : ∀ c ∈ rest.head?, p c = false) (pos : Nat) :
    (⟨pos, rest⟩ : TextCursor).dropWhile p = ⟨pos, rest⟩ := dropWhile_append (List.forall_mem_nil _) hrest pos

theorem upTo_append (text rest : List Char) (pos : Nat) :
    (⟨pos, text ++ rest⟩ : TextCursor).upTo ⟨pos + byteLength text, rest⟩ = text := Passes.upTo ⟨rfl, rfl⟩

end TextCursor

theorem trimBy_trimBy (p : Char → Bool) (cs : List Char) : trimBy p (trimBy p cs) = trimBy p cs := by
  have hprefix : trimBy p cs <+: cs.dropWhile p := by
    rw [trimBy, ← List.reverse_suffix, List.reverse_reverse]
    exact List.dropWhile_suffix p
  have hhead : (trimBy p cs).dropWhile p = trimBy p cs := by
    obtain ⟨more, hmore⟩ := hprefix
    cases hcs : trimBy p cs with
    | nil => rfl
    | cons c rest =>
      have hnot := List.head?_dropWhile_not p cs
      rw [← hmore, hcs] at hnot
      exact List.dropWhile_cons_of_neg (by simpa using hnot)
  have hback : (trimBy p cs).reverse = (cs.dropWhile p).reverse.dropWhile p := by rw [trimBy, List.reverse_reverse]
  rw [trimBy.eq_def p (trimBy p cs), hhead, hback, List.dropWhile_idempotent, ← hback, List.reverse_reverse]

theorem trimBy_subset (p : Char → Bool) (cs : List Char) : trimBy p cs ⊆ cs := by
  intro c hc
  rw [trimBy, List.mem_reverse] at hc
  exact (List.dropWhile_suffix p).subset (List.mem_reverse.mp ((List.dropWhile_suffix p).subset hc))

namespace Token

/-- A text that a size in brackets can have. -/
structure IsSize (size : String) : Prop where
  some : size.toList ≠ []
  trimmed : trimmed size.toList = size.toList
  inside : ∀ c ∈ size.toList, isStop c = false

/-- The text of a size behind a type. -/
def sizeText : Option String → List Char
  | some size => '[' :: (size.toList ++ [']'])
  | none => []

/-- The text of a name behind a type or a size. -/
def nameText : Option String → List Char
  | some name => ' ' :: name.toList
  | none => []

/-- What ends a name. -/
def endsName (c : Char) : Bool := isBlank c || isStop c || c == '/'

theorem isIdentifier_spec {name : List Char} (h : isIdentifier name = true) :
    name ≠ [] ∧ ∀ c ∈ name, isNameChar c = true := by
  cases name with
  | nil => cases h
  | cons c cs =>
    rw [isIdentifier, Bool.and_eq_true, List.all_eq_true, Bool.or_eq_true, beq_iff_eq] at h
    refine ⟨List.cons_ne_nil _ _, List.forall_mem_cons.mpr ⟨?_, h.2⟩⟩
    rcases h.1 with halpha | rfl
    · rw [isNameChar, Char.isAlphanum, halpha]
      rfl
    · decide

theorem isIdentifier_of_brokenNameRule {customTypes : List String} {name : List Char}
    (h : brokenNameRule customTypes name = none) : isIdentifier name = true := by
  rw [brokenNameRule] at h
  dsimp only at h
  repeat' split at h
  all_goals first | assumption | cases h

theorem endsName_of_isNameChar {c : Char} (h : isNameChar c = true) : endsName c = false := by
  obtain ⟨hstop, hblank, -⟩ := isPlain_spec (isPlain_of_isNameChar h)
  rw [endsName, hstop, hblank, Bool.or_self, Bool.false_or, beq_eq_false_iff_ne]
  rintro rfl
  exact absurd h (by decide)

theorem scanSize_written {start c c' : TextCursor} {size : Option String} (h : scanSize start c = .ok (size, c')) :
    ∀ s ∈ size, IsSize s := by
  rw [scanSize] at h
  split at h
  · rename_i cs _
    dsimp only at h
    split at h
    · split at h
      · cases h
      · rename_i hempty
        cases h
        rintro _ ⟨⟩
        have hinner := (TextCursor.passes_dropWhile (!isStop ·) ⟨c.pos + 1, cs⟩).upTo
        rw [hinner] at hempty ⊢
        refine ⟨?_, ?_, ?_⟩
        · rw [String.toList_ofList]
          exact fun hnil => hempty (List.isEmpty_iff.mpr hnil)
        · rw [String.toList_ofList]
          exact trimBy_trimBy _ _
        · intro d hd
          rw [String.toList_ofList] at hd
          have hstop := List.mem_takeWhile_imp (trimBy_subset _ _ hd)
          simpa using hstop
    · cases h
  · cases h
    exact fun s hs => by cases hs

theorem scanSize_sizeText {s : String} (h : IsSize s) (start : TextCursor) (pos : Nat) (rest : List Char) :
    scanSize start ⟨pos, sizeText (some s) ++ rest⟩ = .ok (some s, ⟨pos + byteLength (sizeText (some s)), rest⟩) := by
  have hstop : (⟨pos + 1, s.toList ++ ']' :: rest⟩ : TextCursor).dropWhile (!isStop ·) =
      ⟨pos + 1 + byteLength s.toList, ']' :: rest⟩ := by
    refine TextCursor.dropWhile_append (fun c hc => by rw [h.inside c hc]; rfl) ?_ _
    rintro _ ⟨⟩
    decide
  have hsize : (trimmed s.toList).isEmpty = false := by
    rw [h.trimmed, List.isEmpty_eq_false_iff]
    exact h.some
  have htext : sizeText (some s) ++ rest = '[' :: (s.toList ++ ']' :: rest) := by
    rw [sizeText, List.cons_append, List.append_assoc, List.singleton_append]
  rw [htext]
  simp only [scanSize, hstop]
  rw [TextCursor.upTo_append, hsize, h.trimmed, String.ofList_toList, sizeText, byteLength_cons, byteLength_append]
  simp only [Bool.false_eq_true, if_false, Except.ok.injEq, Prod.mk.injEq, TextCursor.mk.injEq, true_and, and_true]
  have hbracket : byteLength [']'] = 1 ∧ Char.utf8Size '[' = 1 := by decide
  omega

end Token

namespace Declared
open Token

/-- The parts of a declaration that scripts can be written with. -/
def Written (customTypes : List String) : Declared → Prop
  | .field type size name =>
    type.Written ∧ (∀ s ∈ size, IsSize s) ∧ ∀ n ∈ name, brokenNameRule customTypes n.toList = none
  | .opening size name => (∀ s ∈ size, IsSize s) ∧ ∀ n ∈ name, brokenNameRule customTypes n.toList = none
  | .closing => True
  | .comment text => '\n' ∉ text.toList ∧ text.toList.getLast? ≠ some '\r'

def isComment : Declared → Bool
  | .comment _ => true
  | _ => false

end Declared

namespace Token
open Declared
variable {customTypes : List String}

theorem checkName_ok {start : TextCursor} {name : List Char} {n : String} (h : checkName customTypes start name = .ok n) :
    brokenNameRule customTypes n.toList = none := by
  rw [checkName] at h
  split at h
  · cases h
  · rename_i hrule
    cases h
    rwa [String.toList_ofList]

theorem opening_written {start stop : TextCursor} {size : Option String} {type? name? : Option (List Char)} {d : Declared}
    (hsize : ∀ s ∈ size, IsSize s) (h : opening customTypes start stop size type? name? = .ok d) :
    d.Written customTypes := by
  rw [opening] at h
  split at h
  · cases h
  · dsimp only at h
    split at h
    · obtain ⟨n, hn, h⟩ := of_bind_ok h
      cases h
      refine ⟨hsize, ?_⟩
      rintro _ ⟨⟩
      exact checkName_ok hn
    · cases h
      exact ⟨hsize, nofun⟩

theorem field_written {start stop : TextCursor} {size : Option String} {type? name? : Option (List Char)} {d : Declared}
    (htype : ∀ text ∈ type?, closesAt 0 text = true) (hsize : ∀ s ∈ size, IsSize s)
    (h : field customTypes start stop size type? name? = .ok d) : d.Written customTypes := by
  cases type? with
  | none => cases h
  | some text =>
    simp only [field] at h
    cases hspec : TypeSpec.parse? text with
    | none =>
      rw [hspec] at h
      cases h
    | some spec =>
      have hwritten := TypeSpec.written_of_parse? (htype text rfl) hspec
      rw [hspec] at h
      cases name? with
      | none =>
        cases h
        exact ⟨hwritten, hsize, nofun⟩
      | some name =>
        obtain ⟨n, hn, h⟩ := of_bind_ok h
        cases h
        refine ⟨hwritten, hsize, ?_⟩
        rintro _ ⟨⟩
        exact checkName_ok hn

theorem scanDeclaration_written {start stop : TextCursor} {d : Declared}
    (h : scanDeclaration customTypes start = .ok (d, stop)) : d.Written customTypes := by
  rw [scanDeclaration] at h
  split at h
  · cases h
  · rename_i afterType hpass
    obtain ⟨text, hpasses, hclose⟩ := closesAt_of_passType hpass
    have htype : ∀ text' ∈ word? (start.upTo afterType), closesAt 0 text' = true := by
      intro text' htext'
      rw [TextCursor.Passes.upTo hpasses, word?] at htext'
      split at htext' <;> cases htext'
      exact hclose
    dsimp only at h
    obtain ⟨⟨size, afterSize⟩, hsize, h⟩ := of_bind_ok h
    dsimp only at h
    split at h
    · obtain ⟨d', hd, h⟩ := of_bind_ok h
      cases h
      exact opening_written (scanSize_written hsize) hd
    · obtain ⟨d', hd, h⟩ := of_bind_ok h
      cases h
      exact field_written htype (scanSize_written hsize) hd
    · cases h

theorem scanDeclared_written {start stop : TextCursor} {d : Declared}
    (h : scanDeclared customTypes start = .ok (d, stop)) : d.Written customTypes := by
  rw [scanDeclared] at h
  split at h
  · rename_i body _
    cases h
    refine ⟨?_, ?_⟩
    · rw [String.toList_ofList]
      intro hmem
      have hline := (List.dropWhile_suffix _).subset (List.mem_reverse.mp hmem)
      have hnewline := List.mem_takeWhile_imp (List.mem_reverse.mp hline)
      simp at hnewline
    · rw [String.toList_ofList, List.getLast?_reverse]
      have hhead := List.head?_dropWhile_not (· == '\r') (body.takeWhile (· != '\n')).reverse
      intro heq
      rw [heq] at hhead
      simp at hhead
  · cases h
    trivial
  · exact scanDeclaration_written h

/-- Scanning gives declarations that can be written, also before text that is no token. -/
theorem scanFrom_written_before {c : TextCursor} {ts : List Token} {more : List (Except Fault Token)}
    (h : scanFrom customTypes c = ts.map .ok ++ more) : ∀ t ∈ ts, t.declared.Written customTypes := by
  induction ts generalizing c with
  | nil => exact List.forall_mem_nil _
  | cons t ts ih =>
    rw [scanFrom] at h
    dsimp only at h
    split at h
    · cases h
    · split at h
      · cases h
      · rename_i declared stop hscan
        rw [List.map_cons, List.cons_append, List.cons.injEq] at h
        obtain ⟨hfirst, h⟩ := h
        cases hfirst
        exact List.forall_mem_cons.mpr ⟨scanDeclared_written hscan, ih h⟩

theorem scanFrom_written {c : TextCursor} {ts : List Token} (h : scanFrom customTypes c = ts.map .ok) :
    ∀ t ∈ ts, t.declared.Written customTypes :=
  scanFrom_written_before (h.trans (List.append_nil _).symm)

end Token
end LayoutScript
