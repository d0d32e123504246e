import LayoutScript.Proofs.ClassifiedSizes

/-! # What sizes say

A number in a script is written as digits or as a phrase. A phrase without names whose value is not
negative says that value; every other phrase says that the number is computed, by something that gives
the value of the phrase wherever it is evaluated. This is told by the grammar of phrases and their
values alone, whatever the compiler makes of them.
-/
namespace LayoutScript

namespace Phrase

/-- No names stand in the phrase. -/
def Nameless (p : Phrase) : Prop := ∀ word, .name word ∉ p.leaves

/-- The phrase has no names, and wherever it stands it has the value `n`, which is not negative. -/
structure Known (p : Phrase) (n : Int32) : Prop where
  nameless : p.Nameless
  nonneg : 0 ≤ n
  value : ∃ e, (∀ resolve, p.expr? resolve = some e) ∧ ∀ cx, e.value cx 0 = .ok n

/-- With some fields for the names of the phrase, the source gives its value wherever it is evaluated. -/
def ComputedBy (p : Phrase) (source : SizeSource) : Prop :=
  ∃ resolve e, p.expr? resolve = some e ∧ ∀ cx, source.evaluate cx = e.value cx 0

variable {p : Phrase} {resolve : Resolver} {e : Expr} {n : Int32}

theorem expr?_of_nameless (h : p.Nameless) (resolve resolve' : Resolver) : p.expr? resolve' = p.expr? resolve := by
  induction p with
  | number => rfl
  | name word => exact absurd (List.mem_singleton_self _) (h word)
  | unary op p ih => simp only [expr?, ih h]
  | binary op p q ihp ihq =>
    have hp : p.Nameless := fun word hm => h word (List.mem_append_left _ hm)
    have hq : q.Nameless := fun word hm => h word (List.mem_append_right _ hm)
    simp only [expr?, ihp hp, ihq hq]

theorem isConstant_name {word : List Char} {text : String} (h : expr? resolve (.name word) = some e) :
    (ExprProgram.mk text e.postfixOps).isConstant = false := by
  by_cases hdollar : word.head? = some '$'
  · obtain ⟨letters, rfl⟩ := List.head?_eq_some_iff.mp hdollar
    cases h
    split <;> rfl
  · rw [expr?.eq_3 _ _ (by rintro letters rfl; exact hdollar rfl)] at h
    split at h <;> cases h
    rfl

/-- The program of a phrase is constant if the phrase has no names. -/
theorem nameless_iff {text : String} (h : p.expr? resolve = some e) :
    p.Nameless ↔ (ExprProgram.mk text e.postfixOps).isConstant = true := by
  induction p generalizing e with
  | number digits =>
    obtain ⟨-, he⟩ := Option.ite_none_right_eq_some.mp h
    cases he
    simp [Nameless, leaves, Expr.postfixOps, ExprProgram.isConstant]
  | name word => simp [isConstant_name h, Nameless, leaves]
  | unary op p ih =>
    obtain ⟨e₁, he₁, rfl⟩ := Option.map_eq_some_iff.mp h
    have hp := ih he₁
    simpa [Nameless, leaves, Expr.postfixOps, ExprProgram.isConstant] using hp
  | binary op p q ihp ihq =>
    obtain ⟨e₁, he₁, h⟩ := Option.bind_eq_some_iff.mp h
    obtain ⟨e₂, he₂, h⟩ := Option.bind_eq_some_iff.mp h
    cases h
    have hp := ihp he₁
    have hq := ihq he₂
    simp only [Nameless, leaves, Expr.postfixOps, ExprProgram.isConstant, List.mem_append, List.all_append, not_or,
      forall_and, Bool.and_eq_true] at hp hq ⊢
    simp [hp, hq]

end Phrase

/-! ## Texts -/

/-- What a text says as a number that is either known or computed, and the sources it is computed by. -/
inductive Says (text : List Char) : Packed → List SizeSource → Prop where
  | known {p : Phrase} {n : Int32} (hp : Phrase.Written 3 text p) (h : p.Known n) : Says text (.value n) []
  | computed {p : Phrase} {source : SizeSource} (hp : Phrase.Written 3 text p) (hunknown : ∀ n, ¬p.Known n)
    (h : p.ComputedBy source) : Says text .computed [source]

/-- What the text of a size says. Without one there is a single value, and an underscore is an array up to
the end of the input. -/
inductive Declared.HasCount : (size : Option String) → Count → List SizeSource → Prop where
  | one : HasCount none .one []
  | wholeStream : HasCount (some "_") .wholeStream []
  | fixed {text : String} {n : Int32} (hne : text ≠ "_") (h : Says text.toList (.value n) []) :
    HasCount (some text) (.fixed n.toInt.toNat) []
  | computed {text : String} {sources : List SizeSource} (hne : text ≠ "_") (h : Says text.toList .computed sources) :
    HasCount (some text) .computed sources

/-- The extra that a kind has where none is written. Some kinds have none at all. -/
def Kind.default? : Kind → Option Int32
  | .bit | .align | .skip => some 1
  | .var | .custom => some 0
  | .whole _ | .restart | .opening | .closing => none

/-- The number of decimal digits, with a minus sign or without one. -/
inductive IsLiteral : List Char → Int32 → Prop where
  | digits {cs : List Char} {n : Int32} (hcs : cs ≠ [] ∧ ∀ c ∈ cs, c.isDigit) (hn : n.toInt = decimalValue cs) :
    IsLiteral cs n
  | negative {cs : List Char} {n : Int32} (hcs : cs ≠ [] ∧ ∀ c ∈ cs, c.isDigit) (hn : n.toInt = -decimalValue cs) :
    IsLiteral ('-' :: cs) n

/-- What the text of an extra says: a literal, or a phrase in brackets. -/
inductive Kind.HasExtra (kind : Kind) : (text : Option String) → Option Packed → List SizeSource → Prop where
  | without (hkind : kind.default? = none) : kind.HasExtra none none []
  | default {n : Int32} (hkind : kind.default? = some n) : kind.HasExtra none (some (.value n)) []
  | literal {text : String} {n : Int32} (hkind : kind.default? ≠ none) (h : IsLiteral text.toList n) :
    kind.HasExtra (some text) (some (.value n)) []
  | phrase {text : String} {packed : Packed} {sources : List SizeSource} (hkind : kind.default? ≠ none)
    (hbracket : text.toList.head? = some '(') (h : Says text.toList packed sources) :
    kind.HasExtra (some text) (some packed) sources

/-! ## What is classified is what the text says -/

namespace SizeScope
variable {scope : SizeScope} {text : String} {spec : SizeSpec} {program : ExprProgram}

/-- Among the texts that are classified, those of constant programs with a value from 0 on are fixed. -/
theorem build_constant (hspec : scope.build text = .ok spec) (hprogram : ExprProgram.compile text scope.resolve = .ok program) :
    (∃ n, spec = .fixed n ∧ program.isConstant = true) ∨
      (∃ source, spec = .computed source ∧ (program.isConstant = true → ∀ n, program.constant? = some n → ¬0 ≤ n)) := by
  by_cases hsingle : isSingleReference text.toList = true
  · rcases isSingleReference_cases hsingle with ⟨hne, hdigits⟩ | ⟨c, rest, htext, hdigit, hname | rfl, hrest⟩
    · have hp : Phrase.Written 3 text.toList (.number text.toList) :=
        .tighter (.tighter (.tighter (.number hne hdigits)))
      obtain ⟨e, he, rfl⟩ := (ExprProgram.compile_of_written hp).mp hprogram
      rw [build, if_pos hsingle, reference, if_pos (List.all_eq_true.mpr hdigits)] at hspec
      dsimp only at hspec
      split at hspec <;> cases hspec
      exact .inl ⟨_, rfl, (Phrase.nameless_iff he).mp (by simp [Phrase.Nameless, Phrase.leaves])⟩
    · have hp : Phrase.Written 3 text.toList (.name (c :: rest)) := by
        rw [htext]
        exact .tighter (.tighter (.tighter (.name hname hrest)))
      obtain ⟨e, he, rfl⟩ := (ExprProgram.compile_of_written hp).mp hprogram
      have hnever : (ExprProgram.mk text e.postfixOps).isConstant = false := Phrase.isConstant_name he
      obtain ⟨source, rfl⟩ : ∃ source, spec = .computed source := by
        rw [build_reference scope hsingle htext hdigit] at hspec
        split at hspec
        · cases hspec
          exact ⟨_, rfl⟩
        · split at hspec <;> cases hspec
          exact ⟨_, rfl⟩
      exact .inr ⟨source, rfl, fun hconstant => by simp [hnever] at hconstant⟩
    · exact absurd hprogram (not_compile_dotted htext program)
  · rw [build, if_neg hsingle, hprogram] at hspec
    simp only [bind, Except.bind] at hspec
    cases hconstant : program.constant? with
    | none =>
      rw [hconstant] at hspec
      cases hspec
      exact .inr ⟨_, rfl, fun _ n hn => by cases hn⟩
    | some n =>
      rw [hconstant] at hspec
      dsimp only at hspec
      by_cases hn : 0 ≤ n
      · rw [if_pos hn] at hspec
        cases hspec
        refine .inl ⟨n, rfl, ?_⟩
        unfold ExprProgram.constant? at hconstant
        exact (Option.ite_none_right_eq_some.mp hconstant).1
      · rw [if_neg hn] at hspec
        cases hspec
        refine .inr ⟨_, rfl, fun _ m hm => ?_⟩
        cases hm
        exact hn

/-- What a text is classified as is what it says. -/
theorem build_says (hdotted : ∀ name : String, name.toList.head? = some '.' → ∀ index, scope.resolve name ≠ .ok (some index))
    (h : scope.build text = .ok spec) : Says text.toList (Draft.packedOf spec) (Draft.sourceOf spec) := by
  obtain ⟨hcompiles, hstands⟩ := keeps hdotted text
  obtain ⟨program, hprogram⟩ := hcompiles.mp ⟨spec, h⟩
  have hstands := hstands spec program h hprogram
  have hconstant := build_constant h hprogram
  obtain ⟨e, he, rfl⟩ := ExprProgram.compile_eq_ok_iff.mp hprogram
  obtain ⟨p, hp, he⟩ := Expr.parse_eq_ok_iff.mp he
  have hvalue : ∀ cx, ExprProgram.evaluate cx ⟨text, e.postfixOps⟩ = e.value cx 0 := fun cx =>
    ExprProgram.evaluate_eq_value rfl
  have hnameless : p.Nameless ↔ (ExprProgram.mk text e.postfixOps).isConstant = true := Phrase.nameless_iff he
  rcases hconstant with ⟨n, rfl, hconstant⟩ | ⟨source, rfl, hnegative⟩
  · obtain ⟨hnonneg, hgives⟩ := hstands
    have hall := Phrase.expr?_of_nameless (hnameless.mpr hconstant) scope.resolve
    exact .known hp ⟨hnameless.mpr hconstant, hnonneg, e, fun resolve => (hall resolve).trans he,
      fun cx => (hvalue cx).symm.trans (hgives cx)⟩
  · refine .computed hp (fun n hknown => ?_) ⟨scope.resolve, e, he, fun cx => (hstands cx).trans (hvalue cx)⟩
    obtain ⟨e', he', hn⟩ := hknown.value
    obtain rfl : e = e' := Option.some.inj (he.symm.trans (he' scope.resolve))
    have hconstant := hnameless.mp hknown.nameless
    refine hnegative hconstant n ?_ hknown.nonneg
    simp [ExprProgram.constant?, hconstant, hvalue, hn, Except.toOption]

end SizeScope

/-- A text that does not begin or end with white space is left as it is. -/
theorem trimText_eq_self {text : String} {c d : Char} (hfirst : text.toList.head? = some c)
    (hlast : text.toList.getLast? = some d) (hc : isWhiteSpace c = false) (hd : isWhiteSpace d = false) :
    trimText text = text := by
  have hfront : text.toList.dropWhile isWhiteSpace = text.toList := by
    obtain ⟨rest, hrest⟩ := List.head?_eq_some_iff.mp hfirst
    rw [hrest, List.dropWhile_cons_of_neg (by simp [hc])]
  have hback : text.toList.reverse.dropWhile isWhiteSpace = text.toList.reverse := by
    obtain ⟨rest, hrest⟩ := List.getLast?_eq_some_iff.mp hlast
    rw [hrest, List.reverse_concat, List.dropWhile_cons_of_neg (by simp [hd])]
  rw [trimText, trimmed, trimBy, hfront, hback, List.reverse_reverse, String.ofList_toList]

/-- An extra is written as decimal digits, with a minus sign or without one, or in brackets. -/
theorem TypeSpec.isExtra_cases {cs : List Char} (h : isExtra cs = true) :
    (cs.head? = some '(' ∧ cs.getLast? = some ')') ∨
      ∃ digits, (cs = digits ∨ cs = '-' :: digits) ∧ digits ≠ [] ∧ ∀ c ∈ digits, c.isDigit := by
  rw [isExtra.eq_def] at h
  split at h
  · rename_i cs
    rw [Bool.and_eq_true, decide_eq_true_eq, beq_iff_eq] at h
    obtain ⟨hlength, hlast⟩ := h
    exact .inl ⟨rfl, by rw [List.getLast?_cons, hlast]; rfl⟩
  · rename_i digits
    simp only [Bool.and_eq_true, Bool.not_eq_true', List.isEmpty_eq_false_iff, List.all_eq_true] at h
    exact .inr ⟨digits, .inr rfl, h⟩
  · simp only [Bool.and_eq_true, Bool.not_eq_true', List.isEmpty_eq_false_iff, List.all_eq_true] at h
    exact .inr ⟨cs, .inl rfl, h⟩

theorem toInt_ofInt_of_fits {n : Int} (h : fitsSigned 32 n = true) : (Int32.ofInt n).toInt = n := by
  simp only [fitsSigned, Bool.and_eq_true, decide_eq_true_eq] at h
  rw [Int32.toInt_ofInt]
  exact Int.bmod_eq_of_le (by simp at h ⊢; omega) (by simp at h ⊢; omega)

/-- A literal is the number of its digits. -/
theorem isLiteral_of_signed {digits : List Char} {n : Int} (hdigits : digits ≠ [] ∧ ∀ c ∈ digits, c.isDigit)
    (hfits : fitsSigned 32 n = true) :
    (signed? decimal? digits = some n → IsLiteral digits (Int32.ofInt n)) ∧
      (signed? decimal? ('-' :: digits) = some n → IsLiteral ('-' :: digits) (Int32.ofInt n)) := by
  have hvalue : decimal? digits = some (decimalValue digits) := by
    rw [decimal?, if_neg (by simpa using hdigits)]
  constructor
  · intro h
    have hunsigned : signed? decimal? digits = (decimal? digits).map Int.ofNat := by
      obtain ⟨c, rest, rfl⟩ := List.exists_cons_of_ne_nil hdigits.1
      have hc := hdigits.2 c (List.mem_cons_self ..)
      rw [signed?]
      · rintro rest ⟨⟩
        exact absurd hc (by decide)
      · rintro rest ⟨⟩
        exact absurd hc (by decide)
    rw [hunsigned, hvalue] at h
    cases h
    exact .digits hdigits (toInt_ofInt_of_fits hfits)
  · intro h
    rw [signed?, hvalue] at h
    cases h
    exact .negative hdigits (toInt_ofInt_of_fits hfits)

namespace Draft
variable {d : Draft} {t : Token} {kind : Kind} {type : TypeSpec} {size name : Option String}

/-- The size of a token is what its text says. -/
theorem arraySpec_says (hd : d.PathsBegin) (hsize : ∀ s ∈ size, Token.IsSize s) {d' : Draft} {spec : Option SizeSpec}
    (h : d.arraySpec t size = .ok (spec, d')) : Declared.HasCount size (countOf spec) (spec.toList.flatMap sourceOf) := by
  obtain ⟨-, ⟨rfl, rfl⟩ | ⟨text, x, rfl, rfl, hx⟩⟩ := arraySpec_cases h
  · exact .one
  have htrimmed : trimText text = text := by
    rw [trimText, (hsize text rfl).trimmed, String.ofList_toList]
  rw [SizeScope.arraySize, htrimmed] at hx
  by_cases hwhole : text = "_"
  · rw [if_pos hwhole] at hx
    cases hx
    subst hwhole
    exact .wholeStream
  · rw [if_neg hwhole] at hx
    have hsays := SizeScope.build_says (fun _ hdot => hd.resolve_dotted t.position t.render hdot) hx
    cases x with
    | fixed n => exact .fixed hwhole hsays
    | computed source => exact .computed hwhole hsays
    | wholeStream => exact absurd rfl (SizeScope.build_ne_wholeStream hx)

theorem default?_eq (kind : Kind) : kind.default? = if kind.hasExtra then some (defaultExtra kind) else none := by
  cases kind <;> rfl

/-- The extra of a field is what its text says. -/
theorem fieldExtra_says (hd : d.PathsBegin) (htype : type.Written) (hform : checkForm t kind type size name = .ok ())
    {extra : Option SizeSpec} (h : d.fieldExtra t kind type = .ok extra) :
    kind.HasExtra type.extra (extra.map packedOf) (extra.toList.flatMap sourceOf) := by
  have hdefault := default?_eq kind
  rw [fieldExtra] at h
  by_cases hx : kind.hasExtra
  · rw [if_pos hx] at h hdefault
    obtain ⟨spec, hspec, rfl⟩ := of_map_some_ok h
    have hkind : kind.default? ≠ none := by simp [hdefault]
    rcases extraSpec_cases hspec with ⟨hnone, rfl⟩ | ⟨text, htext, -, htold⟩
    · rw [hnone]
      exact .default hdefault
    rw [htext]
    obtain ⟨hextra, -⟩ := htype.extra text htext
    rcases TypeSpec.isExtra_cases hextra with ⟨hfirst, hlast⟩ | ⟨digits, hdigits, hall⟩
    · have hcomputed : type.isComputed = true := by simp [TypeSpec.isComputed, htext, hfirst]
      rw [if_pos hcomputed, SizeScope.extra, trimText_eq_self hfirst hlast rfl rfl] at htold
      have hsays := SizeScope.build_says (fun _ hdot => hd.resolve_dotted t.position t.render hdot) htold
      rw [Option.map_some, Option.toList_some, List.flatMap_singleton]
      exact .phrase hkind hfirst hsays
    · have hplain : ¬type.isComputed = true := by
        obtain ⟨hne, hchars⟩ := hall
        obtain ⟨c, rest, rfl⟩ := List.exists_cons_of_ne_nil hne
        have hc := hchars c (List.mem_cons_self ..)
        rcases hdigits with hdigits | hdigits <;> simp only [TypeSpec.isComputed, htext, hdigits, List.head?_cons]
        · intro hbracket
          rw [beq_iff_eq, Option.some.injEq] at hbracket
          exact absurd (hbracket ▸ hc) (by decide)
        · decide
      rw [if_neg hplain] at htold
      obtain ⟨n, hn, hfits, rfl⟩ := literalExtra_eq htold
      obtain ⟨hunsigned, hnegative⟩ := isLiteral_of_signed hall hfits
      refine .literal hkind ?_
      rcases hdigits with hdigits | hdigits <;> rw [hdigits] at hn ⊢
      · exact hunsigned hn
      · exact hnegative hn
  · rw [if_neg hx] at h hdefault
    cases h
    have hnone : type.extra = none := by
      rw [checkForm.eq_def] at hform
      cases he : type.extra with
      | none => rfl
      | some text =>
        simp only [he, hx] at hform
        split at hform
        · split at hform
          · cases hform
          · split at hform <;> cases hform
        · cases hform
    rw [hnone]
    exact .without hdefault

end Draft

end LayoutScript
