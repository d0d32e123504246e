import LayoutScript.Compile.Size
import LayoutScript.Proofs.LoweredText

/-! # Expressions in lower case

An expression in lower case is parsed step for step like the expression itself: to the same
operations or to the same fault. The text after a number or a dot is free to differ, because an
operator has to stand there and anything else is refused before it is looked at.
-/
namespace LayoutScript

/-! ## Faults -/

def ScriptCause.folded : ScriptCause → ScriptCause
  | .invalidExtra extra => .invalidExtra (foldCase extra)
  | .unknownSizeField name => .unknownSizeField (foldCase name)
  | cause => cause

def ExprCause.folded : ExprCause → ExprCause
  | .unmatchedBracket text pos => .unmatchedBracket (foldCase text) pos
  | .malformed text pos rule => .malformed (foldCase text) pos rule
  | .unknownIdentifier text name => .unknownIdentifier (foldCase text) (foldCase name)
  | .literalOutOfRange text literal => .literalOutOfRange (foldCase text) (foldCase literal)
  | cause => cause

/-- A fault with the texts that it quotes from a script in lower case. -/
def Fault.folded : Fault → Fault
  | .lexical offset text cause => .lexical offset (foldCase text) cause
  | .script offset token cause => .script offset (foldCase token) cause.folded
  | .expression cause => .expression cause.folded
  | fault => fault

/-- Two computations give results that belong together, or faults that differ in the case of
their texts alone. -/
inductive Tallies {α β : Type} (R : α → β → Prop) : Except Fault α → Except Fault β → Prop where
  | ok {a : α} {b : β} (h : R a b) : Tallies R (.ok a) (.ok b)
  | error {fault fault' : Fault} (h : fault'.folded = fault.folded) : Tallies R (.error fault) (.error fault')

namespace Tallies
variable {α β γ δ : Type} {R : α → β → Prop} {S : γ → δ → Prop} {x : Except Fault α} {y : Except Fault β}

theorem bind (h : Tallies R x y) {f : α → Except Fault γ} {g : β → Except Fault δ}
    (hfg : ∀ a b, R a b → Tallies S (f a) (g b)) : Tallies S (x >>= f) (y >>= g) := by
  cases h with
  | ok h => exact hfg _ _ h
  | error h => exact .error h

theorem ite {p q : Prop} [Decidable p] [Decidable q] (hpq : q ↔ p) {x' : Except Fault α} {y' : Except Fault β}
    (h : p → Tallies R x y) (h' : ¬p → Tallies R x' y') : Tallies R (if p then x else x') (if q then y else y') := by
  by_cases hp : p
  · rw [if_pos hp, if_pos (hpq.mpr hp)]
    exact h hp
  · rw [if_neg hp, if_neg (mt hpq.mp hp)]
    exact h' hp

/-- Computations that tally with a third one. -/
theorem meet {R' : γ → β → Prop} {S' : α → γ → Prop} {z : Except Fault γ} (h : Tallies R x y) (h' : Tallies R' z y)
    (hS : ∀ a b c, R a b → R' c b → S' a c) : Tallies S' x z := by
  cases h with
  | ok h =>
    cases h' with
    | ok h' => exact .ok (hS _ _ _ h h')
  | error h =>
    cases h' with
    | error h' => exact .error (h'.symm.trans h)

end Tallies

/-! ## Lexemes -/

namespace Lexeme

/-- Whether an operand may follow. -/
def leads : Lexeme → Bool
  | .sign c => c != '.'
  | .number _ | .name _ => false

/-- Lexemes that differ in case. Where an operand may stand, the name of an external value is the
same. -/
inductive Recased (operand : Bool) : Lexeme → Lexeme → Prop where
  | number {digits digits' : List Char} (h : digits'.map Char.toLower = digits.map Char.toLower) :
    Recased operand (.number digits) (.number digits')
  | name {name name' : List Char} (h : name'.map Char.toLower = name.map Char.toLower)
    (hkept : operand = true → name.head? = some '$' → name' = name) : Recased operand (.name name) (.name name')
  | sign (c : Char) : Recased operand (.sign c) (.sign c)

theorem Recased.eq_sign_iff {operand : Bool} {x x' : Lexeme} {c : Char} (h : Recased operand x x') :
    x' = .sign c ↔ x = .sign c := by
  cases h with
  | number | name => exact iff_of_false (fun h => (by cases h)) fun h => (by cases h)
  | sign => rfl

theorem Recased.operator?_eq {operand : Bool} {x x' : Lexeme} {pos : Nat} (h : Recased operand x x') :
    Expr.operator? ⟨pos, x'⟩ = Expr.operator? ⟨pos, x⟩ := by
  cases h <;> rfl

theorem leads_of_unary {c : Char} {op : UnaryOp} (h : UnaryOp.ofChar? c = some op) : (Lexeme.sign c).leads = true := by
  refine bne_iff_ne.mpr ?_
  rintro rfl
  cases h

theorem leads_of_operator {x : Lexeme} {pos : Nat} {op : BinaryOp} (h : Expr.operator? ⟨pos, x⟩ = some op) :
    x.leads = true := by
  cases x with
  | number | name => cases h
  | sign c => exact bne_iff_ne.mpr (PlacedLexeme.isSign_of_binary h).2

end Lexeme

namespace PlacedLexeme

/-- The lexemes of texts that differ in case, from a place on where an operand may stand or not. -/
inductive Recased : (operand : Bool) → List PlacedLexeme → List PlacedLexeme → Prop where
  | nil {operand : Bool} : Recased operand [] []
  | cons {operand : Bool} {pos : Nat} {x x' : Lexeme} {ts ts' : List PlacedLexeme} (hx : x.Recased operand x')
    (h : Recased x.leads ts ts') : Recased operand (⟨pos, x⟩ :: ts) (⟨pos, x'⟩ :: ts')

/-- Where no operand is expected, more may differ. -/
theorem Recased.anywhere {operand : Bool} {ts ts' : List PlacedLexeme} (h : Recased operand ts ts') : Recased false ts ts' := by
  cases h with
  | nil => exact .nil
  | cons hx h =>
    refine .cons ?_ h
    cases hx with
    | number hx => exact .number hx
    | name hx _ => exact .name hx fun hfalse => (by cases hfalse)
    | sign c => exact .sign c

/-- A text in lower case has the same lexemes up to case. Where an operand may stand it has to be
outside identifiers, since an external name is kept from its dollar sign on. -/
theorem scanFrom_lowerFrom {operand : Bool} {s : Spot} (hs : operand = true → s = .between) (pos : Nat) (cs : List Char) :
    Recased operand (scanFrom pos cs) (scanFrom pos (lowerFrom s cs)) := by
  suffices h : ∀ operand s, (operand = true → s = .between) →
      Recased operand (scanFrom pos cs) (scanFrom pos (lowerFrom s cs)) from h _ _ hs
  fun_induction scanFrom pos cs with
  | case1 pos =>
    intro operand s hs
    rw [lowerFrom, scanFrom]
    exact .nil
  | case2 pos c cs hblank ih =>
    intro operand s hs
    have hnext : s.next c = .between := Spot.next_between (apart_of_isBlank hblank cs c rfl)
    rw [lowerFrom, scanFrom, CaseBlind.isBlank.lowered, if_pos hblank, CaseBlind.utf8Size.lowered, hnext]
    exact ih _ _ fun _ => rfl
  | case3 pos c cs hblank hdigit word ih =>
    intro operand s hs
    rw [lowerFrom, scanFrom, CaseBlind.isBlank.lowered, if_neg hblank, CaseBlind.isDigit.lowered, if_pos hdigit,
      takeWhile_lowerFrom _ _ .isAlphanum, dropWhile_lowerFrom _ _ .isAlphanum, ← lowerFrom]
    dsimp only
    rw [byteLength_lowerFrom]
    exact .cons (.number (map_toLower_lowerFrom _ _)) (ih _ _ fun h => (by cases h))
  | case4 pos c cs hblank hdigit hname word ih =>
    intro operand s hs
    rw [lowerFrom, scanFrom, CaseBlind.isBlank.lowered, if_neg hblank, CaseBlind.isDigit.lowered, if_neg hdigit,
      CaseBlind.startsName.lowered, if_pos hname, takeWhile_lowerFrom _ _ .isExprNameChar,
      dropWhile_lowerFrom _ _ .isExprNameChar, ← lowerFrom]
    dsimp only
    rw [byteLength_lowerFrom]
    refine .cons (.name (map_toLower_lowerFrom _ _) ?_) (ih _ _ fun h => (by cases h))
    intro hoperand hdollar
    obtain rfl : c = '$' := Option.some.inj hdollar
    rw [hs hoperand, lowerFrom_dollar fun c hc => List.mem_takeWhile_imp hc]
  | case5 pos c cs hblank hdigit hname ih =>
    intro operand s hs
    have hletter : c.isAlpha = false := by
      by_contra halpha
      rw [Bool.not_eq_false] at halpha
      rw [startsName, halpha] at hname
      exact hname rfl
    have hsame : (if s.next c = .external then c else c.toLower) = c := by
      rw [eq_of_toLower_eq (toLower_toLower c) hletter, ite_self]
    rw [lowerFrom, hsame, scanFrom, if_neg hblank, if_neg hdigit, if_neg hname]
    -- Every sign but a dot ends an identifier.
    have hsign : IsSign c := ⟨hblank, hdigit, hname⟩
    exact .cons (.sign c) (ih _ _ fun hleads => Spot.next_between (hsign.apart (bne_iff_ne.mp hleads) cs c rfl))

end PlacedLexeme

/-! ## Parsing -/

/-- Names resolve alike in any case. -/
def Resolver.Recased (resolve resolve' : Resolver) : Prop :=
  ∀ {name name' : String}, foldCase name' = foldCase name → Tallies Eq (resolve name) (resolve' name')

theorem utf8ByteSize_eq_byteLength (text : String) : text.utf8ByteSize = byteLength text.toList := by
  obtain ⟨cs, rfl⟩ : ∃ cs, text = String.ofList cs := ⟨text.toList, String.ofList_toList.symm⟩
  rw [String.toList_ofList]
  induction cs with
  | nil => rfl
  | cons c cs ih => rw [String.ofList_cons, String.utf8ByteSize_append, String.utf8ByteSize_singleton, ih, byteLength_cons]

theorem utf8ByteSize_eq_of_foldCase_eq {text text' : String} (h : foldCase text' = foldCase text) :
    text'.utf8ByteSize = text.utf8ByteSize := by
  have hbytes (text : String) : text.utf8ByteSize = byteLength (foldCase text).toList := by
    rw [toList_foldCase, Caseless.byteLength, utf8ByteSize_eq_byteLength]
  rw [hbytes, h, ← hbytes]

namespace Expr
open PlacedLexeme (Recased)
variable {text text' : String} {resolve resolve' : Resolver}

section tallies
variable (htext : foldCase text' = foldCase text)
include htext

theorem malformed_folded (pos : Nat) (rule : ExprRule) : (malformed text' pos rule).folded = (malformed text pos rule).folded := by
  simp only [malformed, Fault.folded, ExprCause.folded, htext]

theorem ofNumber_tallies {digits digits' : List Char} (h : digits'.map Char.toLower = digits.map Char.toLower) (pos : Nat) :
    Tallies Eq (ofNumber text pos digits) (ofNumber text' pos digits') := by
  rw [ofNumber, ofNumber, Caseless.decimal?.eq h]
  cases decimal? digits with
  | none => exact .error (malformed_folded htext _ _)
  | some n =>
    refine .ite .rfl (fun _ => .ok rfl) fun _ => .error ?_
    simp only [Fault.folded, ExprCause.folded, htext, foldCase_ofList, h]

theorem ofName_tallies (hr : resolve.Recased resolve') {name name' : List Char}
    (h : name'.map Char.toLower = name.map Char.toLower) (hkept : name.head? = some '$' → name' = name) :
    Tallies Eq (ofName text resolve name) (ofName text' resolve' name') := by
  rw [ofName.eq_def, ofName.eq_def]
  split
  · obtain rfl := hkept rfl
    exact .ok rfl
  · rename_i hname
    split
    · obtain ⟨c, _, rfl, hc, -⟩ := List.map_eq_cons_iff.mp h.symm
      exact absurd (congrArg (· :: _) (eq_of_toLower_eq (c := '$') hc rfl)) (hname _)
    · have hfold : foldCase (String.ofList name') = foldCase (String.ofList name) := by rw [foldCase_ofList, foldCase_ofList, h]
      refine (hr hfold).bind ?_
      rintro index? _ rfl
      cases index? with
      | some index => exact .ok rfl
      | none =>
        refine .error ?_
        simp only [Fault.folded, ExprCause.folded, htext, hfold]

theorem operatorFault_folded {t t' : PlacedLexeme} {operand : Bool} (hpos : t'.pos = t.pos) (h : t.lexeme.Recased operand t'.lexeme) :
    (operatorFault text' t').folded = (operatorFault text t).folded := by
  obtain ⟨pos, x⟩ := t
  obtain ⟨pos', x'⟩ := t'
  cases hpos
  cases h with
  | number | name => exact malformed_folded htext _ _
  | sign c =>
    simp only [operatorFault]
    split
    · simp only [Fault.folded, ExprCause.folded, htext]
    split
    · exact malformed_folded htext _ _
    split <;> exact malformed_folded htext _ _

end tallies

/-- The same expression with the rest of texts that differ in case. -/
def Parsed {P Q : List PlacedLexeme → Prop} (a : Expr × { rest : List PlacedLexeme // P rest })
    (b : Expr × { rest : List PlacedLexeme // Q rest }) : Prop := b.1 = a.1 ∧ Recased false a.2.1 b.2.1

mutual

theorem parseOperand_tallies (htext : foldCase text' = foldCase text) (hr : resolve.Recased resolve')
    {ts ts' : List PlacedLexeme} (h : Recased true ts ts') :
    Tallies Parsed (parseOperand text resolve ts) (parseOperand text' resolve' ts') := by
  match ts with
  | [] =>
    cases h
    rw [parseOperand, parseOperand, utf8ByteSize_eq_of_foldCase_eq htext]
    exact .error (malformed_folded htext _ _)
  | ⟨pos, .number digits⟩ :: ts =>
    obtain _ | ⟨hx, h⟩ := h
    obtain hx | _ | _ := hx
    rw [parseOperand, parseOperand]
    refine (ofNumber_tallies htext hx pos).bind ?_
    rintro e _ rfl
    exact .ok ⟨rfl, h⟩
  | ⟨pos, .name name⟩ :: ts =>
    obtain _ | ⟨hx, h⟩ := h
    obtain _ | ⟨hx, hkept⟩ | _ := hx
    rw [parseOperand, parseOperand]
    refine (ofName_tallies htext hr hx (hkept rfl)).bind ?_
    rintro e _ rfl
    exact .ok ⟨rfl, h⟩
  | ⟨pos, .sign c⟩ :: ts =>
    obtain _ | ⟨hx, h⟩ := h
    obtain _ | _ | _ := hx
    rw [parseOperand, parseOperand]
    cases hop : UnaryOp.ofChar? c with
    | some op =>
      simp only
      rw [Lexeme.leads_of_unary hop] at h
      refine (parseOperand_tallies htext hr h).bind ?_
      rintro ⟨e, rest, hrest⟩ ⟨e', rest', hrest'⟩ ⟨he, hparsed⟩
      exact .ok ⟨congrArg (Expr.unary op) he, hparsed⟩
    | none =>
      simp only
      by_cases hc : c = '('
      · rw [if_pos hc, if_pos hc]
        subst hc
        refine (parseRank_tallies htext hr h).bind ?_
        rintro ⟨e, rest, hrest⟩ ⟨e', rest', hrest'⟩ ⟨rfl, hparsed⟩
        cases hparsed with
        | nil =>
          refine .error ?_
          simp only [Fault.folded, ExprCause.folded, htext]
        | @cons _ pos x x' _ _ hx hparsed =>
          exact .ite hx.eq_sign_iff (fun _ => .ok ⟨rfl, hparsed.anywhere⟩) fun _ => .error (operatorFault_folded htext rfl hx)
      · rw [if_neg hc, if_neg hc]
        exact .error (malformed_folded htext _ _)
termination_by (ts.length, 0)

theorem parseRank_tallies (htext : foldCase text' = foldCase text) (hr : resolve.Recased resolve') {rank : Nat}
    {ts ts' : List PlacedLexeme} (h : Recased true ts ts') :
    Tallies Parsed (parseRank text resolve rank ts) (parseRank text' resolve' rank ts') := by
  match rank with
  | 0 =>
    rw [parseRank, parseRank]
    exact parseOperand_tallies htext hr h
  | rank + 1 =>
    rw [parseRank, parseRank]
    refine (parseRank_tallies htext hr h).bind ?_
    rintro ⟨e, rest, hrest⟩ ⟨e', rest', hrest'⟩ ⟨rfl, hparsed⟩
    refine (parseChain_tallies htext hr e' hparsed).bind ?_
    rintro ⟨e, rest, hrest⟩ ⟨e', rest', hrest'⟩ ⟨rfl, hparsed⟩
    exact .ok ⟨rfl, hparsed⟩
termination_by (ts.length, 2 * rank + 1)

theorem parseChain_tallies (htext : foldCase text' = foldCase text) (hr : resolve.Recased resolve') {rank : Nat}
    (e : Expr) {ts ts' : List PlacedLexeme} (h : Recased false ts ts') :
    Tallies Parsed (parseChain text resolve rank e ts) (parseChain text' resolve' rank e ts') := by
  match ts with
  | [] =>
    cases h
    rw [parseChain, parseChain]
    exact .ok ⟨rfl, .nil⟩
  | ⟨pos, x⟩ :: ts =>
    obtain _ | ⟨hx, h⟩ := h
    rw [parseChain, parseChain, hx.operator?_eq]
    cases hop : operator? ⟨pos, x⟩ with
    | none => exact .ok ⟨rfl, .cons hx h⟩
    | some op =>
      dsimp only
      refine .ite .rfl (fun _ => ?_) fun _ => .ok ⟨rfl, .cons hx h⟩
      rw [Lexeme.leads_of_operator hop] at h
      refine (parseRank_tallies htext hr h).bind ?_
      rintro ⟨right, rest, hrest⟩ ⟨right', rest', hrest'⟩ ⟨rfl, hparsed⟩
      refine (parseChain_tallies htext hr _ hparsed).bind ?_
      rintro ⟨e', rest, hrest⟩ ⟨e'', rest', hrest'⟩ ⟨rfl, hparsed⟩
      exact .ok ⟨rfl, hparsed⟩
termination_by (ts.length, 2 * rank + 2)

end

/-- An expression and its text in lower case have one parse, or one fault. -/
theorem parse_lowerText (hr : resolve.Recased resolve') (text : String) :
    Tallies Eq (parse text resolve) (parse (lowerText text) resolve') := by
  have hscan : Recased true (PlacedLexeme.scan text) (PlacedLexeme.scan (lowerText text)) := by
    rw [PlacedLexeme.scan, PlacedLexeme.scan, lowerText, String.toList_ofList]
    exact PlacedLexeme.scanFrom_lowerFrom (fun _ => rfl) 0 text.toList
  rw [parse.eq_def, parse.eq_def]
  generalize PlacedLexeme.scan text = ts, PlacedLexeme.scan (lowerText text) = ts' at hscan
  have hparse : Tallies Parsed (parseRank text resolve 3 ts) (parseRank (lowerText text) resolve' 3 ts') :=
    parseRank_tallies (foldCase_lowerText text) hr hscan
  cases hscan with
  | nil => exact .error rfl
  | cons hx h =>
    refine hparse.bind ?_
    rintro ⟨e, rest, hrest⟩ ⟨e', rest', hrest'⟩ ⟨rfl, hparsed⟩
    cases hparsed with
    | nil => exact .ok rfl
    | cons hx h => exact .error (operatorFault_folded (foldCase_lowerText text) rfl hx)

end Expr
/-! ## Sizes -/

def ExprProgram.folded (p : ExprProgram) : ExprProgram := { p with source := foldCase p.source }

/-- A source with the text of its expression in lower case. -/
def SizeSource.folded : SizeSource → SizeSource
  | .expression program => .expression program.folded
  | source => source

def SizeSpec.folded : SizeSpec → SizeSpec
  | .computed source => .computed source.folded
  | spec => spec

/-- Sizes that differ in the case of the text of an expression. -/
def SizeSpec.Recased (spec spec' : SizeSpec) : Prop := spec'.folded = spec.folded

theorem ExprProgram.compile_lowerText {resolve resolve' : Resolver} (hr : resolve.Recased resolve') (text : String) :
    Tallies (fun p p' => p'.folded = p.folded) (compile text resolve) (compile (lowerText text) resolve') := by
  rw [ExprProgram.compile_eq, ExprProgram.compile_eq]
  refine (Expr.parse_lowerText hr text).bind ?_
  rintro e _ rfl
  refine .ok ?_
  rw [folded, folded, foldCase_lowerText]

/-- The value of a program is told by its operations. -/
theorem ExprProgram.constant?_folded (p : ExprProgram) : p.folded.constant? = p.constant? := rfl

theorem trimText_lowerText (s : String) : trimText (lowerText s) = lowerText (trimText s) := by
  rw [trimText, lowerText, String.toList_ofList, trimmed_lowerFrom, trimText, lowerText, String.toList_ofList]

theorem Caseless.isSingleReference : Caseless isSingleReference := by
  intro cs
  rw [LayoutScript.isSingleReference, LayoutScript.isSingleReference, CaseBlind.isExprNameChar.all_map,
    CaseBlind.isDigit.all_map, CaseBlind.isDigit.head?_any_map, Caseless.isEmpty]

namespace SizeScope

/-- Scopes that classify texts alike in any case. -/
structure Recased (scope scope' : SizeScope) : Prop where
  position : scope'.position = scope.position
  token : foldCase scope'.token = foldCase scope.token
  resolve : scope.resolve.Recased scope'.resolve

namespace Recased
variable {scope scope' : SizeScope} (h : scope.Recased scope')
include h

theorem reference {text : String} (hsingle : isSingleReference text.toList = true) :
    Tallies SizeSpec.Recased (scope.reference text) (scope'.reference (lowerText text)) := by
  have hfold := toList_lowerText_map text
  rw [SizeScope.reference, SizeScope.reference]
  by_cases hdigits : text.toList.all Char.isDigit = true
  · have hsame : lowerText text = text :=
      String.toList_inj.mp (eq_of_map_toLower_eq hfold fun c hc => isAlpha_of_isDigit (List.all_eq_true.mp hdigits c hc))
    rw [hsame, if_pos hdigits, if_pos hdigits]
    exact .ite .rfl (fun _ => .ok rfl) fun _ => .error rfl
  rw [if_neg hdigits, if_neg (CaseBlind.isDigit.all.eq hfold ▸ hdigits)]
  split
  · rename_i name hname
    have hsame : (lowerText text).toList = '$' :: name := by
      rw [isSingleReference, hname, Bool.and_eq_true, Bool.and_eq_true, List.all_cons, Bool.and_eq_true, List.all_eq_true] at hsingle
      rw [lowerText, String.toList_ofList, hname, lowerFrom_dollar hsingle.1.2.2]
    rw [hsame]
    exact .ok rfl
  · rename_i hname
    split
    · rename_i name hname'
      rw [hname'] at hfold
      obtain ⟨c, rest, htext, hc, -⟩ := List.map_eq_cons_iff.mp hfold.symm
      rw [eq_of_toLower_eq (c := '$') hc rfl] at htext
      exact absurd htext (hname rest)
    · refine (h.resolve (foldCase_lowerText text)).bind ?_
      rintro index? _ rfl
      cases index? with
      | some index => exact .ok (by rw [foldCase_lowerText]; rfl)
      | none =>
        refine .error ?_
        simp only [Fault.folded, ScriptCause.folded, h.position, h.token, foldCase_lowerText]

theorem build (text : String) : Tallies SizeSpec.Recased (scope.build text) (scope'.build (lowerText text)) := by
  rw [SizeScope.build, SizeScope.build, Caseless.isSingleReference.eq (toList_lowerText_map text)]
  refine .ite .rfl (fun hsingle => h.reference hsingle) fun _ => ?_
  refine (ExprProgram.compile_lowerText h.resolve text).bind fun p p' hp => ?_
  have hcomputed : SizeSpec.Recased (.computed (.expression p)) (.computed (.expression p')) :=
    congrArg (fun p => SizeSpec.computed (.expression p)) hp
  rw [← p'.constant?_folded, hp, p.constant?_folded]
  cases p.constant? with
  | none => exact .ok hcomputed
  | some value =>
    refine .ok ?_
    split
    · exact rfl
    · exact hcomputed

theorem arraySize (text : String) : Tallies SizeSpec.Recased (scope.arraySize text) (scope'.arraySize (lowerText text)) := by
  rw [SizeScope.arraySize, SizeScope.arraySize, trimText_lowerText]
  refine .ite ?_ (fun _ => .ok rfl) fun _ => h.build _
  constructor
  · intro hwhole
    have hfold := (toList_lowerText_map (trimText text)).symm
    rw [hwhole] at hfold
    have hmark : ∀ c ∈ "_".toList, c.isAlpha = false := List.forall_mem_singleton.mpr rfl
    exact String.toList_inj.mp (eq_of_map_toLower_eq hfold hmark)
  · intro hwhole
    rw [hwhole]
    rfl

theorem extra (text : String) : Tallies SizeSpec.Recased (scope.extra text) (scope'.extra (lowerText text)) := by
  rw [SizeScope.extra, SizeScope.extra, trimText_lowerText]
  exact h.build _

end Recased
end SizeScope
end LayoutScript
