import LayoutScript.Proofs.ExprValue
import LayoutScript.Proofs.NamedPaths

/-! # What a classified size stands for

A size that is one number or one name is taken as it is, and one without fields, external values and
the position is computed at once. Neither makes a difference: a text is classified if it compiles as
an expression, and it stands for what its program gives, wherever it is evaluated.
-/
namespace LayoutScript

/-- What a size is classified as gives what the program gives, wherever both are evaluated. -/
def SizeSpec.StandsFor (program : ExprProgram) : SizeSpec → Prop
  | .fixed n => 0 ≤ n ∧ ∀ cx, program.evaluate cx = .ok n
  | .computed source => ∀ cx, source.evaluate cx = program.evaluate cx
  | .wholeStream => False

/-! ## Programs that are computed at once -/

namespace ExprProgram
variable {cx cx' : SizeContext}

theorem run_agree {ops : List ExprOp} (h : ∀ op ∈ ops, ∀ stack, operate cx op stack = operate cx' op stack)
    (stack : List Int32) : run cx ops stack = run cx' ops stack := by
  induction ops generalizing stack with
  | nil => rfl
  | cons op ops ih =>
    obtain ⟨hop, hops⟩ := List.forall_mem_cons.mp h
    simp only [run, hop, ih hops]

/-- A program of literals alone gives the same everywhere. -/
theorem evaluate_of_isConstant {p : ExprProgram} (h : p.isConstant = true) (cx cx' : SizeContext) :
    p.evaluate cx = p.evaluate cx' := by
  unfold isConstant at h
  have hoperate : ∀ op ∈ p.ops, ∀ stack, operate cx op stack = operate cx' op stack := by
    intro op hop stack
    have hconstant := List.all_eq_true.mp h op hop
    cases op with
    | field | external | position => cases hconstant
    | literal => rfl
    | unary => cases stack <;> rfl
    | binary => rcases stack with _ | ⟨_, _ | _⟩ <;> rfl
  simp only [evaluate, run_agree hoperate]

theorem evaluate_of_constant? {p : ExprProgram} {n : Int32} (h : p.constant? = some n) : p.evaluate cx = .ok n := by
  unfold constant? at h
  split at h
  · rename_i hconstant
    rw [evaluate_of_isConstant hconstant cx { layout := {} }]
    cases hvalue : p.evaluate { layout := {} } with
    | error fault => simp [hvalue, Except.toOption] at h
    | ok m => simpa [hvalue, Except.toOption] using h
  · cases h

/-- The programs of a text are those of the phrase that it is. -/
theorem compile_of_written {text : String} {resolve : Resolver} {p : Phrase} (hp : Phrase.Written 3 text.toList p)
    {program : ExprProgram} :
    compile text resolve = .ok program ↔ ∃ e, p.expr? resolve = some e ∧ program = ⟨text, e.postfixOps⟩ := by
  rw [compile_eq_ok_iff]
  constructor
  · rintro ⟨e, he, rfl⟩
    exact ⟨e, Phrase.Written.expr?_eq he hp, rfl⟩
  · rintro ⟨e, he, rfl⟩
    exact ⟨e, Expr.parse_eq_ok_iff.mpr ⟨p, hp, he⟩, rfl⟩

end ExprProgram

/-! ## One number or one name -/

/-- A single reference is a number, a name, or begins with a dot. -/
theorem isSingleReference_cases {cs : List Char} (h : isSingleReference cs = true) :
    (cs ≠ [] ∧ ∀ c ∈ cs, c.isDigit) ∨
      ∃ c rest, cs = c :: rest ∧ c.isDigit = false ∧ (PlacedLexeme.startsName c ∨ c = '.') ∧
        ∀ d ∈ rest, PlacedLexeme.isExprNameChar d := by
  simp only [isSingleReference, Bool.and_eq_true, Bool.or_eq_true, Bool.not_eq_true', List.all_eq_true,
    List.isEmpty_eq_false_iff] at h
  obtain ⟨⟨hne, hchars⟩, hdigits | hhead⟩ := h
  · exact .inl ⟨hne, hdigits⟩
  obtain ⟨c, rest, rfl⟩ := List.exists_cons_of_ne_nil hne
  rw [List.head?_cons, Option.any_some] at hhead
  obtain ⟨hc, hrest⟩ := List.forall_mem_cons.mp hchars
  refine .inr ⟨c, rest, rfl, hhead, ?_, hrest⟩
  simp only [PlacedLexeme.isExprNameChar, Char.isAlphanum, hhead, Bool.or_false, Bool.or_eq_true, beq_iff_eq] at hc
  simp only [PlacedLexeme.startsName, Bool.or_eq_true, beq_iff_eq]
  tauto

/-- No expression begins with a dot. -/
theorem Phrase.Spelled.head_ne_dot {rank : Nat} {ts : List Lexeme} {p : Phrase} (h : Spelled rank ts p) :
    ts.head? ≠ some (.sign '.') := by
  induction h with
  | number | name => simp
  | brackets => simp
  | unary hop =>
    rintro ⟨⟩
    cases hop
  | tighter _ ih => exact ih
  | binary _ _ hl _ ih _ =>
    rwa [List.head?_append_of_ne_nil _ (Expr.ne_nil_of_spelled hl)]

namespace SizeScope
variable {scope : SizeScope} {text : String}

/-- A text is classified where it compiles, and then stands for what its program gives. -/
def Keeps (scope : SizeScope) (text : String) : Prop :=
  ((∃ spec, scope.build text = .ok spec) ↔ ∃ program, ExprProgram.compile text scope.resolve = .ok program) ∧
    ∀ spec program, scope.build text = .ok spec → ExprProgram.compile text scope.resolve = .ok program →
      spec.StandsFor program

theorem ofNat_nonneg {n : Nat} (h : n < 2 ^ 31) : (0 : Int32) ≤ Int32.ofNat n := by
  rw [Int32.le_iff_toInt_le, Int32.toInt_ofNat_of_lt h]
  exact Int.natCast_nonneg n

/-- A text that is refused both as a size and as an expression. -/
theorem keeps_of_refused (hbuild : ∀ spec, scope.build text ≠ .ok spec)
    (hcompile : ∀ program, ExprProgram.compile text scope.resolve ≠ .ok program) : scope.Keeps text :=
  ⟨⟨fun ⟨spec, h⟩ => absurd h (hbuild spec), fun ⟨program, h⟩ => absurd h (hcompile program)⟩,
    fun spec _ h => absurd h (hbuild spec)⟩

/-- A text that is classified, and whose phrase has an expression. -/
theorem keeps_of_phrase {spec : SizeSpec} {p : Phrase} {e : Expr} (hbuild : scope.build text = .ok spec)
    (hp : Phrase.Written 3 text.toList p) (he : p.expr? scope.resolve = some e)
    (hspec : ∀ program : ExprProgram, (∀ cx, program.evaluate cx = e.value cx 0) → spec.StandsFor program) :
    scope.Keeps text := by
  refine ⟨⟨fun _ => ⟨_, (ExprProgram.compile_of_written hp).mpr ⟨e, he, rfl⟩⟩, fun _ => ⟨spec, hbuild⟩⟩, ?_⟩
  intro spec' program hspec' hprogram
  cases hbuild.symm.trans hspec'
  obtain ⟨e', he', rfl⟩ := (ExprProgram.compile_of_written hp).mp hprogram
  cases he.symm.trans he'
  exact hspec _ fun cx => ExprProgram.evaluate_eq_value rfl

/-- A number is what it says, if it fits 32 bits. -/
theorem keeps_number (hsingle : isSingleReference text.toList = true) (hne : text.toList ≠ [])
    (hdigits : ∀ c ∈ text.toList, c.isDigit) : scope.Keeps text := by
  have hp : Phrase.Written 3 text.toList (.number text.toList) := .tighter (.tighter (.tighter (.number hne hdigits)))
  have hbuild : scope.build text =
      if decimalValue text.toList < 2 ^ 31 then .ok (.fixed (Int32.ofNat (decimalValue text.toList)))
      else .error (.expression (.literalOutOfRange text text)) := by
    rw [build, if_pos hsingle, reference, if_pos (List.all_eq_true.mpr hdigits)]
    rfl
  have hexpr : Phrase.expr? scope.resolve (.number text.toList) =
      if decimalValue text.toList < 2 ^ 31 then some (.literal (Int32.ofNat (decimalValue text.toList))) else none := rfl
  by_cases hfits : decimalValue text.toList < 2 ^ 31
  · rw [if_pos hfits] at hbuild hexpr
    exact keeps_of_phrase hbuild hp hexpr fun program hvalue => ⟨ofNat_nonneg hfits, hvalue⟩
  · rw [if_neg hfits] at hbuild hexpr
    refine keeps_of_refused (fun spec h => ?_) (fun program h => ?_)
    · cases hbuild.symm.trans h
    · obtain ⟨e, he, -⟩ := (ExprProgram.compile_of_written hp).mp h
      cases hexpr.symm.trans he

theorem build_reference (scope : SizeScope) {text : String} (hsingle : isSingleReference text.toList = true) {c : Char} {rest : List Char}
    (htext : text.toList = c :: rest) (hdigit : c.isDigit = false) :
    scope.build text =
      if c = '$' then
        .ok (.computed (if rest = [] ∨ rest = ['$'] then .position else .external (String.ofList rest)))
      else
        match scope.resolve text with
        | .ok (some index) => .ok (.computed (.field index (foldCase text)))
        | .ok none => .error (.script scope.position scope.token (.unknownSizeField text))
        | .error fault => .error fault := by
  have hnumber : text.toList.all Char.isDigit = false := by rw [htext, List.all_cons, hdigit, Bool.false_and]
  rw [build, if_pos hsingle, reference.eq_def, if_neg (by simp [hnumber]), htext]
  by_cases hdollar : c = '$'
  · rw [if_pos hdollar, hdollar]
    rfl
  · rw [if_neg hdollar]
    split
    · rename_i heq
      cases heq
      exact absurd rfl hdollar
    · rcases scope.resolve text with fault | _ | index <;> rfl

/-- A name behind a dollar sign is an external value or the position. -/
theorem keeps_external (hsingle : isSingleReference text.toList = true) {rest : List Char}
    (htext : text.toList = '$' :: rest) (hrest : ∀ d ∈ rest, PlacedLexeme.isExprNameChar d) : scope.Keeps text := by
  have hp : Phrase.Written 3 text.toList (.name ('$' :: rest)) := by
    rw [htext]
    exact .tighter (.tighter (.tighter (.name rfl hrest)))
  have hbuild := build_reference scope hsingle htext rfl
  rw [if_pos rfl] at hbuild
  by_cases hposition : rest = [] ∨ rest = ['$']
  · rw [if_pos hposition] at hbuild
    refine keeps_of_phrase hbuild hp (congrArg some (if_pos hposition)) fun program hvalue cx => ?_
    rw [hvalue]
    rfl
  · rw [if_neg hposition] at hbuild
    refine keeps_of_phrase hbuild hp (congrArg some (if_neg hposition)) fun program hvalue cx => ?_
    rw [hvalue]
    simp only [SizeSource.evaluate, Expr.value]
    cases cx.external (String.ofList rest) <;> rfl

/-- Every other name is looked up, in the same way as in an expression. -/
theorem keeps_name (hsingle : isSingleReference text.toList = true) {c : Char} {rest : List Char}
    (htext : text.toList = c :: rest) (hname : PlacedLexeme.startsName c) (hdollar : c ≠ '$')
    (hrest : ∀ d ∈ rest, PlacedLexeme.isExprNameChar d) : scope.Keeps text := by
  have hp : Phrase.Written 3 text.toList (.name (c :: rest)) := by
    rw [htext]
    exact .tighter (.tighter (.tighter (.name hname hrest)))
  have hbuild := build_reference scope hsingle htext (PlacedLexeme.not_isDigit_of_startsName hname)
  rw [if_neg hdollar] at hbuild
  have hexpr := Phrase.expr?.eq_3 scope.resolve (c :: rest) (by rintro letters ⟨⟩; exact hdollar rfl)
  rw [← htext, String.ofList_toList] at hexpr
  have hrefused (hnone : Phrase.expr? scope.resolve (.name text.toList) = none) (program : ExprProgram) :
      ExprProgram.compile text scope.resolve ≠ .ok program := by
    intro h
    obtain ⟨e, he, -⟩ := (ExprProgram.compile_of_written hp).mp h
    rw [htext] at hnone
    cases hnone.symm.trans he
  rcases hresolve : scope.resolve text with fault | _ | index <;> rw [hresolve] at hbuild hexpr
  · refine keeps_of_refused (fun spec h => ?_) (hrefused hexpr)
    cases hbuild.symm.trans h
  · refine keeps_of_refused (fun spec h => ?_) (hrefused hexpr)
    cases hbuild.symm.trans h
  · rw [htext] at hexpr
    refine keeps_of_phrase hbuild hp hexpr fun program hvalue cx => ?_
    rw [hvalue]
    simp only [SizeSource.evaluate, Expr.value]
    cases cx.valueAt index <;> rfl

theorem not_compile_dotted {rest : List Char} (htext : text.toList = '.' :: rest) {resolve : Resolver}
    (program : ExprProgram) : ExprProgram.compile text resolve ≠ .ok program := by
  intro h
  obtain ⟨e, he, -⟩ := ExprProgram.compile_eq_ok_iff.mp h
  obtain ⟨p, hp, -⟩ := Expr.parse_eq_ok_iff.mp he
  have hsign : PlacedLexeme.IsSign '.' := ⟨by decide, by decide, by decide⟩
  have hspelled := hp.spelled
  rw [htext, PlacedLexeme.lexemes_sign hsign] at hspelled
  exact hspelled.head_ne_dot rfl

/-- A text with a dot in front is no expression, and no size if nothing has such a name. -/
theorem keeps_dotted (hsingle : isSingleReference text.toList = true) {rest : List Char} (htext : text.toList = '.' :: rest)
    (hunknown : ∀ index, scope.resolve text ≠ .ok (some index)) : scope.Keeps text := by
  refine keeps_of_refused (fun spec h => ?_) (not_compile_dotted htext)
  have hbuild := build_reference scope hsingle htext rfl
  rw [if_neg (by decide)] at hbuild
  rw [hbuild] at h
  split at h
  · rename_i index hindex
    exact hunknown index hindex
  · cases h
  · cases h

/-- A text that is no single reference is compiled, and its number computed at once if it has one. -/
theorem keeps_expression (hsingle : ¬ isSingleReference text.toList = true) : scope.Keeps text := by
  cases hprogram : ExprProgram.compile text scope.resolve with
  | error fault =>
    refine keeps_of_refused (fun spec h => ?_) (fun program h => by cases hprogram.symm.trans h)
    rw [build, if_neg hsingle, hprogram] at h
    cases h
  | ok program =>
    have hbuild : ∃ spec, scope.build text = .ok spec ∧ spec.StandsFor program := by
      rw [build, if_neg hsingle, hprogram]
      cases hconstant : program.constant? with
      | none => exact ⟨.computed (.expression program), by simp only [bind, Except.bind, hconstant]; rfl, fun _ => rfl⟩
      | some n =>
        by_cases hn : 0 ≤ n
        · exact ⟨.fixed n, by simp only [bind, Except.bind, hconstant, if_pos hn]; rfl, hn,
            fun _ => ExprProgram.evaluate_of_constant? hconstant⟩
        · exact ⟨.computed (.expression program), by simp only [bind, Except.bind, hconstant, if_neg hn]; rfl,
            fun _ => rfl⟩
    obtain ⟨spec, hspec, hstands⟩ := hbuild
    refine ⟨⟨fun _ => ⟨program, hprogram⟩, fun _ => ⟨spec, hspec⟩⟩, fun spec' program' hspec' hprogram' => ?_⟩
    cases hspec.symm.trans hspec'
    cases hprogram.symm.trans hprogram'
    exact hstands

theorem keeps (hdotted : ∀ name : String, name.toList.head? = some '.' → ∀ index, scope.resolve name ≠ .ok (some index))
    (text : String) : scope.Keeps text := by
  by_cases hsingle : isSingleReference text.toList = true
  · rcases isSingleReference_cases hsingle with ⟨hne, hdigits⟩ | ⟨c, rest, htext, -, hname | rfl, hrest⟩
    · exact keeps_number hsingle hne hdigits
    · by_cases hdollar : c = '$'
      · subst hdollar
        exact keeps_external hsingle htext hrest
      · exact keeps_name hsingle htext hname hdollar hrest
    · exact keeps_dotted hsingle htext (hdotted text (by rw [htext]; rfl))
  · exact keeps_expression hsingle

end SizeScope

/-! ## Names in a script -/

/-- A text that begins as a name does. -/
def BeginsName (s : String) : Prop := ∃ c cs, s.toList = c :: cs ∧ isNameChar c = true

theorem beginsName_foldCase {customTypes : List String} {name : String}
    (h : brokenNameRule customTypes name.toList = none) : BeginsName (foldCase name) := by
  have hne := (Token.isIdentifier_spec (Token.isIdentifier_of_brokenNameRule h)).1
  obtain ⟨c, cs, hcs⟩ := List.exists_cons_of_ne_nil hne
  have hchars := isNameChar_foldCase h
  rw [toList_foldCase, hcs, List.map_cons] at hchars
  exact ⟨c.toLower, cs.map Char.toLower, by rw [toList_foldCase, hcs, List.map_cons],
    hchars _ (List.mem_cons_self ..)⟩

/-- The paths of a draft, and those that they become part of, begin with names. -/
structure Draft.PathsBegin (d : Draft) : Prop where
  entries : ∀ e ∈ d.entries, BeginsName e.field.path
  opened : ∀ o ∈ d.opened, ∀ n ∈ o.name, BeginsName n

namespace Draft.PathsBegin
variable {d : Draft} {head : Head} {owners : List String} {name : Option String}

theorem declare (h : d.PathsBegin) (hinfo : head.info = name.map (.inside owners · head.offset))
    (hname : ∀ n ∈ name, BeginsName (foldCase n)) : (d.declare head).PathsBegin := by
  refine ⟨List.forall_mem_append.mpr ⟨h.entries, ?_⟩, h.opened⟩
  rw [hinfo]
  cases name with
  | none => exact List.forall_mem_nil _
  | some n => exact List.forall_mem_singleton.mpr (hname n rfl)

theorem enter (h : d.PathsBegin) (t : Token) (hinfo : head.info = name.map (.inside owners · head.offset))
    (hname : ∀ n ∈ name, BeginsName (foldCase n)) : (d.enter t head).PathsBegin := by
  refine ⟨(h.declare hinfo hname).entries, List.forall_mem_cons.mpr ⟨?_, h.opened⟩⟩
  rw [hinfo]
  cases name with
  | none => exact fun _ hn => by cases hn
  | some n =>
    rintro _ ⟨⟩
    exact hname n rfl

theorem leave (h : d.PathsBegin) {inner : OpenStructure} {rest : List OpenStructure} (ho : d.opened = inner :: rest) :
    (d.leave inner rest).PathsBegin := by
  obtain ⟨hinner, hrest⟩ := List.forall_mem_cons.mp (ho ▸ h.opened)
  refine ⟨List.forall_mem_append.mpr ⟨fun e he => h.entries e (List.mem_of_mem_take he), ?_⟩, hrest⟩
  rintro _ hmem
  obtain ⟨e, he, rfl⟩ := List.mem_map.mp hmem
  have hpath := h.entries e (List.mem_of_mem_drop he)
  rw [OpenStructure.owning_field]
  cases hname : inner.name with
  | none => simpa using hpath
  | some n =>
    obtain ⟨c, cs, hn, hc⟩ := hinner n hname
    exact ⟨c, cs ++ '.' :: e.field.path.toList, by simp [hn], hc⟩

/-- A text with a dot in front stands for nothing. -/
theorem resolve_dotted (h : d.PathsBegin) (position : Nat) (token : String) {text : String}
    (hdot : text.toList.head? = some '.') (index : Nat) : d.resolve position token text ≠ .ok (some index) := by
  have hnone : d.entries.reverse.findIdx? (·.field.path == foldCase text) = none := by
    refine List.findIdx?_eq_none_iff.mpr fun e he => ?_
    obtain ⟨c, cs, hpath, hc⟩ := h.entries e (List.mem_reverse.mp he)
    rw [beq_eq_false_iff_ne]
    intro heq
    obtain ⟨rest, htext⟩ := List.head?_eq_some_iff.mp hdot
    rw [heq, toList_foldCase, htext, List.map_cons] at hpath
    obtain ⟨rfl, -⟩ := List.cons.inj hpath
    exact absurd hc (by decide)
  simp [resolve, hnone]

end Draft.PathsBegin

theorem Traced.pathsBegin {custom : Option CustomTypes} {ts : List Token} {d : Draft} {o : Outline}
    {customTypes : List String} (h : Traced custom ts d o) (hwritten : ∀ t ∈ ts, t.declared.Written customTypes) :
    d.PathsBegin := by
  induction h with
  | start => exact ⟨List.forall_mem_nil _, List.forall_mem_nil _⟩
  | comment _ _ ih => exact ih (List.forall_mem_append.mp hwritten).1
  | field _ ht hh ih =>
    obtain ⟨hbefore, hlast⟩ := List.forall_mem_append.mp hwritten
    have hparts := List.forall_mem_singleton.mp hlast
    rw [ht] at hparts
    exact (ih hbefore).declare (Draft.fieldHead_info hh) fun n hn => beginsName_foldCase (hparts.2.2 n hn)
  | opening _ ht hh ih =>
    obtain ⟨hbefore, hlast⟩ := List.forall_mem_append.mp hwritten
    have hparts := List.forall_mem_singleton.mp hlast
    rw [ht] at hparts
    exact (ih hbefore).enter _ (Draft.structureHead_info hh) fun n hn => beginsName_foldCase (hparts.2 n hn)
  | closing _ _ ho ih => exact (ih (List.forall_mem_append.mp hwritten).1).leave ho

/-- At every token of a script, a text is a size if it is an expression. A number that it is classified as is
not negative and is what the expression gives everywhere, and a source that it is classified as gives what the
expression gives, be it a number or a fault. -/
theorem Draft.build_standsFor {custom : Option CustomTypes} {script : String} {ts : List Token}
    {more : List (Except Fault Token)} {d : Draft}
    (hscan : Token.scan ((custom.map (·.names)).getD []) script = ts.map .ok ++ more)
    (hd : Draft.addAll custom {} (ts.map .ok) = .ok d) (t : Token) (text : String) :
    ((∃ spec, (d.sizeScope t).build text = .ok spec) ↔
      ∃ program, ExprProgram.compile text (d.sizeScope t).resolve = .ok program) ∧
    ∀ spec program, (d.sizeScope t).build text = .ok spec →
      ExprProgram.compile text (d.sizeScope t).resolve = .ok program → spec.StandsFor program := by
  obtain ⟨ts', o, hts, -, htraced⟩ := Traced.addAll .start hd
  obtain rfl : ts = ts' := List.map_injective_iff.mpr (fun _ _ => Except.ok.inj) hts
  have hbegin := htraced.pathsBegin (Token.scanFrom_written_before hscan)
  exact SizeScope.keeps (fun name hdot => hbegin.resolve_dotted t.position t.render hdot) text

/-- Behind `ubyte n;` a size `N` is what was read for that field, as the program of `N` says. -/
theorem Draft.build_standsFor_name :
    ∃ d scope program, Draft.addAll none {} [.ok ⟨0, .field ⟨.big, "ubyte", none⟩ none (some "n")⟩] = .ok d ∧
      scope = d.sizeScope ⟨9, .field ⟨.big, "bit", none⟩ (some "N") none⟩ ∧
      scope.build "N" = .ok (.computed (.field 0 "n")) ∧
      ExprProgram.compile "N" scope.resolve = .ok program ∧
      ∀ cx, (SizeSource.field 0 "n").evaluate cx = program.evaluate cx := by
  let t : Token := ⟨9, .field ⟨.big, "bit", none⟩ (some "N") none⟩
  have hscan : Token.scan [] "ubyte n; bit[N];" =
      [⟨0, .field ⟨.big, "ubyte", none⟩ none (some "n")⟩].map .ok ++ [.ok t] := by decide +kernel
  have hbuilds : (Draft.addAll none {} [.ok ⟨0, .field ⟨.big, "ubyte", none⟩ none (some "n")⟩]).toOption.any
      (fun d => (d.sizeScope t).build "N" = .ok (.computed (.field 0 "n"))) = true := by decide +kernel
  obtain ⟨d, hd, hbuild⟩ := of_any_ok hbuilds
  have hbuild := of_decide_eq_true hbuild
  obtain ⟨hclassified, hstands⟩ := @build_standsFor none _ _ _ _ hscan hd t "N"
  obtain ⟨program, hprogram⟩ := hclassified.mp ⟨_, hbuild⟩
  exact ⟨d, _, program, hd, rfl, hbuild, hprogram, hstands _ _ hbuild hprogram⟩

end LayoutScript
