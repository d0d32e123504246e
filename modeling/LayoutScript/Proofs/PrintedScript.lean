import LayoutScript.Proofs.CodeTables
import LayoutScript.Proofs.ExprNames
import LayoutScript.Proofs.TokenText

/-! # Compiling regardless of layout

Where a token stands is part of the faults of a script and of nothing else. A draft that forgets
the places of its open structures accepts the same tokens, and comments leave it as it is, so two
texts with the same declarations compile to the same tables.
-/
namespace LayoutScript

/-- One computation gives the image of what the other one gives. Their faults may differ. -/
def Echoes {α β : Type} (f : α → β) (x : Except Fault α) (y : Except Fault β) : Prop :=
  y.toOption = x.toOption.map f

namespace Echoes
variable {α β γ δ : Type} {f : α → β} {g : γ → δ}

theorem ok {a : α} {b : β} (h : b = f a) : Echoes f (.ok a) (.ok b) := congrArg some h

theorem error (fault fault' : Fault) : Echoes f (.error fault) (.error fault') := rfl

theorem same (x : Except Fault α) : Echoes id x x := by
  rw [Echoes, Option.map_id, id]

theorem bind {x : Except Fault α} {y : Except Fault β} (h : Echoes f x y) {k : α → Except Fault γ}
    {k' : β → Except Fault δ} (hk : ∀ a, Echoes g (k a) (k' (f a))) : Echoes g (x >>= k) (y >>= k') := by
  rw [Echoes] at h
  cases x with
  | error fault =>
    cases y with
    | error fault' => exact .error _ _
    | ok b => cases h
  | ok a =>
    cases y with
    | error fault => cases h
    | ok b =>
      obtain rfl : b = f a := Option.some.inj h
      exact hk a

theorem ite {p : Prop} [Decidable p] {x x' : Except Fault α} {y y' : Except Fault β} (h : Echoes f x y)
    (h' : Echoes f x' y') : Echoes f (if p then x else x') (if p then y else y') := by
  split
  · exact h
  · exact h'

theorem map_some {x y : Except Fault α} (h : Echoes id x y) : Echoes id (some <$> x) (some <$> y) := by
  change Echoes id (x >>= fun a => .ok (some a)) (y >>= fun a => .ok (some a))
  exact h.bind fun _ => .ok rfl

end Echoes

namespace Expr
variable {text : String} {resolve resolve' : Resolver}

theorem Alike.eq (hr : ∀ name, Echoes id (resolve name) (resolve' name)) {e e' : Expr} (h : Alike resolve resolve' e e') :
    e' = e := by
  induction h with
  | literal | external | position => rfl
  | @field name index index' h h' =>
    have hsame := hr name
    rw [Echoes, h, h'] at hsame
    obtain rfl : index' = index := by simpa [Except.toOption] using hsame
    rfl
  | unary op _ ih => rw [ih]
  | binary op _ _ ihl ihr => rw [ihl, ihr]

theorem covers_of_echoes (hr : ∀ name, Echoes id (resolve name) (resolve' name)) : resolve'.Covers resolve := by
  intro name index hindex
  have hsame := hr name
  rw [Echoes, hindex] at hsame
  cases hok : resolve' name with
  | error fault =>
    rw [hok] at hsame
    cases hsame
  | ok index? =>
    rw [hok] at hsame
    exact ⟨index, congrArg Except.ok (Option.some.inj hsame)⟩

theorem echoes_symm (hr : ∀ name, Echoes id (resolve name) (resolve' name)) :
    ∀ name, Echoes id (resolve' name) (resolve name) := by
  intro name
  have hsame := hr name
  rw [Echoes, Option.map_id, id] at hsame ⊢
  exact hsame.symm

/-- An expression is told by the indices of its names, whatever the faults of other names are. -/
theorem parse_echoes (hr : ∀ name, Echoes id (resolve name) (resolve' name)) :
    Echoes id (parse text resolve) (parse text resolve') := by
  cases h : parse text resolve with
  | ok e =>
    obtain ⟨e', he', halike⟩ := parse_alike (covers_of_echoes hr) h
    rw [he']
    exact .ok (halike.eq hr)
  | error fault =>
    cases h' : parse text resolve' with
    | error fault' => exact .error _ _
    | ok e' =>
      obtain ⟨e, he, -⟩ := parse_alike (covers_of_echoes (echoes_symm hr)) h'
      rw [h] at he
      cases he

end Expr

namespace SizeScope
variable {scope scope' : SizeScope}

theorem reference_echoes (hr : ∀ name, Echoes id (scope.resolve name) (scope'.resolve name)) (text : String) :
    Echoes id (scope.reference text) (scope'.reference text) := by
  rw [reference, reference]
  split
  · exact .same _
  split
  · exact .same _
  · refine (hr text).bind fun index? => ?_
    cases index? with
    | none => exact .error _ _
    | some index => exact .ok rfl

theorem build_echoes (hr : ∀ name, Echoes id (scope.resolve name) (scope'.resolve name)) (text : String) :
    Echoes id (scope.build text) (scope'.build text) := by
  rw [build, build]
  have hprogram : Echoes id (ExprProgram.compile text scope.resolve) (ExprProgram.compile text scope'.resolve) := by
    rw [ExprProgram.compile_eq, ExprProgram.compile_eq]
    exact (Expr.parse_echoes hr).bind fun e => .ok rfl
  exact .ite (reference_echoes hr text) (hprogram.bind fun program => .same _)

theorem arraySize_echoes (hr : ∀ name, Echoes id (scope.resolve name) (scope'.resolve name)) (text : String) :
    Echoes id (scope.arraySize text) (scope'.arraySize text) :=
  .ite (.ok rfl) (build_echoes hr (trimText text))

end SizeScope

def OpenStructure.unplaced (o : OpenStructure) : OpenStructure := { o with position := 0 }

def Token.unplaced (t : Token) : Token := { t with position := 0 }

namespace Draft

def unplaced (d : Draft) : Draft := { d with opened := d.opened.map (·.unplaced) }

variable {custom : Option CustomTypes} (d : Draft) (t : Token)

theorem resolve_echoes (name : String) :
    Echoes id ((d.sizeScope t).resolve name) ((d.unplaced.sizeScope t.unplaced).resolve name) := by
  have hopen : ∀ scope, d.unplaced.opened.any (·.arrayScope == some scope) = d.opened.any (·.arrayScope == some scope) :=
    fun scope => List.any_map
  have hentries : d.unplaced.entries = d.entries := rfl
  change Echoes id (d.resolve t.position t.render name) (d.unplaced.resolve 0 t.render name)
  simp only [resolve, hopen, hentries]
  cases d.entries.reverse.findIdx? (·.field.path == foldCase name) with
  | none => exact .ok rfl
  | some fromEnd =>
    dsimp only
    cases d.entries[d.entries.length - 1 - fromEnd]? with
    | none => exact .ok rfl
    | some entry => exact .ite (.error _ _) (.ite (.error _ _) (.ok rfl))

theorem arraySpec_echoes (size : Option String) :
    Echoes (fun p => (p.1, p.2.unplaced)) (d.arraySpec t size) (d.unplaced.arraySpec t.unplaced size) := by
  cases size with
  | none => exact .ok rfl
  | some text =>
    rw [arraySpec, arraySpec]
    refine (SizeScope.arraySize_echoes (d.resolve_echoes t) text).bind fun spec => ?_
    cases spec with
    | wholeStream =>
      refine Echoes.ite (p := d.wholeStreamDepth.isSome = true) (.error _ _) (.ok ?_)
      simp only [unplaced, List.length_map]
    | fixed | computed => exact .ok rfl

theorem registerNamed_echoes (name : Option String) (numeric isArray : Bool) :
    Echoes unplaced (d.registerNamed t name numeric isArray) (d.unplaced.registerNamed t.unplaced name numeric isArray) := by
  cases name with
  | none => exact .ok rfl
  | some name =>
    have hfirst : d.unplaced.firstMember = d.firstMember := by
      rw [firstMember, firstMember, unplaced, List.head?_map, Option.map_map]
      rfl
    have hscopes : d.unplaced.opened.filterMap (·.arrayScope) = d.opened.filterMap (·.arrayScope) := List.filterMap_map
    simp only [registerNamed, register, hfirst, hscopes]
    exact .ite (.error _ _) (.ok rfl)

theorem kindOf_echoes (type : TypeSpec) : Echoes id (kindOf custom t type) (kindOf custom t.unplaced type) := by
  rw [kindOf, kindOf]
  cases Kind.ofKeyword? type.name with
  | some kind => exact .ok rfl
  | none => exact .ite (.ok rfl) (.error _ _)

theorem checkForm_echoes (kind : Kind) (type : TypeSpec) (size name : Option String) :
    Echoes id (checkForm t kind type size name) (checkForm t.unplaced kind type size name) := by
  have hextra : ∀ x y : Except Fault Unit, Echoes id x y → Echoes id (if !kind.hasExtra then x else pure ())
      (if !kind.hasExtra then y else pure ()) := fun x y h => .ite h (.ok rfl)
  refine .ite (.ite (.error _ _) (.ite (.error _ _) (hextra _ _ ?_))) (hextra _ _ ?_)
  all_goals
    cases type.extra with
    | none => exact .ok rfl
    | some extra => exact .error _ _

theorem literalExtra_echoes (kind : Kind) (text : String) :
    Echoes id (literalExtra t kind text) (literalExtra t.unplaced kind text) := by
  rw [literalExtra, literalExtra]
  cases signed? decimal? text.toList with
  | none => exact .error _ _
  | some value => exact .ite (.error _ _) (.ite (.error _ _) (.ite (.ok rfl) (.error _ _)))

theorem checkExtra_echoes (kind : Kind) (text : String) (spec : SizeSpec) :
    Echoes id (checkExtra t kind text spec) (checkExtra t.unplaced kind text spec) := by
  rw [checkExtra.eq_def, checkExtra.eq_def]
  cases spec with
  | wholeStream | computed => exact .ok rfl
  | fixed value =>
    cases kind with
    | bit => exact .ite (.ok rfl) (.error _ _)
    | align | skip => exact .ite (.error _ _) (.ok rfl)
    | whole | opening | closing | var | restart | custom => exact .ok rfl

theorem extraSpec_echoes (kind : Kind) (type : TypeSpec) :
    Echoes id (d.extraSpec t kind type) (d.unplaced.extraSpec t.unplaced kind type) := by
  rw [extraSpec, extraSpec]
  cases type.extra with
  | none => exact .ok rfl
  | some text =>
    dsimp only
    refine .ite ?_ ?_
    · exact (SizeScope.build_echoes (d.resolve_echoes t) (trimText text)).bind fun spec => checkExtra_echoes t kind text spec
    · exact (literalExtra_echoes t kind text).bind fun spec => checkExtra_echoes t kind text spec

theorem fieldExtra_echoes (kind : Kind) (type : TypeSpec) :
    Echoes id (d.fieldExtra t kind type) (d.unplaced.fieldExtra t.unplaced kind type) :=
  .ite (.map_some (d.extraSpec_echoes t kind type)) (.ok rfl)

theorem addKind_echoes (type : TypeSpec) (size name : Option String) (kind : Kind) (extra : Option SizeSpec) :
    Echoes unplaced (d.addKind custom t type size name kind extra)
      (d.unplaced.addKind custom t.unplaced type size name kind extra) := by
  rw [addKind, addKind]
  refine (d.arraySpec_echoes t size).bind fun p => ?_
  obtain ⟨count, d'⟩ := p
  refine .ite (.error _ _) ?_
  exact (d'.registerNamed_echoes t name kind.isNumeric count.isSome).bind fun d'' => .ok rfl

theorem addField_echoes (type : TypeSpec) (size name : Option String) :
    Echoes unplaced (d.addField custom t type size name) (d.unplaced.addField custom t.unplaced type size name) := by
  rw [addField_def, addField_def]
  refine (kindOf_echoes t type).bind fun kind => ?_
  refine (checkForm_echoes t kind type size name).bind fun _ => ?_
  exact (d.fieldExtra_echoes t kind type).bind fun extra => d.addKind_echoes t type size name kind extra

theorem openStructure_echoes (size name : Option String) :
    Echoes unplaced (d.openStructure t size name) (d.unplaced.openStructure t.unplaced size name) := by
  rw [openStructure, openStructure]
  refine (d.arraySpec_echoes t size).bind fun p => ?_
  obtain ⟨count, d'⟩ := p
  exact (d'.registerNamed_echoes t name false count.isSome).bind fun d'' => .ok rfl

theorem closeStructure_echoes : Echoes unplaced (d.closeStructure t) (d.unplaced.closeStructure t.unplaced) := by
  rw [closeStructure, closeStructure]
  cases ho : d.opened with
  | nil =>
    simp only [unplaced, ho, List.map_nil]
    exact .error _ _
  | cons inner outer =>
    simp only [unplaced, ho, List.map_cons]
    exact .ok rfl

theorem add_echoes : Echoes unplaced (d.add custom t) (d.unplaced.add custom t.unplaced) := by
  have hlate : d.unplaced.wholeStreamDepth.any (d.unplaced.opened.length ≤ ·) = d.wholeStreamDepth.any (d.opened.length ≤ ·) := by
    simp only [unplaced, List.length_map]
  have hdeclared : t.unplaced.declared = t.declared := rfl
  rw [add.eq_def, add.eq_def, hlate, hdeclared]
  cases t.declared with
  | comment => exact .ok rfl
  | closing => exact d.closeStructure_echoes t
  | opening size name => exact .ite (.error _ _) (d.openStructure_echoes t size name)
  | field type size name => exact .ite (.error _ _) (d.addField_echoes t type size name)

theorem addAll_echoes (ts : List Token) :
    Echoes unplaced (d.addAll custom (ts.map .ok)) (d.unplaced.addAll custom (ts.map fun t => .ok t.unplaced)) := by
  induction ts generalizing d with
  | nil => exact .ok rfl
  | cons t ts ih =>
    rw [List.map_cons, List.map_cons, addAll, addAll]
    exact (d.add_echoes t).bind ih

theorem finish_echoes (script : String) :
    Echoes (fun layout => { layout with source := "" }) (d.finish script) (d.unplaced.finish "") := by
  rw [finish, finish]
  cases ho : d.opened with
  | nil =>
    simp only [unplaced, ho, List.map_nil]
    exact .ok rfl
  | cons inner outer =>
    simp only [unplaced, ho, List.map_cons]
    exact .error _ _

end Draft

theorem Draft.add_comment {custom : Option CustomTypes} {d : Draft} {t : Token} (h : t.declared.isComment = true) :
    d.add custom t = .ok d := by
  rw [add.eq_def]
  cases hd : t.declared with
  | comment text => rfl
  | field | opening | closing =>
    rw [hd] at h
    cases h

namespace Layout
variable {custom : Option CustomTypes}

/-- What a layout has apart from its script. -/
def tables (layout : Layout) : Layout := { layout with source := "" }

/-- What the declarations of a script compile to. -/
def ofDeclared (custom : Option CustomTypes) (ds : List Declared) : Except Fault Layout := do
  (← Draft.addAll custom {} (ds.map fun d => .ok ⟨0, d⟩)).finish ""

theorem compileWith_echoes {script : String} {ts : List Token}
    (hscan : Token.scan ((custom.map (·.names)).getD []) script = ts.map .ok) :
    Echoes tables (compileWith custom script) (ofDeclared custom (ts.map (·.declared))) := by
  rw [compileWith, ofDeclared, List.map_map]
  simp only [hscan]
  exact (Draft.addAll_echoes {} ts).bind fun d => d.finish_echoes script

/-- Comments are as good as none. -/
theorem ofDeclared_filter (ds : List Declared) : ofDeclared custom (ds.filter (!·.isComment)) = ofDeclared custom ds := by
  have hdraft : ∀ d : Draft, d.addAll custom ((ds.filter (!·.isComment)).map fun d => .ok ⟨0, d⟩) =
      d.addAll custom (ds.map fun d => .ok ⟨0, d⟩) := by
    induction ds with
    | nil => exact fun d => rfl
    | cons declared ds ih =>
      intro d
      by_cases hcomment : declared.isComment
      · rw [List.filter_cons_of_neg (by simpa using hcomment), ih, List.map_cons, Draft.addAll,
          Draft.add_comment (t := ⟨0, declared⟩) hcomment]
        rfl
      · rw [List.filter_cons_of_pos (by simpa using hcomment), List.map_cons, List.map_cons, Draft.addAll, Draft.addAll]
        cases d.add custom ⟨0, declared⟩ with
        | error fault => rfl
        | ok d' => exact ih d'
  rw [ofDeclared, ofDeclared, hdraft]

/-- A script may be printed again from its tokens, with any blanks between them and with its comments or
without: the text is scanned as these tokens, each at the first byte of its text, and it compiles to
the same tables or to none where the script does. -/
theorem compileWith_printed {script : String} {ts : List Token}
    (hscan : Token.scan ((custom.map (·.names)).getD []) script = ts.map .ok) {lead : List Char}
    (hlead : ∀ c ∈ lead, isBlank c = true) {parts : List (Declared × List Char)} (hspaced : Token.Spaced parts)
    (hparts : parts.map (·.1) = ts.map (·.declared) ∨
      parts.map (·.1) = (ts.map (·.declared)).filter (!·.isComment)) :
    Token.scan ((custom.map (·.names)).getD []) (String.ofList (lead ++ Token.printed parts)) =
        (Token.placed (byteLength lead) parts).map .ok ∧
      (compileWith custom (String.ofList (lead ++ Token.printed parts))).toOption.map tables =
        (compileWith custom script).toOption.map tables := by
  have hwritten : ∀ part ∈ parts, part.1.Written ((custom.map (·.names)).getD []) := by
    intro part hpart
    have hmem : part.1 ∈ ts.map (·.declared) := by
      have hfirst := List.mem_map_of_mem (f := (·.1)) hpart
      rcases hparts with hparts | hparts
      · rwa [hparts] at hfirst
      · rw [hparts] at hfirst
        exact List.mem_of_mem_filter hfirst
    obtain ⟨t, ht, hdeclared⟩ := List.mem_map.mp hmem
    rw [← hdeclared]
    exact Token.scanFrom_written hscan t ht
  have hprinted : Token.scan ((custom.map (·.names)).getD []) (String.ofList (lead ++ Token.printed parts)) =
      (Token.placed (byteLength lead) parts).map .ok := by
    rw [Token.scan, String.toList_ofList, TextCursor.ofList, Token.scanFrom_printed hwritten hspaced hlead, Nat.zero_add]
  have hsame : ofDeclared custom (parts.map (·.1)) = ofDeclared custom (ts.map (·.declared)) := by
    rcases hparts with hparts | hparts
    · rw [hparts]
    · rw [hparts, ofDeclared_filter]
  refine ⟨hprinted, ?_⟩
  have htext := compileWith_echoes hprinted
  rw [Token.map_declared_placed, hsame] at htext
  exact htext.symm.trans (compileWith_echoes hscan)

/-- A comment ends a line, and the text of a structure without a name starts with a blank. -/
theorem compileWith_printed_bits :
    ∃ ts : List Token,
      Token.scan [] "<BIT:( 3 ) x;//note\r\n\x7bubyte[ x ]d;\x7d" = ts.map .ok ∧
      (Token.scan [] "\t<bit:( 3 ) x;\r//note\n  \x7b ubyte[x] d;\n\x7d").map (·.toOption.map (·.position)) =
        [some 1, some 15, some 24, some 26, some 38] ∧
      (compileWith none "\t<bit:( 3 ) x;\r//note\n  \x7b ubyte[x] d;\n\x7d").toOption.map tables =
        (compileWith none "<BIT:( 3 ) x;//note\r\n\x7bubyte[ x ]d;\x7d").toOption.map tables := by
  let parts : List (Declared × List Char) := [(.field ⟨.little, "bit", some "( 3 )"⟩ none (some "x"), ['\r']),
    (.comment "note", ['\n', ' ']), (.opening none none, [' ']),
    (.field ⟨.big, "ubyte", none⟩ (some "x") (some "d"), ['\n']), (.closing, [])]
  let ts : List Token := [⟨0, .field ⟨.little, "bit", some "( 3 )"⟩ none (some "x")⟩, ⟨13, .comment "note"⟩,
    ⟨21, .opening none none⟩, ⟨22, .field ⟨.big, "ubyte", none⟩ (some "x") (some "d")⟩, ⟨34, .closing⟩]
  have hscan : Token.scan [] "<BIT:( 3 ) x;//note\r\n\x7bubyte[ x ]d;\x7d" = ts.map .ok := by decide +kernel
  have hspaced : Token.Spaced parts := by
    have hblank {gap : List Char} (h : gap.all isBlank = true) : ∀ c ∈ gap, isBlank c = true := List.all_eq_true.mp h
    refine ⟨hblank rfl, nofun, nofun, hblank rfl, nofun, ?_, hblank rfl, nofun, nofun, hblank rfl, nofun, nofun,
      hblank rfl, fun _ => rfl, nofun, trivial⟩
    rintro _ - c ⟨⟩
    rfl
  have htext : String.ofList (['\t'] ++ Token.printed parts) = "\t<bit:( 3 ) x;\r//note\n  \x7b ubyte[x] d;\n\x7d" := by
    decide +kernel
  have hprinted := @compileWith_printed none _ ts hscan ['\t'] (List.forall_mem_singleton.mpr rfl) parts hspaced (.inl rfl)
  rw [htext] at hprinted
  refine ⟨ts, hscan, ?_, hprinted.2⟩
  have hpositions := congrArg (List.map fun x : Except Fault Token => x.toOption.map (·.position)) hprinted.1
  exact hpositions.trans (by decide +kernel)

end Layout
end LayoutScript
