import LayoutScript.Proofs.LoweredTokens

/-! # Scripts in lower case

The case of letters is told by the texts that a draft keeps and by nothing else, external names
apart. Drafts of tokens that differ in case therefore go the same way: a token is added to both or
refused by both, with the same code, the same names and the same sizes.
-/
namespace LayoutScript

def OpenStructure.folded (o : OpenStructure) : OpenStructure := { o with token := foldCase o.token }

/-- The fault of a rule that tokens break which differ in case. -/
theorem Token.Recased.fault {t t' : Token} (h : t.Recased t') {cause cause' : ScriptCause} (hcause : cause'.folded = cause.folded) :
    (Fault.script t'.position t'.render cause').folded = (Fault.script t.position t.render cause).folded := by
  simp only [Fault.folded, h.position, h.foldCase_render, hcause]

theorem ScriptCause.folded_invalidExtra (extra : String) :
    (ScriptCause.invalidExtra (lowerText extra)).folded = (ScriptCause.invalidExtra extra).folded :=
  congrArg ScriptCause.invalidExtra (foldCase_lowerText extra)

theorem caseless_signed : Caseless (signed? decimal?) := by
  intro cs
  cases cs with
  | nil => rfl
  | cons c cs =>
    have hunsigned {c : Char} (hplus : c ≠ '+') (hminus : c ≠ '-') (cs : List Char) :
        signed? decimal? (c :: cs) = (decimal? (c :: cs)).map Int.ofNat := by
      rw [signed?.eq_def]
      split
      · rename_i h
        exact absurd (List.cons.inj h).1 hplus
      · rename_i h
        exact absurd (List.cons.inj h).1 hminus
      · rfl
    by_cases hplus : c = '+'
    · subst hplus
      change (decimal? (cs.map Char.toLower)).map _ = _
      rw [Caseless.decimal?]
      rfl
    by_cases hminus : c = '-'
    · subst hminus
      change (decimal? (cs.map Char.toLower)).map _ = _
      rw [Caseless.decimal?]
      rfl
    rw [List.map_cons, hunsigned (mt (CaseBlind.eq_iff rfl).mp hplus) (mt (CaseBlind.eq_iff rfl).mp hminus),
      hunsigned hplus hminus, ← List.map_cons, Caseless.decimal?]

/-- Sizes that may be missing and differ in case. -/
def SizeSpec.OptionRecased (spec spec' : Option SizeSpec) : Prop := spec'.map SizeSpec.folded = spec.map SizeSpec.folded

namespace SizeSpec.OptionRecased
variable {spec spec' : Option SizeSpec} (h : OptionRecased spec spec')
include h

/-- The text of an expression decides nothing. -/
theorem eq {α : Type} {f : Option SizeSpec → α} (hf : ∀ spec, f (spec.map SizeSpec.folded) = f spec) : f spec' = f spec := by
  rw [← hf, h, hf]

theorem isSome : spec'.isSome = spec.isSome := h.eq fun _ => Option.isSome_map

theorem countOf : Draft.countOf spec' = Draft.countOf spec := by
  refine h.eq fun spec => ?_
  rcases spec with _ | _ | _ | _ <;> rfl

theorem packedOf : Draft.packedOf (spec'.getD (.fixed 0)) = Draft.packedOf (spec.getD (.fixed 0)) := by
  refine h.eq (f := fun spec => Draft.packedOf (spec.getD (.fixed 0))) fun spec => ?_
  rcases spec with _ | _ | _ | _ <;> rfl

theorem sources : (spec'.toList.flatMap Draft.sourceOf).map SizeSource.folded =
    (spec.toList.flatMap Draft.sourceOf).map SizeSource.folded := by
  have hsources (spec : Option SizeSpec) : (spec.toList.flatMap Draft.sourceOf).map SizeSource.folded =
      (spec.map SizeSpec.folded).toList.flatMap Draft.sourceOf := by
    rcases spec with _ | _ | _ | _ <;> rfl
  rw [hsources, h, ← hsources]

end SizeSpec.OptionRecased

/-- A layout with its source texts in lower case. -/
def Layout.folded (layout : Layout) : Layout :=
  { layout with source := foldCase layout.source, sizes := layout.sizes.map SizeSource.folded }

namespace Draft

/-- Drafts that differ in the case of the texts that they keep. -/
structure Recased (d d' : Draft) : Prop where
  code : d'.code = d.code
  entries : d'.entries = d.entries
  sizes : d'.sizes.map SizeSource.folded = d.sizes.map SizeSource.folded
  customTypes : d'.customTypes = d.customTypes
  opened : d'.opened.map OpenStructure.folded = d.opened.map OpenStructure.folded
  arrayScopes : d'.arrayScopes = d.arrayScopes
  wholeStreamDepth : d'.wholeStreamDepth = d.wholeStreamDepth

theorem Recased.refl (d : Draft) : d.Recased d := ⟨rfl, rfl, rfl, rfl, rfl, rfl, rfl⟩

namespace Recased
variable {d d' : Draft} (h : d.Recased d')
include h

/-- The texts of open structures decide nothing. -/
theorem of_opened {α : Type} {f : List OpenStructure → α} (hf : ∀ os, f (os.map OpenStructure.folded) = f os) :
    f d'.opened = f d.opened := by
  rw [← hf, h.opened, hf]

theorem length_opened : d'.opened.length = d.opened.length := h.of_opened fun _ => List.length_map _

theorem firstMember : d'.firstMember = d.firstMember := by
  refine h.of_opened (f := fun os => (os.head?.map (·.firstMember)).getD 0) fun os => ?_
  cases os <;> rfl

theorem scopes : d'.opened.filterMap (·.arrayScope) = d.opened.filterMap (·.arrayScope) :=
  h.of_opened fun os => List.filterMap_map (l := os)

theorem anyScope (scope : Nat) : d'.opened.any (·.arrayScope == some scope) = d.opened.any (·.arrayScope == some scope) :=
  h.of_opened (f := fun os => os.any (·.arrayScope == some scope)) fun _ => List.any_map

variable {t t' : Token} (ht : t.Recased t')
include ht

/-- Names are resolved alike in any case. -/
theorem sizeScope : (d.sizeScope t).Recased (d'.sizeScope t') := by
  refine ⟨ht.position, ht.foldCase_render, ?_⟩
  intro name name' hname
  change Tallies Eq (d.resolve t.position t.render name) (d'.resolve t'.position t'.render name')
  simp only [Draft.resolve, hname, h.entries, h.anyScope]
  cases d.entries.reverse.findIdx? (·.field.path == foldCase name) with
  | none => exact .ok rfl
  | some fromEnd =>
    dsimp only
    cases d.entries[d.entries.length - 1 - fromEnd]? with
    | none => exact .ok rfl
    | some entry =>
      exact .ite .rfl (fun _ => .error (ht.fault rfl)) fun _ => .ite .rfl (fun _ => .error (ht.fault rfl)) fun _ => .ok rfl

theorem arraySpec (size : Option String) :
    Tallies (fun p p' => SizeSpec.OptionRecased p.1 p'.1 ∧ p.2.Recased p'.2) (d.arraySpec t size)
      (d'.arraySpec t' (size.map lowerText)) := by
  cases size with
  | none => exact .ok ⟨rfl, h⟩
  | some text =>
    rw [Option.map_some, Draft.arraySpec, Draft.arraySpec]
    refine ((h.sizeScope ht).arraySize text).bind fun spec spec' hspec => ?_
    cases spec with
    | wholeStream =>
      cases spec' with
      | wholeStream =>
        dsimp only
        rw [h.wholeStreamDepth]
        refine .ite .rfl (fun _ => .error (ht.fault rfl)) fun _ => .ok ⟨rfl, ?_⟩
        exact { h with wholeStreamDepth := congrArg some h.length_opened }
      | fixed | computed => cases hspec
    | fixed | computed =>
      cases spec' with
      | wholeStream => cases hspec
      | fixed | computed => exact .ok ⟨congrArg some hspec, h⟩

theorem registerNamed {name name' : Option String} (hname : name'.map foldCase = name.map foldCase) (numeric isArray : Bool) :
    Tallies Recased (d.registerNamed t name numeric isArray) (d'.registerNamed t' name' numeric isArray) := by
  cases name with
  | none =>
    rw [Option.map_eq_none_iff.mp hname]
    exact .ok h
  | some name =>
    obtain ⟨name', rfl, hfold⟩ := Option.map_eq_some_iff.mp hname
    simp only [Draft.registerNamed, register, hfold, h.entries, h.firstMember, h.code, h.scopes]
    exact .ite .rfl (fun _ => .error (ht.fault rfl)) fun _ => .ok { h with code := rfl, entries := rfl }

omit h in
theorem kindOf (type : TypeSpec) : Tallies Eq (Draft.kindOf none t type) (Draft.kindOf none t' type.lowered) := by
  rw [Draft.kindOf, Draft.kindOf, show type.lowered.name = type.name from rfl]
  cases Kind.ofKeyword? type.name with
  | some kind => exact .ok rfl
  | none => exact .ite .rfl (fun _ => .ok rfl) fun _ => .error (ht.fault rfl)

omit h in
theorem checkForm (kind : Kind) (type : TypeSpec) (size : Option String) {name name' : Option String}
    (hname : name'.map foldCase = name.map foldCase) :
    Tallies Eq (Draft.checkForm t kind type size name) (Draft.checkForm t' kind type.lowered (size.map lowerText) name') := by
  have hextra : ∀ x y : Except Fault Unit, Tallies Eq x y → Tallies Eq (if !kind.hasExtra then x else pure ())
      (if !kind.hasExtra then y else pure ()) := fun x y h => .ite .rfl (fun _ => h) fun _ => .ok rfl
  have hsome : name'.isSome = name.isSome := by rw [← Option.isSome_map, hname, Option.isSome_map]
  rw [Draft.checkForm, Draft.checkForm, hsome, Option.isSome_map]
  refine .ite .rfl (fun _ => .ite .rfl (fun _ => .error (ht.fault rfl)) fun _ =>
    .ite .rfl (fun _ => .error (ht.fault rfl)) fun _ => hextra _ _ ?_) fun _ => hextra _ _ ?_
  all_goals
    rw [TypeSpec.lowered]
    cases type.extra with
    | none => exact .ok rfl
    | some extra => exact .error (ht.fault (ScriptCause.folded_invalidExtra extra))

omit h in
theorem literalExtra (kind : Kind) (text : String) :
    Tallies SizeSpec.Recased (Draft.literalExtra t kind text) (Draft.literalExtra t' kind (lowerText text)) := by
  have hinvalid := ht.fault (ScriptCause.folded_invalidExtra text)
  rw [Draft.literalExtra, Draft.literalExtra, caseless_signed.eq (toList_lowerText_map text)]
  cases signed? decimal? text.toList with
  | none => exact .error hinvalid
  | some value =>
    exact .ite .rfl (fun _ => .error hinvalid) fun _ => .ite .rfl (fun _ => .error (ht.fault rfl)) fun _ =>
      .ite .rfl (fun _ => .ok rfl) fun _ => .error hinvalid

omit h in
theorem checkExtra (kind : Kind) (text : String) {spec spec' : SizeSpec} (hspec : spec.Recased spec') :
    Tallies SizeSpec.Recased (Draft.checkExtra t kind text spec) (Draft.checkExtra t' kind (lowerText text) spec') := by
  have hinvalid := ht.fault (ScriptCause.folded_invalidExtra text)
  rw [checkExtra.eq_def, checkExtra.eq_def]
  cases spec with
  | wholeStream | computed =>
    cases spec' with
    | wholeStream | computed => exact .ok hspec
    | fixed => cases hspec
  | fixed value =>
    cases spec' with
    | wholeStream | computed => cases hspec
    | fixed value' =>
      obtain rfl : value' = value := SizeSpec.fixed.inj hspec
      cases kind with
      | bit => exact .ite .rfl (fun _ => .ok rfl) fun _ => .error (ht.fault rfl)
      | align | skip => exact .ite .rfl (fun _ => .error hinvalid) fun _ => .ok rfl
      | whole | opening | closing | var | restart | custom => exact .ok rfl

theorem extraSpec (kind : Kind) (type : TypeSpec) :
    Tallies SizeSpec.Recased (d.extraSpec t kind type) (d'.extraSpec t' kind type.lowered) := by
  rw [Draft.extraSpec, Draft.extraSpec, TypeSpec.isComputed_lowered, TypeSpec.lowered]
  cases type.extra with
  | none => exact .ok rfl
  | some text =>
    dsimp only [Option.map_some]
    refine .ite .rfl (fun _ => ?_) fun _ => ?_
    · exact ((h.sizeScope ht).extra text).bind fun spec spec' hspec => checkExtra ht kind text hspec
    · exact (literalExtra ht kind text).bind fun spec spec' hspec => checkExtra ht kind text hspec

theorem fieldExtra (kind : Kind) (type : TypeSpec) :
    Tallies SizeSpec.OptionRecased (d.fieldExtra t kind type)
      (d'.fieldExtra t' kind type.lowered) :=
  .ite .rfl (fun _ => (h.extraSpec ht kind type).bind fun _ _ hspec => .ok (congrArg some hspec)) fun _ => .ok rfl

theorem addKind (type : TypeSpec) (size : Option String) {name name' : Option String}
    (hname : name'.map foldCase = name.map foldCase) (kind : Kind) {extra extra' : Option SizeSpec}
    (hextra : SizeSpec.OptionRecased extra extra') :
    Tallies Recased (d.addKind none t type size name kind extra)
      (d'.addKind none t' type.lowered (size.map lowerText) name' kind extra') := by
  have hsome : name'.isSome = name.isSome := by rw [← Option.isSome_map, hname, Option.isSome_map]
  rw [Draft.addKind, Draft.addKind]
  refine (h.arraySpec ht size).bind ?_
  rintro ⟨count, d⟩ ⟨count', d'⟩ ⟨hcount, h⟩
  refine .ite .rfl (fun _ => .error (ht.fault rfl)) fun hcustom => ?_
  have hkind : kind ≠ .custom := fun hkind => hcustom ⟨hkind, rfl⟩
  dsimp only
  rw [hcount.isSome, hsome, hextra.packedOf, hcount.countOf]
  refine (h.registerNamed ht hname kind.isNumeric count.isSome).bind fun d d' h => .ok ?_
  have hsizes : ((extra'.toList ++ count'.toList).flatMap sourceOf).map SizeSource.folded =
      ((extra.toList ++ count.toList).flatMap sourceOf).map SizeSource.folded := by
    simp only [List.flatMap_append, List.map_append, hextra.sources, hcount.sources]
  rw [if_neg hkind, if_neg hkind]
  refine { h with code := ?_, sizes := ?_, customTypes := congrArg (· ++ []) h.customTypes }
  · simp only [emit, h.code, h.customTypes]
    rfl
  · dsimp only
    rw [List.map_append, List.map_append, hsizes]
    exact congrArg (· ++ _) h.sizes

theorem addField (type : TypeSpec) (size : Option String) {name name' : Option String}
    (hname : name'.map foldCase = name.map foldCase) :
    Tallies Recased (d.addField none t type size name) (d'.addField none t' type.lowered (size.map lowerText) name') := by
  rw [addField_def, addField_def]
  refine (kindOf ht type).bind ?_
  rintro kind _ rfl
  refine (checkForm ht kind type size hname).bind fun _ _ _ => ?_
  exact (h.fieldExtra ht kind type).bind fun extra extra' hextra => h.addKind ht type size hname kind hextra

theorem openStructure (size : Option String) {name name' : Option String} (hname : name'.map foldCase = name.map foldCase) :
    Tallies Recased (d.openStructure t size name) (d'.openStructure t' (size.map lowerText) name') := by
  have hsome : name'.isSome = name.isSome := by rw [← Option.isSome_map, hname, Option.isSome_map]
  rw [Draft.openStructure, Draft.openStructure]
  refine (h.arraySpec ht size).bind ?_
  rintro ⟨count, d⟩ ⟨count', d'⟩ ⟨hcount, h⟩
  dsimp only
  rw [hcount.isSome, hsome, hcount.countOf, hname]
  have hstart : d'.code.size = d.code.size := congrArg Array.size h.code
  refine (h.registerNamed ht hname false count.isSome).bind fun d d' h => .ok ?_
  refine { h with code := ?_, sizes := ?_, opened := ?_, arrayScopes := ?_ }
  · simp only [emit, h.code]
  · dsimp only
    rw [List.map_append, List.map_append, hcount.sources]
    exact congrArg (· ++ _) h.sizes
  · simp only [List.map_cons, OpenStructure.folded, emit, hstart, ht.position, ht.foldCase_render, h.entries, h.arrayScopes,
      List.cons.injEq, true_and]
    exact h.opened
  · simp only [emit, h.arrayScopes]

theorem closeStructure : Tallies Recased (d.closeStructure t) (d'.closeStructure t') := by
  have hopened := h.opened
  rw [Draft.closeStructure, Draft.closeStructure]
  cases ho : d.opened with
  | nil =>
    rw [ho] at hopened
    rw [List.map_eq_nil_iff.mp hopened]
    exact .error (ht.fault rfl)
  | cons inner outer =>
    rw [ho] at hopened
    obtain ⟨inner', outer', ho', hinner, houter⟩ := List.map_eq_cons_iff.mp hopened
    rw [ho']
    obtain ⟨start, position, token, name, first, scope⟩ := inner
    obtain ⟨start', position', token', name', first', scope'⟩ := inner'
    obtain ⟨rfl, rfl, -, rfl, rfl, rfl⟩ := OpenStructure.mk.inj hinner
    refine .ok { h with code := ?_, opened := houter, entries := ?_ }
    · simp only [emit, h.code]
    · simp only [emit, h.entries]

theorem add : Tallies Recased (d.add none t) (d'.add none t') := by
  have hlate : d'.wholeStreamDepth.any (d'.opened.length ≤ ·) = d.wholeStreamDepth.any (d.opened.length ≤ ·) := by
    rw [h.wholeStreamDepth, h.length_opened]
  have hdeclared := ht.declared
  rw [add.eq_def, add.eq_def, hlate]
  generalize t.declared = declared, t'.declared = declared' at hdeclared
  cases hdeclared with
  | comment => exact .ok h
  | closing => exact h.closeStructure ht
  | opening size hname => exact .ite .rfl (fun _ => .error (ht.fault rfl)) fun _ => h.openStructure ht size hname
  | field type size hname => exact .ite .rfl (fun _ => .error (ht.fault rfl)) fun _ => h.addField ht type size hname

omit ht in
theorem addAll {ts ts' : List (Except Fault Token)} (hts : List.Forall₂ (Tallies Token.Recased) ts ts') :
    Tallies Recased (d.addAll none ts) (d'.addAll none ts') := by
  induction hts generalizing d d' with
  | nil => exact .ok h
  | cons hfirst _ ih =>
    cases hfirst with
    | error hfault => exact .error hfault
    | ok ht => exact (h.add ht).bind fun _ _ h => ih h

omit ht in
theorem finish (script : String) :
    Tallies (fun layout layout' => layout'.folded = layout.folded) (d.finish script) (d'.finish (lowerText script)) := by
  have hopened := h.opened
  rw [Draft.finish, Draft.finish]
  cases ho : d.opened with
  | nil =>
    rw [ho] at hopened
    rw [List.map_eq_nil_iff.mp hopened]
    refine .ok ?_
    simp only [Layout.folded, foldCase_lowerText, h.code, h.entries, h.sizes, h.customTypes]
  | cons inner outer =>
    rw [ho] at hopened
    obtain ⟨inner', outer', ho', hinner, -⟩ := List.map_eq_cons_iff.mp hopened
    obtain ⟨-, hposition, htoken, -⟩ := OpenStructure.mk.inj hinner
    rw [ho']
    refine .error ?_
    simp only [Fault.folded, hposition, htoken]

end Recased
end Draft

namespace Layout

theorem compile_lowerText (script : String) :
    Tallies (fun layout layout' => layout'.folded = layout.folded) (compile script) (compile (lowerText script)) :=
  ((Draft.Recased.refl {}).addAll (Token.scan_lowerText script)).bind fun _ _ h => h.finish script

/-- Scripts that differ in the case of letters outside external names are both compiled or both
refused: to layouts that are the same apart from the case of their source texts, or by the same
fault at the same place, with the texts that it quotes in either case. -/
theorem compile_recased {script script' : String} (h : lowerText script' = lowerText script) :
    Tallies (fun layout layout' => layout'.folded = layout.folded) (compile script) (compile script') := by
  have hscript := compile_lowerText script
  have hscript' := compile_lowerText script'
  rw [h] at hscript'
  exact hscript.meet hscript' fun _ _ _ hl hl' => hl'.symm.trans hl

/-- Types, names and sizes may be written in any case, but not the name of an external value. -/
theorem compile_recased_sizes :
    lowerText "ubyte len; short[len] items; byte[$Max] rest;" = lowerText "UByte Len; SHORT[LEN] Items; byte[$Max] REST;" ∧
      Tallies (fun layout layout' => layout'.folded = layout.folded)
        (compile "UByte Len; SHORT[LEN] Items; byte[$Max] REST;") (compile "ubyte len; short[len] items; byte[$Max] rest;") ∧
      (compile "UByte Len; SHORT[LEN] Items; byte[$Max] REST;").toOption.map (·.sizes) =
        some [.field 0 "len", .external "Max"] ∧
      lowerText "byte[$max] rest;" ≠ lowerText "byte[$Max] rest;" := by
  have hcase : lowerText "ubyte len; short[len] items; byte[$Max] rest;" =
      lowerText "UByte Len; SHORT[LEN] Items; byte[$Max] REST;" := by decide +kernel
  exact ⟨hcase, compile_recased hcase, by decide +kernel, by decide +kernel⟩

end Layout
end LayoutScript
