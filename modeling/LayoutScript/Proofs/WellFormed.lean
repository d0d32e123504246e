import LayoutScript.Proofs.CodeTables
import LayoutScript.Proofs.WrittenSizes

/-! # Compiled scripts are well formed

The code of a script has one line for each of its tokens but the comments, and a line says of
its declaration what the token says. The ends of structures refer to their beginnings, and
every table has exactly the entries that the lines ask for, in their order.
-/
namespace LayoutScript

/-- The kind that a token stands for. A type that is no keyword is custom. -/
inductive Declared.HasKind : Declared → Kind → Prop where
  | keyword {kind : Kind} {type : TypeSpec} {size name : Option String}
    (hkind : kind ∉ [Kind.opening, .closing, .custom]) (h : type.name = kind.label) : HasKind (.field type size name) kind
  | custom {type : TypeSpec} {size name : Option String}
    (h : ∀ kind, kind ∉ [Kind.opening, .closing, .custom] → type.name ≠ kind.label) :
    HasKind (.field type size name) .custom
  | opening {size name : Option String} : HasKind (.opening size name) .opening
  | closing : HasKind .closing .closing

/-- A line and the sources of its computed sizes say of a declaration what its token says. The sources of
its extra stand before those of its length. -/
structure CodeLine.Declares (line : CodeLine) (sources : List SizeSource) (t : Declared) : Prop where
  kind : t.HasKind line.kind
  named : line.instruction.named = t.name?.isSome
  little : line.instruction.little = t.type?.any (·.order = .little)
  sizes : ∃ extras lengths, sources = extras ++ lengths ∧
    line.kind.HasExtra (t.type?.bind (·.extra)) line.instruction.action.extra? extras ∧
    Declared.HasCount t.size? line.instruction.count lengths
  computed : line.instruction.computedCount = sources.length

/-- Lines declare tokens one after the other, each with the next sources of a table. -/
inductive CodeLine.DeclaresAll : List CodeLine → List SizeSource → List Declared → Prop where
  | nil : DeclaresAll [] [] []
  | cons {line : CodeLine} {lines : List CodeLine} {own sources : List SizeSource} {t : Declared} {ts : List Declared}
    (h : line.Declares own t) (hrest : DeclaresAll lines sources ts) :
    DeclaresAll (line :: lines) (own ++ sources) (t :: ts)

/-- The code and the tables of a layout fit the tokens of its script. -/
structure Layout.WellFormed (layout : Layout) (tokens : List Token) (lines : List CodeLine) : Prop where
  declares : CodeLine.DeclaresAll lines layout.sizes ((tokens.map (·.declared)).filter (!·.isComment))
  nested : CodeLine.Nested [] lines
  named : (lines.filter (·.instruction.named)).map (·.offset) = layout.named.map (·.offset)
  computed : (lines.map (·.instruction.computedCount)).sum = layout.sizes.length
  customs : lines.filterMap (·.instruction.action.customIndex?) = List.range layout.customTypes.length

namespace CodeLine.DeclaresAll

theorem concat {lines : List CodeLine} {sources own : List SizeSource} {ts : List Declared} {line : CodeLine} {t : Declared}
    (h : DeclaresAll lines sources ts) (hlast : line.Declares own t) :
    DeclaresAll (lines ++ [line]) (sources ++ own) (ts ++ [t]) := by
  induction h with
  | nil => simpa using cons hlast nil
  | cons hfirst _ ih => simpa using cons hfirst ih

end CodeLine.DeclaresAll

/-- A head that agrees with a token in everything that the token says. -/
structure Head.Of (h : Head) (t : Declared) (extra count : Option SizeSpec) : Prop where
  kind : t.HasKind h.kind
  named : h.info.isSome = t.name?.isSome
  little : decide (h.order = .little) = t.type?.any (·.order = .little)
  extraSays : h.kind.HasExtra (t.type?.bind (·.extra)) (extra.map Draft.packedOf) (extra.toList.flatMap Draft.sourceOf)
  countSays : Declared.HasCount t.size? (Draft.countOf count) (count.toList.flatMap Draft.sourceOf)
  hasExtra : extra.isSome = h.kind.hasExtra
  packed : h.extra.packed = Draft.packedOf (extra.getD (.fixed 0))
  sources : h.extra.sources = extra.toList.flatMap Draft.sourceOf
  extent : h.extent = .ofSpec count
  regular : h.Regular

theorem Head.Of.declares {h : Head} {t : Declared} {extra count : Option SizeSpec} (ho : h.Of t extra count) :
    h.line.Declares h.sources t := by
  have hcount : h.line.instruction.count = Draft.countOf count := by
    rw [← Extent.count_ofSpec, ← ho.extent]
    rfl
  have hextra : h.line.instruction.action.extra? = extra.map Draft.packedOf := by
    rw [Head.line_instruction, Head.instruction, Draft.extra?_actionOf, ho.packed, ← ho.hasExtra]
    cases extra <;> rfl
  have hsources : h.sources = extra.toList.flatMap Draft.sourceOf ++ count.toList.flatMap Draft.sourceOf := by
    rw [Head.sources, ho.extent, Extent.sources_ofSpec, ho.sources]
  refine ⟨h.line_kind.symm ▸ ho.kind, ho.named, ho.little, ⟨_, _, hsources, ?_, ?_⟩, Head.length_sources ho.regular.plain⟩
  · rw [h.line_kind, hextra]
    exact ho.extraSays
  · rw [hcount]
    exact ho.countSays

namespace Draft
variable {custom : Option CustomTypes} {d : Draft} {owners : List String} {t : Token} {size name : Option String}
  {h : Head}

theorem kindOf_hasKind {type : TypeSpec} {kind : Kind} (h : kindOf custom t type = .ok kind) :
    (Declared.field type size name).HasKind kind := by
  have hkeyword : ∀ kind : Kind, kind.hasKeyword = true ↔ kind ∉ [Kind.opening, .closing, .custom] := by
    intro kind
    cases kind <;> simp [Kind.hasKeyword]
  rcases kindOf_cases h with ⟨hfound, hkey⟩ | ⟨hnone, rfl, -⟩
  · have hlabel := List.find?_some hfound
    simp only [Bool.and_eq_true, beq_iff_eq] at hlabel
    exact .keyword ((hkeyword kind).mp hkey) hlabel.2.symm
  · refine .custom fun kind hkind hlabel => ?_
    have hother := List.find?_eq_none.mp hnone kind (Kind.mem_all kind)
    simp [(hkeyword kind).mpr hkind, hlabel] at hother

theorem fieldHead_of (hd : d.PathsBegin) {customTypes : List String} (hw : t.declared.Written customTypes) {type : TypeSpec}
    (ht : t.declared = .field type size name) (hh : d.fieldHead custom owners t type size name = .ok h) :
    ∃ extra count, h.Of t.declared extra count := by
  have hregular := (fieldHead_regular hh).1
  obtain ⟨kind, extra, count, hkind, hform, hextra, hcount, rfl⟩ := fieldHead_ok hh
  obtain ⟨hsome, hpacked, hsources⟩ := fieldExtra_cases hextra
  rw [ht] at hw ⊢
  exact ⟨extra, count, kindOf_hasKind hkind, Option.isSome_map, rfl, fieldExtra_says hd hw.1 hform hextra,
    arraySpec_says hd hw.2.1 hcount, hsome, hpacked.symm, hsources.symm, rfl, hregular⟩

theorem structureHead_of (hd : d.PathsBegin) {customTypes : List String} (hw : t.declared.Written customTypes)
    (ht : t.declared = .opening size name) (hh : d.structureHead owners t size name = .ok h) :
    ∃ extra count, h.Of t.declared extra count := by
  have hregular := (structureHead_regular hh).1
  obtain ⟨count, hcount, rfl⟩ := structureHead_ok hh
  rw [ht] at hw ⊢
  exact ⟨none, count, .opening, Option.isSome_map, rfl, .without rfl, arraySpec_says hd hw.1 hcount, rfl, rfl, rfl, rfl,
    hregular⟩

end Draft

theorem Head.closing_declares (h : Head) (members : List CodeLine) : (h.closing members).Declares [] .closing :=
  ⟨.closing, rfl, rfl, ⟨[], [], rfl, .without rfl, .one⟩, rfl⟩

/-- The lines of an outline declare what the tokens declare, with the sources of the draft. -/
theorem Traced.declares {custom : Option CustomTypes} {ts : List Token} {d : Draft} {o : Outline} {customTypes : List String}
    (h : Traced custom ts d o) (hwritten : ∀ t ∈ ts, t.declared.Written customTypes) :
    CodeLine.DeclaresAll o.lines d.sizes ((ts.map (·.declared)).filter (!·.isComment)) := by
  induction h with
  | start => exact .nil
  | comment _ ht ih =>
    rw [List.map_append, List.filter_append, List.map_singleton, ht]
    simpa [Declared.isComment] using ih (List.forall_mem_append.mp hwritten).1
  | @field _ d _ t _ _ _ head h ht hh ih =>
    obtain ⟨hbefore, hlast⟩ := List.forall_mem_append.mp hwritten
    obtain ⟨extra, count, ho⟩ := Draft.fieldHead_of (h.pathsBegin hbefore) (hlast t (List.mem_singleton_self _)) ht hh
    rw [Outline.lines_put, List.map_append, List.filter_append, List.map_singleton,
      List.filter_cons_of_pos (by rw [ht]; rfl)]
    exact (ih hbefore).concat ho.declares
  | @opening _ d _ t _ _ head h ht hh ih =>
    obtain ⟨hbefore, hlast⟩ := List.forall_mem_append.mp hwritten
    obtain ⟨extra, count, ho⟩ := Draft.structureHead_of (h.pathsBegin hbefore) (hlast t (List.mem_singleton_self _)) ht hh
    rw [Outline.lines_enter, List.map_append, List.filter_append, List.map_singleton,
      List.filter_cons_of_pos (by rw [ht]; rfl)]
    exact (ih hbefore).concat ho.declares
  | @closing _ d head _ _ members t _ _ _ ht _ ih =>
    have hlines := (ih (List.forall_mem_append.mp hwritten).1).concat
      (head.closing_declares (Declaration.linesAll members))
    rw [Outline.lines_leave, List.map_append, List.filter_append, List.map_singleton,
      List.filter_cons_of_pos (by rw [ht]; rfl), ht]
    rw [List.append_nil] at hlines
    exact hlines

/-- Every script that compiles to code of less than 2 ^ 31 bytes compiles to well-formed code. -/
theorem Layout.compileWith_wellFormed {custom : Option CustomTypes} {script : String} {layout : Layout}
    (h : compileWith custom script = .ok layout) (hsize : layout.code.length < 2 ^ 31) :
    ∃ tokens lines, Token.scan ((custom.map (·.names)).getD []) script = tokens.map .ok ∧
      layout.lines = .ok lines ∧ layout.WellFormed tokens lines := by
  obtain ⟨ts, d, ds, hscan, -, htraced, hopened, rfl⟩ := compileWith_traced h
  have hheads : (⟨[], ds⟩ : Outline).heads = Declaration.headsAll ds := rfl
  have hcustoms : d.customTypes.length ≤ 2 ^ 31 :=
    Nat.le_trans htraced.length_customTypes_le (Nat.le_of_lt hsize)
  have hof := htraced.isOf hopened hcustoms script
  have hregular := htraced.regular
  rw [hheads] at hregular
  have hoffsets : Declaration.FormedAll (·.offset < 2 ^ 31) ds :=
    .of_heads ds htraced.formed.1 fun head hm => Nat.lt_trans (htraced.offset_lt head hm) hsize
  refine ⟨ts, Declaration.linesAll ds, hscan, hof.lines,
    ⟨htraced.declares (Token.scanFrom_written hscan), ?_, ?_, ?_, ?_⟩⟩
  · have hnested := Declaration.nested_linesAll ds hoffsets [] []
    rw [List.append_nil] at hnested
    exact hnested.mpr rfl
  · rw [hof.named]
    exact Declaration.named_linesAll hregular
  · rw [hof.sizes]
    exact Declaration.computed_linesAll hregular
  · rw [Declaration.customs_linesAll hregular, ← hheads, htraced.customs, List.map_map]
    change d.customTypes.zipIdx.map Prod.snd = _
    rw [List.zipIdx_map_snd, List.range_eq_range']

theorem Layout.wellFormed_nested_custom :
    let table : CustomTypes := ⟨["u24"], fun _ _ _ _ => true⟩
    let script := "ubyte n; list[n] \x7b <u24:2[3] c; // here\n bit:3[$m] b; align:4; \x7d ubyte[_] rest;"
    ∃ layout tokens lines, compileWith (some table) script = .ok layout ∧ layout.code.length < 2 ^ 31 ∧
      layout.lines = .ok lines ∧ layout.WellFormed tokens lines ∧
      lines.map (fun line => (line.kind, line.instruction.action.extra?, line.instruction.count)) =
        [(.whole .ubyte, none, .one), (.opening, none, .computed), (.custom, some (.value 2), .fixed 3),
          (.bit, some (.value 3), .computed), (.align, some (.value 4), .one), (.closing, none, .one),
          (.whole .ubyte, none, .wholeStream)] := by
  intro table script
  have hcompiles : (compileWith (some table) script).toOption.any
      (fun layout => decide (layout.code.length < 2 ^ 31) && layout.lines.toOption.any (fun lines =>
        lines.map (fun line => (line.kind, line.instruction.action.extra?, line.instruction.count)) ==
        [(.whole .ubyte, none, .one), (.opening, none, .computed), (.custom, some (.value 2), .fixed 3),
          (.bit, some (.value 3), .computed), (.align, some (.value 4), .one), (.closing, none, .one),
          (.whole .ubyte, none, .wholeStream)])) = true := by
    decide +kernel
  obtain ⟨layout, hlayout, hsmall⟩ := of_any_ok hcompiles
  rw [Bool.and_eq_true] at hsmall
  obtain ⟨tokens, lines, -, hlines, hformed⟩ := compileWith_wellFormed hlayout (of_decide_eq_true hsmall.1)
  obtain ⟨lines', hlines', hshown⟩ := of_any_ok hsmall.2
  rw [hlines] at hlines'
  cases hlines'
  exact ⟨layout, tokens, lines, hlayout, of_decide_eq_true hsmall.1, hlines, hformed, beq_iff_eq.mp hshown⟩

end LayoutScript
