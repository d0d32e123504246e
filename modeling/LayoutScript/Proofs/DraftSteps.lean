import LayoutScript.Proofs.Declaration

/-! # What adding a token does

A draft that accepts a token has one of three things put at its end: a field, the beginning
of a structure, or the end of the innermost one. A declaration enters the code and every
table at once, so what a draft holds is told by the heads that were declared in it.
-/
namespace LayoutScript

theorem of_bind_ok {α β : Type} {x : Except Fault α} {f : α → Except Fault β} {b : β}
    (h : (x >>= f) = .ok b) : ∃ a, x = .ok a ∧ f a = .ok b := by
  cases x with
  | error fault => cases h
  | ok a => exact ⟨a, rfl, h⟩

theorem of_bind_error {α β : Type} {x : Except Fault α} {f : α → Except Fault β} {fault : Fault}
    (h : (x >>= f) = .error fault) : x = .error fault ∨ ∃ a, x = .ok a ∧ f a = .error fault := by
  cases x with
  | error fault' =>
    cases h
    exact .inl rfl
  | ok a => exact .inr ⟨a, rfl, h⟩

theorem of_map_some_ok {α : Type} {x : Except Fault α} {a? : Option α} (h : (some <$> x) = .ok a?) :
    ∃ a, x = .ok a ∧ a? = some a := by
  cases x with
  | error fault => cases h
  | ok a =>
    cases h
    exact ⟨a, rfl, rfl⟩

theorem of_any_ok {α : Type} {x : Except Fault α} {p : α → Bool} (h : x.toOption.any p = true) :
    ∃ a, x = .ok a ∧ p a = true := by
  cases x with
  | error fault => cases h
  | ok a => exact ⟨a, rfl, h⟩

theorem forall_mem_of_any_all {α : Type} {x : Except Fault (List α)} {p : α → Bool}
    (h : x.toOption.any (·.all p) = true) : ∀ as, x = .ok as → ∀ a ∈ as, p a = true := by
  intro as has
  obtain ⟨as', has', hall⟩ := of_any_ok h
  rw [has] at has'
  cases has'
  exact List.all_eq_true.mp hall

namespace SizeScope

theorem reference_ne_wholeStream {scope : SizeScope} {text : String} {spec : SizeSpec}
    (h : scope.reference text = .ok spec) : spec ≠ .wholeStream := by
  rintro rfl
  rw [reference] at h
  split at h
  · dsimp only at h
    split at h <;> cases h
  · split at h
    · cases h
    · obtain ⟨index?, -, h⟩ := of_bind_ok h
      cases index? <;> cases h

theorem build_ne_wholeStream {scope : SizeScope} {text : String} {spec : SizeSpec}
    (h : scope.build text = .ok spec) : spec ≠ .wholeStream := by
  rw [build] at h
  split at h
  · exact reference_ne_wholeStream h
  · obtain ⟨program, -, h⟩ := of_bind_ok h
    rintro rfl
    split at h
    · split at h <;> cases h
    · cases h

end SizeScope

/-- The declaration of a name, in any case, inside named structures, the outermost first. -/
def NamedField.inside (owners : List String) (name : String) (offset : Nat) : NamedField :=
  ⟨".".intercalate (owners ++ [foldCase name]), foldCase name, offset⟩

/-- A declaration as a member of the structure that is open. -/
def OpenStructure.owning (s : OpenStructure) (e : DraftEntry) : DraftEntry :=
  match s.name with
  | some owner => { e with field := e.field.within owner }
  | none => e

namespace Draft

theorem checkExtra_eq {t : Token} {kind : Kind} {text : String} {spec spec' : SizeSpec}
    (h : checkExtra t kind text spec = .ok spec') : spec' = spec := by
  rw [checkExtra.eq_def] at h
  split at h
  · split at h <;> first | (cases h; rfl) | (split at h <;> cases h; rfl)
  · cases h
    rfl

theorem literalExtra_eq {t : Token} {kind : Kind} {text : String} {spec : SizeSpec}
    (h : literalExtra t kind text = .ok spec) :
    ∃ n, signed? decimal? text.toList = some n ∧ fitsSigned 32 n = true ∧ spec = .fixed (Int32.ofInt n) := by
  rw [literalExtra] at h
  split at h
  · cases h
  · rename_i n hn
    split at h
    · cases h
    split at h
    · cases h
    split at h
    · rename_i hfits
      cases h
      exact ⟨n, hn, hfits, rfl⟩
    · cases h

/-- What the extra of a field is: the default of its kind, a literal or a classified text. -/
theorem extraSpec_cases {d : Draft} {t : Token} {kind : Kind} {type : TypeSpec} {spec : SizeSpec}
    (h : d.extraSpec t kind type = .ok spec) :
    (type.extra = none ∧ spec = .fixed (defaultExtra kind)) ∨
    ∃ text, type.extra = some text ∧ checkExtra t kind text spec = .ok spec ∧
      (if type.isComputed then (d.sizeScope t).extra text else literalExtra t kind text) = .ok spec := by
  rw [extraSpec] at h
  split at h
  · cases h
    exact .inl ⟨by assumption, rfl⟩
  · rename_i text htext
    refine .inr ⟨text, htext, ?_⟩
    by_cases hc : type.isComputed
    · simp only [if_pos hc] at h ⊢
      obtain ⟨spec₀, hspec, h⟩ := of_bind_ok h
      obtain rfl := checkExtra_eq h
      exact ⟨h, hspec⟩
    · simp only [if_neg hc] at h ⊢
      obtain ⟨spec₀, hspec, h⟩ := of_bind_ok h
      obtain rfl := checkExtra_eq h
      exact ⟨h, hspec⟩

theorem extraSpec_ne_wholeStream {d : Draft} {t : Token} {kind : Kind} {type : TypeSpec}
    {spec : SizeSpec} (h : d.extraSpec t kind type = .ok spec) : spec ≠ .wholeStream := by
  rcases extraSpec_cases h with ⟨-, rfl⟩ | ⟨text, -, -, h⟩
  · simp
  split at h
  · exact SizeScope.build_ne_wholeStream h
  · obtain ⟨n, -, -, rfl⟩ := literalExtra_eq h
    simp

/-- The draft in which the size of a token is classified. -/
def withExtent (d : Draft) (spec : Option SizeSpec) : Draft :=
  { d with wholeStreamDepth := if spec = some .wholeStream then some d.opened.length else d.wholeStreamDepth }

theorem arraySpec_cases {d d' : Draft} {t : Token} {size : Option String} {spec : Option SizeSpec}
    (h : d.arraySpec t size = .ok (spec, d')) :
    d' = d.withExtent spec ∧
      ((size = none ∧ spec = none) ∨
        ∃ text x, size = some text ∧ spec = some x ∧ (d.sizeScope t).arraySize text = .ok x) := by
  rw [arraySpec.eq_def] at h
  split at h
  · cases h
    exact ⟨rfl, .inl ⟨rfl, rfl⟩⟩
  · rename_i text
    obtain ⟨x, hx, h⟩ := of_bind_ok h
    split at h
    · split at h
      · cases h
      · cases h
        exact ⟨rfl, .inr ⟨text, _, rfl, rfl, hx⟩⟩
    · rename_i hne
      cases h
      have hwhole : some x ≠ some SizeSpec.wholeStream := fun h => hne (Option.some.inj h)
      refine ⟨?_, .inr ⟨text, x, rfl, rfl, hx⟩⟩
      rw [withExtent, if_neg hwhole]

/-- The draft with one more named declaration, if it has a name. -/
def withEntry (d : Draft) (name : Option String) (numeric isArray : Bool) : Draft :=
  { d with entries := d.entries ++ (name.map fun name => {
      field := ⟨foldCase name, foldCase name, d.code.size⟩
      numeric, isArray
      arrayScopes := d.opened.filterMap (·.arrayScope) : DraftEntry }).toList }

theorem registerNamed_eq {d d' : Draft} {t : Token} {name : Option String} {numeric isArray : Bool}
    (h : d.registerNamed t name numeric isArray = .ok d') : d' = d.withEntry name numeric isArray := by
  cases name with
  | none =>
    cases h
    simp [withEntry]
  | some name =>
    rw [registerNamed, register] at h
    split at h
    · cases h
    · cases h
      rfl

/-- The extra of a field whose kind has one. -/
def fieldExtra (d : Draft) (t : Token) (kind : Kind) (type : TypeSpec) : Except Fault (Option SizeSpec) :=
  if kind.hasExtra then some <$> d.extraSpec t kind type else pure none

/-- What a field declares after a draft, inside named structures. -/
def fieldHead (custom : Option CustomTypes) (d : Draft) (owners : List String) (t : Token)
    (type : TypeSpec) (size name : Option String) : Except Fault Head := do
  let kind ← kindOf custom t type
  checkForm t kind type size name
  let extra ← d.fieldExtra t kind type
  let (extent, _) ← d.arraySpec t size
  return {
    offset := d.code.size
    kind
    order := type.order
    info := name.map (.inside owners · d.code.size)
    extra := .ofSpec (extra.getD (.fixed 0))
    extent := .ofSpec extent
    custom := if kind = .custom then some (d.customTypes.length, type) else none }

/-- What a structure declares after a draft, inside named structures. -/
def structureHead (d : Draft) (owners : List String) (t : Token) (size name : Option String) :
    Except Fault Head := do
  let (extent, _) ← d.arraySpec t size
  return {
    offset := d.code.size
    kind := .opening
    info := name.map (.inside owners · d.code.size)
    extent := .ofSpec extent }

/-- The draft with a declaration behind it. -/
def declare (d : Draft) (h : Head) : Draft :=
  { d with
    code := d.code ++ h.instruction.encode
    entries := d.entries ++ (h.info.map fun f => {
      field := ⟨f.name, f.name, h.offset⟩
      numeric := h.kind.isNumeric
      isArray := h.extent ≠ .one
      arrayScopes := d.opened.filterMap (·.arrayScope) : DraftEntry }).toList
    sizes := d.sizes ++ h.sources
    customTypes := d.customTypes ++ (h.custom.map (·.2)).toList
    wholeStreamDepth := if h.extent = .untilEnd then some d.opened.length else d.wholeStreamDepth }

/-- The kind of a field is that of a keyword, or custom where no keyword is written. -/
theorem kindOf_cases {custom : Option CustomTypes} {t : Token} {type : TypeSpec} {kind : Kind}
    (h : kindOf custom t type = .ok kind) :
    (Kind.ofKeyword? type.name = some kind ∧ kind.hasKeyword = true) ∨
      (Kind.ofKeyword? type.name = none ∧ kind = .custom ∧ custom.isSome = true) := by
  rw [kindOf] at h
  split at h
  · rename_i found hfound
    cases h
    have hkey := List.find?_some hfound
    rw [Bool.and_eq_true] at hkey
    exact .inl ⟨hfound, hkey.1⟩
  · rename_i hnone
    split at h
    · rename_i hcustom
      cases h
      refine .inr ⟨hnone, rfl, ?_⟩
      cases custom with
      | none => cases hcustom
      | some c => rfl
    · cases h

theorem kindOf_field {custom : Option CustomTypes} {t : Token} {type : TypeSpec} {kind : Kind}
    (h : kindOf custom t type = .ok kind) : kind ≠ .opening ∧ kind ≠ .closing := by
  rcases kindOf_cases h with ⟨-, hkey⟩ | ⟨-, rfl, -⟩
  · constructor <;> rintro rfl <;> cases hkey
  · decide

theorem fieldHead_ok {custom : Option CustomTypes} {d : Draft} {owners : List String} {t : Token}
    {type : TypeSpec} {size name : Option String} {h : Head}
    (hh : d.fieldHead custom owners t type size name = .ok h) :
    ∃ kind extra count, kindOf custom t type = .ok kind ∧ checkForm t kind type size name = .ok () ∧
      d.fieldExtra t kind type = .ok extra ∧ d.arraySpec t size = .ok (count, d.withExtent count) ∧
      h = {
        offset := d.code.size
        kind
        order := type.order
        info := name.map (.inside owners · d.code.size)
        extra := .ofSpec (extra.getD (.fixed 0))
        extent := .ofSpec count
        custom := if kind = .custom then some (d.customTypes.length, type) else none } := by
  obtain ⟨kind, hkind, hh⟩ := of_bind_ok hh
  obtain ⟨_, hform, hh⟩ := of_bind_ok hh
  obtain ⟨extra, hextra, hh⟩ := of_bind_ok hh
  obtain ⟨⟨count, d'⟩, hcount, hh⟩ := of_bind_ok hh
  obtain ⟨rfl, -⟩ := arraySpec_cases hcount
  cases hh
  exact ⟨kind, extra, count, hkind, hform, hextra, hcount, rfl⟩

theorem structureHead_ok {d : Draft} {owners : List String} {t : Token} {size name : Option String} {h : Head}
    (hh : d.structureHead owners t size name = .ok h) :
    ∃ count, d.arraySpec t size = .ok (count, d.withExtent count) ∧
      h = {
        offset := d.code.size
        kind := .opening
        info := name.map (.inside owners · d.code.size)
        extent := .ofSpec count } := by
  obtain ⟨⟨count, d'⟩, hcount, hh⟩ := of_bind_ok hh
  obtain ⟨rfl, -⟩ := arraySpec_cases hcount
  cases hh
  exact ⟨count, hcount, rfl⟩

/-- Adds a field whose kind and extra are known. -/
def addKind (custom : Option CustomTypes) (d : Draft) (t : Token) (type : TypeSpec)
    (size name : Option String) (kind : Kind) (extra : Option SizeSpec) : Except Fault Draft := do
  let (count, d) ← d.arraySpec t size
  if kind = .custom ∧ !allowed custom type name extra count.isSome then
    throw (.script t.position t.render (.customTypeRejected type.name))
  let d ← d.registerNamed t name kind.isNumeric count.isSome
  let d := d.emit {
    action := actionOf kind (packedOf (extra.getD (.fixed 0))) d.customTypes.length
    named := name.isSome
    little := type.order = .little
    count := countOf count }
  return { d with
    sizes := d.sizes ++ (extra.toList ++ count.toList).flatMap sourceOf
    customTypes := d.customTypes ++ (if kind = .custom then [type] else []) }

theorem addField_def (custom : Option CustomTypes) (d : Draft) (t : Token) (type : TypeSpec)
    (size name : Option String) :
    d.addField custom t type size name = (do
      let kind ← kindOf custom t type
      checkForm t kind type size name
      let extra ← d.fieldExtra t kind type
      d.addKind custom t type size name kind extra) := by
  rw [addField]
  congr 1
  funext kind
  congr 1
  funext _
  rw [fieldExtra]
  by_cases hx : kind.hasExtra
  · rw [if_pos hx, if_pos hx]
    rfl
  · rw [if_neg hx, if_neg hx]
    rfl

/-- The extra of a head and the sources of its computed sizes are those of the parts that it
is made from. -/
theorem fieldExtra_cases {d : Draft} {t : Token} {kind : Kind} {type : TypeSpec} {extra : Option SizeSpec}
    (h : d.fieldExtra t kind type = .ok extra) :
    extra.isSome = kind.hasExtra ∧
      packedOf (extra.getD (.fixed 0)) = (Amount.ofSpec (extra.getD (.fixed 0))).packed ∧
      extra.toList.flatMap sourceOf = (Amount.ofSpec (extra.getD (.fixed 0))).sources := by
  rw [fieldExtra] at h
  by_cases hx : kind.hasExtra
  · rw [if_pos hx] at h
    obtain ⟨spec, hspec, rfl⟩ := of_map_some_ok h
    have hne := extraSpec_ne_wholeStream hspec
    cases spec with
    | wholeStream => exact absurd rfl hne
    | fixed n => exact ⟨hx.symm, rfl, rfl⟩
    | computed source => exact ⟨hx.symm, rfl, rfl⟩
  · rw [if_neg hx] at h
    cases h
    exact ⟨(Bool.eq_false_iff.mpr hx).symm, rfl, rfl⟩

/-- Adding a field puts what it declares at the end of the draft. -/
theorem addField_eq {custom : Option CustomTypes} {d d' : Draft} {t : Token} {type : TypeSpec}
    {size name : Option String} (owners : List String) (h : d.addField custom t type size name = .ok d') :
    ∃ h, d.fieldHead custom owners t type size name = .ok h ∧ d' = d.declare h := by
  rw [addField_def] at h
  obtain ⟨kind, hkind, h⟩ := of_bind_ok h
  obtain ⟨_, hform, h⟩ := of_bind_ok h
  obtain ⟨extra, hextra, h⟩ := of_bind_ok h
  obtain ⟨-, hpacked, hsources⟩ := fieldExtra_cases hextra
  rw [addKind] at h
  obtain ⟨⟨count, d₁⟩, hcount, h⟩ := of_bind_ok h
  obtain ⟨rfl, -⟩ := arraySpec_cases hcount
  dsimp only at h
  split at h
  · cases h
  obtain ⟨d₂, hd₂, h⟩ := of_bind_ok h
  obtain rfl := registerNamed_eq hd₂
  cases h
  let head : Head := {
    offset := d.code.size
    kind
    order := type.order
    info := name.map (.inside owners · d.code.size)
    extra := .ofSpec (extra.getD (.fixed 0))
    extent := .ofSpec count
    custom := if kind = .custom then some (d.customTypes.length, type) else none }
  have hhead : d.fieldHead custom owners t type size name = .ok head := by
    simp only [fieldHead, hkind, hform, hextra, hcount, bind, Except.bind]
    rfl
  refine ⟨head, hhead, ?_⟩
  have hextent : (head.extent ≠ .one) = (count.isSome = true) := by
    rw [Ne, Extent.ofSpec_eq_one_iff, Bool.not_eq_false]
  have hwhole : (head.extent = .untilEnd) = (count = some .wholeStream) := by
    rw [← Extent.ofSpec_eq_untilEnd_iff]
  have hsizes : (extra.toList ++ count.toList).flatMap sourceOf = head.sources := by
    rw [List.flatMap_append, hsources, Head.sources, Extent.sources_ofSpec]
  have hcode : head.instruction = {
      action := actionOf kind (packedOf (extra.getD (.fixed 0))) d.customTypes.length
      named := name.isSome
      little := type.order = .little
      count := countOf count } := by
    have haction : actionOf kind head.extra.packed ((head.custom.map (·.1)).getD 0) =
        actionOf kind (packedOf (extra.getD (.fixed 0))) d.customTypes.length := by
      rw [hpacked]
      by_cases hc : kind = .custom
      · simp [head, hc]
      · cases hk : kind
        case custom => exact absurd hk hc
        all_goals rfl
    rw [Head.instruction, haction, Extent.count_ofSpec, Option.isSome_map]
  have hcustoms : (head.custom.map (·.2)).toList = if kind = .custom then [type] else [] := by
    by_cases hc : kind = .custom <;> simp [head, hc]
  simp only [declare, withEntry, withExtent, emit, hsizes, hcode, hextent, hwhole, hcustoms]
  cases name <;> simp [head, NamedField.inside]

/-- The draft with a structure open behind it. -/
def enter (d : Draft) (t : Token) (h : Head) : Draft :=
  { d.declare h with
    arrayScopes := if h.extent = .one then d.arrayScopes else d.arrayScopes + 1
    opened := {
      start := h.offset
      position := t.position
      token := t.render
      name := h.info.map (·.name)
      firstMember := (d.declare h).entries.length
      arrayScope := if h.extent = .one then none else some (d.arrayScopes + 1) } :: d.opened }

/-- The draft with its innermost structure closed. -/
def leave (d : Draft) (inner : OpenStructure) (outer : List OpenStructure) : Draft :=
  { d with
    code := d.code ++ ({ action := .closing (Int32.ofNat inner.start) } : Instruction).encode
    opened := outer
    entries := d.entries.take inner.firstMember ++
      (d.entries.drop inner.firstMember).map inner.owning }

theorem openStructure_eq {d d' : Draft} {t : Token} {size name : Option String} (owners : List String)
    (h : d.openStructure t size name = .ok d') :
    ∃ h, d.structureHead owners t size name = .ok h ∧ d' = d.enter t h := by
  rw [openStructure] at h
  obtain ⟨⟨count, d₁⟩, hcount, h⟩ := of_bind_ok h
  obtain ⟨rfl, -⟩ := arraySpec_cases hcount
  dsimp only at h
  obtain ⟨d₂, hd₂, h⟩ := of_bind_ok h
  obtain rfl := registerNamed_eq hd₂
  cases h
  let head : Head := {
    offset := d.code.size
    kind := .opening
    info := name.map (.inside owners · d.code.size)
    extent := .ofSpec count }
  have hhead : d.structureHead owners t size name = .ok head := by
    simp only [structureHead, hcount, bind, Except.bind]
    rfl
  refine ⟨head, hhead, ?_⟩
  have hone : (head.extent = .one) = (count.isSome = false) := propext (Extent.ofSpec_eq_one_iff count)
  have hwhole : (head.extent = .untilEnd) = (count = some .wholeStream) :=
    propext (Extent.ofSpec_eq_untilEnd_iff count)
  have hsizes : count.toList.flatMap sourceOf = head.sources := by
    rw [Head.sources, Extent.sources_ofSpec]
    rfl
  have hcode : head.instruction = { action := .opening, named := name.isSome, count := countOf count } := by
    rw [Head.instruction, Extent.count_ofSpec, Option.isSome_map]
    rfl
  simp only [enter, declare, withEntry, withExtent, emit, hsizes, hcode, hone, hwhole]
  cases name <;> cases count <;> simp [head, NamedField.inside, Kind.isNumeric, Extent.ofSpec_eq_one_iff]

theorem closeStructure_eq {d d' : Draft} {t : Token} (h : d.closeStructure t = .ok d') :
    ∃ inner outer, d.opened = inner :: outer ∧ d' = d.leave inner outer := by
  rw [closeStructure] at h
  cases ho : d.opened with
  | nil =>
    rw [ho] at h
    cases h
  | cons inner outer =>
    rw [ho] at h
    cases h
    exact ⟨inner, outer, rfl, rfl⟩

/-- What adding a token does. -/
theorem add_cases {custom : Option CustomTypes} {d d' : Draft} {t : Token} (owners : List String)
    (h : d.add custom t = .ok d') :
    (∃ text, t.declared = .comment text ∧ d' = d) ∨
    (∃ type size name h, t.declared = .field type size name ∧
      d.fieldHead custom owners t type size name = .ok h ∧ d' = d.declare h) ∨
    (∃ size name h, t.declared = .opening size name ∧
      d.structureHead owners t size name = .ok h ∧ d' = d.enter t h) ∨
    (∃ inner outer, t.declared = .closing ∧ d.opened = inner :: outer ∧ d' = d.leave inner outer) := by
  rw [add.eq_def] at h
  cases ht : t.declared with
  | comment text =>
    rw [ht] at h
    cases h
    exact .inl ⟨text, rfl, rfl⟩
  | closing =>
    rw [ht] at h
    obtain ⟨inner, outer, ho, hd⟩ := closeStructure_eq h
    exact .inr (.inr (.inr ⟨inner, outer, rfl, ho, hd⟩))
  | opening size name =>
    rw [ht] at h
    dsimp only at h
    split at h
    · cases h
    · obtain ⟨head, hhead, hd⟩ := openStructure_eq owners h
      exact .inr (.inr (.inl ⟨size, name, head, rfl, hhead, hd⟩))
  | field type size name =>
    rw [ht] at h
    dsimp only at h
    split at h
    · cases h
    · obtain ⟨head, hhead, hd⟩ := addField_eq owners h
      exact .inr (.inl ⟨type, size, name, head, rfl, hhead, hd⟩)

end Draft
end LayoutScript
