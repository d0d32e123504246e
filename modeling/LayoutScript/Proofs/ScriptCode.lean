import LayoutScript.Proofs.Outline
import LayoutScript.Proofs.WalkDeclarations

/-! # The code of a script is that of its declarations

The code of a draft is the code of its outline, line by line, and the tables of a draft hold
the names, the sources and the custom types of the heads of its outline, in their order. The
paths in a draft lack the names of the structures that are still open, which are put before
them when those structures close.
-/
namespace LayoutScript

namespace OpenStructure

/-- Declarations as they stand when all open structures have closed. -/
def closeAll (entries : List DraftEntry) : List OpenStructure → List DraftEntry
  | [] => entries
  | inner :: outer =>
    closeAll (entries.take inner.firstMember ++ (entries.drop inner.firstMember).map inner.owning) outer

theorem length_owning (s : OpenStructure) (entries : List DraftEntry) :
    (entries.take s.firstMember ++ (entries.drop s.firstMember).map s.owning).length = entries.length := by
  simp only [List.length_append, List.length_take, List.length_map, List.length_drop]
  omega

/-- A declaration behind all others becomes a member of every open structure. -/
theorem closeAll_concat {opened : List OpenStructure} {entries : List DraftEntry}
    (h : ∀ s ∈ opened, s.firstMember ≤ entries.length) (e : DraftEntry) :
    closeAll (entries ++ [e]) opened = closeAll entries opened ++ [opened.foldl (fun e s => s.owning e) e] := by
  induction opened generalizing entries e with
  | nil => rfl
  | cons inner outer ih =>
    have hinner := h inner (List.mem_cons_self ..)
    rw [closeAll, List.take_append_of_le_length hinner, List.drop_append_of_le_length hinner, List.map_append,
      ← List.append_assoc, List.map_singleton, ih, closeAll, List.foldl_cons]
    intro s hs
    rw [length_owning]
    exact h s (List.mem_cons_of_mem _ hs)

theorem owning_field (s : OpenStructure) (e : DraftEntry) :
    (s.owning e).field = ⟨".".intercalate (s.name.toList ++ [e.field.path]), e.field.name, e.field.offset⟩ := by
  rw [owning]
  cases s.name with
  | none => rw [Option.toList_none, List.nil_append, String.intercalate_singleton]
  | some owner =>
    rw [Option.toList_some, List.singleton_append, String.intercalate_cons_cons, String.intercalate_singleton]
    rfl

/-- The path of a member of open structures starts with their names, the outermost first. -/
theorem foldl_owning_field (opened : List OpenStructure) (e : DraftEntry) :
    (opened.foldl (fun e s => s.owning e) e).field =
      ⟨".".intercalate ((opened.filterMap (·.name)).reverse ++ [e.field.path]), e.field.name, e.field.offset⟩ := by
  induction opened generalizing e with
  | nil => rw [List.filterMap_nil, List.reverse_nil, List.nil_append, String.intercalate_singleton, List.foldl_nil]
  | cons inner outer ih =>
    rw [List.foldl_cons, ih, owning_field]
    cases hn : inner.name with
    | none =>
      rw [List.filterMap_cons_none hn, Option.toList_none, List.nil_append, String.intercalate_singleton]
    | some owner =>
      rw [List.filterMap_cons_some hn, List.reverse_cons, List.append_assoc, Option.toList_some]
      dsimp only
      by_cases hempty : (outer.filterMap (·.name)).reverse = []
      · rw [hempty, List.nil_append, List.nil_append, String.intercalate_singleton]
      · rw [List.singleton_append, String.intercalate_append_of_ne_nil hempty (List.cons_ne_nil _ _),
          String.intercalate_append_of_ne_nil hempty (List.cons_ne_nil _ _), String.intercalate_singleton]

theorem names_eq {opened : List OpenStructure} {outer : List (Head × List Declaration)}
    (h : List.Forall₂ Is opened outer) :
    opened.filterMap (·.name) = outer.filterMap fun p => p.1.info.map (·.name) := by
  induction h with
  | nil => rfl
  | cons hi _ ih => rw [List.filterMap_cons, List.filterMap_cons, hi.name, ih]

end OpenStructure

/-- What the heads of scripts have in common. -/
structure Head.Regular (h : Head) : Prop where
  plain : h.kind.hasExtra = false → h.extra = .known 0
  length : ∀ n, h.extent = .known n → n < 2 ^ 31
  custom : h.custom.isSome ↔ h.kind = .custom
  info : ∀ f ∈ h.info, f.offset = h.offset

theorem Extent.length_ofSpec {spec : Option SizeSpec} {n : Nat} (h : ofSpec spec = .known n) : n < 2 ^ 31 := by
  rcases spec with _ | m | _ | _ <;> cases h
  have hm := m.toInt_lt
  omega

namespace Draft

theorem fieldHead_regular {custom : Option CustomTypes} {d : Draft} {owners : List String} {t : Token}
    {type : TypeSpec} {size name : Option String} {h : Head}
    (hh : d.fieldHead custom owners t type size name = .ok h) :
    h.Regular ∧ h.kind ≠ .opening ∧ h.kind ≠ .closing := by
  obtain ⟨kind, extra, count, hkind, -, hextra, -, rfl⟩ := fieldHead_ok hh
  refine ⟨⟨?_, fun n => Extent.length_ofSpec, ?_, ?_⟩, kindOf_field hkind⟩
  · intro hx
    change kind.hasExtra = false at hx
    rw [fieldExtra, if_neg (Bool.not_eq_true _ ▸ hx)] at hextra
    cases hextra
    rfl
  · by_cases hc : kind = .custom <;> simp [hc]
  · intro f hf
    obtain ⟨_, -, rfl⟩ := Option.map_eq_some_iff.mp hf
    rfl

theorem structureHead_regular {d : Draft} {owners : List String} {t : Token} {size name : Option String} {h : Head}
    (hh : d.structureHead owners t size name = .ok h) : h.Regular ∧ h.kind = .opening := by
  obtain ⟨count, -, rfl⟩ := structureHead_ok hh
  refine ⟨⟨fun _ => rfl, fun n => Extent.length_ofSpec, by simp, ?_⟩, rfl⟩
  intro f hf
  obtain ⟨_, -, rfl⟩ := Option.map_eq_some_iff.mp hf
  rfl

theorem fieldHead_offset {custom : Option CustomTypes} {d : Draft} {owners : List String} {t : Token}
    {type : TypeSpec} {size name : Option String} {h : Head}
    (hh : d.fieldHead custom owners t type size name = .ok h) : h.offset = d.code.size := by
  obtain ⟨_, _, _, -, -, -, -, rfl⟩ := fieldHead_ok hh
  rfl

theorem structureHead_offset {d : Draft} {owners : List String} {t : Token} {size name : Option String} {h : Head}
    (hh : d.structureHead owners t size name = .ok h) : h.offset = d.code.size := by
  obtain ⟨_, -, rfl⟩ := structureHead_ok hh
  rfl

theorem fieldHead_info {custom : Option CustomTypes} {d : Draft} {owners : List String} {t : Token}
    {type : TypeSpec} {size name : Option String} {h : Head}
    (hh : d.fieldHead custom owners t type size name = .ok h) : h.info = name.map (.inside owners · h.offset) := by
  obtain ⟨_, _, _, -, -, -, -, rfl⟩ := fieldHead_ok hh
  rfl

theorem structureHead_info {d : Draft} {owners : List String} {t : Token} {size name : Option String} {h : Head}
    (hh : d.structureHead owners t size name = .ok h) : h.info = name.map (.inside owners · h.offset) := by
  obtain ⟨_, -, rfl⟩ := structureHead_ok hh
  rfl

theorem toList_declare (d : Draft) (h : Head) :
    (d.declare h).code.toList = d.code.toList ++ h.instruction.encode := Array.toList_appendList

theorem toList_leave (d : Draft) (inner : OpenStructure) (outer : List OpenStructure) :
    (d.leave inner outer).code.toList =
      d.code.toList ++ ({ action := .closing (Int32.ofNat inner.start) } : Instruction).encode :=
  Array.toList_appendList

end Draft

theorem Head.encodable_closing (h : Head) (members : List CodeLine) :
    (h.closing members).instruction.Encodable := by
  refine ⟨?_, ?_, fun _ => rfl⟩
  · intro _ hi
    cases hi
  · intro _ hl
    cases hl

namespace Traced
variable {custom : Option CustomTypes} {ts : List Token} {d : Draft} {o : Outline}

theorem regular (h : Traced custom ts d o) : ∀ head ∈ o.heads, head.Regular := by
  induction h with
  | start => simp [Outline.heads, Outline.headsBefore, Declaration.headsAll]
  | comment _ _ ih => exact ih
  | field _ _ hh ih =>
    rw [Outline.heads_put]
    intro head hm
    rcases List.mem_append.mp hm with hm | hm
    · exact ih head hm
    · rw [List.mem_singleton.mp hm]
      exact (Draft.fieldHead_regular hh).1
  | opening _ _ hh ih =>
    rw [Outline.heads_enter]
    intro head hm
    rcases List.mem_append.mp hm with hm | hm
    · exact ih head hm
    · rw [List.mem_singleton.mp hm]
      exact (Draft.structureHead_regular hh).1
  | closing _ _ _ ih =>
    rw [Outline.heads_leave]
    exact ih

/-- Structures and nothing else have members. -/
theorem formed (h : Traced custom ts d o) :
    Declaration.FormedAll (fun _ => True) o.members ∧
      ∀ p ∈ o.opened, p.1.kind = .opening ∧ Declaration.FormedAll (fun _ => True) p.2 := by
  induction h with
  | start => exact ⟨trivial, by simp⟩
  | comment _ _ ih => exact ih
  | field _ _ hh ih =>
    have hkind := (Draft.fieldHead_regular hh).2
    exact ⟨Declaration.formedAll_append ih.1 ⟨⟨trivial, hkind⟩, trivial⟩, ih.2⟩
  | opening _ _ hh ih =>
    refine ⟨trivial, ?_⟩
    intro p hp
    rcases List.mem_cons.mp hp with rfl | hp
    · exact ⟨(Draft.structureHead_regular hh).2, ih.1⟩
    · exact ih.2 p hp
  | closing _ _ _ ih =>
    obtain ⟨hkind, hbefore⟩ := ih.2 _ (List.mem_cons_self ..)
    exact ⟨Declaration.formedAll_append hbefore ⟨⟨trivial, hkind, ih.1⟩, trivial⟩,
      fun p hp => ih.2 p (List.mem_cons_of_mem _ hp)⟩

theorem innermost {head : Head} {before members : List Declaration} {outer : List (Head × List Declaration)}
    {inner : OpenStructure} {rest : List OpenStructure}
    (h : Traced custom ts d ⟨(head, before) :: outer, members⟩) (ho : d.opened = inner :: rest) :
    inner.start = head.offset := by
  have hframes := h.frames
  rw [ho] at hframes
  cases hframes with
  | cons hi _ => exact hi.start

/-- The lines of an outline follow each other up to the end of the code of the draft. -/
theorem chain (h : Traced custom ts d o) : CodeLine.Chain 0 o.lines d.code.toList.length := by
  induction h with
  | start => rfl
  | comment _ _ ih => exact ih
  | field _ _ hh ih =>
    rw [Outline.lines_put, Head.line, Draft.fieldHead_offset hh, Draft.toList_declare, List.length_append]
    exact ih.append (CodeLine.chain_singleton _ _)
  | opening _ _ hh ih =>
    rw [Outline.lines_enter, Head.line, Draft.structureHead_offset hh]
    change CodeLine.Chain 0 _ (Draft.declare _ _).code.toList.length
    rw [Draft.toList_declare, List.length_append]
    exact ih.append (CodeLine.chain_singleton _ _)
  | @closing _ _ head before outer members _ _ _ h _ ho ih =>
    have hlines : (⟨(head, before) :: outer, members⟩ : Outline).lines =
        (Outline.linesBefore outer ++ Declaration.linesAll before) ++
          (head.line :: Declaration.linesAll members) := by
      simp only [Outline.lines, Outline.linesBefore, List.append_assoc, List.singleton_append]
    have hend := CodeLine.Chain.endOf_append (hlines ▸ ih) (List.cons_ne_nil _ _)
    rw [Outline.lines_leave, Head.closing, hend, Draft.toList_leave, List.length_append, h.innermost ho]
    exact ih.append (CodeLine.chain_singleton _ _)

/-- The code of a draft is that of the lines of its outline. -/
theorem code (h : Traced custom ts d o) : d.code.toList = o.lines.flatMap (·.instruction.encode) := by
  induction h with
  | start => rfl
  | comment _ _ ih => exact ih
  | field _ _ _ ih =>
    rw [Outline.lines_put, Draft.toList_declare, List.flatMap_append, ih, List.flatMap_singleton,
      Head.line_instruction]
  | opening _ _ _ ih =>
    rw [Outline.lines_enter, List.flatMap_append, ← ih, List.flatMap_singleton, Head.line_instruction]
    exact Draft.toList_declare _ _
  | closing h _ ho ih =>
    rw [Outline.lines_leave, Draft.toList_leave, List.flatMap_append, ih, List.flatMap_singleton, h.innermost ho]
    rfl

theorem sizes (h : Traced custom ts d o) : d.sizes = o.heads.flatMap Head.sources := by
  induction h with
  | start => rfl
  | comment _ _ ih => exact ih
  | field _ _ _ ih =>
    rw [Outline.heads_put, List.flatMap_append, ← ih, List.flatMap_singleton]
    rfl
  | opening _ _ _ ih =>
    rw [Outline.heads_enter, List.flatMap_append, ← ih, List.flatMap_singleton]
    rfl
  | closing _ _ _ ih =>
    rw [Outline.heads_leave]
    exact ih

/-- The custom fields are numbered in the order of the script. -/
theorem customs (h : Traced custom ts d o) :
    o.heads.filterMap (·.custom) = d.customTypes.zipIdx.map Prod.swap := by
  induction h with
  | start => rfl
  | comment _ _ ih => exact ih
  | @field _ d _ _ type _ _ _ _ _ hh ih =>
    obtain ⟨kind, _, _, -, -, -, -, rfl⟩ := Draft.fieldHead_ok hh
    rw [Outline.heads_put, List.filterMap_append, ih, Draft.declare]
    by_cases hc : kind = .custom
    · simp [hc, List.zipIdx_append]
    · simp [hc]
  | opening _ _ hh ih =>
    obtain ⟨_, -, rfl⟩ := Draft.structureHead_ok hh
    rw [Outline.heads_enter, List.filterMap_append, ih, Draft.enter, Draft.declare]
    simp
  | closing _ _ _ ih =>
    rw [Outline.heads_leave]
    exact ih

theorem owners (h : Traced custom ts d o) : (d.opened.filterMap (·.name)).reverse = o.owners := by
  rw [OpenStructure.names_eq h.frames, Outline.owners]

theorem closeAll_declare (h : Traced custom ts d o) (hfirst : ∀ s ∈ d.opened, s.firstMember ≤ d.entries.length)
    {head : Head} {name : Option String} (hinfo : head.info = name.map (.inside o.owners · head.offset)) :
    (OpenStructure.closeAll (d.declare head).entries d.opened).map (·.field) =
      (OpenStructure.closeAll d.entries d.opened).map (·.field) ++ [head].filterMap (·.info) := by
  rw [Draft.declare]
  cases name with
  | none => simp [hinfo]
  | some name =>
    rw [List.filterMap_cons_some hinfo, List.filterMap_nil, hinfo]
    dsimp only [Option.map_some, Option.toList_some]
    rw [OpenStructure.closeAll_concat hfirst, List.map_append, List.map_singleton,
      OpenStructure.foldl_owning_field, h.owners]
    rfl

/-- The named declarations are those of the outline, once every open structure has closed. -/
theorem named (h : Traced custom ts d o) :
    (∀ s ∈ d.opened, s.firstMember ≤ d.entries.length) ∧
      (OpenStructure.closeAll d.entries d.opened).map (·.field) = o.heads.filterMap (·.info) := by
  induction h with
  | start => exact ⟨by simp, rfl⟩
  | comment _ _ ih => exact ih
  | field h _ hh ih =>
    refine ⟨?_, ?_⟩
    · intro s hs
      rw [Draft.declare, List.length_append]
      exact Nat.le_add_right_of_le (ih.1 s hs)
    · rw [Outline.heads_put, List.filterMap_append, ← ih.2]
      exact h.closeAll_declare ih.1 (Draft.fieldHead_info hh)
  | @opening _ d _ t _ _ head h _ hh ih =>
    have hmore : d.entries.length ≤ (d.declare head).entries.length := by
      rw [Draft.declare, List.length_append]
      exact Nat.le_add_right _ _
    refine ⟨?_, ?_⟩
    · intro s hs
      rcases List.mem_cons.mp hs with rfl | hs
      · exact Nat.le_refl _
      · exact Nat.le_trans (ih.1 s hs) hmore
    · have hclose : OpenStructure.closeAll (d.enter t head).entries (d.enter t head).opened =
          OpenStructure.closeAll (d.declare head).entries d.opened := by
        rw [Draft.enter, OpenStructure.closeAll]
        simp
      rw [hclose, Outline.heads_enter, List.filterMap_append, ← ih.2]
      exact h.closeAll_declare ih.1 (Draft.structureHead_info hh)
  | @closing _ d _ _ _ _ _ inner rest _ _ ho ih =>
    rw [ho] at ih
    refine ⟨?_, ?_⟩
    · intro s hs
      rw [Draft.leave, OpenStructure.length_owning]
      exact ih.1 s (List.mem_cons_of_mem _ hs)
    · rw [Outline.heads_leave]
      exact ih.2

/-- A custom field has the number of its type. -/
theorem custom_getElem? (h : Traced custom ts d o) {head : Head} (hm : head ∈ o.heads) {index : Nat}
    {type : TypeSpec} (hc : head.custom = some (index, type)) : d.customTypes[index]? = some type := by
  have hmem : (index, type) ∈ o.heads.filterMap (·.custom) := List.mem_filterMap.mpr ⟨head, hm, hc⟩
  rw [h.customs] at hmem
  obtain ⟨⟨type', index'⟩, hzip, heq⟩ := List.mem_map.mp hmem
  cases heq
  exact List.mem_zipIdx_iff_getElem?.mp hzip

theorem fits (h : Traced custom ts d o) {head : Head} (hm : head ∈ o.heads) : head.Fits d.customTypes := by
  have hregular := h.regular head hm
  refine ⟨hregular.plain, ?_⟩
  intro hkind
  obtain ⟨⟨index, type⟩, hc⟩ := Option.isSome_iff_exists.mp (hregular.custom.mpr hkind)
  exact ⟨index, type, hc, h.custom_getElem? hm hc⟩

theorem encodable (h : Traced custom ts d o) (hcustoms : d.customTypes.length ≤ 2 ^ 31) {head : Head}
    (hm : head ∈ o.heads) (hkind : head.kind ≠ .closing) : head.instruction.Encodable := by
  have hregular := h.regular head hm
  refine ⟨?_, ?_, ?_⟩
  · intro index hindex
    by_cases hc : head.kind = .custom
    · obtain ⟨index', type, hcustom, htype⟩ := (h.fits hm).custom hc
      have hlt := (List.getElem?_eq_some_iff.mp htype).1
      simp only [Head.instruction, hc, hcustom, Draft.actionOf, Action.customIndex?] at hindex
      cases hindex
      dsimp only [Option.map_some, Option.getD_some]
      omega
    · cases hk : head.kind <;> simp [Head.instruction, hk, Draft.actionOf, Action.customIndex?] at hindex
      exact absurd hk hc
  · intro length hlength
    cases he : head.extent <;> simp only [Head.instruction, he, Extent.count] at hlength <;> cases hlength
    exact hregular.length _ he
  · intro hclosing
    have hsame : head.line.kind = head.instruction.kind := rfl
    rw [← hsame, Head.line_kind] at hclosing
    exact absurd hclosing hkind

/-- What is written as code is read back, unless there are too many custom types. -/
theorem encodable_lines (h : Traced custom ts d o) (hcustoms : d.customTypes.length ≤ 2 ^ 31) :
    ∀ line ∈ o.lines, line.instruction.Encodable := by
  induction h with
  | start => exact List.forall_mem_nil _
  | comment _ _ ih => exact ih hcustoms
  | @field _ d o _ _ _ _ head h ht hh ih =>
    have hmore : d.customTypes.length ≤ (d.declare head).customTypes.length := by
      rw [Draft.declare, List.length_append]
      exact Nat.le_add_right _ _
    have hmem : head ∈ (o.put head).heads := by simp
    have hhead := (Traced.field h ht hh).encodable hcustoms hmem (Draft.fieldHead_regular hh).2.2
    rw [Outline.lines_put]
    exact List.forall_mem_append.mpr ⟨ih (Nat.le_trans hmore hcustoms), List.forall_mem_singleton.mpr hhead⟩
  | @opening _ d o t _ _ head h ht hh ih =>
    have hmore : d.customTypes.length ≤ (d.enter t head).customTypes.length := by
      rw [Draft.enter, Draft.declare, List.length_append]
      exact Nat.le_add_right _ _
    have hkind : head.kind ≠ .closing := by simp [(Draft.structureHead_regular hh).2]
    have hmem : head ∈ (o.enter head).heads := by simp
    have hhead := (Traced.opening h ht hh).encodable hcustoms hmem hkind
    rw [Outline.lines_enter]
    exact List.forall_mem_append.mpr ⟨ih (Nat.le_trans hmore hcustoms), List.forall_mem_singleton.mpr hhead⟩
  | @closing _ _ head _ _ members _ _ _ _ _ _ ih =>
    rw [Outline.lines_leave]
    exact List.forall_mem_append.mpr ⟨ih hcustoms, List.forall_mem_singleton.mpr (head.encodable_closing _)⟩

/-- Too many custom types leave code that cannot be listed, whatever follows it. -/
theorem linesFrom_overfull (h : Traced custom ts d o) (hcustoms : 2 ^ 31 < d.customTypes.length) (rest : List UInt8) :
    ∃ lines fault, CodeLine.linesFrom ⟨0, d.code.toList ++ rest⟩ = (lines, some fault) := by
  induction h generalizing rest with
  | start => exact absurd hcustoms (Nat.not_lt_zero _)
  | comment _ _ ih => exact ih hcustoms rest
  | @field _ d o _ type _ _ head h ht hh ih =>
    rw [Draft.toList_declare, List.append_assoc]
    by_cases hbefore : 2 ^ 31 < d.customTypes.length
    · exact ih hbefore _
    -- The field is the one whose type has the first number that does not fit.
    obtain ⟨kind, extra, count, -, -, -, -, hhead⟩ := Draft.fieldHead_ok hh
    rw [Draft.declare, List.length_append, hhead] at hcustoms
    by_cases hkind : kind = .custom
    swap
    · simp only [if_neg hkind, Option.map_none, Option.toList_none, List.length_nil] at hcustoms
      omega
    simp only [if_pos hkind, Option.map_some, Option.toList_some, List.length_singleton] at hcustoms
    have hlast : d.customTypes.length = 2 ^ 31 := by omega
    have haction : head.instruction.action = .custom (2 ^ 31) head.extra.packed := by
      simp only [hhead, Head.instruction, hkind, Draft.actionOf, if_true, Option.map_some, Option.getD_some, hlast]
    have hlines := CodeLine.linesFrom_chain h.chain (h.encodable_lines (Nat.le_of_not_lt hbefore))
    rw [← h.code] at hlines
    rw [hlines, CodeLine.linesFrom_error (List.cons_ne_nil _ _) (CodeLine.read_custom_large haction _ rest)]
    exact ⟨_, _, rfl⟩
  | @opening _ d _ t _ _ head h ht hh ih =>
    obtain ⟨count, -, rfl⟩ := Draft.structureHead_ok hh
    rw [show (d.enter t _).code = (d.declare _).code from rfl, Draft.toList_declare, List.append_assoc]
    rw [Draft.enter, Draft.declare, Option.map_none, Option.toList_none, List.append_nil] at hcustoms
    exact ih hcustoms _
  | closing _ _ _ ih =>
    rw [Draft.toList_leave, List.append_assoc]
    exact ih hcustoms _

end Traced

/-- What a compiled script is made of: the code and the tables of its declarations. -/
structure Layout.IsOf (layout : Layout) (ds : List Declaration) : Prop where
  formed : Declaration.FormedAll (Head.Fits layout.customTypes) ds
  lines : layout.lines = .ok (Declaration.linesAll ds)
  named : layout.named = Declaration.namedAll ds
  sizes : layout.sizes = Declaration.sourcesAll ds

/-- A traced draft without open structures is finished to the layout of its declarations. -/
theorem Traced.isOf {custom : Option CustomTypes} {ts : List Token} {d : Draft} {ds : List Declaration}
    (h : Traced custom ts d ⟨[], ds⟩) (ho : d.opened = []) (hcustoms : d.customTypes.length ≤ 2 ^ 31)
    (script : String) :
    Layout.IsOf ⟨script, d.code.toList, d.entries.map (·.field), d.sizes, d.customTypes⟩ ds := by
  have hheads : (⟨[], ds⟩ : Outline).heads = Declaration.headsAll ds := rfl
  refine ⟨.of_heads ds h.formed.1 fun head hm => h.fits (hheads ▸ hm), ?_, ?_, h.sizes⟩
  · rw [Layout.lines, h.code]
    exact CodeLine.ofCode_chain h.chain (h.encodable_lines hcustoms)
  · have hnamed := h.named.2
    rw [ho] at hnamed
    exact hnamed

/-- Code that can be listed has no more custom types than there are numbers for. -/
theorem Traced.length_customs {custom : Option CustomTypes} {ts : List Token} {d : Draft} {o : Outline}
    (h : Traced custom ts d o) {lines : List CodeLine} (hlines : CodeLine.ofCode d.code.toList = .ok lines) :
    d.customTypes.length ≤ 2 ^ 31 := by
  by_contra hcustoms
  obtain ⟨lines', fault, hlist⟩ := h.linesFrom_overfull (Nat.lt_of_not_le hcustoms) []
  rw [List.append_nil] at hlist
  rw [CodeLine.ofCode, hlist] at hlines
  cases hlines

end LayoutScript
