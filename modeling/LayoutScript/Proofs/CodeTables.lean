import LayoutScript.Proofs.ScriptCode

/-! # Code and its tables

The declarations of a script start one behind the other in its code, and the lines of a declaration
refer to places in it. Lines and heads tell the same about the entries of each table, in their order.
-/
namespace LayoutScript

/-- Lines inside structures that start at the offsets in `opened`, the innermost first, close
every structure with a reference to its beginning. -/
def CodeLine.Nested : (opened : List Nat) → (lines : List CodeLine) → Prop
  | opened, [] => opened = []
  | opened, line :: lines =>
    match line.instruction.action with
    | .opening => Nested (line.offset :: opened) lines
    | .closing start => ∃ inner outer, opened = inner :: outer ∧ start.toInt = inner ∧ Nested outer lines
    | _ => Nested opened lines

theorem Draft.offset_lt_concat {heads : List Head} {n : Nat} {i : Instruction} {h : Head}
    (hheads : ∀ head ∈ heads, head.offset < n) (ho : h.offset = n) :
    ∀ head ∈ heads ++ [h], head.offset < n + i.encode.length := by
  intro head hm
  rw [Instruction.encode, List.length_cons]
  rcases List.mem_append.mp hm with hm | hm
  · have hlt := hheads head hm
    omega
  · rw [List.mem_singleton.mp hm, ho]
    omega

namespace Traced
variable {custom : Option CustomTypes} {ts : List Token} {d : Draft} {o : Outline}

/-- Every declaration starts before the end of the code. -/
theorem offset_lt (h : Traced custom ts d o) : ∀ head ∈ o.heads, head.offset < d.code.toList.length := by
  induction h with
  | start => simp [Outline.heads, Outline.headsBefore, Declaration.headsAll]
  | comment _ _ ih => exact ih
  | field _ _ hh ih =>
    rw [Outline.heads_put, Draft.toList_declare, List.length_append]
    exact Draft.offset_lt_concat ih (Draft.fieldHead_offset hh)
  | opening _ _ hh ih =>
    rw [Outline.heads_enter]
    change ∀ head ∈ _, _ < (Draft.declare _ _).code.toList.length
    rw [Draft.toList_declare, List.length_append]
    exact Draft.offset_lt_concat ih (Draft.structureHead_offset hh)
  | closing _ _ _ ih =>
    rw [Outline.heads_leave, Draft.toList_leave, List.length_append]
    exact fun head hm => Nat.lt_add_right _ (ih head hm)

/-- Every declaration of a script starts behind those before it. -/
theorem offsets_increase (h : Traced custom ts d o) : o.heads.Pairwise (·.offset < ·.offset) := by
  induction h with
  | start => exact .nil
  | comment _ _ ih => exact ih
  | field h _ hh ih =>
    rw [Outline.heads_put]
    refine List.pairwise_append.mpr ⟨ih, List.pairwise_singleton _ _, fun head hm head' hm' => ?_⟩
    rw [List.mem_singleton.mp hm', Draft.fieldHead_offset hh]
    exact h.offset_lt head hm
  | opening h _ hh ih =>
    rw [Outline.heads_enter]
    refine List.pairwise_append.mpr ⟨ih, List.pairwise_singleton _ _, fun head hm head' hm' => ?_⟩
    rw [List.mem_singleton.mp hm', Draft.structureHead_offset hh]
    exact h.offset_lt head hm
  | closing _ _ _ ih =>
    rw [Outline.heads_leave]
    exact ih

theorem infos_increase (h : Traced custom ts d o) :
    (o.heads.filterMap (·.info)).Pairwise (·.offset < ·.offset) := by
  rw [List.pairwise_filterMap]
  refine h.offsets_increase.imp_of_mem fun hp hq hlt f hf g hg => ?_
  rw [(h.regular _ hp).info f hf, (h.regular _ hq).info g hg]
  exact hlt

/-- Every custom type takes at least one byte of the code. -/
theorem length_customTypes_le (h : Traced custom ts d o) : d.customTypes.length ≤ d.code.toList.length := by
  have hdeclare : ∀ (d : Draft) (head : Head), d.customTypes.length ≤ d.code.toList.length →
      (d.declare head).customTypes.length ≤ (d.declare head).code.toList.length := by
    intro d head hle
    have hencode : 1 ≤ head.instruction.encode.length := by
      rw [Instruction.encode, List.length_cons]
      omega
    have hcustom : (head.custom.map (·.2)).toList.length ≤ 1 := by
      cases head.custom <;> simp
    rw [Draft.toList_declare, Draft.declare, List.length_append, List.length_append]
    omega
  induction h with
  | start => exact Nat.le_refl _
  | comment _ _ ih => exact ih
  | field _ _ _ ih => exact hdeclare _ _ ih
  | opening _ _ _ ih => exact hdeclare _ _ ih
  | closing _ _ _ ih =>
    rw [Draft.toList_leave, List.length_append]
    exact Nat.le_add_right_of_le ih

end Traced

namespace Declaration
open CodeLine

mutual

/-- The lines of a declaration leave the structures around it open. -/
theorem nested_lines : (d : Declaration) → d.Formed (·.offset < 2 ^ 31) →
    ∀ (opened : List Nat) (rest : List CodeLine), Nested opened (d.lines ++ rest) ↔ Nested opened rest
  | .single h, hf, opened, rest => by
    rw [lines, List.singleton_append, Nested, Head.line_instruction, Head.instruction]
    cases hk : h.kind
    case opening => exact absurd hk hf.2.1
    case closing => exact absurd hk hf.2.2
    all_goals rfl
  | .nested h members, hf, opened, rest => by
    have hstart : (Int32.ofNat h.offset).toInt = h.offset := Int32.toInt_ofNat_of_lt hf.1
    rw [lines, List.cons_append, Nested, Head.line_instruction, Head.instruction, hf.2.1, List.append_assoc]
    change Nested (h.offset :: opened) _ ↔ _
    rw [nested_linesAll members hf.2.2, List.singleton_append, Nested]
    constructor
    · rintro ⟨inner, outer, heq, -, hrest⟩
      cases heq
      exact hrest
    · intro hrest
      exact ⟨h.offset, opened, rfl, hstart, hrest⟩

theorem nested_linesAll : (ds : List Declaration) → FormedAll (·.offset < 2 ^ 31) ds →
    ∀ (opened : List Nat) (rest : List CodeLine), Nested opened (linesAll ds ++ rest) ↔ Nested opened rest
  | [], _, _, _ => Iff.rfl
  | d :: ds, hf, opened, rest => by
    rw [linesAll, List.append_assoc, nested_lines d hf.1, nested_linesAll ds hf.2]

end

theorem named_linesAll {ds : List Declaration} (h : ∀ head ∈ headsAll ds, head.Regular) :
    ((linesAll ds).filter (·.instruction.named)).map (·.offset) = (namedAll ds).map (·.offset) := by
  have hclosing : ∀ (h : Head) (members : List CodeLine),
      ((Option.guard (·.instruction.named) (h.closing members)).map (·.offset)).toList = [] := fun _ _ => rfl
  rw [← List.filterMap_eq_filter, List.map_filterMap, List.filterMap_eq_flatMap_toList, flatMap_linesAll hclosing,
    namedAll, List.map_filterMap, List.filterMap_eq_flatMap_toList]
  refine List.flatMap_congr fun head hm => ?_
  cases hi : head.info with
  | none => simp [Option.guard, Head.instruction, hi]
  | some f => simp [Option.guard, Head.instruction, hi, (h head hm).info f hi]

theorem computed_linesAll {ds : List Declaration} (h : ∀ head ∈ headsAll ds, head.Regular) :
    ((linesAll ds).map (·.instruction.computedCount)).sum = (sourcesAll ds).length := by
  have hclosing : ∀ (h : Head) (members : List CodeLine),
      List.replicate (h.closing members).instruction.computedCount () = [] := fun _ _ => rfl
  have hsum := congrArg List.length
    (flatMap_linesAll (f := fun line => List.replicate line.instruction.computedCount ()) hclosing ds)
  rw [List.length_flatMap, List.length_flatMap] at hsum
  simp only [List.length_replicate, Head.line_instruction] at hsum
  rw [hsum, sourcesAll, List.length_flatMap]
  congr 1
  exact List.map_congr_left fun head hm => Head.length_sources (h head hm).plain

theorem customs_linesAll {ds : List Declaration} (h : ∀ head ∈ headsAll ds, head.Regular) :
    (linesAll ds).filterMap (·.instruction.action.customIndex?) =
      ((headsAll ds).filterMap (·.custom)).map (·.1) := by
  have hclosing : ∀ (h : Head) (members : List CodeLine),
      (h.closing members).instruction.action.customIndex?.toList = [] := fun _ _ => rfl
  rw [List.filterMap_eq_flatMap_toList, flatMap_linesAll hclosing, List.map_filterMap,
    List.filterMap_eq_flatMap_toList]
  refine List.flatMap_congr fun head hm => ?_
  have hcustom := (h head hm).custom
  by_cases hk : head.kind = .custom
  · obtain ⟨p, hp⟩ := Option.isSome_iff_exists.mp (hcustom.mpr hk)
    simp [Head.instruction, hk, hp, Draft.actionOf, Action.customIndex?]
  · have hnone : head.custom = none := Option.not_isSome_iff_eq_none.mp (mt hcustom.mp hk)
    rw [hnone, Head.line_instruction, Head.instruction]
    cases hkind : head.kind
    case custom => exact absurd hkind hk
    all_goals rfl

end Declaration

end LayoutScript
