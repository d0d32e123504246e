import LayoutScript.Proofs.ScriptCode
import LayoutScript.Proofs.UsedUp

/-! # What compiling checks

Custom types do not get into a script that is compiled without them, and an extra that a script
tells is in the range of its kind. Whether a declaration has passed these checks is said of its
head alone.
-/
namespace LayoutScript

/-- The extras of a kind that can be read. -/
def Kind.Accepts (kind : Kind) (n : Int32) : Prop :=
  match kind with
  | .bit => 1 ≤ n ∧ n ≤ 8
  | .align => 1 ≤ n
  | .skip => 0 ≤ n
  | _ => True

instance (kind : Kind) (n : Int32) : Decidable (kind.Accepts n) :=
  match kind with
  | .bit => inferInstanceAs (Decidable (1 ≤ n ∧ n ≤ 8))
  | .align => inferInstanceAs (Decidable (1 ≤ n))
  | .skip => inferInstanceAs (Decidable (0 ≤ n))
  | .whole _ | .opening | .closing | .var | .restart | .custom => .isTrue trivial

namespace Draft

theorem defaultExtra_accepts (kind : Kind) : kind.Accepts (defaultExtra kind) := by
  cases kind with
  | bit | align | skip => decide
  | whole | opening | closing | var | restart | custom => trivial

theorem checkExtra_accepts {t : Token} {kind : Kind} {text : String} {n : Int32} {spec : SizeSpec}
    (h : checkExtra t kind text (.fixed n) = .ok spec) : kind.Accepts n := by
  rw [checkExtra.eq_def] at h
  cases kind with
  | bit =>
    by_cases hn : 1 ≤ n ∧ n ≤ 8
    · exact hn
    · simp only [if_neg hn] at h
      cases h
  | align =>
    by_cases hn : n < 1
    · simp only [if_pos hn] at h
      cases h
    · exact Int32.not_lt.mp hn
  | skip =>
    by_cases hn : n < 0
    · simp only [if_pos hn] at h
      cases h
    · exact Int32.not_lt.mp hn
  | whole | opening | closing | var | restart | custom => trivial

variable {custom : Option CustomTypes} {d : Draft} {owners : List String} {t : Token} {size name : Option String}
  {h : Head}

/-- An extra that is not computed is in the range of its kind. -/
theorem fieldHead_accepts {type : TypeSpec} (hh : d.fieldHead custom owners t type size name = .ok h) {n : Int32}
    (hn : h.extra = .known n) : h.kind.Accepts n := by
  obtain ⟨kind, extra, count, -, -, hextra, -, rfl⟩ := fieldHead_ok hh
  change kind.Accepts n
  change Amount.ofSpec (extra.getD (.fixed 0)) = .known n at hn
  rw [fieldExtra] at hextra
  split at hextra
  · obtain ⟨spec, hspec, rfl⟩ := of_map_some_ok hextra
    rw [Option.getD_some] at hn
    cases spec with
    | wholeStream => exact absurd rfl (extraSpec_ne_wholeStream hspec)
    | computed source => cases hn
    | fixed m =>
      cases hn
      rcases extraSpec_cases hspec with ⟨-, heq⟩ | ⟨text, -, hcheck, -⟩
      · cases heq
        exact defaultExtra_accepts kind
      · exact checkExtra_accepts hcheck
  · rename_i hx
    cases kind with
    | bit | align | skip | var | custom => exact absurd rfl hx
    | whole | opening | closing | restart => trivial

theorem kindOf_builtin {type : TypeSpec} {kind : Kind} (h : kindOf none t type = .ok kind) : kind ≠ .custom := by
  rcases kindOf_cases h with ⟨-, hkey⟩ | ⟨-, -, hsome⟩
  · rintro rfl
    cases hkey
  · cases hsome

end Draft

/-- What the heads of scripts of built-in types have in common; `lines` are the lines of the
script. -/
structure Head.Checked (lines : List CodeLine) (h : Head) : Prop where
  plain : h.Plain
  regular : h.Regular
  line : h.line ∈ lines
  accepts : ∀ n, h.extra = .known n → h.kind.Accepts n

namespace Traced
variable {ts : List Token} {d : Draft} {o : Outline}

theorem accepts (h : Traced none ts d o) :
    ∀ head ∈ o.heads, head.kind ≠ .custom ∧ ∀ n, head.extra = .known n → head.kind.Accepts n := by
  induction h with
  | start => exact List.forall_mem_nil _
  | comment _ _ ih => exact ih
  | field _ _ hh ih =>
    rw [Outline.heads_put]
    refine List.forall_mem_append.mpr ⟨ih, List.forall_mem_singleton.mpr ⟨?_, fun n => Draft.fieldHead_accepts hh⟩⟩
    obtain ⟨kind, _, _, hkind, -, -, -, rfl⟩ := Draft.fieldHead_ok hh
    exact Draft.kindOf_builtin hkind
  | opening _ _ hh ih =>
    rw [Outline.heads_enter]
    refine List.forall_mem_append.mpr ⟨ih, List.forall_mem_singleton.mpr ?_⟩
    obtain ⟨_, -, rfl⟩ := Draft.structureHead_ok hh
    exact ⟨fun heq => (by cases heq), fun _ _ => trivial⟩
  | closing _ _ _ ih =>
    rw [Outline.heads_leave]
    exact ih

theorem no_customs (h : Traced none ts d o) : d.customTypes = [] := by
  have hnone : o.heads.filterMap (·.custom) = [] := by
    refine List.filterMap_eq_nil_iff.mpr fun head hm => ?_
    have hkind := (h.accepts head hm).1
    exact Option.not_isSome_iff_eq_none.mp (mt (h.regular head hm).custom.mp hkind)
  rw [h.customs] at hnone
  have hzip := List.map_eq_nil_iff.mp hnone
  exact List.zipIdx_eq_nil_iff.mp hzip

theorem checked {ds : List Declaration} (h : Traced none ts d ⟨[], ds⟩)
    (hvar : ∀ line ∈ Declaration.linesAll ds, line.kind ≠ .var) :
    Declaration.FormedAll (Head.Checked (Declaration.linesAll ds)) ds := by
  refine .of_heads ds h.formed.1 fun head hm => ?_
  obtain ⟨hcustom, haccepts⟩ := h.accepts head hm
  have hline := Declaration.line_memAll ds hm
  have hkind := hvar head.line hline
  rw [Head.line_kind] at hkind
  exact ⟨⟨hkind, hcustom⟩, h.regular head hm, hline, haccepts⟩

end Traced

theorem Layout.IsOf.plain {layout : Layout} {ds : List Declaration} (h : layout.IsOf ds)
    (hcustom : layout.customTypes = []) (hvar : ∀ lines, layout.lines = .ok lines → ∀ line ∈ lines, line.kind ≠ .var) :
    Declaration.FormedAll Head.Plain ds := by
  refine .of_heads ds h.formed fun head hm => ⟨?_, ?_⟩
  · have hkind := hvar _ h.lines _ (Declaration.line_memAll ds hm)
    rwa [Head.line_kind] at hkind
  · intro hk
    obtain ⟨index, type, -, htype⟩ := (Declaration.FormedAll.heads ds h.formed head hm).custom hk
    rw [hcustom] at htype
    cases htype

end LayoutScript
