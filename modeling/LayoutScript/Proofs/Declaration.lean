import LayoutScript.Compile
import LayoutScript.Proofs.CodeListing

/-! # Declarations as a tree

Braces nest the declarations of a script. Every declaration carries its own name, extra and
extent, so nothing has to be looked up in tables. The instructions and tables that a tree
stands for are its declarations in the order of the script, a structure before its members
and its end behind them.
-/
namespace LayoutScript

/-- An extra: a number that the script tells, or one that is computed. -/
inductive Amount where
  | known (n : Int32)
  | computed (source : SizeSource)
deriving DecidableEq

namespace Amount

/-- The extra that a size stands for. No extra is as long as the input. -/
def ofSpec : SizeSpec → Amount
  | .fixed n => .known n
  | .computed source => .computed source
  | .wholeStream => .known 0

def packed : Amount → Packed
  | .known n => .value n
  | .computed _ => .computed

def sources : Amount → List SizeSource
  | .known _ => []
  | .computed source => [source]

end Amount

/-- How many elements a declaration has. -/
inductive Extent where
  | one
  | known (length : Nat)
  | computed (source : SizeSource)
  | untilEnd
deriving DecidableEq

namespace Extent

def ofSpec : Option SizeSpec → Extent
  | none => .one
  | some (.fixed n) => .known n.toInt.toNat
  | some (.computed source) => .computed source
  | some .wholeStream => .untilEnd

def count : Extent → Count
  | .one => .one
  | .known length => .fixed length
  | .computed _ => .computed
  | .untilEnd => .wholeStream

def sources : Extent → List SizeSource
  | .computed source => [source]
  | _ => []

theorem count_ofSpec (spec : Option SizeSpec) : (ofSpec spec).count = Draft.countOf spec := by
  rcases spec with _ | _ | _ | _ <;> rfl

theorem sources_ofSpec (spec : Option SizeSpec) :
    (ofSpec spec).sources = spec.toList.flatMap Draft.sourceOf := by
  rcases spec with _ | _ | _ | _ <;> rfl

theorem ofSpec_eq_one_iff (spec : Option SizeSpec) : ofSpec spec = .one ↔ spec.isSome = false := by
  rcases spec with _ | _ | _ | _ <;> simp [ofSpec]

theorem ofSpec_eq_untilEnd_iff (spec : Option SizeSpec) :
    ofSpec spec = .untilEnd ↔ spec = some .wholeStream := by
  rcases spec with _ | _ | _ | _ <;> simp [ofSpec]

end Extent

/-- What a declaration says of itself. The offset of its instruction tells it apart from all
others; a custom type comes with its number among the custom types. -/
structure Head where
  offset : Nat
  kind : Kind
  order : ByteOrder := .big
  info : Option NamedField := none
  extra : Amount := .known 0
  extent : Extent := .one
  custom : Option (Nat × TypeSpec) := none
deriving DecidableEq

namespace Head

def instruction (h : Head) : Instruction where
  action := Draft.actionOf h.kind h.extra.packed ((h.custom.map (·.1)).getD 0)
  named := h.info.isSome
  little := h.order = .little
  count := h.extent.count

def line (h : Head) : CodeLine := .ofInstruction h.offset h.instruction

/-- The sources of the computed extra and of the computed length, in this order. -/
def sources (h : Head) : List SizeSource := h.extra.sources ++ h.extent.sources

/-- The line behind the lines of a structure and its members. -/
def closing (h : Head) (members : List CodeLine) : CodeLine :=
  .ofInstruction (CodeLine.endOf (h.line :: members)) { action := .closing (Int32.ofNat h.offset) }

@[simp] theorem line_offset (h : Head) : h.line.offset = h.offset := rfl
@[simp] theorem line_instruction (h : Head) : h.line.instruction = h.instruction := rfl
@[simp] theorem closing_kind (h : Head) (members : List CodeLine) :
    (h.closing members).kind = .closing := rfl

@[simp] theorem line_kind (h : Head) : h.line.kind = h.kind := by
  cases hk : h.kind <;> simp [line, CodeLine.ofInstruction, CodeLine.kind, Instruction.kind, instruction, hk,
    Draft.actionOf, Action.kind]

end Head

inductive Declaration where
  | single (head : Head)
  /-- A structure or an array of structures. -/
  | nested (head : Head) (members : List Declaration)

namespace Declaration

mutual

/-- The heads of a declaration and of the declarations inside it. -/
def heads : Declaration → List Head
  | .single h => [h]
  | .nested h members => h :: headsAll members

def headsAll : List Declaration → List Head
  | [] => []
  | d :: ds => d.heads ++ headsAll ds

end

mutual

/-- The lines of code of a declaration. -/
def lines : Declaration → List CodeLine
  | .single h => [h.line]
  | .nested h members => h.line :: (linesAll members ++ [h.closing (linesAll members)])

def linesAll : List Declaration → List CodeLine
  | [] => []
  | d :: ds => d.lines ++ linesAll ds

end

mutual

/-- Every head satisfies `P`, and structures and nothing else have members. -/
def Formed (P : Head → Prop) : Declaration → Prop
  | .single h => P h ∧ h.kind ≠ .opening ∧ h.kind ≠ .closing
  | .nested h members => P h ∧ h.kind = .opening ∧ FormedAll P members

def FormedAll (P : Head → Prop) : List Declaration → Prop
  | [] => True
  | d :: ds => d.Formed P ∧ FormedAll P ds

end

/-- The declarations that have names. -/
def namedAll (ds : List Declaration) : List NamedField := (headsAll ds).filterMap (·.info)

/-- The sources of computed sizes and extras. -/
def sourcesAll (ds : List Declaration) : List SizeSource := (headsAll ds).flatMap Head.sources

theorem headsAll_append (ds ds' : List Declaration) :
    headsAll (ds ++ ds') = headsAll ds ++ headsAll ds' := by
  induction ds with
  | nil => rfl
  | cons d ds ih => rw [List.cons_append, headsAll, headsAll, ih, List.append_assoc]

theorem linesAll_append (ds ds' : List Declaration) :
    linesAll (ds ++ ds') = linesAll ds ++ linesAll ds' := by
  induction ds with
  | nil => rfl
  | cons d ds ih => rw [List.cons_append, linesAll, linesAll, ih, List.append_assoc]

theorem formedAll_append {P : Head → Prop} {ds ds' : List Declaration} (h : FormedAll P ds)
    (h' : FormedAll P ds') : FormedAll P (ds ++ ds') := by
  induction ds with
  | nil => exact h'
  | cons d ds ih => exact ⟨h.1, ih h.2⟩

mutual

theorem flatMap_lines {α : Type} {f : CodeLine → List α} (hf : ∀ (h : Head) (members : List CodeLine), f (h.closing members) = []) :
    (d : Declaration) → d.lines.flatMap f = d.heads.flatMap fun h => f h.line
  | .single h => rfl
  | .nested h members => by
    rw [lines, heads, List.flatMap_cons, List.flatMap_cons, List.flatMap_append, flatMap_linesAll hf members,
      List.flatMap_singleton, hf, List.append_nil]

/-- What the lines of heads give, where the ends of structures give nothing. -/
theorem flatMap_linesAll {α : Type} {f : CodeLine → List α} (hf : ∀ (h : Head) (members : List CodeLine), f (h.closing members) = []) :
    (ds : List Declaration) → (linesAll ds).flatMap f = (headsAll ds).flatMap fun h => f h.line
  | [] => rfl
  | d :: ds => by
    rw [linesAll, headsAll, List.flatMap_append, List.flatMap_append, flatMap_lines hf d, flatMap_linesAll hf ds]

end

mutual

theorem line_mem {h : Head} : (d : Declaration) → h ∈ d.heads → h.line ∈ d.lines
  | .single _, hm => by
    rw [List.mem_singleton.mp hm]
    exact List.mem_singleton_self _
  | .nested h' members, hm => by
    rcases List.mem_cons.mp hm with rfl | hm
    · exact List.mem_cons_self ..
    · exact List.mem_cons_of_mem _ (List.mem_append_left _ (line_memAll members hm))

theorem line_memAll {h : Head} : (ds : List Declaration) → h ∈ headsAll ds → h.line ∈ linesAll ds
  | [], hm => by cases hm
  | d :: ds, hm => by
    rcases List.mem_append.mp hm with hm | hm
    · exact List.mem_append_left _ (line_mem d hm)
    · exact List.mem_append_right _ (line_memAll ds hm)

end

mutual

theorem Formed.heads {P : Head → Prop} : (d : Declaration) → d.Formed P → ∀ h ∈ d.heads, P h
  | .single h, hf, h', hm => by
    rw [List.mem_singleton.mp hm]
    exact hf.1
  | .nested h members, hf, h', hm => by
    rcases List.mem_cons.mp hm with rfl | hm
    · exact hf.1
    · exact FormedAll.heads members hf.2.2 h' hm

theorem FormedAll.heads {P : Head → Prop} : (ds : List Declaration) → FormedAll P ds → ∀ h ∈ headsAll ds, P h
  | [], _, _, hm => by cases hm
  | d :: ds, hf, h', hm => by
    rcases List.mem_append.mp hm with hm | hm
    · exact Formed.heads d hf.1 h' hm
    · exact FormedAll.heads ds hf.2 h' hm

end

mutual

theorem Formed.of_heads {P Q : Head → Prop} :
    (d : Declaration) → d.Formed Q → (∀ h ∈ d.heads, P h) → d.Formed P
  | .single h, hf, hp => ⟨hp h (List.mem_singleton_self h), hf.2⟩
  | .nested h members, hf, hp =>
    ⟨hp h (List.mem_cons_self ..), hf.2.1,
      FormedAll.of_heads members hf.2.2 fun h' hm => hp h' (List.mem_cons_of_mem _ hm)⟩

/-- Declarations that are nested well satisfy what all of their heads satisfy. -/
theorem FormedAll.of_heads {P Q : Head → Prop} :
    (ds : List Declaration) → FormedAll Q ds → (∀ h ∈ headsAll ds, P h) → FormedAll P ds
  | [], _, _ => trivial
  | d :: ds, hf, hp =>
    ⟨Formed.of_heads d hf.1 fun h hm => hp h (List.mem_append_left _ hm),
      FormedAll.of_heads ds hf.2 fun h hm => hp h (List.mem_append_right _ hm)⟩

end

end Declaration
end LayoutScript
