import LayoutScript.Fault
import LayoutScript.Text.Ascii
import LayoutScript.Text.Numeral

/-! # Field paths

A path selects a value out of a field tree: names joined by dots, each followed by any
number of indices in brackets. Names are kept in lower case.
-/
namespace LayoutScript

inductive PathStep where
  | field (name : String)
  | index (n : Nat)
deriving DecidableEq

structure FieldPath where
  steps : List PathStep
deriving DecidableEq

namespace FieldPath

/-- The number of an index, at most 64 bits. -/
def index? (digits : List Char) : Option Nat := (decimal? digits).filter (· < 1 <<< 64)

/-- The steps of indices in brackets, and the text after them. -/
def parseIndices? (cs : List Char) : Option (List PathStep × List Char) :=
  match cs with
  | '[' :: rest =>
    match _h : rest.dropWhile Char.isDigit, index? (rest.takeWhile Char.isDigit) with
    | ']' :: rest', some n =>
      match parseIndices? rest' with
      | some (steps, rest'') => some (.index n :: steps, rest'')
      | none => none
    | _, _ => none
  | _ => some ([], cs)
termination_by cs.length
decreasing_by
  have := length_dropWhile_le Char.isDigit rest
  simp_all only [List.length_cons]
  omega

theorem parseIndices?_le {cs rest : List Char} {steps : List PathStep}
    (h : parseIndices? cs = some (steps, rest)) : rest.length ≤ cs.length := by
  fun_induction parseIndices? cs generalizing steps rest with
  | case1 rest₀ rest' n hd _ steps' rest'' hp ih =>
    have hle := length_dropWhile_le Char.isDigit rest₀
    rw [hd, List.length_cons] at hle
    have := ih hp
    simp only [Option.some.injEq, Prod.mk.injEq] at h
    rw [← h.2, List.length_cons]
    omega
  | case2 => simp at h
  | case3 => simp at h
  | case4 => simp_all

def parseSteps? (cs : List Char) : Option (List PathStep) :=
  let name := cs.takeWhile isNameChar
  if _hn : name = [] then none
  else
    match h : parseIndices? (cs.dropWhile isNameChar) with
    | none => none
    | some (indices, rest) =>
      let steps := .field (foldCase (String.ofList name)) :: indices
      match rest with
      | [] => some steps
      | c :: rest' =>
        if c = '.' then
          have : rest'.length < cs.length := by
            have h1 := parseIndices?_le h
            have h2 := length_dropWhile_le isNameChar cs
            simp only [List.length_cons] at h1
            omega
          (parseSteps? rest').map (steps ++ ·)
        else none
termination_by cs.length

def parse (text : String) : Except Fault FieldPath :=
  match parseSteps? text.toList with
  | some steps => .ok ⟨steps⟩
  | none => .error (.lookup (.badPath text))

/-- The text of a step; names other than the first follow a dot. -/
def renderStep : PathStep → String
  | .field name => "." ++ name
  | .index n => "[" ++ toString n ++ "]"

def render (p : FieldPath) : String :=
  match p.steps with
  | .field name :: steps => name ++ String.join (steps.map renderStep)
  | steps => String.join (steps.map renderStep)

end FieldPath
end LayoutScript
