import LayoutScript.Proofs.PathText

/-! # The grammar of paths

A path is a sequence of segments with dots between them, and a segment is a name with any number of
numbers in brackets behind it. These are all the texts that parse, apart from those with a number
that does not fit, and a path that was parsed is parsed again from its own text.
-/
namespace LayoutScript

/-- A name and the digits of the numbers in brackets behind it, as they are written. -/
structure PathSegment where
  name : List Char
  indices : List (List Char)
  name_ne : name ≠ []
  nameChars : ∀ c ∈ name, isNameChar c = true
  digits_ne : ∀ digits ∈ indices, digits ≠ []
  digits : ∀ digits ∈ indices, ∀ c ∈ digits, c.isDigit = true

namespace PathSegment

/-- Digits in brackets, one number after the other. -/
def brackets (indices : List (List Char)) : List Char := indices.flatMap fun digits => '[' :: (digits ++ [']'])

def text (s : PathSegment) : List Char := s.name ++ brackets s.indices

/-- Every number fits in 64 bits. -/
def Fits (s : PathSegment) : Prop := ∀ digits ∈ s.indices, decimalValue digits ≤ 2 ^ 64 - 1

def numbers (indices : List (List Char)) : List PathStep := indices.map fun digits => .index (decimalValue digits)

/-- The name in lower case, and the numbers. -/
def steps (s : PathSegment) : List PathStep := .field (foldCase (String.ofList s.name)) :: numbers s.indices

/-- Segments with dots between them. -/
def join (segments : List PathSegment) : List Char := ['.'].intercalate (segments.map text)

@[simp] theorem join_singleton (s : PathSegment) : join [s] = s.text := by simp [join]

@[simp] theorem join_cons_cons (s s' : PathSegment) (segments : List PathSegment) :
    join (s :: s' :: segments) = s.text ++ '.' :: join (s' :: segments) := by simp [join, List.intercalate_cons_cons]

end PathSegment

namespace FieldPath

/-! ## Segments are parsed -/

theorem continues_brackets {indices : List (List Char)} (hne : ∀ digits ∈ indices, digits ≠ [])
    (hdigits : ∀ digits ∈ indices, ∀ c ∈ digits, c.isDigit = true)
    (hfits : ∀ digits ∈ indices, decimalValue digits ≤ 2 ^ 64 - 1) :
    Continues (PathSegment.brackets indices) (PathSegment.numbers indices) := by
  induction indices with
  | nil => exact .done
  | cons digits indices ih =>
    simp only [List.forall_mem_cons] at hne hdigits hfits
    have hrest := ih hne.2 hdigits.2 hfits.2
    have hfits₁ : decimalValue digits < 2 ^ 64 := by omega
    simpa [PathSegment.brackets, PathSegment.numbers] using Continues.index hne.1 hdigits.1 hfits₁ hrest

theorem Writes.behind_dot {cs : List Char} {steps : List PathStep} (h : Writes cs steps) : Continues ('.' :: cs) steps := by
  cases h with
  | intro hne hname h => exact .field hne hname h

theorem writes_segment {s : PathSegment} (hfits : s.Fits) : Writes s.text s.steps :=
  .intro s.name_ne s.nameChars (continues_brackets s.digits_ne s.digits hfits)

theorem writes_join {segments : List PathSegment} (hne : segments ≠ []) (hfits : ∀ s ∈ segments, s.Fits) :
    Writes (PathSegment.join segments) (segments.flatMap PathSegment.steps) := by
  induction segments with
  | nil => exact absurd rfl hne
  | cons s segments ih =>
    rw [List.forall_mem_cons] at hfits
    have hfirst := writes_segment hfits.1
    cases segments with
    | nil => simpa using hfirst
    | cons s' segments =>
      have hrest := ih (List.cons_ne_nil _ _) hfits.2
      simpa using hfirst.append hrest.behind_dot

/-! ## What is parsed consists of segments -/

theorem decimalValue_of_index? {digits : List Char} {n : Nat} (h : index? digits = some n) :
    digits ≠ [] ∧ decimalValue digits = n ∧ n ≤ 2 ^ 64 - 1 := by
  simp only [index?, decimal?, Option.filter_eq_some_iff] at h
  obtain ⟨hvalue, hlt⟩ := h
  split at hvalue
  · cases hvalue
  · rename_i hdigits
    simp only [Bool.or_eq_true, not_or] at hdigits
    cases hvalue
    refine ⟨by simpa using hdigits.1, rfl, ?_⟩
    have := of_decide_eq_true hlt
    omega

/-- Numbers are parsed from digits in brackets. -/
theorem brackets_of_parseIndices? {cs rest : List Char} {steps : List PathStep}
    (h : parseIndices? cs = some (steps, rest)) :
    ∃ indices, cs = PathSegment.brackets indices ++ rest ∧ steps = PathSegment.numbers indices ∧
      ∀ digits ∈ indices, digits ≠ [] ∧ (∀ c ∈ digits, c.isDigit = true) ∧ decimalValue digits ≤ 2 ^ 64 - 1 := by
  fun_induction parseIndices? cs generalizing steps rest with
  | case1 tail rest' n hd hn steps' rest'' hp ih =>
    obtain ⟨indices, hrest, hsteps, hindices⟩ := ih hp
    obtain ⟨hne, hvalue, hfits⟩ := decimalValue_of_index? hn
    cases h
    refine ⟨tail.takeWhile Char.isDigit :: indices, ?_, ?_, ?_⟩
    · calc '[' :: tail = '[' :: (tail.takeWhile Char.isDigit ++ ']' :: rest') := by rw [← hd, List.takeWhile_append_dropWhile]
        _ = _ := by simp [PathSegment.brackets, hrest]
    · simp [PathSegment.numbers, hvalue, hsteps]
    · rw [List.forall_mem_cons]
      exact ⟨⟨hne, fun c hc => List.mem_takeWhile_imp hc, hvalue.symm ▸ hfits⟩, hindices⟩
  | case2 => cases h
  | case3 => cases h
  | case4 =>
    cases h
    exact ⟨[], rfl, rfl, fun _ hm => by cases hm⟩

/-- A text that parses is that of segments whose numbers fit. -/
theorem join_of_parseSteps? {cs : List Char} {steps : List PathStep} (h : parseSteps? cs = some steps) :
    ∃ segments, segments ≠ [] ∧ (∀ s ∈ segments, PathSegment.Fits s) ∧ cs = PathSegment.join segments ∧
      steps = segments.flatMap PathSegment.steps := by
  induction hn : cs.length using Nat.strongRecOn generalizing cs steps with
  | _ n ih =>
    rw [parseSteps?] at h
    split at h
    · cases h
    rename_i hname
    split at h
    · cases h
    rename_i numbers rest hparse
    obtain ⟨indices, hbrackets, hnumbers, hindices⟩ := brackets_of_parseIndices? hparse
    let first : PathSegment :=
      { name := cs.takeWhile isNameChar
        indices
        name_ne := hname
        nameChars := fun c hc => List.mem_takeWhile_imp hc
        digits_ne := fun digits hm => (hindices digits hm).1
        digits := fun digits hm => (hindices digits hm).2.1 }
    have hfits : first.Fits := fun digits hm => (hindices digits hm).2.2
    have hcs : cs = first.text ++ rest := by
      calc cs = cs.takeWhile isNameChar ++ cs.dropWhile isNameChar := List.takeWhile_append_dropWhile.symm
        _ = first.text ++ rest := by rw [hbrackets]; simp [first, PathSegment.text]
    split at h
    · cases h
      exact ⟨[first], by simp, by simpa using hfits, by simpa using hcs, by simp [first, PathSegment.steps, hnumbers]⟩
    · rename_i c rest' _
      split at h
      · rename_i hdot
        subst hdot
        obtain ⟨more, hmore, rfl⟩ := Option.map_eq_some_iff.mp h
        have hless : rest'.length < n := by
          have := congrArg List.length hcs
          simp only [List.length_append, List.length_cons] at this
          omega
        obtain ⟨segments, hne, hfits', rfl, rfl⟩ := ih _ hless hmore rfl
        obtain ⟨s, segments, rfl⟩ := List.exists_cons_of_ne_nil hne
        exact ⟨first :: s :: segments, by simp, List.forall_mem_cons.mpr ⟨hfits, hfits'⟩, by simpa using hcs,
          by simp [first, PathSegment.steps, hnumbers]⟩
      · cases h

/-! ## Paths as they are printed -/

/-- A name in lower case is a name that stays as it is. -/
theorem folded_name {name : List Char} (hne : name ≠ []) (hname : ∀ c ∈ name, isNameChar c = true) :
    let name' := (foldCase (String.ofList name)).toList
    name' ≠ [] ∧ (∀ c ∈ name', isNameChar c = true) ∧ foldCase (String.ofList name') = foldCase (String.ofList name) :=
  recased_name (by simp only [foldCase, String.toList_ofList, List.map_map, Function.comp_def, toLower_toLower]) hne hname

/-- Steps behind a first name are printed as a text of these steps. -/
theorem Continues.rendered {cs : List Char} {steps : List PathStep} (h : Continues cs steps) :
    Continues (String.join (steps.map renderStep)).toList steps := by
  induction h with
  | done => exact .done
  | @field name cs steps hne hname _ ih =>
    obtain ⟨hne', hchars, hfold⟩ := folded_name hne hname
    have hfield := Continues.field hne' hchars ih
    rw [hfold] at hfield
    simpa [renderStep] using hfield
  | @index digits cs steps hne hdigits hfits _ ih =>
    have hindex := (continues_index hfits).append ih
    simpa [renderStep] using hindex

theorem Writes.rendered {cs : List Char} {steps : List PathStep} (h : Writes cs steps) :
    Writes (render ⟨steps⟩).toList steps := by
  cases h with
  | @intro name cs steps hne hname h =>
    obtain ⟨hne', hchars, hfold⟩ := folded_name hne hname
    have hwrites := Writes.intro hne' hchars h.rendered
    rw [hfold] at hwrites
    simpa [render] using hwrites

theorem parse_eq_ok_iff_join {text : String} {p : FieldPath} :
    parse text = .ok p ↔
      ∃ segments, segments ≠ [] ∧ (∀ s ∈ segments, PathSegment.Fits s) ∧ text.toList = PathSegment.join segments ∧
        p.steps = segments.flatMap PathSegment.steps := by
  constructor
  · intro h
    rw [parse] at h
    split at h
    · rename_i steps hsteps
      cases h
      exact join_of_parseSteps? hsteps
    · cases h
  · rintro ⟨segments, hne, hfits, htext, hsteps⟩
    have hwrites := writes_join hne hfits
    rw [← htext, ← hsteps] at hwrites
    exact hwrites.parse

theorem parse_render_of_parse {text : String} {p : FieldPath} (h : parse text = .ok p) : parse p.render = .ok p := by
  obtain ⟨segments, hne, hfits, -, hsteps⟩ := parse_eq_ok_iff_join.mp h
  have hwrites := (writes_join hne hfits).rendered
  rw [← hsteps] at hwrites
  exact hwrites.parse

/-- Exactly the segments with dots between them parse, as long as all numbers fit in 64 bits, and they
parse to their names in lower case and their numbers. A path that was parsed parses again from the
text it is printed as. -/
theorem parse_grammar (text : String) (p : FieldPath) :
    (parse text = .ok p ↔
      ∃ segments, segments ≠ [] ∧ (∀ s ∈ segments, PathSegment.Fits s) ∧ text.toList = PathSegment.join segments ∧
        p.steps = segments.flatMap PathSegment.steps) ∧
    (parse text = .ok p → parse p.render = .ok p) :=
  ⟨parse_eq_ok_iff_join, parse_render_of_parse⟩

/-- Upper case, more than one index and leading zeros. -/
theorem parse_grammar_zeros :
    let p : FieldPath := ⟨[.field "head", .index 7, .index 18446744073709551615, .field "x_1"]⟩
    parse "Head[007][18446744073709551615].X_1" = .ok p ∧ parse p.render = .ok p := by
  intro p
  have hparse : parse "Head[007][18446744073709551615].X_1" = .ok p := by decide +kernel
  exact ⟨hparse, (parse_grammar _ p).2 hparse⟩

end FieldPath
end LayoutScript
