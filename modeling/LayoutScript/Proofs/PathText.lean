import LayoutScript.Path
import LayoutScript.Proofs.TokenParts

/-! # The texts of paths

A path is written as a name with more names behind it, each after a dot, and with numbers in
brackets anywhere behind the first name. Such a text is parsed to its steps, whatever case its
letters have.
-/
namespace LayoutScript
namespace FieldPath

/-- The texts of the steps behind a first name. -/
inductive Continues : List Char → List PathStep → Prop where
  | done : Continues [] []
  | field {name cs : List Char} {steps : List PathStep} (hne : name ≠ []) (hname : ∀ c ∈ name, isNameChar c = true)
    (h : Continues cs steps) : Continues ('.' :: (name ++ cs)) (.field (foldCase (String.ofList name)) :: steps)
  | index {digits cs : List Char} {steps : List PathStep} (hne : digits ≠ []) (hdigits : ∀ c ∈ digits, c.isDigit = true)
    (hfits : decimalValue digits < 2 ^ 64) (h : Continues cs steps) :
    Continues ('[' :: (digits ++ ']' :: cs)) (.index (decimalValue digits) :: steps)

/-- The texts of paths. -/
inductive Writes : List Char → List PathStep → Prop where
  | intro {name cs : List Char} {steps : List PathStep} (hne : name ≠ []) (hname : ∀ c ∈ name, isNameChar c = true)
    (h : Continues cs steps) : Writes (name ++ cs) (.field (foldCase (String.ofList name)) :: steps)

namespace Continues
variable {cs cs' : List Char} {steps steps' : List PathStep}

theorem append (h : Continues cs steps) (h' : Continues cs' steps') : Continues (cs ++ cs') (steps ++ steps') := by
  induction h with
  | done => exact h'
  | field hne hname _ ih =>
    rw [List.cons_append, List.append_assoc]
    exact .field hne hname ih
  | index hne hdigits hfits _ ih =>
    rw [List.cons_append, List.append_assoc, List.cons_append]
    exact .index hne hdigits hfits ih

theorem head (h : Continues cs steps) : ∀ c ∈ cs.head?, isNameChar c = false := by
  cases h with
  | done => exact fun c hc => by cases hc
  | field | index =>
    rintro c hc
    cases hc
    decide

end Continues

/-! ## Parsing -/

theorem index?_digits {digits : List Char} (hne : digits ≠ []) (hdigits : ∀ c ∈ digits, c.isDigit = true)
    (hfits : decimalValue digits < 2 ^ 64) : index? digits = some (decimalValue digits) := by
  have hdecimal : decimal? digits = some (decimalValue digits) := by
    rw [decimal?, if_neg]
    simp only [Bool.or_eq_true, List.isEmpty_iff, Bool.not_eq_true', not_or, Bool.not_eq_false]
    exact ⟨hne, List.all_eq_true.mpr hdigits⟩
  rw [index?, hdecimal, Option.filter_some]
  exact if_pos (decide_eq_true hfits)

/-- Behind a number in brackets indices are parsed as if it was not there. -/
theorem parseIndices?_index {digits cs : List Char} (hne : digits ≠ []) (hdigits : ∀ c ∈ digits, c.isDigit = true)
    (hfits : decimalValue digits < 2 ^ 64) :
    parseIndices? ('[' :: (digits ++ ']' :: cs)) =
      (parseIndices? cs).map fun p => (.index (decimalValue digits) :: p.1, p.2) := by
  have hdrop : (digits ++ ']' :: cs).dropWhile Char.isDigit = ']' :: cs := by
    rw [List.dropWhile_append_of_pos hdigits, List.dropWhile_cons_of_neg (by decide)]
  have htake : (digits ++ ']' :: cs).takeWhile Char.isDigit = digits := by
    rw [List.takeWhile_append_of_pos hdigits, List.takeWhile_cons_of_neg (by decide), List.append_nil]
  rw [parseIndices?, htake, index?_digits hne hdigits hfits]
  split
  · rename_i _ _ hrest hn
    rw [hdrop] at hrest
    cases hrest
    cases hn
    cases parseIndices? cs <;> rfl
  · rename_i hno
    exact absurd rfl (hno _ _ hdrop)

theorem parseIndices?_other {cs : List Char} (h : ∀ rest, cs ≠ '[' :: rest) : parseIndices? cs = some ([], cs) := by
  rw [parseIndices?.eq_def]
  split
  · exact absurd rfl (h _)
  · rfl

/-- How the text behind a name is parsed: indices, and then nothing or the steps behind a dot. -/
theorem Continues.parseIndices? {cs : List Char} {steps : List PathStep} (h : Continues cs steps) :
    ∃ indices rest, FieldPath.parseIndices? cs = some (indices, rest) ∧
      (rest = [] ∧ steps = indices ∨
        ∃ rest' more, rest = '.' :: rest' ∧ Writes rest' more ∧ steps = indices ++ more) := by
  induction h with
  | done => exact ⟨[], [], parseIndices?_other (fun _ h => by cases h), .inl ⟨rfl, rfl⟩⟩
  | field hne hname h _ =>
    exact ⟨[], _, parseIndices?_other (fun _ h => by cases h), .inr ⟨_, _, rfl, .intro hne hname h, rfl⟩⟩
  | @index digits _ _ hne hdigits hfits _ ih =>
    obtain ⟨indices, rest, hparse, hcases⟩ := ih
    refine ⟨.index (decimalValue digits) :: indices, rest, ?_, ?_⟩
    · rw [parseIndices?_index hne hdigits hfits, hparse]
      rfl
    · rcases hcases with ⟨hrest, hsteps⟩ | ⟨rest', more, hrest, hmore, hsteps⟩
      · exact .inl ⟨hrest, by rw [hsteps]⟩
      · exact .inr ⟨rest', more, hrest, hmore, by rw [hsteps]; rfl⟩

theorem Continues.span {cs : List Char} {steps : List PathStep} (h : Continues cs steps) {name : List Char}
    (hname : ∀ c ∈ name, isNameChar c = true) :
    (name ++ cs).takeWhile isNameChar = name ∧ (name ++ cs).dropWhile isNameChar = cs := by
  rw [List.takeWhile_append_of_pos hname, List.dropWhile_append_of_pos hname]
  have hhead := h.head
  cases cs with
  | nil => exact ⟨List.append_nil _, rfl⟩
  | cons c rest =>
    have hc := Bool.eq_false_iff.mp (hhead c rfl)
    rw [List.takeWhile_cons_of_neg hc, List.dropWhile_cons_of_neg hc]
    exact ⟨List.append_nil _, rfl⟩

/-- A text of a path is parsed to its steps. -/
theorem Writes.parseSteps? {cs : List Char} {steps : List PathStep} (h : Writes cs steps) :
    FieldPath.parseSteps? cs = some steps := by
  induction hn : cs.length using Nat.strongRecOn generalizing cs steps with
  | _ n ih =>
    cases h with
    | @intro name cs steps hne hname h =>
      obtain ⟨htake, hdrop⟩ := h.span hname
      obtain ⟨indices, rest, hparse, hcases⟩ := h.parseIndices?
      rw [FieldPath.parseSteps?, htake, dif_neg hne]
      split
      · rename_i hnone
        rw [hdrop, hparse] at hnone
        cases hnone
      · rename_i indices' rest' hsome
        rw [hdrop, hparse] at hsome
        cases hsome
        rcases hcases with ⟨rfl, rfl⟩ | ⟨rest', more, rfl, hmore, rfl⟩
        · rfl
        · have hle := parseIndices?_le hparse
          have hless : rest'.length < n := by
            rw [List.length_cons] at hle
            rw [← hn, List.length_append]
            omega
          dsimp only
          rw [if_pos rfl, ih _ hless hmore rfl]
          rfl

theorem Writes.parse {text : String} {steps : List PathStep} (h : Writes text.toList steps) : parse text = .ok ⟨steps⟩ := by
  rw [FieldPath.parse, h.parseSteps?]

/-! ## Other cases and longer texts -/

section recased
variable {cs cs' : List Char} {steps steps' : List PathStep}

theorem recased_name {name name' : List Char} (hsame : name'.map Char.toLower = name.map Char.toLower) (hne : name ≠ [])
    (hname : ∀ c ∈ name, isNameChar c = true) :
    name' ≠ [] ∧ (∀ c ∈ name', isNameChar c = true) ∧ foldCase (String.ofList name') = foldCase (String.ofList name) := by
  refine ⟨?_, ?_, Caseless.foldCase.eq hsame⟩
  · rintro rfl
    exact hne (List.map_eq_nil_iff.mp hsame.symm)
  · exact List.all_eq_true.mp ((CaseBlind.isNameChar.all.eq hsame).trans (List.all_eq_true.mpr hname))

theorem Continues.recased (h : Continues cs steps) (hsame : cs'.map Char.toLower = cs.map Char.toLower) :
    Continues cs' steps := by
  induction h generalizing cs' with
  | done =>
    rw [List.map_eq_nil_iff.mp hsame]
    exact .done
  | @field name cs steps hne hname h ih =>
    obtain ⟨dot, rest, rfl, hdot, hrest⟩ := List.map_eq_cons_iff.mp hsame
    obtain ⟨name', cs'', rfl, hname', hcs⟩ := List.map_eq_append_iff.mp (hrest.trans List.map_append)
    obtain ⟨hne', hchars, hfold⟩ := recased_name hname' hne hname
    rw [eq_of_toLower_eq (c := '.') hdot rfl, ← hfold]
    exact .field hne' hchars (ih hcs)
  | @index digits cs steps hne hdigits hfits h ih =>
    obtain ⟨bracket, rest, rfl, hbracket, hrest⟩ := List.map_eq_cons_iff.mp hsame
    obtain ⟨digits', rest', rfl, hdigits', hrest⟩ := List.map_eq_append_iff.mp (hrest.trans List.map_append)
    obtain ⟨closing, cs'', rfl, hclosing, hcs⟩ := List.map_eq_cons_iff.mp hrest
    have hletters : ∀ c ∈ digits, c.isAlpha = false := fun c hc => isAlpha_of_isDigit (hdigits c hc)
    rw [eq_of_toLower_eq (c := '[') hbracket rfl, eq_of_toLower_eq (c := ']') hclosing rfl,
      eq_of_map_toLower_eq hdigits' hletters]
    exact .index hne hdigits hfits (ih hcs)

/-- The case of the letters of a path does not matter. -/
theorem Writes.recased (h : Writes cs steps) (hsame : cs'.map Char.toLower = cs.map Char.toLower) : Writes cs' steps := by
  cases h with
  | @intro name cs steps hne hname h =>
    obtain ⟨name', cs'', rfl, hname', hcs⟩ := List.map_eq_append_iff.mp (hsame.trans List.map_append)
    obtain ⟨hne', hchars, hfold⟩ := recased_name hname' hne hname
    rw [← hfold]
    exact .intro hne' hchars (h.recased hcs)

theorem Writes.append (h : Writes cs steps) (h' : Continues cs' steps') : Writes (cs ++ cs') (steps ++ steps') := by
  cases h with
  | intro hne hname h =>
    rw [List.append_assoc]
    exact .intro hne hname (h.append h')

end recased

/-- The number of an element in brackets. -/
theorem continues_index {i : Nat} (hfits : i < 2 ^ 64) : Continues ("[" ++ toString i ++ "]").toList [.index i] := by
  have hvalue : decimalValue (Nat.toDigits 10 i) = i := Nat.ofDigitChars_ten_toDigits
  have hdigits : ∀ c ∈ Nat.toDigits 10 i, c.isDigit = true := fun c hc => Nat.isDigit_of_mem_toDigits (by decide) (by decide) hc
  have hindex := Continues.index Nat.toDigits_ne_nil hdigits (hvalue.symm ▸ hfits) .done
  rw [hvalue] at hindex
  have htext : ("[" ++ toString i ++ "]").toList = '[' :: (Nat.toDigits 10 i ++ [']']) := by
    simp only [String.toList_append, Nat.toString_eq_ofList_toDigits, String.toList_ofList]
    rfl
  rw [htext]
  exact hindex

end FieldPath
end LayoutScript
