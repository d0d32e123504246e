import LayoutScript.Proofs.TokenParts

/-! # Texts in lower case

The characters that scripts and expressions are told apart by are not letters, so a text is cut
into the same parts whatever the case of its letters. Only the names of external values are kept
as they are written: a text is put in lower case apart from its identifiers that begin with a
dollar sign.
-/
namespace LayoutScript

/-- Where a text is: outside its identifiers, or in one. An identifier is as long as the names of
expressions are, dots and dollar signs included. -/
inductive Spot where
  | between | word
  /-- In an identifier that begins with a dollar sign. -/
  | external
deriving DecidableEq

namespace Spot
open PlacedLexeme (isExprNameChar)

/-- Where the text is with one more character. -/
def next (s : Spot) (c : Char) : Spot :=
  if isExprNameChar c then
    if s = .between then if c = '$' then .external else .word else s
  else .between

/-- Where the text is behind more of it. -/
def behind (s : Spot) (cs : List Char) : Spot := cs.foldl next s

theorem next_between {s : Spot} {c : Char} (h : isExprNameChar c = false) : s.next c = .between := by
  rw [next, h]
  rfl

end Spot

/-- A text in lower case from some place on, apart from its identifiers that begin with a dollar
sign. -/
def lowerFrom : Spot → List Char → List Char
  | _, [] => []
  | s, c :: cs => (if s.next c = .external then c else c.toLower) :: lowerFrom (s.next c) cs

/-- A script in lower case, apart from its identifiers that begin with a dollar sign. -/
def lowerText (s : String) : String := String.ofList (lowerFrom .between s.toList)

section lowerFrom
variable {p : Char → Bool} (s : Spot) (cs ds : List Char)

theorem lowerFrom_append : lowerFrom s (cs ++ ds) = lowerFrom s cs ++ lowerFrom (s.behind cs) ds := by
  induction cs generalizing s with
  | nil => rfl
  | cons c cs ih => rw [List.cons_append, lowerFrom, ih, lowerFrom, List.cons_append, Spot.behind, Spot.behind, List.foldl_cons]

theorem map_toLower_lowerFrom : (lowerFrom s cs).map Char.toLower = cs.map Char.toLower := by
  induction cs generalizing s with
  | nil => rfl
  | cons c cs ih =>
    rw [lowerFrom, List.map_cons, List.map_cons, ih]
    split
    · rfl
    · rw [toLower_toLower]

theorem CaseBlind.lowered {α : Type} {f : Char → α} (hf : CaseBlind f) (s : Spot) (c : Char) :
    f (if s.next c = .external then c else c.toLower) = f c := by
  split
  · rfl
  · exact hf c

theorem byteLength_lowerFrom : byteLength (lowerFrom s cs) = byteLength cs := by
  induction cs generalizing s with
  | nil => rfl
  | cons c cs ih => rw [lowerFrom, byteLength_cons, byteLength_cons, ih, CaseBlind.utf8Size.lowered]

theorem takeBytes_lowerFrom (n : Nat) : takeBytes n (lowerFrom s cs) = lowerFrom s (takeBytes n cs) := by
  induction cs generalizing s n with
  | nil => cases n <;> rfl
  | cons c cs ih =>
    cases n with
    | zero => rfl
    | succ n => rw [lowerFrom, takeBytes, takeBytes, lowerFrom, ih, CaseBlind.utf8Size.lowered]

theorem takeWhile_lowerFrom (hp : CaseBlind p) : (lowerFrom s cs).takeWhile p = lowerFrom s (cs.takeWhile p) := by
  induction cs generalizing s with
  | nil => rfl
  | cons c cs ih =>
    rw [lowerFrom, List.takeWhile_cons, List.takeWhile_cons, hp.lowered, ih]
    split <;> rfl

theorem dropWhile_lowerFrom (hp : CaseBlind p) :
    (lowerFrom s cs).dropWhile p = lowerFrom (s.behind (cs.takeWhile p)) (cs.dropWhile p) := by
  induction cs generalizing s with
  | nil => rfl
  | cons c cs ih =>
    rw [lowerFrom, List.takeWhile_cons, List.dropWhile_cons, List.dropWhile_cons, hp.lowered, ih]
    split
    · rfl
    · rw [Spot.behind, List.foldl_nil, lowerFrom]

theorem rdropWhile_lowerFrom (hp : CaseBlind p) : (lowerFrom s cs).rdropWhile p = lowerFrom s (cs.rdropWhile p) := by
  induction cs using List.reverseRecOn with
  | nil => rfl
  | append_singleton cs c ih =>
    rw [lowerFrom_append, lowerFrom, lowerFrom, List.rdropWhile_concat, List.rdropWhile_concat, hp.lowered, ih]
    split
    · rfl
    · rw [lowerFrom_append, lowerFrom, lowerFrom]

end lowerFrom

section external
open PlacedLexeme (isExprNameChar)
variable {cs : List Char}

theorem not_isExprNameChar_of_isWhiteSpace {c : Char} (h : isWhiteSpace c = true) : isExprNameChar c = false := by
  by_contra hname
  rw [Bool.not_eq_false, isExprNameChar, Char.isAlphanum] at hname
  simp only [Bool.or_eq_true, beq_iff_eq] at hname
  rcases hname with (((hletter | hdigit) | rfl) | rfl) | rfl
  · have hblind := CaseBlind.isAlpha_spec hletter
    simp only [isWhiteSpace, Bool.or_eq_true, Bool.and_eq_true, decide_eq_true_eq, beq_iff_eq] at h
    omega
  · have hbounds : 48 ≤ c.toNat ∧ c.toNat ≤ 57 := Char.isDigit_iff_toNat.mp hdigit
    simp only [isWhiteSpace, Bool.or_eq_true, Bool.and_eq_true, decide_eq_true_eq, beq_iff_eq] at h
    omega
  all_goals revert h; decide

theorem Spot.behind_between (h : ∀ c ∈ cs, isExprNameChar c = false) : Spot.between.behind cs = .between := by
  induction cs with
  | nil => rfl
  | cons c cs ih =>
    obtain ⟨hc, hcs⟩ := List.forall_mem_cons.mp h
    rw [behind, List.foldl_cons, next_between hc]
    exact ih hcs

theorem trimmed_lowerFrom (cs : List Char) : trimmed (lowerFrom .between cs) = lowerFrom .between (trimmed cs) := by
  have hlead : Spot.between.behind (cs.takeWhile isWhiteSpace) = .between :=
    Spot.behind_between fun c hc => not_isExprNameChar_of_isWhiteSpace (List.mem_takeWhile_imp hc)
  have htrim (cs : List Char) : trimmed cs = (cs.dropWhile isWhiteSpace).rdropWhile isWhiteSpace := rfl
  rw [htrim, htrim, dropWhile_lowerFrom _ _ .isWhiteSpace, hlead, rdropWhile_lowerFrom _ _ .isWhiteSpace]

theorem lowerFrom_external (h : ∀ c ∈ cs, isExprNameChar c = true) : lowerFrom .external cs = cs := by
  induction cs with
  | nil => rfl
  | cons c cs ih =>
    obtain ⟨hc, hcs⟩ := List.forall_mem_cons.mp h
    have hnext : Spot.external.next c = .external := by
      rw [Spot.next, if_pos hc]
      rfl
    rw [lowerFrom, hnext, if_pos rfl, ih hcs]

/-- The name of an external value stays as it is. -/
theorem lowerFrom_dollar (h : ∀ c ∈ cs, isExprNameChar c = true) : lowerFrom .between ('$' :: cs) = '$' :: cs := by
  change '$' :: lowerFrom .external cs = _
  rw [lowerFrom_external h]

end external

theorem toList_lowerText_map (s : String) : (lowerText s).toList.map Char.toLower = s.toList.map Char.toLower := by
  rw [lowerText, String.toList_ofList, map_toLower_lowerFrom]

theorem foldCase_lowerText (s : String) : foldCase (lowerText s) = foldCase s := by
  rw [foldCase, toList_lowerText_map, foldCase]

end LayoutScript
