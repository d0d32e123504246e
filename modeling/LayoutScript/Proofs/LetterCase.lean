import Mathlib.Data.List.DropRight
import LayoutScript.Expr.Lexeme
import LayoutScript.Text.Numeral
import LayoutScript.Token.Scan

/-! # The case of letters

Names compare in lower case, and the characters that texts are told apart by are not letters. A
test of characters that all letters pass or all fail does not see their case, and neither does what
is told of a text by such tests.
-/
namespace LayoutScript

/-! ## Characters -/

/-- A letter of the upper case becomes a letter of the lower case, and every other character
stays. -/
theorem toLower_cases (c : Char) : c.isUpper = false ∧ c.toLower = c ∨ c.isUpper = true ∧ c.toLower.isLower = true := by
  by_cases hupper : c.val ≥ 'A'.val ∧ c.val ≤ 'Z'.val
  · right
    have hval : c.toLower.val = c.val + ('a'.val - 'A'.val) := congrArg Char.val (dif_pos hupper)
    have hlower : c.toLower.val ≥ 'a'.val ∧ c.toLower.val ≤ 'z'.val := by
      rw [hval]
      simp only [ge_iff_le, UInt32.le_iff_toNat_le, UInt32.reduceToNat, Char.reduceVal, UInt32.toNat_add,
        UInt32.reduceSub] at hupper ⊢
      omega
    exact ⟨decide_eq_true hupper, Bool.and_eq_true_iff.mpr ⟨decide_eq_true hlower.1, decide_eq_true hlower.2⟩⟩
  · left
    exact ⟨decide_eq_false hupper, dif_neg hupper⟩

theorem isUpper_of_isLower {c : Char} (h : c.isLower = true) : c.isUpper = false := by
  have hlower : c.val ≥ 'a'.val ∧ c.val ≤ 'z'.val :=
    (Bool.and_eq_true_iff.mp h).imp of_decide_eq_true of_decide_eq_true
  have hupper : ¬ (c.val ≥ 'A'.val ∧ c.val ≤ 'Z'.val) := by
    simp only [ge_iff_le, UInt32.le_iff_toNat_le, UInt32.reduceToNat, Char.reduceVal] at hlower ⊢
    omega
  exact decide_eq_false hupper

theorem isAlpha_of_isDigit {c : Char} (h : c.isDigit = true) : c.isAlpha = false := by
  have hdigit : c.val ≥ '0'.val ∧ c.val ≤ '9'.val :=
    (Bool.and_eq_true_iff.mp h).imp of_decide_eq_true of_decide_eq_true
  simp only [ge_iff_le, UInt32.le_iff_toNat_le, UInt32.reduceToNat, Char.reduceVal] at hdigit
  have hupper : ¬ (c.val ≥ 'A'.val ∧ c.val ≤ 'Z'.val) := by
    simp only [ge_iff_le, UInt32.le_iff_toNat_le, UInt32.reduceToNat, Char.reduceVal]
    omega
  have hlower : ¬ c.val ≥ 'a'.val := by
    simp only [ge_iff_le, UInt32.le_iff_toNat_le, UInt32.reduceToNat, Char.reduceVal]
    omega
  exact Bool.or_eq_false_iff.mpr ⟨decide_eq_false hupper, Bool.and_eq_false_iff.mpr (.inl (decide_eq_false hlower))⟩

theorem toLower_toLower (c : Char) : c.toLower.toLower = c.toLower := by
  rcases toLower_cases c with ⟨-, hsame⟩ | ⟨-, hlower⟩
  · rw [hsame, hsame]
  · rcases toLower_cases c.toLower with ⟨-, hsame⟩ | ⟨hupper, -⟩
    · exact hsame
    · rw [isUpper_of_isLower hlower] at hupper
      cases hupper

/-- A character that is no letter is told by its lower case. -/
theorem eq_of_toLower_eq {c c' : Char} (h : c'.toLower = c.toLower) (hc : c.isAlpha = false) : c' = c := by
  obtain ⟨hupper, hlower⟩ := Bool.or_eq_false_iff.mp hc
  rcases toLower_cases c with ⟨-, hsame⟩ | ⟨hletter, -⟩
  swap
  · rw [hupper] at hletter
    cases hletter
  rw [hsame] at h
  rcases toLower_cases c' with ⟨-, hsame'⟩ | ⟨-, hlower'⟩
  · rw [← hsame', h]
  · rw [h, hlower] at hlower'
    cases hlower'

/-- A text without letters has no other cases. -/
theorem eq_of_map_toLower_eq {cs cs' : List Char} (hsame : cs'.map Char.toLower = cs.map Char.toLower)
    (hcs : ∀ c ∈ cs, c.isAlpha = false) : cs' = cs := by
  induction cs generalizing cs' with
  | nil => exact List.map_eq_nil_iff.mp hsame
  | cons c cs ih =>
    obtain ⟨hc, hcs⟩ := List.forall_mem_cons.mp hcs
    obtain ⟨c', rest, rfl, hc', hrest⟩ := List.map_eq_cons_iff.mp hsame
    rw [eq_of_toLower_eq hc' hc, ih hrest hcs]

/-- Nothing is told of a character by the case of a letter. -/
def CaseBlind {α : Type} (f : Char → α) : Prop := ∀ c : Char, f c.toLower = f c

namespace CaseBlind
variable {p q : Char → Bool}

/-- All letters are told the same of. -/
theorem of_letters {α : Type} {f : Char → α} {a : α} (h : ∀ c : Char, c.isAlpha = true → f c = a) : CaseBlind f := by
  intro c
  rcases toLower_cases c with ⟨-, hsame⟩ | ⟨hupper, hlower⟩
  · rw [hsame]
  · rw [h c (Bool.or_eq_true_iff.mpr (.inl hupper)), h c.toLower (Bool.or_eq_true_iff.mpr (.inr hlower))]

theorem eq {d : Char} (hd : d.isAlpha = false) : CaseBlind (· == d) := by
  refine of_letters (a := false) fun c hc => beq_eq_false_iff_ne.mpr ?_
  rintro rfl
  rw [hd] at hc
  cases hc

theorem eq_iff {c d : Char} (hd : d.isAlpha = false) : c.toLower = d ↔ c = d := by
  rw [← beq_iff_eq, ← beq_iff_eq (a := c)]
  exact Eq.congr_left (eq hd c)

theorem not (hp : CaseBlind p) : CaseBlind fun c => !p c := fun c => congrArg Bool.not (hp c)

theorem or (hp : CaseBlind p) (hq : CaseBlind q) : CaseBlind fun c => p c || q c := fun c => congrArg₂ Bool.or (hp c) (hq c)

theorem isBlank : CaseBlind isBlank := ((((eq rfl).or (eq rfl)).or (eq rfl)).or (eq rfl)).or (eq rfl)

theorem isStop : CaseBlind Token.isStop := ((((eq rfl).or (eq rfl)).or (eq rfl)).or (eq rfl)).or (eq rfl)

theorem isAlpha : CaseBlind Char.isAlpha := of_letters fun _ h => h

theorem isDigit : CaseBlind Char.isDigit := by
  refine of_letters (a := false) fun c hc => ?_
  by_contra hdigit
  rw [isAlpha_of_isDigit (Bool.not_eq_false _ ▸ hdigit)] at hc
  cases hc

theorem isAlphanum : CaseBlind Char.isAlphanum := isAlpha.or isDigit

theorem isNameChar : CaseBlind isNameChar := isAlphanum.or (eq rfl)

theorem isExprNameChar : CaseBlind PlacedLexeme.isExprNameChar := ((isAlphanum.or (eq rfl)).or (eq rfl)).or (eq rfl)

theorem startsName : CaseBlind PlacedLexeme.startsName := (isAlpha.or (eq rfl)).or (eq rfl)

theorem isAlpha_spec {c : Char} (h : c.isAlpha = true) : 65 ≤ c.toNat ∧ c.toNat ≤ 122 := by
  rw [← Char.toNat_val]
  rcases Bool.or_eq_true_iff.mp h with hupper | hlower
  · have hval : c.val ≥ 'A'.val ∧ c.val ≤ 'Z'.val := of_decide_eq_true hupper
    simp only [ge_iff_le, UInt32.le_iff_toNat_le, UInt32.reduceToNat, Char.reduceVal] at hval
    omega
  · have hval : c.val ≥ 'a'.val ∧ c.val ≤ 'z'.val := (Bool.and_eq_true_iff.mp hlower).imp of_decide_eq_true of_decide_eq_true
    simp only [ge_iff_le, UInt32.le_iff_toNat_le, UInt32.reduceToNat, Char.reduceVal] at hval
    omega

theorem isWhiteSpace : CaseBlind isWhiteSpace := by
  refine of_letters (a := false) fun c hc => ?_
  have hletter := isAlpha_spec hc
  simp only [LayoutScript.isWhiteSpace, Bool.or_eq_false_iff, Bool.and_eq_false_iff, decide_eq_false_iff_not,
    beq_eq_false_iff_ne]
  omega

theorem utf8Size : CaseBlind Char.utf8Size := by
  refine of_letters (a := 1) fun c hc => Char.utf8Size_eq_one_iff.mpr ?_
  have hletter := isAlpha_spec hc
  rw [UInt32.le_iff_toNat_le, Char.toNat_val]
  exact hletter.2.trans (by decide)

end CaseBlind

/-! ## Texts -/

theorem foldCase_ofList (cs : List Char) : foldCase (String.ofList cs) = String.ofList (cs.map Char.toLower) := by
  rw [foldCase, String.toList_ofList]

theorem foldCase_append (s t : String) : foldCase (s ++ t) = foldCase s ++ foldCase t := by
  rw [foldCase, String.toList_append, List.map_append, String.ofList_append]
  rfl

/-- Nothing is told of a text by the case of its letters. -/
def Caseless {α : Type} (f : List Char → α) : Prop := ∀ cs, f (cs.map Char.toLower) = f cs

theorem Caseless.eq {α : Type} {f : List Char → α} (hf : Caseless f) {cs cs' : List Char}
    (h : cs'.map Char.toLower = cs.map Char.toLower) : f cs' = f cs := by
  rw [← hf, h, hf]

namespace CaseBlind
variable {p : Char → Bool} (hp : CaseBlind p)
include hp

theorem dropWhile_map (cs : List Char) : (cs.map Char.toLower).dropWhile p = (cs.dropWhile p).map Char.toLower := by
  rw [List.dropWhile_map, show p ∘ Char.toLower = p from funext hp]

theorem takeWhile_map (cs : List Char) : (cs.map Char.toLower).takeWhile p = (cs.takeWhile p).map Char.toLower := by
  rw [List.takeWhile_map, show p ∘ Char.toLower = p from funext hp]

theorem all_map (cs : List Char) : (cs.map Char.toLower).all p = cs.all p := by
  rw [List.all_map, show p ∘ Char.toLower = p from funext hp]

theorem all : Caseless fun cs => cs.all p := hp.all_map

theorem head?_any_map (cs : List Char) : (cs.map Char.toLower).head?.any p = cs.head?.any p := by
  cases cs with
  | nil => rfl
  | cons c cs => exact hp c

theorem head?_any : Caseless fun cs => cs.head?.any p := hp.head?_any_map

end CaseBlind

theorem trimmed_map (cs : List Char) : trimmed (cs.map Char.toLower) = (trimmed cs).map Char.toLower := by
  simp only [trimmed, trimBy, CaseBlind.isWhiteSpace.dropWhile_map, ← List.map_reverse]

namespace Caseless

theorem map_toLower : Caseless (List.map Char.toLower) := by
  intro cs
  rw [List.map_map]
  exact List.map_congr_left fun c _ => toLower_toLower c

theorem isEmpty : Caseless List.isEmpty := fun _ => List.isEmpty_map

theorem foldCase_map (cs : List Char) : foldCase (String.ofList (cs.map Char.toLower)) = foldCase (String.ofList cs) := by
  rw [foldCase_ofList, foldCase_ofList, map_toLower]

theorem foldCase : Caseless fun cs => foldCase (String.ofList cs) := foldCase_map

theorem byteLength : Caseless byteLength := by
  intro cs
  induction cs with
  | nil => rfl
  | cons c cs ih => rw [List.map_cons, byteLength_cons, byteLength_cons, ih, CaseBlind.utf8Size]

theorem decimal? : Caseless decimal? := by
  intro cs
  by_cases hdigits : cs.all Char.isDigit
  -- Digits have no case, and a text with anything else is no numeral in any case.
  · rw [eq_of_map_toLower_eq (map_toLower cs) fun c hc => isAlpha_of_isDigit (List.all_eq_true.mp hdigits c hc)]
  · rw [LayoutScript.decimal?, LayoutScript.decimal?, CaseBlind.isDigit.all_map, if_pos (by simp [hdigits]),
      if_pos (by simp [hdigits])]

end Caseless

theorem foldCase_foldCase (s : String) : foldCase (foldCase s) = foldCase s := by
  rw [foldCase, toList_foldCase, Caseless.map_toLower, foldCase]

end LayoutScript
