import LayoutScript.Proofs.ExprDescent
import LayoutScript.Proofs.DraftSteps

/-! # The names of expressions

A parser asks a resolver for the index of every name that it meets and does nothing else with
the answer. Two resolvers that know the same names therefore give expressions of one shape,
and every field of an expression is an answer to a name.
-/
namespace LayoutScript

/-- The index stands for some name. -/
def Resolver.Gives (resolve : Resolver) (index : Nat) : Prop := ∃ name, resolve name = .ok (some index)

/-- Every name that `resolve` knows is known. -/
def Resolver.Covers (resolve' resolve : Resolver) : Prop :=
  ∀ name index, resolve name = .ok (some index) → ∃ index', resolve' name = .ok (some index')

namespace Expr

/-- Expressions that differ in nothing but the indices that stand for the same names. -/
inductive Alike (resolve resolve' : Resolver) : Expr → Expr → Prop where
  | literal (n : Int32) : Alike resolve resolve' (.literal n) (.literal n)
  | external (name : String) : Alike resolve resolve' (.external name) (.external name)
  | position : Alike resolve resolve' .position .position
  | field {name : String} {index index' : Nat} (h : resolve name = .ok (some index))
    (h' : resolve' name = .ok (some index')) : Alike resolve resolve' (.field index) (.field index')
  | unary (op : UnaryOp) {e e' : Expr} (h : Alike resolve resolve' e e') :
    Alike resolve resolve' (.unary op e) (.unary op e')
  | binary (op : BinaryOp) {left left' right right' : Expr} (hl : Alike resolve resolve' left left')
    (hr : Alike resolve resolve' right right') :
    Alike resolve resolve' (.binary op left right) (.binary op left' right')

section parsers
variable {text : String} {resolve resolve' : Resolver}

theorem ofNumber_alike {pos : Nat} {digits : List Char} {e : Expr} (h : ofNumber text pos digits = .ok e) :
    Alike resolve resolve' e e := by
  rw [ofNumber] at h
  split at h
  · cases h
  · split at h <;> cases h
    exact .literal _

theorem ofName_alike (hr : resolve'.Covers resolve) {name : List Char} {e : Expr} (h : ofName text resolve name = .ok e) :
    ∃ e', ofName text resolve' name = .ok e' ∧ Alike resolve resolve' e e' := by
  rw [ofName.eq_def] at h ⊢
  split at h
  · rename_i name
    cases h
    refine ⟨_, rfl, ?_⟩
    split
    · exact .position
    · exact .external _
  · obtain ⟨index?, hindex, h⟩ := of_bind_ok h
    cases index? with
    | none => cases h
    | some index =>
      cases h
      obtain ⟨index', hindex'⟩ := hr _ _ hindex
      refine ⟨.field index', ?_, .field hindex hindex'⟩
      rw [hindex']
      rfl

mutual

theorem parseOperand_alike (hr : resolve'.Covers resolve) {ts : List PlacedLexeme} {e : Expr} {rest : Rest ts}
    (h : parseOperand text resolve ts = .ok (e, rest)) :
    ∃ e', parseOperand text resolve' ts = .ok (e', rest) ∧ Alike resolve resolve' e e' := by
  match ts with
  | [] =>
    rw [parseOperand] at h
    cases h
  | ⟨pos, .number digits⟩ :: ts' =>
    rw [parseOperand] at h ⊢
    obtain ⟨e₁, he₁, h⟩ := of_bind_ok h
    cases h
    rw [he₁]
    exact ⟨e, rfl, ofNumber_alike he₁⟩
  | ⟨_, .name name⟩ :: ts' =>
    rw [parseOperand] at h ⊢
    obtain ⟨e₁, he₁, h⟩ := of_bind_ok h
    cases h
    obtain ⟨e', he', halike⟩ := ofName_alike hr he₁
    rw [he']
    exact ⟨e', rfl, halike⟩
  | ⟨pos, .sign c⟩ :: ts' =>
    rw [parseOperand] at h ⊢
    cases hop : UnaryOp.ofChar? c with
    | some op =>
      simp only [hop] at h ⊢
      obtain ⟨⟨e₁, rest₁⟩, he₁, h⟩ := of_bind_ok h
      cases h
      obtain ⟨e', he', halike⟩ := parseOperand_alike hr he₁
      rw [he']
      exact ⟨.unary op e', rfl, .unary op halike⟩
    | none =>
      simp only [hop] at h ⊢
      by_cases hc : c = '('
      · rw [if_pos hc] at h ⊢
        obtain ⟨⟨e₁, rest₁⟩, he₁, h⟩ := of_bind_ok h
        obtain ⟨e', he', halike⟩ := parseRank_alike hr he₁
        rw [he']
        rcases rest₁ with ⟨_ | ⟨t, rest₁⟩, hrest⟩
        · cases h
        · dsimp only [bind, Except.bind] at h ⊢
          by_cases ht : t.lexeme = .sign ')'
          · rw [if_pos ht] at h ⊢
            cases h
            exact ⟨e', rfl, halike⟩
          · rw [if_neg ht] at h
            cases h
      · rw [if_neg hc] at h
        cases h
termination_by (ts.length, 0)

theorem parseRank_alike (hr : resolve'.Covers resolve) {rank : Nat} {ts : List PlacedLexeme} {e : Expr}
    {rest : Rest ts} (h : parseRank text resolve rank ts = .ok (e, rest)) :
    ∃ e', parseRank text resolve' rank ts = .ok (e', rest) ∧ Alike resolve resolve' e e' := by
  match rank with
  | 0 =>
    rw [parseRank] at h ⊢
    exact parseOperand_alike hr h
  | rank + 1 =>
    rw [parseRank] at h ⊢
    obtain ⟨⟨e₁, rest₁⟩, h₁, h⟩ := of_bind_ok h
    obtain ⟨⟨e₂, rest₂⟩, h₂, h⟩ := of_bind_ok h
    cases h
    obtain ⟨e₁', he₁', halike₁⟩ := parseRank_alike hr h₁
    obtain ⟨e₂', he₂', halike₂⟩ := parseChain_alike hr halike₁ h₂
    rw [he₁']
    dsimp only [bind, Except.bind]
    rw [he₂']
    exact ⟨e₂', rfl, halike₂⟩
termination_by (ts.length, 2 * rank + 1)

theorem parseChain_alike (hr : resolve'.Covers resolve) {rank : Nat} {e₀ e₀' e : Expr} {ts : List PlacedLexeme}
    {rest : { rest : List PlacedLexeme // rest.length ≤ ts.length }} (h₀ : Alike resolve resolve' e₀ e₀')
    (h : parseChain text resolve rank e₀ ts = .ok (e, rest)) :
    ∃ e', parseChain text resolve' rank e₀' ts = .ok (e', rest) ∧ Alike resolve resolve' e e' := by
  match ts with
  | [] =>
    rw [parseChain] at h ⊢
    cases h
    exact ⟨e₀', rfl, h₀⟩
  | t :: ts' =>
    rw [parseChain] at h ⊢
    cases hop : operator? t with
    | none =>
      simp only [hop] at h ⊢
      cases h
      exact ⟨e₀', rfl, h₀⟩
    | some op =>
      simp only [hop] at h ⊢
      by_cases hrank : op.rank = rank + 1
      · rw [if_pos hrank] at h ⊢
        obtain ⟨⟨e₁, rest₁⟩, h₁, h⟩ := of_bind_ok h
        obtain ⟨⟨e₂, rest₂⟩, h₂, h⟩ := of_bind_ok h
        cases h
        obtain ⟨e₁', he₁', halike₁⟩ := parseRank_alike hr h₁
        obtain ⟨e₂', he₂', halike₂⟩ := parseChain_alike hr (.binary op h₀ halike₁) h₂
        rw [he₁']
        dsimp only [bind, Except.bind]
        rw [he₂']
        exact ⟨e₂', rfl, halike₂⟩
      · rw [if_neg hrank] at h ⊢
        cases h
        exact ⟨e₀', rfl, h₀⟩
termination_by (ts.length, 2 * rank + 2)

end

theorem parse_alike (hr : resolve'.Covers resolve) {e : Expr} (h : parse text resolve = .ok e) :
    ∃ e', parse text resolve' = .ok e' ∧ Alike resolve resolve' e e' := by
  rw [parse.eq_def] at h ⊢
  split at h
  · cases h
  · obtain ⟨⟨e₁, ⟨rest, hrest⟩⟩, he₁, h⟩ := of_bind_ok h
    obtain ⟨e', he', halike⟩ := parseRank_alike hr he₁
    simp only [he', bind, Except.bind]
    cases rest with
    | cons t rest => cases h
    | nil =>
      cases h
      exact ⟨e', rfl, halike⟩

end parsers

/-- Every field of the expression satisfies `P`. -/
def Over (P : Nat → Prop) : Expr → Prop
  | .field index => P index
  | .unary _ operand => operand.Over P
  | .binary _ left right => left.Over P ∧ right.Over P
  | .literal _ | .external _ | .position => True

theorem Over.mono {P Q : Nat → Prop} (hPQ : ∀ index, P index → Q index) {e : Expr} (h : e.Over P) : e.Over Q := by
  induction e with
  | field index => exact hPQ index h
  | unary op operand ih => exact ih h
  | binary op left right ihl ihr => exact ⟨ihl h.1, ihr h.2⟩
  | literal | external | position => trivial

theorem Alike.over {resolve resolve' : Resolver} {e e' : Expr} (h : Alike resolve resolve' e e') :
    e.Over resolve.Gives := by
  induction h with
  | field h _ => exact ⟨_, h⟩
  | unary _ _ ih => exact ih
  | binary _ _ _ ihl ihr => exact ⟨ihl, ihr⟩
  | literal | external | position => trivial

/-- The fields of an expression are answers to the names in its text. -/
theorem parse_over {text : String} {resolve : Resolver} {e : Expr} (h : parse text resolve = .ok e) :
    e.Over resolve.Gives := by
  obtain ⟨_, -, halike⟩ := parse_alike (fun _ index hindex => ⟨index, hindex⟩) h
  exact halike.over

end Expr
end LayoutScript
