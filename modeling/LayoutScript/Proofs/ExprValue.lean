import LayoutScript.Proofs.ExprGrammar
import LayoutScript.Proofs.SizeFaults

/-! # The value of an expression

A tree is evaluated from left to right, operands before their operator, by arithmetic on the
integers that is cut to 32 bits. A value is held from where it is known to where its operator
takes it, and no more than sixteen are held at once. The program of the tree does the same on
its stack.
-/
namespace LayoutScript

namespace UnaryOp

/-- What an operator gives before it is cut to 32 bits. -/
def uncut : UnaryOp → Int → Int
  | .plus, n => n
  | .neg, n => -n
  | .not, n => -n - 1

theorem apply_eq (op : UnaryOp) (n : Int32) : op.apply n = Int32.ofInt (op.uncut n.toInt) := by
  cases op with
  | plus => exact (Int32.ofInt_toInt n).symm
  | neg =>
    have hneg : Int32.ofInt (-n.toInt) = -n := by rw [Int32.ofInt_neg, Int32.ofInt_toInt]
    exact hneg.symm
  | not =>
    have hnot : Int32.ofInt (-n.toInt - 1) = -n - 1 := by rw [Int32.ofInt_sub, Int32.ofInt_neg, Int32.ofInt_toInt]; rfl
    exact (Int32.not_eq_neg_add n).trans hnot.symm

end UnaryOp

namespace BinaryOp

/-- What an operator gives before it is cut to 32 bits. Quotients are rounded towards zero, and
a remainder has the sign of the dividend. -/
def uncut (op : BinaryOp) (left right : Int32) : Int :=
  match op with
  | .add => left.toInt + right.toInt
  | .sub => left.toInt - right.toInt
  | .mul => left.toInt * right.toInt
  | .div => left.toInt.tdiv right.toInt
  | .rem => left.toInt.tmod right.toInt
  | .or => (left.toBitVec ||| right.toBitVec).toInt
  | .and => (left.toBitVec &&& right.toBitVec).toInt
  | .xor => (left.toBitVec ^^^ right.toBitVec).toInt

def divides : BinaryOp → Bool
  | .div | .rem => true
  | _ => false

theorem apply_eq (op : BinaryOp) (left right : Int32) :
    op.apply left right =
      if op.divides ∧ right = 0 then .error (.expression .divisionByZero)
      else .ok (Int32.ofInt (op.uncut left right)) := by
  cases op with
  | add => simp only [apply, divides, uncut, Int32.ofInt_add, Int32.ofInt_toInt]; rfl
  | sub => simp only [apply, divides, uncut, Int32.ofInt_sub, Int32.ofInt_toInt]; rfl
  | mul => simp only [apply, divides, uncut, Int32.ofInt_mul, Int32.ofInt_toInt]; rfl
  | div =>
    have hdiv : left / right = Int32.ofInt (left.toInt.tdiv right.toInt) := by
      apply Int32.toInt_inj.mp
      rw [Int32.toInt_div, Int32.toInt_ofInt]
    simp only [apply, divides, uncut, hdiv, true_and]
  | rem =>
    have hrem : left % right = Int32.ofInt (left.toInt.tmod right.toInt) := by
      rw [← Int32.toInt_mod, Int32.ofInt_toInt]
    simp only [apply, divides, uncut, hrem, true_and]
  | or =>
    have hor : left ||| right = Int32.ofInt (left.toBitVec ||| right.toBitVec).toInt := by
      rw [Int32.ofInt_bitVecToInt, Int32.ofBitVec_or]; rfl
    simp only [apply, divides, uncut, ← hor]; rfl
  | and =>
    have hand : left &&& right = Int32.ofInt (left.toBitVec &&& right.toBitVec).toInt := by
      rw [Int32.ofInt_bitVecToInt, Int32.ofBitVec_and]; rfl
    simp only [apply, divides, uncut, ← hand]; rfl
  | xor =>
    have hxor : left ^^^ right = Int32.ofInt (left.toBitVec ^^^ right.toBitVec).toInt := by
      rw [Int32.ofInt_bitVecToInt, Int32.ofBitVec_xor]; rfl
    simp only [apply, divides, uncut, ← hxor]; rfl

end BinaryOp

namespace Expr
open ExprProgram (stackDepth)

/-- A value beside those that are held already. -/
def hold (held : Nat) (n : Int32) : Except Fault Int32 :=
  if held < stackDepth then .ok n else .error (.expression (.stackOverflow stackDepth))

/-- The value of an expression while `held` values are held. -/
def value (cx : SizeContext) (held : Nat) : Expr → Except Fault Int32
  | .literal n => hold held n
  | .field index => do hold held (← cx.valueAt index)
  | .external name => do hold held (← cx.external name)
  | .position => hold held cx.positionValue
  | .unary op operand => do return Int32.ofInt (op.uncut (← operand.value cx held).toInt)
  | .binary op left right => do
    let a ← left.value cx held
    let b ← right.value cx (held + 1)
    if op.divides ∧ b = 0 then throw (.expression .divisionByZero)
    return Int32.ofInt (op.uncut a b)

variable {cx : SizeContext} {held : Nat}

theorem of_hold_ok {n m : Int32} (h : hold held n = .ok m) : held < stackDepth := by
  unfold hold at h
  split at h
  · assumption
  · cases h

theorem held_lt_of_value_ok {e : Expr} {n : Int32} (h : e.value cx held = .ok n) : held < stackDepth := by
  induction e generalizing n with
  | literal | position => exact of_hold_ok h
  | field | external =>
    obtain ⟨m, -, hm⟩ := of_bind_ok h
    exact of_hold_ok hm
  | unary op operand ih =>
    obtain ⟨m, hm, -⟩ := of_bind_ok h
    exact ih hm
  | binary op left right ihl _ =>
    obtain ⟨a, ha, -⟩ := of_bind_ok h
    exact ihl ha

/-- An evaluation fails by a field that has no value, or as sizes do. -/
theorem value_fault {e : Expr} {fault : Fault} (h : e.value cx held = .error fault) :
    fault.OfSize ∨ ∃ index, cx.valueAt index = .error fault := by
  have hhold : ∀ {held : Nat} {n : Int32}, hold held n = .error fault → fault.OfSize := by
    intro held n hn
    unfold hold at hn
    split at hn <;> cases hn
    exact .stackOverflow stackDepth
  induction e generalizing held with
  | literal | position => exact .inl (hhold h)
  | field index =>
    rcases of_bind_error h with hn | ⟨n, -, hn⟩
    · exact .inr ⟨index, hn⟩
    · exact .inl (hhold hn)
  | external name =>
    rcases of_bind_error h with hn | ⟨n, -, hn⟩
    · exact .inl (SizeContext.external_fault hn)
    · exact .inl (hhold hn)
  | unary op operand ih =>
    rcases of_bind_error h with hn | ⟨n, -, hn⟩
    · exact ih hn
    · cases hn
  | binary op left right ihl ihr =>
    rcases of_bind_error h with ha | ⟨a, -, h⟩
    · exact ihl ha
    rcases of_bind_error h with hb | ⟨b, -, h⟩
    · exact ihr hb
    split at h <;> cases h
    exact .inl .divisionByZero

end Expr

namespace ExprProgram
variable {cx : SizeContext}

theorem run_cons {op : ExprOp} {n : Int32} {stack stack' : List Int32} (h : operate cx op stack = .ok (n, stack'))
    (hroom : stack'.length ≤ stackDepth) (rest : List ExprOp) :
    run cx (op :: rest) stack = (Expr.hold stack'.length n).bind fun n => run cx rest (n :: stack') := by
  rw [run, h]
  unfold Expr.hold
  by_cases hfull : stack'.length = stackDepth
  · have hnot : ¬stack'.length < stackDepth := by omega
    simp only [bind, Except.bind, if_pos hfull, if_neg hnot]
    rfl
  · have hless : stack'.length < stackDepth := by omega
    simp only [bind, Except.bind, if_neg hfull, if_pos hless]

theorem run_cons_error {op : ExprOp} {stack : List Int32} {fault : Fault} (h : operate cx op stack = .error fault)
    (rest : List ExprOp) : run cx (op :: rest) stack = .error fault := by
  rw [run, h]
  rfl

theorem run_answer {op : ExprOp} {answer : Except Fault Int32} {stack : List Int32}
    (h : operate cx op stack = (do return (← answer, stack))) (hroom : stack.length ≤ stackDepth) (rest : List ExprOp) :
    run cx (op :: rest) stack = (do Expr.hold stack.length (← answer)).bind fun n => run cx rest (n :: stack) := by
  cases answer with
  | error fault => exact run_cons_error h rest
  | ok n => exact run_cons h hroom rest

/-- The operations of an expression put its value on top of what the stack holds. -/
theorem run_postfixOps (e : Expr) (rest : List ExprOp) {stack : List Int32} (hroom : stack.length ≤ stackDepth) :
    run cx (e.postfixOps ++ rest) stack = (e.value cx stack.length).bind fun n => run cx rest (n :: stack) := by
  induction e generalizing rest stack with
  | literal n => exact run_cons rfl hroom rest
  | position => exact run_cons rfl hroom rest
  | field index => exact run_answer (operate_field index stack) hroom rest
  | external name => exact run_answer (operate_external name stack) hroom rest
  | unary op operand ih =>
    rw [Expr.postfixOps, List.append_assoc, ih _ hroom, Expr.value]
    cases hn : operand.value cx stack.length with
    | error fault => rfl
    | ok n =>
      have hless := Expr.held_lt_of_value_ok hn
      have hstep : run cx (.unary op :: rest) (n :: stack) = _ := run_cons rfl hroom rest
      rw [Expr.hold, if_pos hless, op.apply_eq] at hstep
      exact hstep
  | binary op left right ihl ihr =>
    -- The left value lies on the stack while the right one is computed.
    rw [Expr.postfixOps, List.append_assoc, List.append_assoc, ihl _ hroom, Expr.value]
    cases ha : left.value cx stack.length with
    | error fault => rfl
    | ok a =>
      have hless := Expr.held_lt_of_value_ok ha
      have hroom' : (a :: stack).length ≤ stackDepth := hless
      have hright := ihr ([.binary op] ++ rest) hroom'
      rw [List.length_cons] at hright
      change run cx (right.postfixOps ++ ([.binary op] ++ rest)) (a :: stack) = _
      rw [hright]
      cases hb : right.value cx (stack.length + 1) with
      | error fault => simp only [bind, Except.bind]
      | ok b =>
        simp only [bind, Except.bind]
        have hop : operate cx (.binary op) (b :: a :: stack) = (do return (← op.apply a b, stack)) := rfl
        rw [op.apply_eq] at hop
        by_cases hzero : op.divides ∧ b = 0
        · rw [if_pos hzero] at hop ⊢
          exact run_cons_error hop rest
        · rw [if_neg hzero] at hop ⊢
          have hstep : run cx (.binary op :: rest) (b :: a :: stack) = _ := run_cons hop hroom rest
          rw [Expr.hold, if_pos hless] at hstep
          exact hstep

theorem evaluate_eq_value {p : ExprProgram} {e : Expr} (hp : p.ops = e.postfixOps) :
    p.evaluate cx = e.value cx 0 := by
  have hrun : run cx (e.postfixOps ++ []) [] = _ := run_postfixOps e [] (Nat.zero_le _)
  rw [List.append_nil, ← hp] at hrun
  rw [evaluate, hrun]
  cases e.value cx ([] : List Int32).length <;> rfl

theorem compile_eq_ok_iff {text : String} {resolve : Resolver} {program : ExprProgram} :
    compile text resolve = .ok program ↔ ∃ e, Expr.parse text resolve = .ok e ∧ program = ⟨text, e.postfixOps⟩ := by
  rw [compile_eq]
  constructor
  · intro h
    obtain ⟨e, he, h⟩ := of_bind_ok h
    cases h
    exact ⟨e, he, rfl⟩
  · rintro ⟨e, he, rfl⟩
    rw [he]
    rfl

/-- A text compiles if it is a written form of a phrase whose numbers fit and whose names stand for
something, and then it has the value of every such phrase, beside nothing. -/
theorem compile_grammar (text : String) (resolve : Resolver) :
    ((∃ program, compile text resolve = .ok program) ↔
      ∃ p, Phrase.Written 3 text.toList p ∧ p.Fits ∧ p.Resolves resolve) ∧
    ∀ program, compile text resolve = .ok program → ∀ p, Phrase.Written 3 text.toList p →
      ∃ e, p.expr? resolve = some e ∧ ∀ cx, program.evaluate cx = e.value cx 0 ∧
        ∀ left, program.evaluate cx ≠ .error (unbalanced left) := by
  constructor
  · constructor
    · rintro ⟨program, h⟩
      obtain ⟨e, he, -⟩ := compile_eq_ok_iff.mp h
      obtain ⟨p, hp, he⟩ := Expr.parse_eq_ok_iff.mp he
      exact ⟨p, hp, Phrase.exists_expr?_iff.mp ⟨e, he⟩⟩
    · rintro ⟨p, hp, hleaves⟩
      obtain ⟨e, he⟩ := Phrase.exists_expr?_iff.mpr hleaves
      have hparse := Expr.parse_eq_ok_iff.mpr ⟨p, hp, he⟩
      exact ⟨_, compile_eq_ok_iff.mpr ⟨e, hparse, rfl⟩⟩
  · intro program h p hp
    obtain ⟨e, he, rfl⟩ := compile_eq_ok_iff.mp h
    refine ⟨e, hp.expr?_eq he, fun cx => ?_⟩
    have hvalue : evaluate cx ⟨text, e.postfixOps⟩ = e.value cx 0 := evaluate_eq_value rfl
    refine ⟨hvalue, fun left hleft => ?_⟩
    rw [hvalue] at hleft
    rcases Expr.value_fault hleft with hsize | ⟨index, hindex⟩
    · cases hsize
    · rcases SizeContext.valueAt_fault hindex with hindex | ⟨path, hindex⟩ <;> cases hindex

theorem compile_minus_from_left :
    let resolve : Resolver := fun _ => .ok (some 0)
    let e : Expr := .binary .sub (.binary .sub (.literal 8) (.field 0)) (.unary .neg (.literal 2))
    ∃ program, compile "8-n - -2" resolve = .ok program ∧ ∀ cx, program.evaluate cx = e.value cx 0 := by
  intro resolve e
  have height : Phrase.Written 0 ['8'] (.number ['8']) :=
    .number (List.cons_ne_nil _ _) (List.forall_mem_singleton.mpr rfl)
  have hn : Phrase.Written 0 ['n'] (.name ['n']) := .name rfl (List.forall_mem_nil _)
  have htwo : Phrase.Written 0 ['2'] (.number ['2']) :=
    .number (List.cons_ne_nil _ _) (List.forall_mem_singleton.mpr rfl)
  have hleft : Phrase.Written 2 _ _ := .binary (c := '-') rfl rfl height.tighter.tighter hn.tighter
  have hright : Phrase.Written 0 _ _ := .unary (c := '-') rfl htwo
  have hblanks : isBlank ' ' = true := rfl
  have hminus : Phrase.Written 2 _ _ := .binary (c := '-') rfl rfl
    (.blankBehind hblanks hleft) (.blankBefore hblanks hright.tighter)
  let p : Phrase := .binary .sub (.binary .sub (.number ['8']) (.name ['n'])) (.unary .neg (.number ['2']))
  have hp : Phrase.Written 3 "8-n - -2".toList p := .tighter hminus
  have hexpr : p.expr? resolve = some e := rfl
  obtain ⟨hcompiles, hvalues⟩ := compile_grammar "8-n - -2" resolve
  obtain ⟨program, hprogram⟩ := hcompiles.mpr ⟨p, hp, Phrase.exists_expr?_iff.mp ⟨e, hexpr⟩⟩
  obtain ⟨e', he', hvalue⟩ := hvalues program hprogram p hp
  obtain rfl : e = e' := by
    rw [hexpr] at he'
    exact Option.some.inj he'
  exact ⟨program, hprogram, fun cx => (hvalue cx).1⟩

end ExprProgram
end LayoutScript
