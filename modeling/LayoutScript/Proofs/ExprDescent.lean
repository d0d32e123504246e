import LayoutScript.Expr.Compile

/-! # Expressions by recursive descent

The grammar of expressions has three ranks of binary operators, all associating to the left,
above operands with signs before them. A parser of a rank takes the longest expression of that
rank from the front of the lexemes and hands back the rest, which is shorter. The compiler of
one pass comes to the operations of the expression that this parser gives, or to its fault.
-/
namespace LayoutScript

/-- Operators of a smaller rank bind tighter. -/
def BinaryOp.rank : BinaryOp → Nat
  | .mul | .div | .rem => 1
  | .add | .sub => 2
  | .or | .and | .xor => 3

theorem BinaryOp.rank_pos (op : BinaryOp) : 0 < op.rank := by cases op <;> decide

theorem BinaryOp.rank_le (op : BinaryOp) : op.rank ≤ 3 := by cases op <;> decide

theorem BinaryOp.priority_add_rank (op : BinaryOp) : (ExprOp.binary op).priority + op.rank = 4 := by
  cases op <;> rfl

namespace Expr

/-- The lexemes left after a part of `ts` that is not empty. -/
abbrev Rest (ts : List PlacedLexeme) := { rest : List PlacedLexeme // rest.length < ts.length }

/-- The fault of a sign where an operand has to stand. -/
def operandFault (text : String) (pos : Nat) (c : Char) : Fault :=
  malformed text pos
    (if c = ')' then .missingOperandBeforeClose
    else if (BinaryOp.ofChar? c).isSome then .missingLeftOperand
    else .unexpectedCharacter)

/-- The fault of a lexeme where an operator has to stand. -/
def operatorFault (text : String) (t : PlacedLexeme) : Fault :=
  match t.lexeme with
  | .number _ | .name _ => malformed text t.pos .missingOperator
  | .sign c =>
    if c = ')' then .expression (.unmatchedBracket text t.pos)
    else if c = '(' then malformed text t.pos .missingOperatorBeforeBracket
    else if c = '~' then malformed text t.pos .unaryAfterOperand
    else malformed text t.pos .unexpectedCharacter

/-- The binary operator that a lexeme stands for after an operand. -/
def operator? (t : PlacedLexeme) : Option BinaryOp :=
  match t.lexeme with
  | .sign c => BinaryOp.ofChar? c
  | _ => none

variable (text : String) (resolve : Resolver)

mutual

/-- Parses an operand: a number, a name, an expression in brackets, or an operand behind a
sign. -/
def parseOperand (ts : List PlacedLexeme) : Except Fault (Expr × Rest ts) :=
  match ts with
  | [] => .error (malformed text text.utf8ByteSize .missingLastOperand)
  | ⟨pos, .number digits⟩ :: ts' => do
    return (← ofNumber text pos digits, ⟨ts', by simp⟩)
  | ⟨_, .name name⟩ :: ts' => do
    return (← ofName text resolve name, ⟨ts', by simp⟩)
  | ⟨pos, .sign c⟩ :: ts' =>
    match UnaryOp.ofChar? c with
    | some op => do
      let (e, ⟨rest, h⟩) ← parseOperand ts'
      return (.unary op e, ⟨rest, by simp only [List.length_cons]; omega⟩)
    | none =>
      if c = '(' then do
        let (e, ⟨rest, h⟩) ← parseRank 3 ts'
        match rest, h with
        | [], _ => throw (.expression (.unmatchedBracket text pos))
        | t :: rest, h =>
          if t.lexeme = .sign ')' then
            return (e, ⟨rest, by simp only [List.length_cons] at *; omega⟩)
          else throw (operatorFault text t)
      else .error (operandFault text pos c)
termination_by (ts.length, 0)

/-- Parses an expression whose operators have at most the given rank. -/
def parseRank (rank : Nat) (ts : List PlacedLexeme) : Except Fault (Expr × Rest ts) :=
  match rank with
  | 0 => parseOperand ts
  | rank + 1 => do
    let (e, ⟨rest, h⟩) ← parseRank rank ts
    let (e, ⟨rest', h'⟩) ← parseChain rank e rest
    return (e, ⟨rest', by omega⟩)
termination_by (ts.length, 2 * rank + 1)

/-- Extends an expression by the operators of rank `rank + 1` that follow it. -/
def parseChain (rank : Nat) (e : Expr) (ts : List PlacedLexeme) :
    Except Fault (Expr × { rest : List PlacedLexeme // rest.length ≤ ts.length }) :=
  match ts with
  | [] => .ok (e, ⟨[], Nat.le_refl _⟩)
  | t :: ts' =>
    match operator? t with
    | some op =>
      if op.rank = rank + 1 then do
        let (right, ⟨rest, h⟩) ← parseRank rank ts'
        let (e, ⟨rest', h'⟩) ← parseChain rank (.binary op e right) rest
        return (e, ⟨rest', by simp only [List.length_cons]; omega⟩)
      else .ok (e, ⟨t :: ts', Nat.le_refl _⟩)
    | none => .ok (e, ⟨t :: ts', Nat.le_refl _⟩)
termination_by (ts.length, 2 * rank + 2)

end

def parse : Except Fault Expr :=
  match PlacedLexeme.scan text with
  | [] => .error (.expression .empty)
  | ts => do
    let (e, ⟨rest, _⟩) ← parseRank text resolve 3 ts
    match rest with
    | [] => return e
    | t :: _ => throw (operatorFault text t)

/-- The lexemes are followed by nothing that an expression of the rank goes on with. -/
def Stops (rank : Nat) (ts : List PlacedLexeme) : Prop := ∀ t ∈ ts.head?, ∀ op, operator? t = some op → rank < op.rank

theorem stops_cons {rank : Nat} {t : PlacedLexeme} {ts : List PlacedLexeme} :
    Stops rank (t :: ts) ↔ ∀ op, operator? t = some op → rank < op.rank := by
  constructor
  · intro h
    exact h t rfl
  · intro h t' ht'
    cases ht'
    exact h

theorem stops_zero (ts : List PlacedLexeme) : Stops 0 ts := fun _ _ op _ => op.rank_pos

theorem operator?_of_stops {t : PlacedLexeme} {ts : List PlacedLexeme} (h : Stops 3 (t :: ts)) : operator? t = none := by
  cases hop : operator? t with
  | none => rfl
  | some op => exact absurd (stops_cons.mp h op hop) (Nat.not_lt.mpr op.rank_le)

theorem operator?_eq_some {t : PlacedLexeme} {op : BinaryOp} (h : operator? t = some op) :
    ∃ c, t.lexeme = .sign c ∧ BinaryOp.ofChar? c = some op := by
  rw [operator?] at h
  split at h
  · rename_i c hc
    exact ⟨c, hc, h⟩
  · cases h

end Expr

/-! ## The stack beside the descent

While an expression of a rank is compiled, the stack keeps what waited before it. Above that only
operators wait that bind at least as tightly as the rank, and each of them comes out before
anything below it. -/

namespace Compilation
open LayoutScript.Expr
variable {text : String} {resolve : Resolver} {ops before : List ExprOp} {below : List Pending}

/-- No operator of an expression of the rank puts out what waits on top. -/
def Keeps (rank : Nat) (pending : List Pending) : Prop :=
  ∀ op, pending.head? = some (.operator op) → op.priority + rank < 4

theorem release_waiting {rank : Nat} {waiting : List ExprOp} (hwaiting : ∀ op ∈ waiting, 4 ≤ op.priority + rank)
    (hbelow : Keeps rank below) {priority : Nat} (hpriority : priority + rank = 4) (ops : List ExprOp) :
    release priority ops (waiting.map .operator ++ below) = (ops ++ waiting, below) := by
  induction waiting generalizing ops with
  | nil =>
    rw [List.map_nil, List.nil_append, List.append_nil, release.eq_def]
    split
    · rename_i op pending
      have hless : op.priority < priority := by
        have := hbelow op rfl
        omega
      rw [if_pos hless]
    · rfl
  | cons op waiting ih =>
    obtain ⟨hop, hwaiting⟩ := List.forall_mem_cons.mp hwaiting
    rw [List.map_cons, List.cons_append, release, if_neg (by omega), ih hwaiting, List.append_assoc, List.singleton_append]

theorem close_waiting (pos : Nat) (waiting : List ExprOp) (ops : List ExprOp) :
    close text pos ops (waiting.map .operator ++ below) = close text pos (ops ++ waiting) below := by
  induction waiting generalizing ops with
  | nil => simp
  | cons op waiting ih => rw [List.map_cons, List.cons_append, close, ih, List.append_assoc, List.singleton_append]

theorem finish_waiting (waiting : List ExprOp) (ops : List ExprOp) :
    finish text ops (waiting.map .operator ++ below) = finish text (ops ++ waiting) below := by
  induction waiting generalizing ops with
  | nil => simp
  | cons op waiting ih => rw [List.map_cons, List.cons_append, finish, ih, List.append_assoc, List.singleton_append]

/-! ### One lexeme -/

/-- Plus and minus stand in both places. -/
theorem ofChar?_unary_eq_none {c : Char} (h : BinaryOp.ofChar? c = none) (hc : c ≠ '~') : UnaryOp.ofChar? c = none := by
  rw [UnaryOp.ofChar?.eq_def]
  split
  · cases h
  · cases h
  · exact absurd rfl hc
  · rfl

theorem step_unary {pos : Nat} {c : Char} {op : UnaryOp} (h : UnaryOp.ofChar? c = some op) (ops : List ExprOp)
    (pending : List Pending) :
    step text resolve ⟨ops, pending, true⟩ ⟨pos, .sign c⟩ = .ok ⟨ops, .operator (.unary op) :: pending, true⟩ := by
  have hopening : c ≠ '(' := by
    rintro rfl
    cases h
  have hclosing : c ≠ ')' := by
    rintro rfl
    cases h
  simp only [step, if_neg hopening, if_neg hclosing, h]

theorem step_binary {t : PlacedLexeme} {op : BinaryOp} (h : operator? t = some op) (ops : List ExprOp)
    (pending : List Pending) :
    step text resolve ⟨ops, pending, false⟩ t =
      .ok ⟨(release (ExprOp.binary op).priority ops pending).1,
        .operator (.binary op) :: (release (ExprOp.binary op).priority ops pending).2, true⟩ := by
  obtain ⟨c, ht, hc⟩ := operator?_eq_some h
  have hopening : c ≠ '(' := by
    rintro rfl
    cases hc
  have hclosing : c ≠ ')' := by
    rintro rfl
    cases hc
  simp only [step, ht, if_neg hopening, if_neg hclosing, hc]

/-- A further operator of a rank puts out what waits of the expression before it, and nothing below. -/
theorem step_continued {t : PlacedLexeme} {op : BinaryOp} (h : operator? t = some op) {rank : Nat} {waiting : List ExprOp}
    (hwaiting : ∀ op ∈ waiting, 4 ≤ op.priority + rank) (hbelow : Keeps rank below)
    (hpriority : (ExprOp.binary op).priority + rank = 4) :
    step text resolve ⟨ops, waiting.map .operator ++ below, false⟩ t =
      .ok ⟨ops ++ waiting, .operator (.binary op) :: below, true⟩ := by
  rw [step_binary h, release_waiting hwaiting hbelow hpriority]

theorem keeps_operator {op : ExprOp} {rank : Nat} (h : op.priority + (rank + 1) = 4) : Keeps rank (.operator op :: below) := by
  intro op' hop'
  cases hop'
  omega

theorem step_close {t : PlacedLexeme} (h : t.lexeme = .sign ')') (pos : Nat) (waiting : List ExprOp) :
    step text resolve ⟨ops, waiting.map .operator ++ .bracket pos :: below, false⟩ t =
      .ok ⟨ops ++ waiting, below, false⟩ := by
  have hsign : ')' ≠ '(' := by decide
  simp only [step, h, if_neg hsign, if_true, close_waiting, close]
  rfl

theorem step_operandFault {pos : Nat} {c : Char} (h : UnaryOp.ofChar? c = none) (hopening : c ≠ '(')
    (pending : List Pending) :
    step text resolve ⟨ops, pending, true⟩ ⟨pos, .sign c⟩ = .error (operandFault text pos c) := by
  simp only [step, if_neg hopening, h, operandFault, if_true]
  split
  · rfl
  · cases BinaryOp.ofChar? c <;> rfl

theorem step_operatorFault {t : PlacedLexeme} (h : operator? t = none) (hclosing : t.lexeme ≠ .sign ')')
    (pending : List Pending) :
    step text resolve ⟨ops, pending, false⟩ t = .error (operatorFault text t) := by
  obtain ⟨pos, lexeme⟩ := t
  cases lexeme with
  | number digits => rfl
  | name word => rfl
  | sign c =>
    have hclose : c ≠ ')' := by
      rintro rfl
      exact hclosing rfl
    have hbinary : BinaryOp.ofChar? c = none := h
    simp only [step, operatorFault, if_neg hclose, hbinary]
    by_cases htilde : c = '~'
    · subst htilde
      rfl
    · rw [ofChar?_unary_eq_none hbinary htilde, if_neg htilde]
      split <;> rfl

/-! ### Parts of an expression -/

/-- A compilation with `below` on its stack fails with the fault of a part of an expression, or it gets
behind the part: then what is put out and what waits are together the operations of the part, behind
those put out before. -/
def Follows (text : String) (resolve : Resolver) (rank : Nat) (before : List ExprOp) (below : List Pending)
    (outcome : Except Fault (List ExprOp)) {left : List PlacedLexeme → Prop} :
    Except Fault (Expr × { rest : List PlacedLexeme // left rest }) → Prop
  | .error fault => outcome = .error fault
  | .ok (e, rest) => Stops rank rest.1 ∧ ∃ ops waiting,
      outcome = run text resolve ⟨ops, waiting.map .operator ++ below, false⟩ rest.1 ∧
      ops ++ waiting = before ++ e.postfixOps ∧ ∀ op ∈ waiting, 4 ≤ op.priority + rank

theorem Follows.bind {rank rank' : Nat} {before before' : List ExprOp} {below below' : List Pending}
    {outcome : Except Fault (List ExprOp)} {left left' : List PlacedLexeme → Prop}
    {part : Except Fault (Expr × { rest : List PlacedLexeme // left rest })}
    {next : Expr × { rest : List PlacedLexeme // left rest } →
      Except Fault (Expr × { rest : List PlacedLexeme // left' rest })}
    (h : Follows text resolve rank before below outcome part)
    (hnext : ∀ e rest ops waiting, Stops rank rest.1 → ops ++ waiting = before ++ e.postfixOps →
      (∀ op ∈ waiting, 4 ≤ op.priority + rank) →
      Follows text resolve rank' before' below' (run text resolve ⟨ops, waiting.map .operator ++ below, false⟩ rest.1)
        (next (e, rest))) :
    Follows text resolve rank' before' below' outcome (part >>= next) := by
  cases part with
  | error fault => exact h
  | ok parsed =>
    obtain ⟨e, rest⟩ := parsed
    obtain ⟨hstops, ops, waiting, houtcome, hops, hwaiting⟩ := h
    subst houtcome
    exact hnext e rest ops waiting hstops hops hwaiting

theorem run_error {c : Compilation} {t : PlacedLexeme} {fault : Fault} (h : c.step text resolve t = .error fault)
    (ts : List PlacedLexeme) : run text resolve c (t :: ts) = .error fault := by
  rw [run, h]
  rfl

theorem run_ok {c c' : Compilation} {t : PlacedLexeme} (h : c.step text resolve t = .ok c') (ts : List PlacedLexeme) :
    run text resolve c (t :: ts) = run text resolve c' ts := by
  rw [run, h]
  rfl

theorem run_leaf {leaf : Except Fault Expr} {t : PlacedLexeme} {ts : List PlacedLexeme}
    (h : step text resolve ⟨before, below, true⟩ t = leaf.map (operand ⟨before, below, true⟩))
    (hless : ts.length < (t :: ts).length) :
    Follows text resolve 0 before below (run text resolve ⟨before, below, true⟩ (t :: ts))
      (do return (← leaf, (⟨ts, hless⟩ : Rest (t :: ts)))) := by
  cases leaf with
  | error fault => exact run_error h ts
  | ok e => exact ⟨stops_zero ts, before ++ e.postfixOps, [], run_ok h ts, List.append_nil _, by simp⟩

mutual

theorem run_operand (before : List ExprOp) (below : List Pending) (ts : List PlacedLexeme) :
    Follows text resolve 0 before below (run text resolve ⟨before, below, true⟩ ts) (parseOperand text resolve ts) := by
  match ts with
  | [] =>
    rw [parseOperand]
    rfl
  | ⟨pos, .number digits⟩ :: ts' =>
    rw [parseOperand]
    exact run_leaf rfl _
  | ⟨pos, .name word⟩ :: ts' =>
    rw [parseOperand]
    exact run_leaf rfl _
  | ⟨pos, .sign c⟩ :: ts' =>
    rw [parseOperand]
    cases hop : UnaryOp.ofChar? c with
    | some op =>
      rw [run_ok (step_unary hop before below)]
      refine (run_operand before (.operator (.unary op) :: below) ts').bind fun e rest ops waiting _ hops hwaiting => ?_
      refine ⟨stops_zero _, ops, waiting ++ [.unary op], by simp, ?_, ?_⟩
      · rw [← List.append_assoc, hops, List.append_assoc]
        rfl
      · simpa [or_imp, forall_and, ExprOp.priority] using hwaiting
    | none =>
      by_cases hc : c = '('
      · subst hc
        rw [if_pos rfl]
        have hkeeps : Keeps 3 (.bracket pos :: below) := fun op hop => by cases hop
        have hstep : step text resolve ⟨before, below, true⟩ ⟨pos, .sign '('⟩ =
          .ok ⟨before, .bracket pos :: below, true⟩ := rfl
        rw [run_ok hstep]
        refine (run_rank (Nat.le_refl 3) before hkeeps ts').bind fun e rest ops waiting hstops hops _ => ?_
        obtain ⟨rest, hrest⟩ := rest
        rcases rest with _ | ⟨t, rest⟩
        · change finish text ops _ = _
          rw [finish_waiting]
          rfl
        · dsimp only
          by_cases ht : t.lexeme = .sign ')'
          · rw [if_pos ht, run_ok (step_close ht pos waiting), hops]
            exact ⟨stops_zero rest, before ++ e.postfixOps, [], rfl, List.append_nil _, by simp⟩
          · rw [if_neg ht]
            exact run_error (step_operatorFault (operator?_of_stops hstops) ht _) rest
      · rw [if_neg hc]
        exact run_error (step_operandFault hop hc below) ts'
termination_by (ts.length, 0)

theorem run_rank {rank : Nat} (hrank : rank ≤ 3) (before : List ExprOp) {below : List Pending} (hbelow : Keeps rank below)
    (ts : List PlacedLexeme) :
    Follows text resolve rank before below (run text resolve ⟨before, below, true⟩ ts) (parseRank text resolve rank ts) := by
  match rank with
  | 0 =>
    rw [parseRank]
    exact run_operand before below ts
  | rank + 1 =>
    rw [parseRank]
    have htighter : Keeps rank below := fun op hop => by
      have := hbelow op hop
      omega
    refine (run_rank (by omega) before htighter ts).bind fun e rest ops waiting hstops hops hwaiting => ?_
    have hless : ∀ op ∈ waiting, 4 ≤ op.priority + (rank + 1) := fun op hop => Nat.le_succ_of_le (hwaiting op hop)
    refine (run_chain hrank hbelow hstops hops hless).bind fun e' rest' ops' waiting' hstops' hops' hwaiting' => ?_
    exact ⟨hstops', ops', waiting', rfl, hops', hwaiting'⟩
termination_by (ts.length, 2 * rank + 1)

theorem run_chain {rank : Nat} (hrank : rank < 3) {before ops waiting : List ExprOp} {below : List Pending}
    (hbelow : Keeps (rank + 1) below) {e : Expr} {ts : List PlacedLexeme} (hstops : Stops rank ts)
    (hops : ops ++ waiting = before ++ e.postfixOps) (hwaiting : ∀ op ∈ waiting, 4 ≤ op.priority + (rank + 1)) :
    Follows text resolve (rank + 1) before below (run text resolve ⟨ops, waiting.map .operator ++ below, false⟩ ts)
      (parseChain text resolve rank e ts) := by
  match ts with
  | [] =>
    rw [parseChain]
    exact ⟨fun _ h => (by cases h), ops, waiting, rfl, hops, hwaiting⟩
  | t :: ts' =>
    rw [parseChain]
    cases hop : operator? t with
    | none =>
      refine ⟨stops_cons.mpr fun op h => ?_, ops, waiting, rfl, hops, hwaiting⟩
      rw [hop] at h
      cases h
    | some op =>
      by_cases hsame : op.rank = rank + 1
      · simp only [if_pos hsame]
        have hpriority := op.priority_add_rank
        rw [hsame] at hpriority
        rw [run_ok (step_continued hop hwaiting hbelow hpriority)]
        refine (run_rank (by omega) (ops ++ waiting) (keeps_operator hpriority) ts').bind
          fun right rest ops' waiting' hstops' hops' hwaiting' => ?_
        -- The operator waits on, below what waits of its right operand.
        have hboth : ops' ++ (waiting' ++ [.binary op]) = before ++ (Expr.binary op e right).postfixOps := by
          rw [← List.append_assoc, hops', hops, Expr.postfixOps]
          simp only [List.append_assoc]
        have hwaits : ∀ op' ∈ waiting' ++ [.binary op], 4 ≤ op'.priority + (rank + 1) := by
          intro op' hop'
          rcases List.mem_append.mp hop' with hop' | hop'
          · exact Nat.le_succ_of_le (hwaiting' op' hop')
          · cases List.mem_singleton.mp hop'
            omega
        rw [show waiting'.map .operator ++ .operator (.binary op) :: below =
          (waiting' ++ [ExprOp.binary op]).map .operator ++ below by simp]
        refine (run_chain hrank hbelow hstops' hboth hwaits).bind fun e' rest' ops'' waiting'' hstops'' hops'' hwaiting'' => ?_
        exact ⟨hstops'', ops'', waiting'', rfl, hops'', hwaiting''⟩
      · have hlooser : rank + 1 < op.rank := by
          have := hstops t rfl op hop
          omega
        simp only [if_neg hsame]
        refine ⟨stops_cons.mpr fun op' h => ?_, ops, waiting, rfl, hops, hwaiting⟩
        rw [hop] at h
        cases h
        exact hlooser
termination_by (ts.length, 2 * rank + 2)

end

/-- An operator that is missing behind a whole expression gives the same fault. -/
theorem step_fault {t : PlacedLexeme} (h : operator? t = none) (waiting : List ExprOp) :
    step text resolve ⟨ops, waiting.map .operator, false⟩ t = .error (operatorFault text t) := by
  by_cases hclosing : t.lexeme = .sign ')'
  · have hnone : close text t.pos ops (waiting.map .operator) = .error (.expression (.unmatchedBracket text t.pos)) := by
      rw [← List.append_nil (waiting.map _), close_waiting, close]
    have hsign : ')' ≠ '(' := by decide
    simp only [step, operatorFault, hclosing, if_neg hsign, if_true, hnone]
    rfl
  · exact step_operatorFault h hclosing _

end Compilation

/-- The operations that a text compiles to are those of the expression that the descent gives. -/
theorem ExprProgram.compile_eq (text : String) (resolve : Resolver) :
    compile text resolve = do return ⟨text, (← Expr.parse text resolve).postfixOps⟩ := by
  rw [compile.eq_def, Expr.parse.eq_def]
  generalize PlacedLexeme.scan text = ts
  cases ts with
  | nil => rfl
  | cons t ts =>
    dsimp only
    have hkeeps : Compilation.Keeps 3 [] := fun op hop => by cases hop
    have hrun : Compilation.Follows text resolve 3 [] [] (Compilation.run text resolve {} (t :: ts))
        (Expr.parseRank text resolve 3 (t :: ts)) := Compilation.run_rank (Nat.le_refl 3) [] hkeeps (t :: ts)
    cases hparse : Expr.parseRank text resolve 3 (t :: ts) with
    | error fault =>
      rw [hparse] at hrun
      rw [show Compilation.run text resolve {} (t :: ts) = .error fault from hrun]
      rfl
    | ok parsed =>
      obtain ⟨e, rest, h⟩ := parsed
      rw [hparse] at hrun
      obtain ⟨hstops, ops, waiting, hrun, hops, -⟩ := hrun
      rw [hrun, List.append_nil]
      rcases rest with _ | ⟨t', rest⟩
      · rw [Compilation.run, if_neg Bool.false_ne_true, ← List.append_nil (waiting.map _), Compilation.finish_waiting, hops]
        rfl
      · rw [Compilation.run_error (Compilation.step_fault (Expr.operator?_of_stops hstops) waiting)]
        rfl

end LayoutScript
