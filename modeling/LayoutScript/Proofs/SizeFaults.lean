import LayoutScript.Proofs.ExprNames

/-! # Faults of sizes

The operations of an expression put one value on the stack and leave what was there before.
A size whose fields have all been read can therefore fail in three ways only: by a division
by zero, by a stack that is full, and by an external value that nobody supplies.
-/
namespace LayoutScript

/-- The faults of a size whose fields have all been read. -/
inductive Fault.OfSize : Fault → Prop where
  | divisionByZero : OfSize (.expression .divisionByZero)
  | stackOverflow (depth : Nat) : OfSize (.expression (.stackOverflow depth))
  | externalValue (name : String) : OfSize (.supply (.externalValue name))

theorem BinaryOp.apply_fault {op : BinaryOp} {left right : Int32} {fault : Fault}
    (h : op.apply left right = .error fault) : fault.OfSize := by
  cases op
  case div | rem =>
    rw [apply] at h
    split at h <;> cases h
    exact .divisionByZero
  all_goals cases h

namespace SizeContext
variable {cx : SizeContext} {index : Nat}

theorem valueAt_eq {field : NamedField} {value : Int64} (hfield : cx.layout.named[index]? = some field)
    (hvalue : cx.readings.get? field = some value) : cx.valueAt index = .ok value.toInt32 := by
  rw [valueAt, hfield]
  dsimp only
  rw [hvalue]

theorem valueAt_fault {fault : Fault} (h : cx.valueAt index = .error fault) :
    fault = .corrupt index ∨ ∃ path, fault = .input (.noValue path) := by
  unfold valueAt at h
  split at h
  · cases h
    exact .inl rfl
  · split at h <;> cases h
    exact .inr ⟨_, rfl⟩

end SizeContext

theorem SizeContext.external_fault {cx : SizeContext} {name : String} {fault : Fault}
    (h : cx.external name = .error fault) : fault.OfSize := by
  rw [external] at h
  split at h <;> cases h
  exact .externalValue name

namespace ExprProgram
variable {cx : SizeContext}

theorem operate_field (index : Nat) (stack : List Int32) :
    operate cx (.field index) stack = (do return (← cx.valueAt index, stack)) := rfl

theorem operate_external (name : String) (stack : List Int32) :
    operate cx (.external name) stack = (do return (← cx.external name, stack)) := rfl

theorem operate_binary (op : BinaryOp) (right left : Int32) (stack : List Int32) :
    operate cx (.binary op) (right :: left :: stack) = (do return (← op.apply left right, stack)) := rfl

/-- In front of any operations, `ops` put one value on the stack or fail as a size may. -/
def Pushes (cx : SizeContext) (ops : List ExprOp) : Prop :=
  ∀ (rest : List ExprOp) (stack : List Int32), (∃ n, run cx (ops ++ rest) stack = run cx rest (n :: stack)) ∨
    ∃ fault, fault.OfSize ∧ run cx (ops ++ rest) stack = .error fault

theorem run_operate {op : ExprOp} {n : Int32} {stack stack' : List Int32}
    (h : operate cx op stack = .ok (n, stack')) (rest : List ExprOp) :
    (∃ n, run cx (op :: rest) stack = run cx rest (n :: stack')) ∨
      ∃ fault, fault.OfSize ∧ run cx (op :: rest) stack = .error fault := by
  rw [run, h]
  by_cases hfull : stack'.length = stackDepth
  · refine .inr ⟨_, .stackOverflow stackDepth, ?_⟩
    simp only [bind, Except.bind, if_pos hfull]
    rfl
  · refine .inl ⟨n, ?_⟩
    simp only [bind, Except.bind, if_neg hfull]

theorem run_operate_error {op : ExprOp} {stack : List Int32} {fault : Fault}
    (h : operate cx op stack = .error fault) (hf : fault.OfSize) (rest : List ExprOp) :
    ∃ fault, fault.OfSize ∧ run cx (op :: rest) stack = .error fault := by
  refine ⟨fault, hf, ?_⟩
  rw [run, h]
  rfl

/-- The operations of an expression whose fields have been read put its value on the stack. -/
theorem pushes_postfixOps {e : Expr} (h : e.Over fun index => ∃ n, cx.valueAt index = .ok n) :
    Pushes cx e.postfixOps := by
  induction e with
  | literal n => exact fun rest stack => run_operate rfl rest
  | position => exact fun rest stack => run_operate rfl rest
  | field index =>
    obtain ⟨n, hn⟩ := h
    intro rest stack
    have hop : operate cx (.field index) stack = .ok (n, stack) := by
      rw [operate_field, hn]
      rfl
    exact run_operate hop rest
  | external name =>
    intro rest stack
    cases hn : cx.external name with
    | error fault =>
      have hop : operate cx (.external name) stack = .error fault := by
        rw [operate_external, hn]
        rfl
      exact .inr (run_operate_error hop (SizeContext.external_fault hn) rest)
    | ok n =>
      have hop : operate cx (.external name) stack = .ok (n, stack) := by
        rw [operate_external, hn]
        rfl
      exact run_operate hop rest
  | unary op operand ih =>
    intro rest stack
    rw [Expr.postfixOps, List.append_assoc]
    rcases ih h ([.unary op] ++ rest) stack with ⟨n, hn⟩ | hfault
    · rw [hn]
      exact run_operate rfl rest
    · exact .inr hfault
  | binary op left right ihl ihr =>
    -- The left value lies below the right one, which is why the stack is general.
    intro rest stack
    rw [Expr.postfixOps, List.append_assoc, List.append_assoc]
    rcases ihl h.1 (right.postfixOps ++ ([.binary op] ++ rest)) stack with ⟨a, ha⟩ | hfault
    · rw [ha]
      rcases ihr h.2 ([.binary op] ++ rest) (a :: stack) with ⟨b, hb⟩ | hfault
      · rw [hb]
        cases hop : op.apply a b with
        | error fault =>
          have hop' : operate cx (.binary op) (b :: a :: stack) = .error fault := by
            rw [operate_binary, hop]
            rfl
          exact .inr (run_operate_error hop' (BinaryOp.apply_fault hop) rest)
        | ok n =>
          have hop' : operate cx (.binary op) (b :: a :: stack) = .ok (n, stack) := by
            rw [operate_binary, hop]
            rfl
          exact run_operate hop' rest
      · exact .inr hfault
    · exact .inr hfault

/-- A program of an expression has a value where its fields have been read, or fails as a size
may. -/
theorem evaluate_fault {p : ExprProgram} {e : Expr} (hp : p.ops = e.postfixOps)
    (h : e.Over fun index => ∃ n, cx.valueAt index = .ok n) {fault : Fault} (hf : p.evaluate cx = .error fault) :
    fault.OfSize := by
  have hpushes := pushes_postfixOps h [] []
  rw [List.append_nil, ← hp] at hpushes
  rw [evaluate] at hf
  rcases hpushes with ⟨n, hn⟩ | ⟨fault', hfault, hn⟩
  · rw [hn] at hf
    cases hf
  · rw [hn] at hf
    cases hf
    exact hfault

end ExprProgram

namespace SizeSource

/-- A source whose program is that of an expression and whose fields satisfy `P`. -/
def Over (P : Nat → Prop) : SizeSource → Prop
  | .expression program => ∃ e : Expr, program.ops = e.postfixOps ∧ e.Over P
  | .field index _ => P index
  | .external _ | .position => True

theorem Over.mono {P Q : Nat → Prop} (hPQ : ∀ index, P index → Q index) {source : SizeSource} (h : source.Over P) :
    source.Over Q := by
  cases source with
  | expression program =>
    obtain ⟨e, he, hover⟩ := h
    exact ⟨e, he, hover.mono hPQ⟩
  | field index name => exact hPQ index h
  | external | position => trivial

theorem evaluate_fault {cx : SizeContext} {source : SizeSource}
    (h : source.Over fun index => ∃ n, cx.valueAt index = .ok n) {fault : Fault}
    (hf : source.evaluate cx = .error fault) : fault.OfSize := by
  cases source with
  | expression program =>
    obtain ⟨e, he, hover⟩ := h
    exact ExprProgram.evaluate_fault he hover hf
  | field index name =>
    obtain ⟨n, hn⟩ := h
    rw [evaluate, hn] at hf
    cases hf
  | external name => exact SizeContext.external_fault hf
  | position => cases hf

end SizeSource

namespace SizeScope
variable {scope : SizeScope} {text : String} {spec : SizeSpec}

theorem reference_over (h : scope.reference text = .ok spec) :
    ∀ source ∈ Draft.sourceOf spec, source.Over scope.resolve.Gives := by
  rw [reference] at h
  split at h
  · dsimp only at h
    split at h <;> cases h
    exact List.forall_mem_nil _
  · split at h
    · cases h
      refine List.forall_mem_singleton.mpr ?_
      split <;> trivial
    · obtain ⟨index?, hindex, h⟩ := of_bind_ok h
      cases index? with
      | none => cases h
      | some index =>
        cases h
        exact List.forall_mem_singleton.mpr ⟨text, hindex⟩

theorem build_over (h : scope.build text = .ok spec) :
    ∀ source ∈ Draft.sourceOf spec, source.Over scope.resolve.Gives := by
  rw [build] at h
  split at h
  · exact reference_over h
  · obtain ⟨program, hprogram, h⟩ := of_bind_ok h
    rw [ExprProgram.compile_eq] at hprogram
    obtain ⟨e, he, hops⟩ := of_bind_ok hprogram
    cases hops
    have hover : SizeSource.Over scope.resolve.Gives (.expression ⟨text, e.postfixOps⟩) :=
      ⟨e, rfl, Expr.parse_over he⟩
    split at h
    · split at h <;> cases h
      · exact List.forall_mem_nil _
      · exact List.forall_mem_singleton.mpr hover
    · cases h
      exact List.forall_mem_singleton.mpr hover

theorem arraySize_over (h : scope.arraySize text = .ok spec) :
    ∀ source ∈ Draft.sourceOf spec, source.Over scope.resolve.Gives := by
  rw [arraySize] at h
  split at h
  · cases h
    exact List.forall_mem_nil _
  · exact build_over h

end SizeScope
end LayoutScript
