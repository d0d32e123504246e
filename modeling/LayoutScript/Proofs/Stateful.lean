import LayoutScript.Bits.Source

/-! # Running computations on a state

What sequences of steps give on a state, one step at a time.
-/
namespace LayoutScript
namespace Stateful
variable {σ α β : Type}

theorem bind_apply (x : Stateful σ α) (f : α → Stateful σ β) (s : σ) :
    (x >>= f) s = match x s with
      | (.ok a, s') => f a s'
      | (.error fault, s') => (.error fault, s') := by
  change (match x s with | (a, s') => ExceptT.bindCont f a s') = _
  rcases x s with ⟨_ | _, _⟩ <;> rfl

theorem bind_ok {x : Stateful σ α} {s s' : σ} {a : α} (h : x s = (.ok a, s'))
    (f : α → Stateful σ β) : (x >>= f) s = f a s' := by rw [bind_apply, h]

theorem bind_error {x : Stateful σ α} {s s' : σ} {fault : Fault} (h : x s = (.error fault, s'))
    (f : α → Stateful σ β) : (x >>= f) s = (.error fault, s') := by rw [bind_apply, h]

/-- A sequence succeeds by the success of both parts. -/
theorem of_bind_ok {x : Stateful σ α} {f : α → Stateful σ β} {s s'' : σ} {b : β}
    (h : (x >>= f) s = (.ok b, s'')) : ∃ a s', x s = (.ok a, s') ∧ f a s' = (.ok b, s'') := by
  rw [bind_apply] at h
  rcases hx : x s with ⟨fault | a, s'⟩
  · rw [hx] at h
    cases h
  · rw [hx] at h
    exact ⟨a, s', rfl, h⟩

/-- A sequence fails by the failure of one part. -/
theorem of_bind_error {x : Stateful σ α} {f : α → Stateful σ β} {s s'' : σ} {fault : Fault}
    (h : (x >>= f) s = (.error fault, s'')) :
    x s = (.error fault, s'') ∨ ∃ a s', x s = (.ok a, s') ∧ f a s' = (.error fault, s'') := by
  rw [bind_apply] at h
  rcases hx : x s with ⟨fault' | a, s'⟩
  · rw [hx] at h
    cases h
    exact .inl rfl
  · rw [hx] at h
    exact .inr ⟨a, s', rfl, h⟩

theorem get_apply (s : σ) : (get : Stateful σ σ) s = (.ok s, s) := rfl

theorem modify_apply (f : σ → σ) (s : σ) : (modify f : Stateful σ PUnit) s = (.ok ⟨⟩, f s) := rfl

theorem liftM_ok (a : α) : (liftM (.ok a : Except Fault α) : Stateful σ α) = pure a := rfl

theorem of_lift_ok {x : Except Fault α} {s s' : σ} {a : α} (h : (liftM x : Stateful σ α) s = (.ok a, s')) :
    x = .ok a ∧ s' = s := by
  cases x <;> cases h
  exact ⟨rfl, rfl⟩

theorem throw_bind (fault : Fault) (f : α → Stateful σ β) :
    ((throw fault : Stateful σ α) >>= f) = throw fault := rfl

/-- What `x` does on a state, `y` does on as much of it as `view` shows. -/
def Lifts {τ : Type} (view : τ → σ) (x : Stateful τ α) (y : Stateful σ α) : Prop :=
  ∀ t, ((x t).1, view (x t).2) = y (view t)

namespace Lifts
variable {τ : Type} {view : τ → σ} {x : Stateful τ α} {y : Stateful σ α}

theorem pure (a : α) : Lifts view (Pure.pure a : Stateful τ α) (Pure.pure a) := fun _ => rfl

theorem throw (fault : Fault) : Lifts view (MonadExcept.throw fault : Stateful τ α) (MonadExcept.throw fault) :=
  fun _ => rfl

theorem lift (x : Except Fault α) : Lifts view (liftM x : Stateful τ α) (liftM x) := by
  cases x with
  | error fault => exact throw fault
  | ok a => exact pure a

theorem bind {x' : α → Stateful τ β} {y' : α → Stateful σ β} (h : Lifts view x y)
    (h' : ∀ a, Lifts view (x' a) (y' a)) : Lifts view (x >>= x') (y >>= y') := by
  intro t
  have ht := h t
  rw [bind_apply, bind_apply, ← ht]
  rcases x t with ⟨fault | a, t'⟩
  · rfl
  · exact h' a t'

theorem repeatedly (h : Lifts view x y) (n : Nat) : Lifts view (x.repeatedly n) (y.repeatedly n) := by
  induction n with
  | zero => exact .pure ()
  | succ n ih => exact h.bind fun _ => ih

end Lifts

end Stateful

/-- Whatever an action gives satisfies `P`. -/
def Returns {σ α : Type} (P : α → Prop) (action : Stateful σ α) : Prop := ∀ s a s', action s = (.ok a, s') → P a

namespace Returns
variable {σ α β : Type} {P : α → Prop} {Q : β → Prop}

theorem of_pure {a : α} (h : P a) : Returns P (pure a : Stateful σ α) := by
  intro s a' s' heq
  cases heq
  exact h

theorem of_throw (fault : Fault) : Returns P (throw fault : Stateful σ α) := by
  intro s a s' heq
  cases heq

theorem bind {x : Stateful σ α} {f : α → Stateful σ β} (hx : Returns P x) (hf : ∀ a, P a → Returns Q (f a)) :
    Returns Q (x >>= f) := by
  intro s b s' heq
  obtain ⟨a, s₁, ha, hb⟩ := Stateful.of_bind_ok heq
  exact hf a (hx s a s₁ ha) s₁ b s' hb

theorem after {x : Stateful σ α} {f : α → Stateful σ β} (hf : ∀ a, Returns Q (f a)) : Returns Q (x >>= f) :=
  bind (P := fun _ => True) (fun _ _ _ _ => trivial) fun a _ => hf a

end Returns

namespace BitSource
variable {σ : Type} [BitSource σ]

theorem readBytes_succ (count : Nat) :
    readBytes (σ := σ) (count + 1) = do
      let b ← readByte
      let bytes ← readBytes count
      return b :: bytes := by
  funext s
  rw [Stateful.bind_apply, readBytes, fill, Stateful.on]
  rcases readByte (σ := σ) s with ⟨fault | b, s₁⟩
  · rfl
  dsimp only
  rw [Stateful.bind_apply, readBytes]
  rcases fill count s₁ with ⟨⟨_ | fault, bytes⟩, s₂⟩ <;> rfl

end BitSource
end LayoutScript
