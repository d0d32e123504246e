import LayoutScript.Apply.Request
import LayoutScript.Proofs.Stateful

/-! # Runs with notes

What happens in a run can be noted beside it. Notes disturb nothing: what an action that takes notes does
on the run is what it does without them.
-/
namespace LayoutScript
open Stateful
variable {σ ε α : Type}

/-- A run together with the events in it, the last one in front. -/
structure Noted (σ ε : Type) where
  run : Run σ
  events : List ε := []

namespace Noted

def does (action : Stateful (Run σ) α) : Stateful (Noted σ ε) α := fun n =>
  match action n.run with
  | (outcome, run) => (outcome, { n with run })

/-- With some more events, in the order in which they happen. -/
def record (n : Noted σ ε) (events : List ε) : Noted σ ε := { n with events := events.reverse ++ n.events }

/-- Notes events of the run at hand. -/
def note (events : Run σ → List ε) : Stateful (Noted σ ε) PUnit := modify fun n => n.record (events n.run)

theorem lifts_does (action : Stateful (Run σ) α) : Lifts (@Noted.run σ ε) (does action) action := fun _ => rfl

theorem lifts_note {x : Stateful (Noted σ ε) α} {y : Stateful (Run σ) α} (h : Lifts Noted.run x y)
    (events : Run σ → List ε) : Lifts Noted.run (do note events; x) y :=
  fun n => h (n.record (events n.run))

end Noted
end LayoutScript
