import LayoutScript.Layout

/-! # External values from a table

Each name stands for a constant or follows a value that has been read before.
-/
namespace LayoutScript

inductive ExternalRule where
  | constant (value : Int32)
  /-- The value at a path, multiplied and then shifted. -/
  | following (path : String) (factor shift : Int32)
deriving DecidableEq

/-- The value of a rule; one that follows a field without a reading has none. -/
def ExternalRule.value? (readings : Readings) : ExternalRule → Option Int32
  | .constant value => some value
  | .following path factor shift =>
    (readings.getPath? path).map fun value => value.toInt32 * factor + shift

/-- The external values of a table; of two rules for a name the later one counts. -/
def Provider.ofRules (rules : List (String × ExternalRule)) : Provider := fun name readings _ =>
  (rules.reverse.lookup name).bind (·.value? readings)

end LayoutScript
