import LayoutScript.Bits.Source
import LayoutScript.Expr.Evaluate
import LayoutScript.Value

/-! # Requests for values

What an instruction asks for once its extra and its count are numbers, the limits under which
an input is read, and the collaborators that supply external values and read the types that
a script does not describe.
-/
namespace LayoutScript

structure ReadOptions where
  bitOrder : BitOrder := .lsb0
  /-- At the end of the input, keep what has been read instead of failing. -/
  tolerant : Bool := false
  /-- The number of structures that may lie inside each other. -/
  maxDepth : Nat := 64
  maxElements : Nat := 16 * 1024 * 1024
deriving DecidableEq

namespace ReadOptions

def msb0 : ReadOptions := { bitOrder := .msb0 }

def lenient : ReadOptions := { tolerant := true }

end ReadOptions

inductive ElementCount where
  | one
  | exactly (n : Nat)
  | untilEnd
deriving DecidableEq

structure Request where
  info : Option NamedField
  order : ByteOrder
  extra : Int32
  count : ElementCount
deriving DecidableEq

/-- Reads the fields that a script does not describe, from what is known of the field and
what has been read before it. -/
abbrev FieldReader (σ : Type) := Request → Readings → Stateful σ Value

structure Collaborators (σ : Type) where
  provider : Option Provider := none
  readVar : Option (FieldReader σ) := none
  readCustom : Option (TypeSpec → FieldReader σ) := none

/-- Everything that stays the same while an input is read. -/
structure Setting (σ : Type) where
  layout : Layout
  options : ReadOptions := {}
  collaborators : Collaborators σ := {}

/-- Everything that changes while an input is read. -/
structure Run (σ : Type) where
  source : σ
  readings : Readings := {}

def onSource {σ α : Type} (action : Stateful σ α) : Stateful (Run σ) α := fun run =>
  match action run.source with
  | (outcome, source) => (outcome, { run with source })

/-- What is left of the code and of the tables that go with it. -/
structure Place where
  code : List CodeLine
  named : List NamedField
  sizes : List SizeSource
deriving DecidableEq

def Layout.start (layout : Layout) (code : List CodeLine) : Place :=
  ⟨code, layout.named, layout.sizes⟩

variable {σ : Type} [BitSource σ]

namespace Setting

def sizeContext (s : Setting σ) (run : Run σ) : SizeContext where
  layout := s.layout
  readings := run.readings
  provider := s.collaborators.provider
  position := BitSource.counter run.source

def nextSize (s : Setting σ) (line : CodeLine) (sizes : List SizeSource) :
    Stateful (Run σ) (Int32 × List SizeSource) := fun run =>
  match sizes with
  | [] => (.error (.corrupt line.next), run)
  | size :: rest => ((size.evaluate (s.sizeContext run)).map (·, rest), run)

def extraOf (s : Setting σ) (line : CodeLine) (sizes : List SizeSource) :
    Stateful (Run σ) (Int32 × List SizeSource) :=
  match line.instruction.action.extra? with
  | some (.value n) => pure (n, sizes)
  | some .computed => s.nextSize line sizes
  | none => pure (0, sizes)

def countOf (s : Setting σ) (line : CodeLine) (sizes : List SizeSource) :
    Stateful (Run σ) (ElementCount × List SizeSource) :=
  match line.instruction.count with
  | .one => pure (.one, sizes)
  | .fixed length => pure (.exactly length, sizes)
  | .wholeStream => pure (.untilEnd, sizes)
  | .computed => do
    let (length, sizes) ← s.nextSize line sizes
    if length < 0 then throw (.input (.negativeLength line.offset length.toInt))
    return (.exactly length.toInt.toNat, sizes)

def checkCount (s : Setting σ) (count : ElementCount) : Stateful (Run σ) Unit :=
  match count with
  | .exactly n =>
    if s.options.maxElements < n then
      throw (.input (.arrayTooLarge n s.options.maxElements))
    else pure ()
  | _ => pure ()

def request (s : Setting σ) (line : CodeLine) (info : Option NamedField)
    (sizes : List SizeSource) : Stateful (Run σ) (Request × List SizeSource) := do
  let (extra, sizes) ← s.extraOf line sizes
  let (count, sizes) ← s.countOf line sizes
  s.checkCount count
  return (⟨info, if line.instruction.little then .little else .big, extra, count⟩, sizes)

end Setting

def takeName (line : CodeLine) (named : List NamedField) :
    Except Fault (Option NamedField × List NamedField) :=
  if line.instruction.named then
    match named with
    | [] => .error (.corrupt line.offset)
    | info :: rest => .ok (some info, rest)
  else .ok (none, named)

/-- Whether a field of the kind cannot be read without input. -/
def readsInput (kind : Kind) (count : ElementCount) : Bool :=
  match count, kind with
  | .exactly 0, _ | .untilEnd, _ | _, .align | _, .restart => false
  | _, _ => true

end LayoutScript
