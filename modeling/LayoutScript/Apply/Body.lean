import LayoutScript.Apply.Fields
import LayoutScript.Bits.Reader

/-! # Applying a layout

A walk goes through the instructions of a structure and takes names and sizes from the
tables as it meets their instructions. The body of a structure array is walked again for
every element from the same place; that of an empty array is walked without reading, so the
tables stay in step. A walk that meets the end of the input under tolerant options halts,
and so does every walk around it.
-/
namespace LayoutScript

/-- How a walk through a body ends: at the place behind it, or halted. -/
inductive Walk where
  | done (fields : List Field) (place : Place)
  | halted (fields : List Field)

def Walk.cons (f : Field) : Walk → Walk
  | .done fields place => .done (f :: fields) place
  | .halted fields => .halted (f :: fields)

def Walk.fields : Walk → List Field
  | .done fields _ | .halted fields => fields

/-- The place behind a body that is walked without reading, with `inner` structures open
inside it. -/
def Layout.skipBody (layout : Layout) (inner : Nat) :
    List CodeLine → List NamedField → List SizeSource → Except Fault Place
  | [], _, _ => .error (.corrupt layout.code.length)
  | line :: code, named, sizes =>
    match line.kind, inner with
    | .closing, 0 => .ok ⟨code, named, sizes⟩
    | .closing, inner + 1 => layout.skipBody inner code named sizes
    | kind, _ => do
      let (_, named) ← takeName line named
      let inner := if kind = .opening then inner + 1 else inner
      layout.skipBody inner code named (sizes.drop line.instruction.computedCount)

/-- The structures of an array and the place behind its body, which a halted walk has not. -/
abbrev Elements := List Record × Option Place

section elements
variable {m : Type → Type} [Monad m]

/-- Walks `body` for `n` more elements after those in `acc`, the last one in front; `place`
is the place behind the last one. An element that halts is dropped. -/
def repeatBody (body : m Walk) : (n : Nat) → (acc : List Record) → (place : Place) → m Elements
  | 0, acc, place => pure (acc.reverse, some place)
  | n + 1, acc, _ => do
    match ← body with
    | .done fields place => repeatBody body n (⟨fields⟩ :: acc) place
    | .halted _ => return (acc.reverse, none)

/-- A structure or an array of structures, of which there are as many as `count` says. The
body of an array without elements is passed by `skip`. -/
def elementsOf (count : ElementCount) (single : m Walk) (times : Nat → m Elements)
    (untilEnd : m (List Record × Option Place × Bool)) (skip : m Place) : m (Value × Option Place) :=
  match count with
  | .one => do
    match ← single with
    | .done fields next => return (.record ⟨fields⟩, some next)
    | .halted fields => return (.record ⟨fields⟩, none)
  | .exactly 0 => do return (.records [], some (← skip))
  | .exactly n => do
    let (items, next) ← times n
    return (.records items, next)
  | .untilEnd => do
    let (items, next, halted) ← untilEnd
    if items.isEmpty && !halted then return (.records items, some (← skip))
    return (.records items, next)

end elements

variable {σ : Type} [BitSource σ]

/-- Walks `body` for elements after the `size` ones in `acc` as long as there is input.
An element that takes no input is dropped and ends the array; `place` is the place behind the
last element, or none before the first. -/
def repeatUntilEnd (options : ReadOptions) (body : Stateful (Run σ) Walk) (size : Nat)
    (acc : List Record) (place : Option Place) (run : Run σ) :
    Except Fault (List Record × Option Place × Bool) × Run σ :=
  if BitSource.left run.source = 0 then (.ok (acc.reverse, place, false), run)
  else if options.maxElements ≤ size then
    (.error (.input (.arrayTooLarge (size + 1) options.maxElements)), run)
  else
    match body run with
    | (.ok (.done fields place), run') =>
      if BitSource.left run'.source < BitSource.left run.source then
        repeatUntilEnd options body (size + 1) (⟨fields⟩ :: acc) (some place) run'
      else (.ok (acc.reverse, some place, false), run')
    | (.ok (.halted _), run') => (.ok (acc.reverse, none, true), run')
    | (.error fault, run') => (.error fault, run')
termination_by BitSource.left run.source

namespace Setting

def readStructure (s : Setting σ) (count : ElementCount) (place : Place) (body : Stateful (Run σ) Walk) :
    Stateful (Run σ) (Value × Option Place) :=
  elementsOf count body (repeatBody body · [] place) (repeatUntilEnd s.options body 0 [] none)
    (liftM (s.layout.skipBody 0 place.code place.named place.sizes))

/-- Reads a field; under tolerant options a fault about the end of the input gives none. -/
def tryField (s : Setting σ) (line : CodeLine) (r : Request) : Stateful (Run σ) (Option Reply) :=
  fun run =>
    match onSource (s.readField line r run.readings) run with
    | (.ok reply, run') => (.ok (some reply), run')
    | (.error fault, run') =>
      if fault.isEndOfInput && s.options.tolerant then (.ok none, run') else (.error fault, run')

def keepReading (info : Option NamedField) (v : Value) (run : Run σ) : Run σ :=
  match info, v.number? with
  | some field, some number => { run with readings := run.readings.put field number }
  | _, _ => run

def stopsBefore (s : Setting σ) (kind : Kind) (count : ElementCount) (run : Run σ) : Bool :=
  s.options.tolerant && !BitSource.hasMore run.source && readsInput kind count

/-- Walks a body from `place` on, inside `depth` structures. -/
def walk (s : Setting σ) (depth : Nat) (place : Place) : Stateful (Run σ) Walk :=
  match place with
  | ⟨[], named, sizes⟩ =>
    if depth = 0 then pure (.done [] ⟨[], named, sizes⟩)
    else throw (.corrupt s.layout.code.length)
  | ⟨line :: code, named, sizes⟩ =>
    if line.kind = .closing then
      if depth = 0 then throw (.corrupt line.offset) else pure (.done [] ⟨code, named, sizes⟩)
    else do
      let (info, named) ← liftM (takeName line named)
      let (r, sizes) ← s.request line info sizes
      if s.stopsBefore line.kind r.count (← get) then
        return .halted []
      else if line.kind = .opening then
        if s.options.maxDepth < depth + 1 then throw (.input (.tooDeep s.options.maxDepth))
        let body := s.walk (depth + 1) ⟨code, named, sizes⟩
        let (value, next?) ← s.readStructure r.count ⟨code, named, sizes⟩ body
        match next? with
        | none => return .halted [⟨info, value⟩]
        | some next =>
          if next.code.length ≤ code.length then
            return (← s.walk depth next).cons ⟨info, value⟩
          else throw (.corrupt line.offset)
      else
        match ← s.tryField line r with
        | none => return .halted []
        | some (.cut value) => return .halted [⟨info, value⟩]
        | some .nothing => s.walk depth ⟨code, named, sizes⟩
        | some (.value value) =>
          modify (keepReading info value)
          return (← s.walk depth ⟨code, named, sizes⟩).cons ⟨info, value⟩
termination_by place.code.length
decreasing_by all_goals simp_all only [List.length_cons]; omega

/-- Reads the fields of a layout from a source. The outcome comes with the source and the
readings as they stand at the end or at the fault. -/
def read (s : Setting σ) (source : σ) : Except Fault Record × Run σ :=
  let action : Stateful (Run σ) Record := do
    let lines ← liftM s.layout.lines
    return ⟨(← s.walk 0 (s.layout.start lines)).fields⟩
  action.on { source }

end Setting

namespace Layout

def readBytes (layout : Layout) (bytes : List UInt8) (options : ReadOptions)
    (collaborators : Collaborators Reader) : Except Fault Record × Run Reader :=
  Setting.read { layout, options, collaborators } (Reader.ofBytes bytes options.bitOrder)

end Layout
end LayoutScript
