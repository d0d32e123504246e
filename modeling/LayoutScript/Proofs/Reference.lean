import LayoutScript.Apply.Body
import LayoutScript.Proofs.Declaration

/-! # Reading declarations directly

An input can be read from the tree of declarations itself. The members of a structure are
read once, or once for each element of an array, and not at all for an array without
elements. There is no code, no table and no place in either: a declaration reads with the
name, the extra and the extent that it carries.
-/
namespace LayoutScript

/-- What reading declarations gives: their fields, and whether the input ended before all of
them were read. -/
structure Yield where
  fields : List Field := []
  halted : Bool := false

variable {σ : Type} [BitSource σ]

namespace Setting

def amount (s : Setting σ) : Amount → Stateful (Run σ) Int32
  | .known n => pure n
  | .computed source => fun run => (source.evaluate (s.sizeContext run), run)

end Setting

namespace Head

/-- The number of elements to read. A computed length must not be negative. -/
def elementCount (s : Setting σ) (h : Head) : Stateful (Run σ) ElementCount :=
  match h.extent with
  | .one => pure .one
  | .known length => pure (.exactly length)
  | .untilEnd => pure .untilEnd
  | .computed source => do
    let length ← s.amount (.computed source)
    if length < 0 then throw (.input (.negativeLength h.offset length.toInt))
    return .exactly length.toInt.toNat

def request (s : Setting σ) (h : Head) : Stateful (Run σ) Request := do
  let extra ← s.amount h.extra
  let count ← h.elementCount s
  s.checkCount count
  return ⟨h.info, h.order, extra, count⟩

def enter (s : Setting σ) (h : Head) : Stateful (Run σ) (Option Request) := do
  let r ← h.request s
  let run ← get
  return if s.stopsBefore h.kind r.count run then none else some r

def nonNegative (h : Head) (extra : Int32) : Stateful σ Nat :=
  if extra < 0 then throw (.input (.negativeExtra h.offset extra.toInt))
  else pure extra.toInt.toNat

def readValue (s : Setting σ) (h : Head) (r : Request) (readings : Readings) : Stateful σ Reply :=
  match h.kind with
  | .align => do
    BitSource.alignTo (max (← h.nonNegative r.extra) 1)
    return .nothing
  | .skip => do
    BitSource.skipBytes (← h.nonNegative r.extra)
    return .nothing
  | .restart => do
    modify BitSource.restart
    return .nothing
  | .bit =>
    let width := r.extra.toInt.toNat
    if 1 ≤ r.extra ∧ r.extra ≤ 8 then
      readScalars s.options (.bit width) r.count
        (match r.count with
          | .untilEnd => do return (← BitSource.readBitsUpTo width).1
          | _ => BitSource.readBits width)
    else throw (.input (.bitWidth h.offset r.extra.toInt))
  | .whole type => readScalars s.options (.whole type) r.count (readWhole r.order type)
  | .var => do
    match s.collaborators.readVar with
    | some read => return .value (← read r readings)
    | none => throw (.supply (.varReader h.offset))
  | .custom => do
    match h.custom with
    | none => throw (.corrupt h.offset)
    | some (_, type) =>
      match s.collaborators.readCustom with
      | some read => return .value (← read type r readings)
      | none => throw (.supply (.customReader h.offset type.name))
  | .opening | .closing => throw (.corrupt h.offset)

/-- Reads a value; under tolerant options a fault about the end of the input gives none. -/
def tryValue (s : Setting σ) (h : Head) (r : Request) : Stateful (Run σ) (Option Reply) := fun run =>
  match onSource (h.readValue s r run.readings) run with
  | (.ok reply, run') => (.ok (some reply), run')
  | (.error fault, run') =>
    if fault.isEndOfInput && s.options.tolerant then (.ok none, run') else (.error fault, run')

/-- Reads a declaration that is no structure. The number of a named scalar is kept at once. -/
def readSingle (s : Setting σ) (h : Head) (r : Request) : Stateful (Run σ) Yield := do
  match ← h.tryValue s r with
  | none => return ⟨[], true⟩
  | some .nothing => return ⟨[], false⟩
  | some (.cut value) => return ⟨[⟨h.info, value⟩], true⟩
  | some (.value value) =>
    modify (Setting.keepReading h.info value)
    return ⟨[⟨h.info, value⟩], false⟩

end Head

namespace Declaration

/-- Reads `n` structures with the members that `body` reads. One that halts is dropped. -/
def readTimes (body : Stateful (Run σ) Yield) : (n : Nat) → Stateful (Run σ) (List Record × Bool)
  | 0 => pure ([], false)
  | n + 1 => do
    let y ← body
    if y.halted then return ([], true)
    let (items, halted) ← readTimes body n
    return (⟨y.fields⟩ :: items, halted)

/-- Reads structures behind `size` others as long as there is input. One that halts is
dropped, and so is one that takes no input, which is then the last. -/
def readWhile (options : ReadOptions) (body : Stateful (Run σ) Yield) (size : Nat) (run : Run σ) :
    Except Fault (List Record × Bool) × Run σ :=
  if BitSource.left run.source = 0 then (.ok ([], false), run)
  else if options.maxElements ≤ size then
    (.error (.input (.arrayTooLarge (size + 1) options.maxElements)), run)
  else
    match body run with
    | (.error fault, run') => (.error fault, run')
    | (.ok y, run') =>
      if y.halted then (.ok ([], true), run')
      else if BitSource.left run'.source < BitSource.left run.source then
        match readWhile options body (size + 1) run' with
        | (.ok (items, halted), run'') => (.ok (⟨y.fields⟩ :: items, halted), run'')
        | (.error fault, run'') => (.error fault, run'')
      else (.ok ([], false), run')
termination_by BitSource.left run.source

def readElements (options : ReadOptions) (count : ElementCount) (body : Stateful (Run σ) Yield) :
    Stateful (Run σ) (Value × Bool) :=
  match count with
  | .one => do
    let y ← body
    return (.record ⟨y.fields⟩, y.halted)
  | .exactly n => do
    let (items, halted) ← readTimes body n
    return (.records items, halted)
  | .untilEnd => do
    let (items, halted) ← readWhile options body 0
    return (.records items, halted)

mutual

def read (s : Setting σ) (depth : Nat) : Declaration → Stateful (Run σ) Yield
  | .single h => do
    match ← h.enter s with
    | none => return ⟨[], true⟩
    | some r => h.readSingle s r
  | .nested h members => do
    match ← h.enter s with
    | none => return ⟨[], true⟩
    | some r =>
      if s.options.maxDepth < depth + 1 then throw (.input (.tooDeep s.options.maxDepth))
      else
        let (value, halted) ← readElements s.options r.count (readAll s (depth + 1) members)
        return ⟨[⟨h.info, value⟩], halted⟩

/-- Reads declarations one after the other, up to the one that halts. -/
def readAll (s : Setting σ) (depth : Nat) : List Declaration → Stateful (Run σ) Yield
  | [] => pure ⟨[], false⟩
  | d :: ds => do
    let first ← d.read s depth
    if first.halted then return first
    else
      let rest ← readAll s depth ds
      return ⟨first.fields ++ rest.fields, rest.halted⟩

end

/-- Reads the fields of a script from a source. The outcome comes with the source and the
readings as they stand at the end or at the fault. -/
def readScript (s : Setting σ) (ds : List Declaration) (source : σ) : Except Fault Record × Run σ :=
  let action : Stateful (Run σ) Record := do return ⟨(← readAll s 0 ds).fields⟩
  action.on { source }

end Declaration
end LayoutScript
