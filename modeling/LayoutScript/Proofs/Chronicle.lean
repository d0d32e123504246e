import LayoutScript.Proofs.Noted
import LayoutScript.Proofs.WalkDeclarations

/-! # Chronicles of a reading

A chronicle of a walk through the code of a layout holds what happens in it: the visits to instructions, the
numbers that are kept, the structures that are added to arrays, and the moment when the walk halts because the
input has ended. A walk of which a chronicle is made gives what the walk gives.
-/
namespace LayoutScript
variable {σ : Type}

/-- An instruction that is about to be decoded, the first one of the code at a place, with what is left of the
tables and the run at that time. -/
structure Visit (σ : Type) where
  place : Place
  /-- The number of structures open around the instruction. -/
  depth : Nat
  /-- The instruction is in the body of an empty array, which is passed without reading. -/
  skipping : Bool
  run : Run σ

inductive Chronicle.Event (σ : Type) where
  | visits (visit : Visit σ)
  /-- A number is kept for a named field. -/
  | keeps (field : NamedField) (number : Int64)
  /-- A structure is added to an array. -/
  | adds (item : Record)
  /-- The end of the input is met and tolerated. -/
  | halts (run : Run σ)

namespace Chronicle.Event

def isHalt : Event σ → Bool
  | .halts _ => true
  | .visits _ | .keeps .. | .adds _ => false

def isAdded : Event σ → Bool
  | .adds _ => true
  | .visits _ | .keeps .. | .halts _ => false

def visit? : Event σ → Option (Visit σ)
  | .visits visit => some visit
  | .keeps .. | .adds _ | .halts _ => none

end Chronicle.Event

abbrev Chronicle (σ : Type) := Noted σ (Chronicle.Event σ)

namespace Chronicle
open Noted (does note)

def visits (c : Chronicle σ) : List (Visit σ) := c.events.filterMap Event.visit?

/-- Notes that the first instruction at a place is visited. -/
def noteVisit (place : Place) (depth : Nat) (skipping : Bool) : Stateful (Chronicle σ) PUnit :=
  note fun run => [.visits ⟨place, depth, skipping, run⟩]

def noteHalt : Stateful (Chronicle σ) PUnit := note fun run => [.halts run]

/-- Keeps the number that a named field stands for. -/
def keepReading (info : Option NamedField) (v : Value) : Stateful (Chronicle σ) PUnit :=
  match info, v.number? with
  | some field, some number => do
    does (modify (Setting.keepReading info v))
    note fun _ => [.keeps field number]
  | _, _ => pure ⟨⟩

/-! ## The walk -/

/-- Passes a body without reading, inside `depth` structures. -/
def skipBody (layout : Layout) (depth inner : Nat) :
    List CodeLine → List NamedField → List SizeSource → Stateful (Chronicle σ) Place
  | [], _, _ => throw (.corrupt layout.code.length)
  | line :: code, named, sizes => do
    noteVisit ⟨line :: code, named, sizes⟩ (depth + inner) true
    if line.kind = .closing then
      match inner with
      | 0 => return ⟨code, named, sizes⟩
      | inner + 1 => skipBody layout depth inner code named sizes
    else
      let (_, named) ← liftM (takeName line named)
      let inner := if line.kind = .opening then inner + 1 else inner
      skipBody layout depth inner code named (sizes.drop line.instruction.computedCount)

/-- Notes that a structure is added to an array, if the walk of it is done. -/
def noteAdded : Walk → Stateful (Chronicle σ) Walk
  | .done fields place => do
    note fun _ => [.adds ⟨fields⟩]
    return .done fields place
  | .halted fields => pure (.halted fields)

variable [BitSource σ]

/-- Walks `body` for elements as long as there is input. -/
def repeatUntilEnd (options : ReadOptions) (body : Stateful (Chronicle σ) Walk) (size : Nat)
    (acc : List Record) (place : Option Place) (c : Chronicle σ) :
    Except Fault (List Record × Option Place × Bool) × Chronicle σ :=
  if BitSource.left c.run.source = 0 then (.ok (acc.reverse, place, false), c)
  else if options.maxElements ≤ size then
    (.error (.input (.arrayTooLarge (size + 1) options.maxElements)), c)
  else
    match body c with
    | (.ok (.done fields place), c') =>
      if BitSource.left c'.run.source < BitSource.left c.run.source then
        repeatUntilEnd options body (size + 1) (⟨fields⟩ :: acc) (some place)
          { c' with events := .adds ⟨fields⟩ :: c'.events }
      else (.ok (acc.reverse, some place, false), c')
    | (.ok (.halted _), c') => (.ok (acc.reverse, none, true), c')
    | (.error fault, c') => (.error fault, c')
termination_by BitSource.left c.run.source

end Chronicle

namespace Setting
variable [BitSource σ]
open Noted (does)
open Chronicle (noteVisit noteHalt)

/-- Reads a structure or an array of structures inside `depth` structures. -/
def chronicleStructure (s : Setting σ) (depth : Nat) (count : ElementCount) (place : Place)
    (body : Stateful (Chronicle σ) Walk) : Stateful (Chronicle σ) (Value × Option Place) :=
  elementsOf count body (repeatBody (body >>= Chronicle.noteAdded) · [] place)
    (Chronicle.repeatUntilEnd s.options body 0 [] none)
    (Chronicle.skipBody s.layout (depth + 1) 0 place.code place.named place.sizes)

/-- Walks a body from `place` on, inside `depth` structures. -/
def chronicleWalk (s : Setting σ) (depth : Nat) (place : Place) : Stateful (Chronicle σ) Walk :=
  match place with
  | ⟨[], named, sizes⟩ =>
    if depth = 0 then pure (.done [] ⟨[], named, sizes⟩)
    else throw (.corrupt s.layout.code.length)
  | ⟨line :: code, named, sizes⟩ => do
    noteVisit ⟨line :: code, named, sizes⟩ depth false
    if line.kind = .closing then
      if depth = 0 then throw (.corrupt line.offset) else return .done [] ⟨code, named, sizes⟩
    else
      let (info, named) ← liftM (takeName line named)
      let (r, sizes) ← does (s.request line info sizes)
      if s.stopsBefore line.kind r.count (← does get) then
        noteHalt
        return .halted []
      else if line.kind = .opening then
        if s.options.maxDepth < depth + 1 then throw (.input (.tooDeep s.options.maxDepth))
        let (value, next?) ← s.chronicleStructure depth r.count ⟨code, named, sizes⟩
          (s.chronicleWalk (depth + 1) ⟨code, named, sizes⟩)
        match next? with
        | none => return .halted [⟨info, value⟩]
        | some next =>
          if next.code.length ≤ code.length then
            return (← s.chronicleWalk depth next).cons ⟨info, value⟩
          else throw (.corrupt line.offset)
      else
        match ← does (s.tryField line r) with
        | none =>
          noteHalt
          return .halted []
        | some (.cut value) =>
          noteHalt
          return .halted [⟨info, value⟩]
        | some .nothing => s.chronicleWalk depth ⟨code, named, sizes⟩
        | some (.value value) =>
          Chronicle.keepReading info value
          return (← s.chronicleWalk depth ⟨code, named, sizes⟩).cons ⟨info, value⟩
termination_by place.code.length
decreasing_by all_goals simp_all only [List.length_cons]; omega

/-- Walks the whole code of the layout. -/
def chronicleRecord (s : Setting σ) : Stateful (Chronicle σ) Record := do
  let lines ← liftM s.layout.lines
  return ⟨(← s.chronicleWalk 0 (s.layout.start lines)).fields⟩

/-- Reads a source and makes a chronicle of it. -/
def chronicle (s : Setting σ) (source : σ) : Except Fault Record × Chronicle σ :=
  s.chronicleRecord.on { run := { source } }

end Setting

/-! ## What a chronicle erases to -/

open Stateful Noted

namespace Chronicle

theorem lifts_keepReading (info : Option NamedField) (v : Value) :
    Lifts Noted.run (keepReading (σ := σ) info v) (modify (Setting.keepReading info v)) := by
  intro c
  cases info with
  | none => rfl
  | some field =>
    unfold keepReading Setting.keepReading
    cases v.number? <;> rfl

theorem lifts_skipBody (layout : Layout) (depth inner : Nat) (code : List CodeLine) (named : List NamedField)
    (sizes : List SizeSource) :
    Lifts Noted.run (skipBody (σ := σ) layout depth inner code named sizes)
      (liftM (layout.skipBody inner code named sizes)) := by
  induction code generalizing inner named sizes with
  | nil => exact .throw _
  | cons line code ih =>
    apply lifts_note
    by_cases hclosing : line.kind = .closing
    · rw [if_pos hclosing]
      cases inner with
      | zero =>
        rw [Layout.skipBody_end hclosing]
        exact .pure _
      | succ inner =>
        rw [Layout.skipBody_leave hclosing]
        exact ih inner named sizes
    · rw [if_neg hclosing, Layout.skipBody_pass hclosing]
      cases takeName line named with
      | error fault => exact .throw _
      | ok taken => exact ih _ _ _

section bodies
variable {body : Stateful (Chronicle σ) Walk} {body' : Stateful (Run σ) Walk}

theorem lifts_noteAdded (h : Lifts Noted.run body body') : Lifts Noted.run (body >>= noteAdded) body' := by
  have hbind : Lifts Noted.run (body >>= noteAdded) (body' >>= pure) := by
    apply h.bind
    intro walk
    cases walk with
    | done fields place => exact lifts_note (.pure _) _
    | halted fields => exact .pure _
  rwa [bind_pure] at hbind

theorem lifts_repeatBody (h : Lifts Noted.run body body') (n : Nat) (acc : List Record) (place : Place) :
    Lifts Noted.run (repeatBody body n acc place) (repeatBody body' n acc place) := by
  induction n generalizing acc place with
  | zero => exact .pure _
  | succ n ih =>
    apply h.bind
    intro walk
    cases walk with
    | done fields place => exact ih _ _
    | halted fields => exact .pure _

variable [BitSource σ]

theorem lifts_repeatUntilEnd (h : Lifts Noted.run body body') (options : ReadOptions) (size : Nat)
    (acc : List Record) (place : Option Place) :
    Lifts Noted.run (repeatUntilEnd options body size acc place)
      (LayoutScript.repeatUntilEnd options body' size acc place) := by
  intro c
  induction hn : BitSource.left c.run.source using Nat.strongRecOn generalizing size acc place c with
  | _ n ih =>
    rw [repeatUntilEnd, LayoutScript.repeatUntilEnd]
    by_cases hend : BitSource.left c.run.source = 0
    · rw [if_pos hend, if_pos hend]
    rw [if_neg hend, if_neg hend]
    by_cases hmax : options.maxElements ≤ size
    · rw [if_pos hmax, if_pos hmax]
    rw [if_neg hmax, if_neg hmax, ← h c]
    rcases body c with ⟨fault | fields | fields, c'⟩
    · rfl
    · dsimp only
      by_cases hless : BitSource.left c'.run.source < BitSource.left c.run.source
      · rw [if_pos hless, if_pos hless]
        exact ih _ (hn ▸ hless) (size + 1) _ _ _ rfl
      · rw [if_neg hless, if_neg hless]
    · rfl

theorem lifts_structure (h : Lifts Noted.run body body') (s : Setting σ) (depth : Nat) (count : ElementCount)
    (place : Place) :
    Lifts Noted.run (s.chronicleStructure depth count place body) (s.readStructure count place body') := by
  have hskip := lifts_skipBody (σ := σ) s.layout (depth + 1) 0 place.code place.named place.sizes
  cases count with
  | one =>
    apply h.bind
    intro walk
    cases walk <;> exact .pure _
  | exactly n =>
    cases n with
    | zero => exact hskip.bind fun _ => .pure _
    | succ n => exact (lifts_repeatBody (lifts_noteAdded h) _ _ _).bind fun _ => .pure _
  | untilEnd =>
    apply (lifts_repeatUntilEnd h s.options 0 [] none).bind
    intro elements
    by_cases hempty : (elements.1.isEmpty && !elements.2.2) = true
    · simp only [if_pos hempty]
      exact hskip.bind fun _ => .pure _
    · simp only [if_neg hempty]
      exact .pure _

end bodies
end Chronicle

namespace Setting
variable [BitSource σ]

theorem lifts_chronicleWalk (s : Setting σ) (depth : Nat) (place : Place) :
    Lifts Noted.run (s.chronicleWalk depth place) (s.walk depth place) := by
  induction hn : place.code.length using Nat.strongRecOn generalizing depth place with
  | _ n ih =>
    obtain ⟨_ | ⟨line, code⟩, named, sizes⟩ := place
    · rw [chronicleWalk, walk]
      by_cases hdepth : depth = 0
      · rw [if_pos hdepth, if_pos hdepth]
        exact .pure _
      · rw [if_neg hdepth, if_neg hdepth]
        exact .throw _
    have hbehind : ∀ (depth : Nat) (next : Place), next.code.length ≤ code.length →
        Lifts Noted.run (s.chronicleWalk depth next) (s.walk depth next) := by
      intro depth next hnext
      exact ih _ (hn ▸ Nat.lt_succ_of_le hnext) depth next rfl
    rw [chronicleWalk, walk]
    apply lifts_note
    by_cases hclosing : line.kind = .closing
    · rw [if_pos hclosing, if_pos hclosing]
      by_cases hdepth : depth = 0
      · rw [if_pos hdepth, if_pos hdepth]
        exact .throw _
      · rw [if_neg hdepth, if_neg hdepth]
        exact .pure _
    rw [if_neg hclosing, if_neg hclosing]
    apply (Lifts.lift _).bind
    intro taken
    apply (lifts_does _).bind
    intro asked
    apply (lifts_does _).bind
    intro run
    by_cases hstop : s.stopsBefore line.kind asked.1.count run = true
    · rw [if_pos hstop, if_pos hstop]
      exact lifts_note (.pure _) _
    rw [if_neg hstop, if_neg hstop]
    by_cases hopening : line.kind = .opening
    · rw [if_pos hopening, if_pos hopening]
      by_cases hdepth : s.options.maxDepth < depth + 1
      · simp only [if_pos hdepth]
        exact .throw _
      simp only [if_neg hdepth]
      apply (Chronicle.lifts_structure (hbehind _ _ (Nat.le_refl _)) s _ _ _).bind
      rintro ⟨value, _ | next⟩
      · exact .pure _
      dsimp only
      by_cases hnext : next.code.length ≤ code.length
      · rw [if_pos hnext, if_pos hnext]
        exact (hbehind depth next hnext).bind fun _ => .pure _
      · rw [if_neg hnext, if_neg hnext]
        exact .throw _
    · rw [if_neg hopening, if_neg hopening]
      have hrest := hbehind depth ⟨code, taken.2, asked.2⟩ (Nat.le_refl _)
      apply (lifts_does _).bind
      rintro (_ | _ | value | value)
      · exact lifts_note (.pure _) _
      · exact hrest
      · exact (Chronicle.lifts_keepReading _ _).bind fun _ => hrest.bind fun _ => .pure _
      · exact lifts_note (.pure _) _

/-- A reading of which a chronicle is made gives what the reading gives. -/
theorem chronicle_run (s : Setting σ) (source : σ) :
    ((s.chronicle source).1, (s.chronicle source).2.run) = s.read source := by
  have hlifts : Lifts Noted.run s.chronicleRecord
      (do let lines ← liftM s.layout.lines; return ⟨(← s.walk 0 (s.layout.start lines)).fields⟩) :=
    (Lifts.lift _).bind fun _ => (s.lifts_chronicleWalk 0 _).bind fun _ => .pure _
  exact hlifts { run := { source } }

end Setting
end LayoutScript
