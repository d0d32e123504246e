import LayoutScript.Code.Kind
import LayoutScript.Code.Packed

/-! # Instructions

An instruction is one byte, the kind in its low half and four flags in its high half,
followed by packed integers: the number of a custom type, the extra data, and the length of
an array of fixed length. The end of a structure refers back to its beginning.
-/
namespace LayoutScript

inductive Count where
  | one
  | fixed (length : Nat)
  | wholeStream
  | computed
deriving DecidableEq

inductive Action where
  | align (extra : Packed)
  | bit (extra : Packed)
  | whole (type : WholeType)
  | opening
  | closing (start : Int32)
  | skip (extra : Packed)
  | var (extra : Packed)
  | restart
  | custom (index : Nat) (extra : Packed)
deriving DecidableEq

namespace Action

def kind : Action → Kind
  | .align _ => .align
  | .bit _ => .bit
  | .whole t => .whole t
  | .opening => .opening
  | .closing _ => .closing
  | .skip _ => .skip
  | .var _ => .var
  | .restart => .restart
  | .custom .. => .custom

def extra? : Action → Option Packed
  | .align e | .bit e | .skip e | .var e | .custom _ e => some e
  | _ => none

def customIndex? : Action → Option Nat
  | .custom index _ => some index
  | _ => none

/-- The packed integers that follow the first byte. -/
def operands : Action → List Packed
  | .align e | .bit e | .skip e | .var e => [e]
  | .custom index e => [.value (Int32.ofNat index), e]
  | .closing start => [.value start]
  | .whole _ | .opening | .restart => []

end Action

structure Instruction where
  action : Action
  named : Bool := false
  little : Bool := false
  count : Count := .one
deriving DecidableEq

namespace Instruction

def kind (i : Instruction) : Kind := i.action.kind

/-- Computed values that running the instruction asks for. -/
def computedCount (i : Instruction) : Nat :=
  (if i.action.extra? = some .computed then 1 else 0) + (if i.count = .computed then 1 else 0)

def namedFlag : UInt8 := 0x10

/-- The flag of an array whose length is fixed or computed. -/
def sizedFlag : UInt8 := 0x20

/-- The flag of a computed length, or alone that of an array up to the end of the input. -/
def openFlag : UInt8 := 0x40

def littleFlag : UInt8 := 0x80

def countFlags : Count → UInt8
  | .one => 0
  | .fixed _ => sizedFlag
  | .wholeStream => openFlag
  | .computed => sizedFlag ||| openFlag

def flags (i : Instruction) : UInt8 :=
  (if i.named then namedFlag else 0) ||| countFlags i.count ||| (if i.little then littleFlag else 0)

def countOperands : Count → List Packed
  | .fixed length => [.value (Int32.ofNat length)]
  | _ => []

def encode (i : Instruction) : List UInt8 :=
  (i.kind.code ||| i.flags) :: (i.action.operands ++ countOperands i.count).flatMap Packed.encode

end Instruction

structure CodeLine where
  offset : Nat
  /-- The high half of the first byte as it stands. -/
  flags : UInt8
  instruction : Instruction
  next : Nat
deriving DecidableEq

namespace CodeLine

def kind (line : CodeLine) : Kind := line.instruction.kind

def readAction (offset : Nat) (kind : Kind) (c : CodeCursor) : Except Fault (Action × CodeCursor) :=
  match kind with
  | .whole t => .ok (.whole t, c)
  | .opening => .ok (.opening, c)
  | .restart => .ok (.restart, c)
  | .align => do let (e, c) ← Packed.read c; return (.align e, c)
  | .bit => do let (e, c) ← Packed.read c; return (.bit e, c)
  | .skip => do let (e, c) ← Packed.read c; return (.skip e, c)
  | .var => do let (e, c) ← Packed.read c; return (.var e, c)
  | .closing => do
    match ← Packed.read c with
    | (.value start, c) => return (.closing start, c)
    | (.computed, _) => .error (.corrupt offset)
  | .custom => do
    match ← Packed.read c with
    | (.value index, c) =>
      if index < 0 then .error (.corrupt offset)
      else
        let (e, c) ← Packed.read c
        return (.custom index.toInt.toNat e, c)
    | (.computed, _) => .error (.corrupt offset)

/-- Reads the count that the flags announce. The end of a structure is never an array,
whatever its flags. -/
def readCount (offset : Nat) (kind : Kind) (flags : UInt8) (c : CodeCursor) :
    Except Fault (Count × CodeCursor) :=
  let sized := flags &&& Instruction.sizedFlag != 0
  let opened := flags &&& Instruction.openFlag != 0
  if kind = .closing then .ok (.one, c)
  else if sized && opened then .ok (.computed, c)
  else if opened then .ok (.wholeStream, c)
  else if sized then do
    match ← Packed.read c with
    | (.value length, c) =>
      if length < 0 then .error (.corrupt offset) else return (.fixed length.toInt.toNat, c)
    | (.computed, _) => .error (.corrupt offset)
  else .ok (.one, c)

def read (c : CodeCursor) : Except Fault (CodeLine × CodeCursor) :=
  match c.rest with
  | [] => .error (.corrupt c.pos)
  | opcode :: rest =>
    match Kind.ofCode? opcode with
    | none => .error (.corrupt c.pos)
    | some kind => do
      let flags := opcode &&& 0xf0
      let (action, c') ← readAction c.pos kind ⟨c.pos + 1, rest⟩
      let (count, c') ← readCount c.pos kind flags c'
      let instruction := {
        action, count
        named := flags &&& Instruction.namedFlag != 0
        little := flags &&& Instruction.littleFlag != 0 }
      return (⟨c.pos, flags, instruction, c'.pos⟩, c')

theorem decodes_readAction {offset : Nat} (kind : Kind) {c : CodeCursor} (hle : offset ≤ c.pos) :
    c.Decodes offset (readAction offset kind c) := by
  have corrupt : ∀ {α : Type}, c.Decodes (α := α) offset (.error (.corrupt offset)) := .corrupt (Nat.le_refl _)
  cases kind with
  | whole | opening | restart => exact .ok _ (.refl c)
  | align | bit | skip | var => exact (Packed.decodes_read hle).bind fun _ _ hc => .ok _ hc
  | closing =>
    refine (Packed.decodes_read hle).bind fun start c' hc => ?_
    cases start with
    | value start => exact .ok _ hc
    | computed => exact corrupt
  | custom =>
    refine (Packed.decodes_read hle).bind fun index c' hc => ?_
    cases index with
    | value index =>
      dsimp only
      split
      · exact corrupt
      · have hextra := Packed.decodes_read (Nat.le_trans hle hc.advances.1)
        refine CodeCursor.Decodes.behind ?_ hc
        exact hextra.bind fun _ _ hc' => .ok _ hc'
    | computed => exact corrupt

theorem decodes_readCount {offset : Nat} (kind : Kind) (flags : UInt8) {c : CodeCursor} (hle : offset ≤ c.pos) :
    c.Decodes offset (readCount offset kind flags c) := by
  have corrupt : ∀ {α : Type}, c.Decodes (α := α) offset (.error (.corrupt offset)) := .corrupt (Nat.le_refl _)
  unfold readCount
  dsimp only
  split
  · exact .ok _ (.refl c)
  split
  · exact .ok _ (.refl c)
  split
  · exact .ok _ (.refl c)
  split
  · refine (Packed.decodes_read hle).bind fun length c' hc => ?_
    cases length with
    | value length =>
      dsimp only
      split
      · exact corrupt
      · exact .ok _ hc
    | computed => exact corrupt
  · exact .ok _ (.refl c)

/-- Behind its first byte an instruction is read from what belongs to it. -/
theorem read_cons (pos : Nat) (opcode : UInt8) (rest : List UInt8) :
    CodeCursor.Decodes pos ⟨pos + 1, rest⟩ (read ⟨pos, opcode :: rest⟩) := by
  unfold read
  dsimp only
  split
  · exact .corrupt (Nat.le_refl _)
  · refine (decodes_readAction _ (Nat.le_succ pos)).bind fun action c hc => ?_
    refine ((decodes_readCount _ _ (Nat.le_trans (Nat.le_succ pos) hc.advances.1)).bind fun count c' hc' => ?_).behind hc
    exact .ok _ hc'

/-- Where no instruction can be read, the code is corrupt there or behind. -/
theorem read_fault {c : CodeCursor} {fault : Fault} (h : read c = .error fault) :
    ∃ pos, c.pos ≤ pos ∧ fault = .corrupt pos := by
  obtain ⟨pos, rest⟩ := c
  cases rest with
  | nil => cases h; exact ⟨pos, Nat.le_refl _, rfl⟩
  | cons opcode rest =>
    have hread := read_cons pos opcode rest
    rw [h] at hread
    exact hread.fault

/-- Reading an instruction takes its first byte and what belongs to it, and no more. -/
theorem read_reaches {c c' : CodeCursor} {line : CodeLine} (h : read c = .ok (line, c')) :
    c.Reaches c' ∧ c.pos < c'.pos := by
  obtain ⟨pos, rest⟩ := c
  cases rest with
  | nil => cases h
  | cons opcode rest =>
    have hread := read_cons pos opcode rest
    rw [h] at hread
    have hbehind := hread.reaches
    have hfirst : CodeCursor.Reaches ⟨pos, opcode :: rest⟩ ⟨pos + 1, rest⟩ := ⟨[opcode], rfl, rfl⟩
    exact ⟨hfirst.trans hbehind, hbehind.advances.1⟩

/-- Reading an instruction moves past at least its first byte and never past the end. -/
theorem read_advances {c c' : CodeCursor} {line : CodeLine} (h : read c = .ok (line, c')) :
    c.pos < c'.pos ∧ c'.pos + c'.rest.length = c.pos + c.rest.length :=
  ⟨(read_reaches h).2, (read_reaches h).1.advances.2⟩

/-- An instruction tells where it starts and where it stops. -/
theorem read_place {c c' : CodeCursor} {line : CodeLine} (h : read c = .ok (line, c')) :
    line.offset = c.pos ∧ line.next = c'.pos := by
  simp only [read, bind, Except.bind, pure, Except.pure] at h
  repeat' split at h
  all_goals cases h
  exact ⟨rfl, rfl⟩

theorem read_shorter {c c' : CodeCursor} {line : CodeLine} (h : read c = .ok (line, c')) :
    c'.rest.length < c.rest.length := by
  have := read_advances h
  omega

/-- The instructions from a place up to the end of the code or the first that does not
decode, and the fault of the latter. -/
def linesFrom (c : CodeCursor) : List CodeLine × Option Fault :=
  if c.rest = [] then ([], none)
  else
    match h : read c with
    | .error fault => ([], some fault)
    | .ok (line, c') =>
      have := read_shorter h
      match linesFrom c' with
      | (lines, fault?) => (line :: lines, fault?)
termination_by c.rest.length

/-- The instructions of code that decodes to its end. -/
def ofCode (code : List UInt8) : Except Fault (List CodeLine) :=
  match linesFrom ⟨0, code⟩ with
  | (lines, none) => .ok lines
  | (_, some fault) => .error fault

end CodeLine
end LayoutScript
