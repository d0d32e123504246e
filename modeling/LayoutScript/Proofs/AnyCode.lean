import LayoutScript.Proofs.CodeListing
import LayoutScript.Proofs.Stateful

/-! # Any bytes as code

Packed integers are read back one after the other, whatever stands before and behind them. Bytes that
nobody wrote as code are read safely as well: a read stops inside the code, behind at least one byte,
or finds that it is corrupt and leaves the place as it was. So reading instruction by instruction
comes to an end with any bytes.
-/
namespace LayoutScript

namespace CodeCursor
variable {code : List UInt8} {pos : Nat} {c : CodeCursor}

theorem Reaches.ofCode (h : (ofCode code pos).Reaches c) (hlt : pos < c.pos) : c.pos ≤ code.length ∧ c = ofCode code c.pos := by
  obtain ⟨taken, hrest, hpos⟩ := h
  dsimp only [CodeCursor.ofCode] at hrest hpos
  have hlength := congrArg List.length hrest
  simp only [List.length_drop, List.length_append] at hlength
  refine ⟨by omega, ?_⟩
  have hdrop : code.drop c.pos = c.rest := by rw [hpos, ← List.drop_drop, hrest, List.drop_left]
  rw [CodeCursor.ofCode, hdrop]

end CodeCursor

namespace Packed

def nextTimes : Nat → Stateful CodeCursor (List Packed)
  | 0 => pure []
  | n + 1 => do
    let p ← next
    return p :: (← nextTimes n)

/-- Packed integers that stand one behind the other are read back in order, whatever follows them. -/
theorem nextTimes_encode (items : List Packed) (pos : Nat) (rest : List UInt8) :
    nextTimes items.length ⟨pos, items.flatMap encode ++ rest⟩ =
      (.ok items, ⟨pos + (items.flatMap encode).length, rest⟩) := by
  induction items generalizing pos with
  | nil => rfl
  | cons p items ih =>
    have hfirst : next ⟨pos, p.encode ++ (items.flatMap encode ++ rest)⟩ =
        (.ok p, ⟨pos + p.encode.length, items.flatMap encode ++ rest⟩) := by rw [next, read_encode]
    simp only [List.length_cons, List.flatMap_cons, List.append_assoc, List.length_append, nextTimes,
      Stateful.bind_apply, hfirst, ih, Nat.add_assoc]
    rfl

/-- Wherever in some code a packed integer is looked for, either it is found inside the code, or the
code is corrupt there and the place stays. -/
theorem next_ofCode (code : List UInt8) (pos : Nat) :
    next (.ofCode code pos) = (.error (.corrupt pos), .ofCode code pos) ∨
      ∃ p stop, pos < stop ∧ stop ≤ code.length ∧ next (.ofCode code pos) = (.ok p, .ofCode code stop) := by
  cases hread : read (.ofCode code pos) with
  | error fault =>
    have hfault := read_fault hread
    exact .inl (by rw [next, hread, hfault]; rfl)
  | ok answer =>
    obtain ⟨p, c⟩ := answer
    obtain ⟨hreaches, hlt⟩ := read_reaches hread
    obtain ⟨hle, hc⟩ := hreaches.ofCode hlt
    exact .inr ⟨p, c.pos, hlt, hle, by rw [next, hread, ← hc]⟩

end Packed

namespace CodeLine

/-- Wherever in some code an instruction is looked for, either it is found inside the code, or the code
is corrupt there or behind. -/
theorem read_ofCode (code : List UInt8) (offset : Nat) :
    (∃ pos, offset ≤ pos ∧ read (.ofCode code offset) = .error (.corrupt pos)) ∨
      ∃ line, line.offset = offset ∧ offset < line.next ∧ line.next ≤ code.length ∧
        read (.ofCode code offset) = .ok (line, .ofCode code line.next) := by
  cases hread : read (.ofCode code offset) with
  | error fault =>
    obtain ⟨pos, hle, rfl⟩ := read_fault hread
    exact .inl ⟨pos, hle, rfl⟩
  | ok answer =>
    obtain ⟨line, c⟩ := answer
    obtain ⟨hreaches, hlt⟩ := read_reaches hread
    obtain ⟨hle, hc⟩ := hreaches.ofCode hlt
    obtain ⟨hoffset, hnext⟩ := read_place hread
    exact .inr ⟨line, hoffset, hnext ▸ hlt, hnext ▸ hle, by rw [hnext, ← hc]⟩

/-- Instructions of some code, each read where the one before it stops. -/
inductive Sequence (code : List UInt8) : Nat → List CodeLine → Nat → Prop where
  | done (pos : Nat) : Sequence code pos [] pos
  | line {pos stop : Nat} {line : CodeLine} {lines : List CodeLine}
      (hread : read (.ofCode code pos) = .ok (line, .ofCode code line.next)) (h : Sequence code line.next lines stop) :
      Sequence code pos (line :: lines) stop

theorem Sequence.length_le {code : List UInt8} {pos stop : Nat} {lines : List CodeLine} (h : Sequence code pos lines stop)
    (hpos : pos ≤ code.length) : pos + lines.length ≤ stop ∧ stop ≤ code.length := by
  induction h with
  | done => exact ⟨Nat.le_refl _, hpos⟩
  | line hread _ ih =>
    obtain ⟨hreaches, hlt⟩ := read_reaches hread
    obtain ⟨hle, -⟩ := hreaches.ofCode hlt
    have hrest := ih hle
    dsimp only [CodeCursor.ofCode] at hlt
    simp only [List.length_cons]
    omega

/-- Reading one instruction after the other ends with the code or at an instruction that is corrupt. -/
theorem linesFrom_ofCode (code : List UInt8) {pos : Nat} (hpos : pos ≤ code.length) :
    ∃ lines stop fault?, linesFrom (.ofCode code pos) = (lines, fault?) ∧ Sequence code pos lines stop ∧
      (fault? = none ∧ stop = code.length ∨
        ∃ pos', fault? = some (.corrupt pos') ∧ read (.ofCode code stop) = .error (.corrupt pos')) := by
  induction hn : code.length - pos using Nat.strongRecOn generalizing pos with
  | _ n ih =>
    by_cases hend : (CodeCursor.ofCode code pos).rest = []
    · have hstop : pos = code.length := Nat.le_antisymm hpos (List.drop_eq_nil_iff.mp hend)
      exact ⟨[], pos, none, by rw [linesFrom, if_pos hend], .done pos, .inl ⟨rfl, hstop⟩⟩
    rcases read_ofCode code pos with ⟨pos', -, hread⟩ | ⟨line, -, hlt, hle, hread⟩
    · exact ⟨[], pos, _, linesFrom_error hend hread, .done pos, .inr ⟨pos', rfl, hread⟩⟩
    · obtain ⟨lines, stop, fault?, hlines, hsequence, hends⟩ := ih (code.length - line.next) (by omega) hle rfl
      refine ⟨line :: lines, stop, fault?, ?_, .line hread hsequence, hends⟩
      rw [linesFrom_cons hend hread, hlines]

/-- Packed integers are read back in order wherever they stand in some code, and reading them stops where
they do. In any code, from any place, reading a packed integer or an instruction finds one inside the
code or that the code is corrupt, and the instructions of the code are found one after the other, up to
its end or to one that is corrupt. -/
theorem read_anyCode :
    (∀ (items : List Packed) (before behind : List UInt8),
      (Packed.nextTimes items.length).on (.ofCode (before ++ items.flatMap Packed.encode ++ behind) before.length) =
        (.ok items, ⟨before.length + (items.flatMap Packed.encode).length, behind⟩)) ∧
    (∀ (code : List UInt8) (pos : Nat),
      Packed.next (.ofCode code pos) = (.error (.corrupt pos), .ofCode code pos) ∨
        ∃ p stop, pos < stop ∧ stop ≤ code.length ∧ Packed.next (.ofCode code pos) = (.ok p, .ofCode code stop)) ∧
    (∀ (code : List UInt8) (offset : Nat),
      (∃ pos, offset ≤ pos ∧ read (.ofCode code offset) = .error (.corrupt pos)) ∨
        ∃ line, line.offset = offset ∧ offset < line.next ∧ line.next ≤ code.length ∧
          read (.ofCode code offset) = .ok (line, .ofCode code line.next)) ∧
    ∀ code : List UInt8,
      (∀ lines stop, Sequence code 0 lines stop → lines.length ≤ stop ∧ stop ≤ code.length) ∧
      ∃ lines stop, Sequence code 0 lines stop ∧
        (ofCode code = .ok lines ∧ stop = code.length ∨
          ∃ pos, ofCode code = .error (.corrupt pos) ∧ read (.ofCode code stop) = .error (.corrupt pos)) := by
  refine ⟨fun items before behind => ?_, Packed.next_ofCode, read_ofCode, fun code => ⟨fun lines stop h => ?_, ?_⟩⟩
  · have hplace : CodeCursor.ofCode (before ++ items.flatMap Packed.encode ++ behind) before.length =
        ⟨before.length, items.flatMap Packed.encode ++ behind⟩ := by simp [CodeCursor.ofCode]
    rw [hplace]
    exact Packed.nextTimes_encode items before.length behind
  · simpa using h.length_le (Nat.zero_le _)
  · obtain ⟨lines, stop, fault?, hlines, hsequence, hends⟩ := linesFrom_ofCode code (Nat.zero_le _)
    have hcode : linesFrom ⟨0, code⟩ = (lines, fault?) := hlines
    refine ⟨lines, stop, hsequence, ?_⟩
    rcases hends with ⟨rfl, hend⟩ | ⟨pos, rfl, hread⟩
    · exact .inl ⟨by rw [ofCode, hcode], hend⟩
    · exact .inr ⟨pos, by rw [ofCode, hcode], hread⟩

/-- Numbers on both sides of the bounds of each form and below zero, and code that breaks off inside of its
second instruction. -/
theorem read_anyCode_cut :
    let items : List Packed := [.value 0x7f, .value 0x80, .value 0xffff, .value 0x10000, .computed, .value (-1)]
    let code : List UInt8 := [0x18, 0x22, 0x03]
    let line : CodeLine := ⟨0, 0x10, { action := .whole .int, named := true }, 1⟩
    (Packed.nextTimes 6).on (.ofCode ([0x80] ++ items.flatMap Packed.encode ++ [0x82]) 1) = (.ok items, ⟨19, [0x82]⟩) ∧
      Sequence code 0 [line] 1 ∧ [line].length ≤ 1 ∧ 1 ≤ code.length := by
  intro items code line
  have hsequence : Sequence code 0 [line] 1 := .line rfl (.done 1)
  exact ⟨read_anyCode.1 items [0x80] [0x82], hsequence, (read_anyCode.2.2.2 code).1 [line] 1 hsequence⟩

end CodeLine
end LayoutScript
