import LayoutScript.Layout
import LayoutScript.Proofs.BitValues

/-! # Code is read back as it was written

Packed integers and instructions tell their own length, so each is read back in front of
anything. Instructions that are written one behind the other, each at the offset where the
one before it stops, are therefore listed exactly as they were written.
-/
namespace LayoutScript

namespace Packed

theorem read_byte {head : UInt8} (h : head < 0x80) (pos : Nat) (rest : List UInt8) :
    read ⟨pos, head :: rest⟩ = .ok (.value (Int32.ofNat head.toNat), ⟨pos + 1, rest⟩) := if_pos h

theorem read_two (m pos : Nat) (rest : List UInt8) :
    read ⟨pos, 0x80 :: ByteOrder.big.bytes 2 m ++ rest⟩ =
      .ok (.value (Int32.ofNat (m % 256 ^ 2)), ⟨pos + 3, rest⟩) := by
  rw [← ByteOrder.value_bytes .big]
  rfl

theorem read_four (m pos : Nat) (rest : List UInt8) :
    read ⟨pos, 0x81 :: ByteOrder.big.bytes 4 m ++ rest⟩ =
      .ok (.value (UInt32.ofNat (m % 256 ^ 4)).toInt32, ⟨pos + 5, rest⟩) := by
  rw [← ByteOrder.value_bytes .big]
  rfl

/-- A packed integer is read back, whatever follows it. -/
theorem read_encode (p : Packed) (pos : Nat) (rest : List UInt8) :
    read ⟨pos, p.encode ++ rest⟩ = .ok (p, ⟨pos + p.encode.length, rest⟩) := by
  cases p with
  | computed => rfl
  | value n =>
    have hhigh : n.toInt < 2 ^ 31 := n.toInt_lt
    have hback : 0 ≤ n.toInt → Int32.ofNat n.toInt.toNat = n := by
      intro h
      apply Int32.toInt_inj.mp
      rw [Int32.toInt_ofNat_of_lt (by omega)]
      omega
    by_cases hbyte : 0 ≤ n.toInt ∧ n.toInt < 0x80
    · have hnat : (UInt8.ofNat n.toInt.toNat).toNat = n.toInt.toNat := by
        rw [UInt8.toNat_ofNat']
        omega
      have hhead : UInt8.ofNat n.toInt.toNat < 0x80 := by
        rw [UInt8.lt_iff_toNat_lt, hnat]
        change n.toInt.toNat < 128
        omega
      have hread := read_byte hhead pos rest
      rw [hnat, hback hbyte.1] at hread
      rw [encode, if_pos hbyte]
      exact hread
    by_cases hshort : 0 ≤ n.toInt ∧ n.toInt < 0x10000
    · have hread := read_two n.toInt.toNat pos rest
      rw [Nat.mod_eq_of_lt (by omega), hback hshort.1] at hread
      rw [encode, if_neg hbyte, if_pos hshort]
      exact hread
    · have hlt := n.toUInt32.toNat_lt
      have hread := read_four n.toUInt32.toNat pos rest
      rw [Nat.mod_eq_of_lt (by omega), UInt32.ofNat_toNat] at hread
      rw [encode, if_neg hbyte, if_neg hshort]
      exact hread

end Packed

namespace Instruction

/-- The numbers of an instruction fit 31 bits, and the end of a structure is no array. -/
structure Encodable (i : Instruction) : Prop where
  index : ∀ index ∈ i.action.customIndex?, index < 2 ^ 31
  length : ∀ length, i.count = .fixed length → length < 2 ^ 31
  closing : i.kind = .closing → i.count = .one

theorem and_or_flags (a b c : UInt8) : (a ||| b) &&& c = (a &&& c) ||| (b &&& c) := by
  apply UInt8.toBitVec_inj.mp
  simp only [UInt8.toBitVec_and, UInt8.toBitVec_or]
  exact BitVec.eq_of_getElem_eq fun i hi => by simp [Bool.and_or_distrib_right]

theorem code_and (k : Kind) : k.code &&& 0x0f = k.code ∧ k.code &&& 0xf0 = 0 := by
  rcases k with _ | _ | t | _ | _ | _ | _ | _ | _
  case whole => cases t <;> decide
  all_goals decide

/-- The four flags do not overlap and leave the low half of the byte free. -/
theorem flags_table : ∀ named little : Bool, ∀ c ∈ [0, sizedFlag, openFlag, sizedFlag ||| openFlag],
    let f := (if named then namedFlag else 0) ||| c ||| (if little then littleFlag else 0)
    f &&& 0x0f = 0 ∧ f &&& 0xf0 = f ∧ (f &&& namedFlag != 0) = named ∧ (f &&& littleFlag != 0) = little ∧
      f &&& sizedFlag = c &&& sizedFlag ∧ f &&& openFlag = c &&& openFlag := by
  intro named little c hc
  simp only [List.mem_cons, List.not_mem_nil, or_false] at hc
  rcases hc with rfl | rfl | rfl | rfl <;> cases named <;> cases little <;> decide

theorem countFlags_mem (c : Count) : countFlags c ∈ [0, sizedFlag, openFlag, sizedFlag ||| openFlag] := by
  cases c <;> simp [countFlags]

theorem flags_and (i : Instruction) : i.flags &&& 0x0f = 0 ∧ i.flags &&& 0xf0 = i.flags ∧
    (i.flags &&& namedFlag != 0) = i.named ∧ (i.flags &&& littleFlag != 0) = i.little ∧
    i.flags &&& sizedFlag = countFlags i.count &&& sizedFlag ∧
    i.flags &&& openFlag = countFlags i.count &&& openFlag :=
  flags_table i.named i.little _ (countFlags_mem i.count)

theorem opcode_flags (i : Instruction) : (i.kind.code ||| i.flags) &&& 0xf0 = i.flags := by
  rw [and_or_flags, (code_and i.kind).2, (flags_and i).2.1, UInt8.zero_or]

theorem ofCode?_opcode (i : Instruction) : Kind.ofCode? (i.kind.code ||| i.flags) = some i.kind := by
  have h := Kind.ofCode?_code i.kind
  rw [Kind.ofCode?, (code_and i.kind).1] at h
  rw [Kind.ofCode?, and_or_flags, (code_and i.kind).1, (flags_and i).1, UInt8.or_zero]
  exact h

end Instruction

namespace CodeLine

theorem toNat_ofNat {n : Nat} (h : n < 2 ^ 31) : (Int32.ofNat n).toInt.toNat = n ∧ ¬ Int32.ofNat n < 0 := by
  have hint := Int32.toInt_ofNat_of_lt h
  constructor
  · rw [hint]
    omega
  · rw [Int32.lt_iff_toInt_lt, hint]
    change ¬ (n : Int) < 0
    omega

/-- The action of an instruction is read back. -/
theorem readAction_encode (offset pos : Nat) (i : Instruction) (hi : i.Encodable) (rest : List UInt8) :
    readAction offset i.kind ⟨pos, i.action.operands.flatMap Packed.encode ++ rest⟩ =
      .ok (i.action, ⟨pos + (i.action.operands.flatMap Packed.encode).length, rest⟩) := by
  obtain ⟨action, named, little, count⟩ := i
  cases action
  case whole | opening | restart => rfl
  case align e | bit e | skip e | var e =>
    simp only [Instruction.kind, Action.kind, Action.operands, readAction, List.flatMap_cons, List.flatMap_nil,
      List.append_nil, Packed.read_encode]
    rfl
  case closing start =>
    simp only [Instruction.kind, Action.kind, Action.operands, readAction, List.flatMap_cons, List.flatMap_nil,
      List.append_nil, Packed.read_encode]
    rfl
  case custom index e =>
    have hindex := toNat_ofNat (hi.index index rfl)
    simp only [Instruction.kind, Action.kind, Action.operands, readAction, List.flatMap_cons, List.flatMap_nil,
      List.append_nil, List.append_assoc, Packed.read_encode, bind, Except.bind, if_neg hindex.2, hindex.1,
      List.length_append, ← Nat.add_assoc]
    rfl

/-- The count of an instruction is read back. -/
theorem readCount_encode (offset pos : Nat) (i : Instruction) (hi : i.Encodable) (rest : List UInt8) :
    readCount offset i.kind i.flags ⟨pos, (Instruction.countOperands i.count).flatMap Packed.encode ++ rest⟩ =
      .ok (i.count, ⟨pos + ((Instruction.countOperands i.count).flatMap Packed.encode).length, rest⟩) := by
  obtain ⟨-, -, -, -, hsized, hopen⟩ := Instruction.flags_and i
  by_cases hclosing : i.kind = .closing
  · have hcount := hi.closing hclosing
    rw [readCount, if_pos hclosing, hcount]
    rfl
  rw [readCount, if_neg hclosing, hsized, hopen]
  cases hcount : i.count with
  | fixed length =>
    have hlength := toNat_ofNat (hi.length length hcount)
    simp only [Instruction.countFlags, Instruction.countOperands, List.flatMap_cons, List.flatMap_nil, List.append_nil,
      Packed.read_encode, bind, Except.bind, if_neg hlength.2, hlength.1]
    rfl
  | one | wholeStream | computed => rfl

/-- An instruction in the place where its code starts. -/
def ofInstruction (pos : Nat) (i : Instruction) : CodeLine := ⟨pos, i.flags, i, pos + i.encode.length⟩

/-- An instruction is read back from its code, whatever follows it. -/
theorem read_encode (pos : Nat) (i : Instruction) (hi : i.Encodable) (rest : List UInt8) :
    read ⟨pos, i.encode ++ rest⟩ = .ok (ofInstruction pos i, ⟨pos + i.encode.length, rest⟩) := by
  have hlength : pos + 1 + (i.action.operands.flatMap Packed.encode).length +
      ((Instruction.countOperands i.count).flatMap Packed.encode).length = pos + i.encode.length := by
    rw [Instruction.encode, List.length_cons, List.flatMap_append, List.length_append]
    omega
  obtain ⟨-, -, hnamed, hlittle, -, -⟩ := Instruction.flags_and i
  rw [Instruction.encode, List.cons_append, List.flatMap_append, List.append_assoc]
  simp only [read, Instruction.ofCode?_opcode, Instruction.opcode_flags, readAction_encode _ _ i hi,
    readCount_encode _ _ i hi, bind, Except.bind, pure, Except.pure, hnamed, hlittle, hlength]
  rw [← List.flatMap_append]
  rfl

/-- Lines from the offset `pos` on, each at the offset where the one before it stops. -/
def Chain (pos : Nat) : List CodeLine → Nat → Prop
  | [], stop => pos = stop
  | line :: lines, stop => line = ofInstruction pos line.instruction ∧ Chain line.next lines stop

theorem Chain.append {pos mid stop : Nat} {lines lines' : List CodeLine} (h : Chain pos lines mid)
    (h' : Chain mid lines' stop) : Chain pos (lines ++ lines') stop := by
  induction lines generalizing pos with
  | nil => exact (show pos = mid from h) ▸ h'
  | cons line lines ih => exact ⟨h.1, ih h.2⟩

theorem chain_singleton (pos : Nat) (i : Instruction) :
    Chain pos [ofInstruction pos i] (pos + i.encode.length) := ⟨rfl, rfl⟩

/-- Offset of the end of the last line. -/
def endOf (lines : List CodeLine) : Nat := (lines.getLast?.map (·.next)).getD 0

theorem Chain.endOf_append {pos stop : Nat} {lines lines' : List CodeLine}
    (h : Chain pos (lines ++ lines') stop) (hne : lines' ≠ []) : endOf lines' = stop := by
  induction lines generalizing pos with
  | cons line lines ih => exact ih h.2
  | nil =>
    induction lines' generalizing pos with
    | nil => exact absurd rfl hne
    | cons line rest ih =>
      cases rest with
      | nil => exact h.2
      | cons next rest => exact ih (List.cons_ne_nil _ _) h.2

theorem linesFrom_cons {c c' : CodeCursor} {line : CodeLine} (hne : c.rest ≠ []) (h : read c = .ok (line, c')) :
    linesFrom c = (line :: (linesFrom c').1, (linesFrom c').2) := by
  rw [linesFrom, if_neg hne]
  split
  · rename_i fault hfault
    rw [h] at hfault
    cases hfault
  · rename_i line' c'' hok
    rw [h] at hok
    cases hok
    rfl

theorem linesFrom_error {c : CodeCursor} {fault : Fault} (hne : c.rest ≠ []) (h : read c = .error fault) :
    linesFrom c = ([], some fault) := by
  rw [linesFrom, if_neg hne]
  split
  · rename_i fault' hfault
    rw [h] at hfault
    cases hfault
    rfl
  · rename_i line c' hok
    rw [h] at hok
    cases hok

/-- The code of a chain of lines is listed as those lines, whatever follows it. -/
theorem linesFrom_chain {pos stop : Nat} {lines : List CodeLine} (h : Chain pos lines stop)
    (he : ∀ line ∈ lines, line.instruction.Encodable) (rest : List UInt8) :
    linesFrom ⟨pos, lines.flatMap (·.instruction.encode) ++ rest⟩ =
      (lines ++ (linesFrom ⟨stop, rest⟩).1, (linesFrom ⟨stop, rest⟩).2) := by
  induction lines generalizing pos with
  | nil =>
    obtain rfl : pos = stop := h
    rfl
  | cons line lines ih =>
    obtain ⟨hline, hrest⟩ := h
    have hread := read_encode pos line.instruction (he line (List.mem_cons_self ..))
      (lines.flatMap (·.instruction.encode) ++ rest)
    have hnext : pos + line.instruction.encode.length = line.next := by rw [hline]; rfl
    rw [← hline, hnext] at hread
    rw [List.flatMap_cons, List.append_assoc, linesFrom_cons (by simp [Instruction.encode]) hread,
      ih hrest fun l hl => he l (List.mem_cons_of_mem _ hl)]
    rfl

theorem ofCode_chain {stop : Nat} {lines : List CodeLine} (h : Chain 0 lines stop)
    (he : ∀ line ∈ lines, line.instruction.Encodable) :
    ofCode (lines.flatMap (·.instruction.encode)) = .ok lines := by
  have hlines := linesFrom_chain h he []
  have hend : linesFrom ⟨stop, []⟩ = ([], none) := by rw [linesFrom, if_pos rfl]
  rw [List.append_nil, hend, List.append_nil] at hlines
  rw [ofCode, hlines]

/-- A custom type whose number does not fit 31 bits is not read back. -/
theorem read_custom_large {i : Instruction} {e : Packed} (hi : i.action = .custom (2 ^ 31) e) (pos : Nat) (rest : List UInt8) :
    read ⟨pos, i.encode ++ rest⟩ = .error (.corrupt pos) := by
  have hkind : i.kind = .custom := by rw [Instruction.kind, hi]; rfl
  have hcode : Kind.ofCode? (i.kind.code ||| i.flags) = some .custom := by rw [Instruction.ofCode?_opcode, hkind]
  have hlarge : Int32.ofNat (2 ^ 31) < 0 := by decide
  rw [Instruction.encode, List.cons_append, List.flatMap_append, List.append_assoc]
  simp only [read, hcode, readAction, hi, Action.operands, List.flatMap_cons, List.append_assoc, Packed.read_encode,
    bind, Except.bind, if_pos hlarge]

end CodeLine
end LayoutScript
