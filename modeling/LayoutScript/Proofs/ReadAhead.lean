import LayoutScript.Proofs.SideBySide
import LayoutScript.Proofs.Truncation

/-! # Reading does not look ahead

A strict reading that succeeds has not seen how its input goes on. With other input behind it, it
takes the same bits, so it gives the same record and ends at the same place. Only arrays up to the
end of the input ask whether there is more of it.
-/
namespace LayoutScript
namespace Reader

/-- A reader and one whose input may go on behind its end. What the former cannot read the latter may
read. -/
def prolonging : Pairing Reader Reader := ⟨Reader.Truncates, fun _ => True⟩

namespace Truncates
variable {r r' : Reader}

theorem get_of_shorter (h : r'.Truncates r) {b : UInt8} (hb : r'.data[r'.pos]? = some b) : r.data[r.pos]? = some b := by
  obtain ⟨others, hothers⟩ := h.data
  have hlt : r'.pos < r'.data.toList.length := (Array.getElem?_eq_some_iff.mp hb).1
  rw [← Array.getElem?_toList] at hb ⊢
  rw [← hothers, ← h.pos, List.getElem?_append_left hlt, hb]

theorem remaining_le (h : r'.Truncates r) : r'.remaining ≤ r.remaining := by
  have hsize : r'.data.size ≤ r.data.size := h.data.length_le
  have hpos := h.pos
  rw [remaining, remaining]
  omega

end Truncates

theorem prolonging_readBits (count : Nat) : prolonging.Alike (readBits count) (readBits count) := by
  refine Pairing.Alike.bind (x := takeBits count false) (y := takeBits count false) ?_ fun _ => .pure _
  intro r' r h
  rw [takeBits, takeBits, ← h.pending, ← h.order]
  by_cases hcount : count = 0 ∨ 8 < count
  · rw [if_pos hcount]
    exact .excused trivial _ _
  rw [if_neg hcount, if_neg hcount]
  by_cases hpending : count ≤ r'.pending.length
  · rw [if_pos hpending, if_pos hpending]
    exact .same _ ⟨rfl, h.pos, h.base, rfl, h.data, h.pos_le⟩
  rw [if_neg hpending, if_neg hpending]
  cases hb : r'.data[r'.pos]? with
  | none => exact .excused trivial _ _
  | some b =>
    rw [h.get_of_shorter hb]
    exact .same _ ⟨rfl, congrArg (· + 1) h.pos, h.base, rfl, h.data, (Array.getElem?_eq_some_iff.mp hb).1⟩

theorem prolonging_readByte : prolonging.Alike readByte readByte := by
  intro r' r h
  rw [readByte, readByte, ← h.pending]
  by_cases hempty : r'.pending.isEmpty
  · rw [if_pos hempty, if_pos hempty]
    cases hb : r'.data[r'.pos]? with
    | none => exact .excused trivial _ _
    | some b =>
      rw [h.get_of_shorter hb]
      exact .same _ ⟨h.order, congrArg (· + 1) h.pos, h.base, rfl, h.data, (Array.getElem?_eq_some_iff.mp hb).1⟩
  · rw [if_neg hempty, if_neg hempty]
    exact prolonging_readBits 8 r' r h

theorem prolonging_skipBytes (count : Nat) : prolonging.Alike (skipBytes count) (skipBytes count) := by
  intro r' r h
  rw [skipBytes, skipBytes, ← h.pending]
  by_cases hempty : r'.pending.isEmpty
  · rw [if_pos hempty, if_pos hempty]
    by_cases hshort : r'.remaining < count
    · rw [if_pos hshort]
      exact .excused trivial _ _
    · have hle := h.remaining_le
      rw [if_neg hshort, if_neg (show ¬r.remaining < count by omega)]
      refine .same _ ⟨h.order, congrArg (· + count) h.pos, h.base, rfl, h.data, ?_⟩
      have hpos := h.pos_le
      rw [remaining] at hshort
      change r'.pos + count ≤ r'.data.size
      omega
  · rw [if_neg hempty, if_neg hempty]
    exact prolonging_readByte.repeatedly count r' r h

theorem prolonging_readsBytes : prolonging.ReadsBytes where
  counter _ _ h := h.counter.symm
  align _ _ := Truncates.align
  restart _ _ := Truncates.restart
  readByte := prolonging_readByte
  skipBytes := prolonging_skipBytes

theorem prolonging_under {options : ReadOptions} (hstrict : options.tolerant = false) : prolonging.Under options options where
  tolerant := rfl
  maxDepth := rfl
  maxElements := rfl
  left htolerant := by rw [hstrict] at htolerant; cases htolerant
  unexcused htolerant := by rw [hstrict] at htolerant; cases htolerant

/-- Strict reading asks for no more than that in declarations of a known extent. -/
theorem prolonging_suits {s : Setting Reader} (hstrict : s.options.tolerant = false) {h : Head} (hplain : h.Plain)
    (hextent : h.extent ≠ .untilEnd) : prolonging.Suits s s h where
  request run' run hruns := by
    have htruncates : run'.Truncates run := ⟨hruns.1, hruns.2.symm⟩
    exact h.request_outcome (htruncates.sizeContext s).symm
  value q hq readings := by
    have hcount : q.count ≠ .untilEnd := mt hq.untilEnd.mp hextent
    exact prolonging_readsBytes.readValue (prolonging_under hstrict) hplain (fun h => absurd h hcount)
      (fun _ width => ⟨prolonging_readBits width, fun h => absurd h hcount⟩) readings
  left h := absurd h hextent

end Reader

/-- A strict reading that succeeds succeeds in the same way on an input that goes on. -/
theorem Declaration.readScript_prolonged {s : Setting Reader} (hstrict : s.options.tolerant = false) {ds : List Declaration}
    (hf : FormedAll (fun h => h.Plain ∧ h.extent ≠ .untilEnd) ds) {r r' : Reader} {record : Record} {run : Run Reader}
    (hok : readScript s ds r' = (.ok record, run)) (ht : r'.Truncates r) :
    ∃ run', readScript s ds r = (.ok record, run') ∧ Reader.prolonging.runs.Meets run run' := by
  have hsuits : FormedAll (Reader.prolonging.Suits s s) ds := .of_heads ds hf fun head hm =>
    have hhead := FormedAll.heads ds hf head hm
    Reader.prolonging_suits hstrict hhead.1 hhead.2
  have hagree := Pairing.agree_readScript (p := Reader.prolonging) (Reader.prolonging_under hstrict) hsuits ht
  rw [hok] at hagree
  exact hagree.of_ok

/-- A strict reading of a script without arrays up to the end of the input depends on what it takes
alone: whatever is put behind its input, it gives the same record and the same readings, and the same
bits have been taken in the end. -/
theorem Layout.readBytes_append {custom : Option CustomTypes} {script : String} {layout : Layout}
    (h : compileWith custom script = .ok layout) (hcustom : layout.customTypes = [])
    (hlines : ∀ lines, layout.lines = .ok lines → ∀ line ∈ lines,
      line.kind ≠ .var ∧ line.instruction.count ≠ .wholeStream)
    (options : ReadOptions) (collaborators : Collaborators Reader) (bytes more : List UInt8) (record : Record)
    (run : Run Reader) (hstrict : options.tolerant = false)
    (hok : layout.readBytes bytes options collaborators = (.ok record, run)) :
    ∃ run', layout.readBytes (bytes ++ more) options collaborators = (.ok record, run') ∧
      run'.readings = run.readings ∧ run'.source.consumed = run.source.consumed ∧
      run'.source.counter = run.source.counter := by
  obtain ⟨ts, d, ds, -, -, htraced, hopened, rfl⟩ := compileWith_traced h
  have hof := htraced.isOf hopened (by rw [show d.customTypes = [] from hcustom]; exact Nat.zero_le _) script
  have hbytes : (Reader.ofBytes bytes options.bitOrder).Truncates (.ofBytes (bytes ++ more) options.bitOrder) :=
    ⟨rfl, rfl, rfl, rfl, List.prefix_append bytes more, Nat.zero_le _⟩
  rw [readBytes, IsOf.read_eq _ hof] at hok ⊢
  obtain ⟨run', hread, htruncates, hreadings⟩ :=
    Declaration.readScript_prolonged hstrict (hof.counted hcustom hlines) hok hbytes
  refine ⟨run', hread, hreadings, ?_, htruncates.counter.symm⟩
  rw [Reader.consumed, Reader.consumed, htruncates.pos, htruncates.pending]

/-- Bits, skipped bytes and structures up to the middle of the last byte, with another input behind. -/
theorem Layout.readBytes_append_shifted :
    let script := "ubyte n; bit:3 a; skip:1; <ushort[n] b; rec[n] \x7b bit:5 c; align:2; byte d; \x7d bit:4 e;"
    let bytes : List UInt8 := [2, 0x35, 7, 1, 2, 3, 4, 5, 6, 7, 8, 9]
    let more : List UInt8 := [10, 11]
    ∃ layout record run run', compileWith none script = .ok layout ∧ layout.readBytes bytes {} {} = (.ok record, run) ∧
      layout.readBytes (bytes ++ more) {} {} = (.ok record, run') ∧ run'.readings = run.readings ∧
      run'.source.consumed = run.source.consumed ∧ run'.source.counter = run.source.counter := by
  intro script bytes more
  have hcompiles : (compileWith none script).toOption.any (fun layout => layout.customTypes.isEmpty &&
      layout.lines.toOption.any (·.all fun line => line.kind ≠ .var && line.instruction.count ≠ .wholeStream) &&
      (layout.readBytes bytes {} {}).1.toOption.isSome) = true := by decide +kernel
  obtain ⟨layout, hlayout, hchecks⟩ := of_any_ok hcompiles
  simp only [Bool.and_eq_true] at hchecks
  obtain ⟨⟨hcustom, hlines⟩, hread⟩ := hchecks
  have hlines : ∀ lines, layout.lines = .ok lines → ∀ line ∈ lines,
      line.kind ≠ .var ∧ line.instruction.count ≠ .wholeStream := by
    intro lines heq line hm
    simpa using forall_mem_of_any_all hlines lines heq line hm
  rcases hrun : layout.readBytes bytes {} {} with ⟨fault | record, run⟩
  · rw [hrun] at hread
    cases hread
  obtain ⟨run', hmore⟩ := readBytes_append hlayout (List.isEmpty_iff.mp hcustom) hlines {} {} bytes more record run rfl hrun
  exact ⟨layout, record, run, run', hlayout, hrun, hmore⟩

end LayoutScript
