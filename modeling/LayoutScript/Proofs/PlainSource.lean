import LayoutScript.Proofs.BitTape
import LayoutScript.Proofs.Checked
import LayoutScript.Proofs.SideBySide

/-! # Reading through a plain source

A plain source has a reader inside and hands on the reads of bits and bytes alone, so it reads
larger numbers, skips and aligns in the ways that every source has. These come to the same as
what the reader does by itself, from wherever it stands, and so does reading a layout that
does not ask for up to a number of bits.
-/
namespace LayoutScript

namespace Reader
variable {r : Reader}

/-- The counter was restarted behind no more than what has been read, and that is within the input. -/
structure Placed (r : Reader) : Prop where
  base_le : r.base ≤ r.pos
  pos_le : r.pos ≤ r.data.size

theorem Shows.placed {t : BitTape} (h : r.Shows t) : r.Placed := ⟨h.base_le, h.pos_le⟩

theorem Placed.takeBits (h : r.Placed) (count : Nat) (lenient : Bool) : (takeBits count lenient r).2.Placed := by
  unfold Reader.takeBits
  split
  · exact h
  split
  · exact ⟨h.base_le, h.pos_le⟩
  cases hb : r.data[r.pos]? with
  | some b => exact ⟨Nat.le_succ_of_le h.base_le, (Array.getElem?_eq_some_iff.mp hb).1⟩
  | none =>
    dsimp only
    split <;> exact ⟨h.base_le, h.pos_le⟩

theorem Placed.readBits (h : r.Placed) (count : Nat) : (readBits count r).2.Placed := by
  have htake := h.takeBits count false
  rw [Reader.readBits, Stateful.bind_apply]
  rcases hx : Reader.takeBits count false r with ⟨_ | _, r'⟩ <;> rw [hx] at htake <;> exact htake

theorem Placed.readByte (h : r.Placed) : (readByte r).2.Placed := by
  unfold Reader.readByte
  split
  · cases hb : r.data[r.pos]? with
    | some b => exact ⟨Nat.le_succ_of_le h.base_le, (Array.getElem?_eq_some_iff.mp hb).1⟩
    | none => exact h
  · exact h.readBits 8

/-- Skipping at once is skipping byte by byte, also where the input ends on the way. -/
theorem skipBytes_eq_repeatedly (h : r.Placed) (count : Nat) : skipBytes count r = readByte.repeatedly count r := by
  by_cases hempty : r.pending.isEmpty
  swap
  · rw [skipBytes, if_neg hempty]
  induction count generalizing r with
  | zero => rw [skipBytes, if_pos hempty, if_neg (Nat.not_lt_zero _)]; rfl
  | succ count ih =>
    rw [Stateful.repeatedly, Stateful.bind_apply, readByte, if_pos hempty, skipBytes, if_pos hempty, remaining]
    cases hb : r.data[r.pos]? with
    | none =>
      have hend : r.pos = r.data.size := Nat.le_antisymm h.pos_le (Array.getElem?_eq_none_iff.mp hb)
      rw [if_pos (by omega), ← hend, Nat.sub_self]
      rfl
    | some b =>
      let r₁ : Reader := { r with pos := r.pos + 1 }
      have hpos : r.pos < r.data.size := (Array.getElem?_eq_some_iff.mp hb).1
      have h₁ : r₁.Placed := ⟨Nat.le_succ_of_le h.base_le, hpos⟩
      have hcounter : r₁.counter + (r.data.size - (r.pos + 1)) = r.counter + (r.data.size - r.pos) := by
        have hbase := h.base_le
        change r.pos + 1 - r.base + _ = r.pos - r.base + _
        omega
      have hrest := ih h₁ hempty
      rw [skipBytes, if_pos (show r₁.pending.isEmpty = true from hempty), remaining] at hrest
      dsimp only
      rw [← hrest, hcounter]
      by_cases hshort : r.data.size - r.pos < count + 1
      · rw [if_pos hshort, if_pos (show r.data.size - (r.pos + 1) < count by omega)]
      · rw [if_neg hshort, if_neg (show ¬r.data.size - (r.pos + 1) < count by omega), Nat.add_right_comm, Nat.add_assoc]

end Reader

namespace PlainReader
variable {α : Type}

/-- A reader and the plain source that it is in. -/
def lending : Pairing Reader PlainReader where
  Meets r source := r.Placed ∧ source = ⟨r⟩

theorem alike_lift {x : Stateful Reader α} (h : ∀ r : Reader, r.Placed → (x r).2.Placed) : lending.Alike x (lift x) := by
  rintro r _ ⟨hr, rfl⟩
  exact .same (x r).1 ⟨h r hr, rfl⟩

theorem alike_readBits (count : Nat) : lending.Alike (BitSource.readBits count) (BitSource.readBits count) :=
  alike_lift fun _ hr => hr.readBits count

theorem alike_readByte : lending.Alike BitSource.readByte BitSource.readByte := alike_lift fun _ hr => hr.readByte

theorem alike_skipBytes (count : Nat) : lending.Alike (BitSource.skipBytes count) (BitSource.skipBytes count) := by
  rintro r _ ⟨hr, rfl⟩
  have hskip : BitSource.skipBytes count r = (BitSource.readByte (σ := Reader)).repeatedly count r :=
    Reader.skipBytes_eq_repeatedly hr count
  rw [hskip]
  exact alike_readByte.repeatedly count r ⟨r⟩ ⟨hr, rfl⟩

/-- A plain source reads and skips bytes as the reader in it does. -/
theorem lending_readsBytes : lending.ReadsBytes where
  counter := by
    rintro r _ ⟨-, rfl⟩
    rfl
  align := by
    rintro r _ ⟨hr, rfl⟩
    exact ⟨⟨hr.base_le, hr.pos_le⟩, rfl⟩
  restart := by
    rintro r _ ⟨hr, rfl⟩
    exact ⟨⟨Nat.le_refl _, hr.pos_le⟩, rfl⟩
  readByte := alike_readByte
  skipBytes := alike_skipBytes

theorem lending_keepsLeft : lending.KeepsLeft := by
  rintro r _ ⟨-, rfl⟩
  rfl

end PlainReader

/-- The kinds and extents that are read without asking for up to a number of bits. -/
structure Head.Lendable (h : Head) : Prop where
  plain : h.Plain
  counted : h.kind = .bit → h.extent ≠ .untilEnd

/-- A run of a reader as one of the plain source that it is in. -/
def Run.lent (run : Run Reader) : Run PlainReader := ⟨⟨run.source⟩, run.readings⟩

/-- The setting of a plain source is that of the reader, but for collaborators that read values. -/
structure Setting.Lends (s : Setting Reader) (s' : Setting PlainReader) : Prop where
  layout : s'.layout = s.layout
  options : s'.options = s.options
  provider : s'.collaborators.provider = s.collaborators.provider

namespace PlainReader

theorem lent_of_meets {run : Run Reader} {run' : Run PlainReader} (h : lending.runs.Meets run run') : run' = run.lent := by
  obtain ⟨⟨-, hsource⟩, hreadings⟩ := h
  cases run'
  cases hsource
  cases hreadings
  rfl

variable {s : Setting Reader} {s' : Setting PlainReader} (hs : s.Lends s')
include hs

theorem lending_under : lending.Under s.options s'.options where
  tolerant := by rw [hs.options]
  maxDepth := by rw [hs.options]
  maxElements := by rw [hs.options]
  left _ := lending_keepsLeft
  unexcused _ _ := id

/-- Through a plain source a declaration is read as from the reader. -/
theorem lending_suits {h : Head} (hh : h.Lendable) : lending.Suits s s' h where
  request run run' hruns := by
    refine h.request_outcome_of_sources (by rw [hs.options]) fun source _ => ?_
    rw [Setting.sizeContext, Setting.sizeContext, hs.layout, hs.provider, hruns.2, hruns.1.2]
    rfl
  value q hq readings := by
    refine lending_readsBytes.readValue (lending_under hs) hh.plain (fun _ => lending_keepsLeft) (fun hbit width => ?_) readings
    exact ⟨alike_readBits width, fun hcount => absurd (hq.untilEnd.mp hcount) (hh.counted hbit)⟩
  left _ := lending_keepsLeft

theorem readScript_lent {ds : List Declaration} (hf : Declaration.FormedAll Head.Lendable ds) {r : Reader} (hr : r.Placed) :
    Declaration.readScript s' ds ⟨r⟩ = ((Declaration.readScript s ds r).1, (Declaration.readScript s ds r).2.lent) := by
  have hsuits : Declaration.FormedAll (lending.Suits s s') ds :=
    .of_heads ds hf fun head hm => lending_suits hs (Declaration.FormedAll.heads ds hf head hm)
  have hagree := Pairing.agree_readScript (lending_under hs) hsuits (show lending.Meets r ⟨r⟩ from ⟨hr, rfl⟩)
  rcases hagree.cases with ⟨a, run, run', hx, hy, hrun⟩ | ⟨fault, run, run', hx, hy, hrun⟩ | ⟨_, _, _, hexcused⟩
  · rw [hx, hy, lent_of_meets hrun]
  · rw [hx, hy, lent_of_meets hrun]
  · exact hexcused.elim

end PlainReader

theorem Layout.IsOf.lendable {layout : Layout} {ds : List Declaration} (h : layout.IsOf ds)
    (hcustom : layout.customTypes = []) (hvar : ∀ lines, layout.lines = .ok lines → ∀ line ∈ lines, line.kind ≠ .var)
    (hbit : ∀ lines, layout.lines = .ok lines → ∀ line ∈ lines, line.kind = .bit → line.instruction.count ≠ .wholeStream) :
    Declaration.FormedAll Head.Lendable ds := by
  have hplain := Declaration.FormedAll.heads ds (h.plain hcustom hvar)
  refine .of_heads ds h.formed fun head hm => ⟨hplain head hm, ?_⟩
  intro hkind hextent
  refine hbit _ h.lines _ (Declaration.line_memAll ds hm) (head.line_kind.trans hkind) ?_
  rw [Head.line_instruction, Head.instruction, hextent]
  rfl

/-- Wherever in its input a reader stands, reading from a plain source that it is in gives the same
record or fault, the same readings and the same reader behind them as reading from it does, and
skipping byte by byte ends as skipping at once does. -/
theorem Layout.read_plain {custom : Option CustomTypes} {script : String} {layout : Layout}
    (h : compileWith custom script = .ok layout) (hcustom : layout.customTypes = [])
    (hvar : ∀ lines, layout.lines = .ok lines → ∀ line ∈ lines, line.kind ≠ .var)
    (hbit : ∀ lines, layout.lines = .ok lines → ∀ line ∈ lines, line.kind = .bit → line.instruction.count ≠ .wholeStream)
    (options : ReadOptions) (provider : Option Provider) (readVar : Option (FieldReader Reader))
    (readCustom : Option (TypeSpec → FieldReader Reader)) (readVar' : Option (FieldReader PlainReader))
    (readCustom' : Option (TypeSpec → FieldReader PlainReader)) (bytes : List UInt8) (order : BitOrder)
    (requests : List ReadRequest) :
    let r := (ReadRequest.answers ReadRequest.ask requests (Reader.ofBytes bytes order)).2
    let outcome := Setting.read ⟨layout, options, ⟨provider, readVar, readCustom⟩⟩ r
    Setting.read ⟨layout, options, ⟨provider, readVar', readCustom'⟩⟩ (PlainReader.mk r) = (outcome.1, outcome.2.lent) ∧
      ∀ count, r.skipBytes count = Reader.readByte.repeatedly count r := by
  obtain ⟨ts, d, ds, -, hds, htraced, hopened, rfl⟩ := compileWith_traced h
  have hof := htraced.isOf hopened (by rw [show d.customTypes = [] from hcustom]; exact Nat.zero_le _) script
  obtain ⟨r, hr, hshows⟩ := (Reader.shows_ofBytes bytes order).answers requests
  rw [hr]
  dsimp only
  rw [IsOf.read_eq _ hof, IsOf.read_eq _ hof]
  exact ⟨PlainReader.readScript_lent ⟨rfl, rfl, rfl⟩ (hof.lendable hcustom hvar hbit) hshows.placed,
    Reader.skipBytes_eq_repeatedly hshows.placed⟩

/-- A tolerant reading that begins inside a byte, with numbers and skips across bytes, up to an
array that the end of the input cuts off. -/
theorem Layout.read_plain_shifted :
    let script := "ubyte n; skip:2; <ushort v; rec[_] { bit:3 b; align:2; int[n] c; }"
    let r := (ReadRequest.answers ReadRequest.ask [.bits 3] (Reader.ofBytes [0x0b, 1, 2, 3, 4, 5, 6, 7, 8, 9] .lsb0)).2
    ∃ layout, compileWith none script = .ok layout ∧ layout.customTypes = [] ∧
      (∀ lines, layout.lines = .ok lines → ∀ line ∈ lines, line.kind ≠ .var) ∧
      (∀ lines, layout.lines = .ok lines → ∀ line ∈ lines, line.kind = .bit → line.instruction.count ≠ .wholeStream) ∧
      let outcome := Setting.read ⟨layout, .lenient, {}⟩ r
      Setting.read ⟨layout, .lenient, {}⟩ (PlainReader.mk r) = (outcome.1, outcome.2.lent) ∧
        ∀ count, r.skipBytes count = Reader.readByte.repeatedly count r := by
  intro script r
  have hcompiles : (compileWith none script).toOption.any (fun layout => layout.customTypes.isEmpty &&
      layout.lines.toOption.any (·.all (·.kind ≠ .var)) &&
      layout.lines.toOption.any (·.all fun line => line.kind = .bit → line.instruction.count ≠ .wholeStream)) = true := by
    decide +kernel
  obtain ⟨layout, hlayout, hchecks⟩ := of_any_ok hcompiles
  simp only [Bool.and_eq_true] at hchecks
  obtain ⟨⟨hcustom, hvars⟩, hbits⟩ := hchecks
  have hnone : layout.customTypes = [] := List.isEmpty_iff.mp hcustom
  have hvar : ∀ lines, layout.lines = .ok lines → ∀ line ∈ lines, line.kind ≠ .var := fun lines hlines line hm =>
    of_decide_eq_true (forall_mem_of_any_all hvars lines hlines line hm)
  have hbit : ∀ lines, layout.lines = .ok lines → ∀ line ∈ lines,
      line.kind = .bit → line.instruction.count ≠ .wholeStream := fun lines hlines line hm =>
    of_decide_eq_true (forall_mem_of_any_all hbits lines hlines line hm)
  exact ⟨layout, hlayout, hnone, hvar, hbit,
    read_plain hlayout hnone hvar hbit .lenient none none none none none _ .lsb0 [.bits 3]⟩

end LayoutScript
