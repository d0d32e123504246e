import LayoutScript.Proofs.Checked
import LayoutScript.Proofs.SideBySide

/-! # Reading whole bytes

Where a script declares no bit fields, a reading takes, skips and drops whole bytes alone. No bit of
a byte is ever left pending, also behind a read that fails, so nothing asks from which end a byte
would be taken apart.
-/
namespace LayoutScript

/-- The reader with another order of bits. -/
def Reader.inOrder (r : Reader) (order : BitOrder) : Reader := { r with order }

/-- The run with another order of bits in its source. -/
def Run.inOrder (run : Run Reader) (order : BitOrder) : Run Reader := { run with source := run.source.inOrder order }

/-- The setting with another order of bits in its options. -/
def Setting.inOrder (s : Setting Reader) (order : BitOrder) : Setting Reader :=
  { s with options := { s.options with bitOrder := order } }

/-- The kinds that are read in whole bytes. -/
def Head.TakesBytes (h : Head) : Prop := h.Plain ∧ h.kind ≠ .bit

namespace Reader
variable {order : BitOrder}

/-- A reader between two bytes, and the same reader with another order of bits. -/
def reordering (order : BitOrder) : Pairing Reader Reader where
  Meets r r' := r.pending = [] ∧ r' = r.inOrder order

theorem reordering_readByte : (reordering order).Alike readByte readByte := by
  rintro r _ ⟨hr, rfl⟩
  simp only [readByte, inOrder, hr, List.isEmpty_nil, if_true]
  cases r.data[r.pos]? with
  | none => exact .same _ ⟨hr, by simp [inOrder, hr]⟩
  | some b => exact .same _ ⟨rfl, rfl⟩

/-- On a byte boundary bytes are skipped at once, up to the end of the input at most. -/
theorem reordering_skipBytes (count : Nat) : (reordering order).Alike (skipBytes count) (skipBytes count) := by
  rintro r _ ⟨hr, rfl⟩
  simp only [skipBytes, inOrder, remaining, counter, hr, List.isEmpty_nil, if_true]
  by_cases hshort : r.data.size - r.pos < count
  · simp only [if_pos hshort]
    exact .same _ ⟨rfl, rfl⟩
  · simp only [if_neg hshort]
    exact .same _ ⟨rfl, rfl⟩

theorem reordering_readsBytes : (reordering order).ReadsBytes where
  counter := by
    rintro r _ ⟨-, rfl⟩
    rfl
  align := by
    rintro r _ ⟨-, rfl⟩
    exact ⟨rfl, rfl⟩
  restart := by
    rintro r _ ⟨-, rfl⟩
    exact ⟨rfl, rfl⟩
  readByte := reordering_readByte
  skipBytes := reordering_skipBytes

theorem reordering_keepsLeft : (reordering order).KeepsLeft := by
  rintro r _ ⟨-, rfl⟩
  rfl

theorem reordering_under (s : Setting Reader) : (reordering order).Under s.options (s.inOrder order).options where
  tolerant := rfl
  maxDepth := rfl
  maxElements := rfl
  left _ := reordering_keepsLeft
  unexcused _ _ := id

/-- What is read in whole bytes is read alike in all orders of bits. -/
theorem reordering_suits {h : Head} (hh : h.TakesBytes) (s : Setting Reader) :
    (reordering order).Suits s (s.inOrder order) h where
  request := by
    rintro run ⟨_, _⟩ ⟨⟨-, rfl⟩, rfl⟩
    exact h.request_outcome_of_sources rfl fun source _ => rfl
  value q _ readings :=
    reordering_readsBytes.readValue (reordering_under s) hh.1 (fun _ => reordering_keepsLeft)
      (fun hbit => absurd hbit hh.2) readings
  left _ := reordering_keepsLeft

end Reader

/-- From a byte boundary on, declarations without bits are read in the same way in every order of
bits, and the reading ends on a byte boundary. -/
theorem Declaration.readScript_reordered {ds : List Declaration} (hf : FormedAll Head.TakesBytes ds) (s : Setting Reader)
    (order : BitOrder) {r : Reader} (hr : r.pending = []) :
    readScript (s.inOrder order) ds (r.inOrder order) = ((readScript s ds r).1, (readScript s ds r).2.inOrder order) ∧
      (readScript s ds r).2.source.pending = [] := by
  have hsuits : FormedAll ((Reader.reordering order).Suits s (s.inOrder order)) ds :=
    .of_heads ds hf fun head hm => Reader.reordering_suits (FormedAll.heads ds hf head hm) s
  have hagree := Pairing.agree_readScript (Reader.reordering_under s) hsuits
    (show (Reader.reordering order).Meets r (r.inOrder order) from ⟨hr, rfl⟩)
  generalize readScript s ds r = plain, readScript (s.inOrder order) ds (r.inOrder order) = reordered at hagree ⊢
  cases hagree with
  | @same result run run' hruns =>
    obtain ⟨⟨hpending, hsource⟩, hreadings⟩ := hruns
    refine ⟨?_, hpending⟩
    obtain ⟨source', readings'⟩ := run'
    simp_all [Run.inOrder]
  | excused h => exact absurd h id

theorem Layout.IsOf.readBytes_inOrder {layout : Layout} {ds : List Declaration} (h : layout.IsOf ds)
    (hf : Declaration.FormedAll Head.TakesBytes ds) (options : ReadOptions) (collaborators : Collaborators Reader)
    (bytes : List UInt8) (order : BitOrder) :
    let outcome := layout.readBytes bytes options collaborators
    layout.readBytes bytes { options with bitOrder := order } collaborators = (outcome.1, outcome.2.inOrder order) ∧
      outcome.2.source.pending = [] := by
  let s : Setting Reader := ⟨layout, options, collaborators⟩
  have hread := Declaration.readScript_reordered hf s order (r := .ofBytes bytes options.bitOrder) rfl
  rw [← read_eq s h, ← read_eq (s.inOrder order) h] at hread
  exact hread

/-- A script without bit fields, or fields that others read, is read in the same way in both orders of
bits: record or fault, readings and reader are the same, but for the order that the reader was given.
No bit is pending in the end. -/
theorem Layout.readBytes_bitOrder {custom : Option CustomTypes} {script : String} {layout : Layout}
    (h : compileWith custom script = .ok layout) (hcustom : layout.customTypes = [])
    (hlines : ∀ lines, layout.lines = .ok lines → ∀ line ∈ lines, line.kind ≠ .var ∧ line.kind ≠ .bit)
    (options : ReadOptions) (collaborators : Collaborators Reader) (bytes : List UInt8) (order : BitOrder) :
    let outcome := layout.readBytes bytes options collaborators
    layout.readBytes bytes { options with bitOrder := order } collaborators = (outcome.1, outcome.2.inOrder order) ∧
      outcome.2.source.pending = [] := by
  obtain ⟨ts, d, ds, -, -, htraced, hopened, rfl⟩ := compileWith_traced h
  have hof := htraced.isOf hopened (by rw [show d.customTypes = [] from hcustom]; exact Nat.zero_le _) script
  have hplain := hof.plain hcustom fun lines hl line hm => (hlines lines hl line hm).1
  have hbytes : Declaration.FormedAll Head.TakesBytes ds := by
    refine .of_heads ds hplain fun head hm => ⟨Declaration.FormedAll.heads ds hplain head hm, ?_⟩
    have hkind := (hlines _ hof.lines _ (Declaration.line_memAll ds hm)).2
    rwa [Head.line_kind] at hkind
  exact hof.readBytes_inOrder hbytes options collaborators bytes order

/-- Numbers of both byte orders, skipped bytes and aligned records, cut off by the end of the input
inside a number. -/
theorem Layout.readBytes_bitOrder_cut :
    let script := "ubyte n; reset$$; rec[n] \x7b <ushort a; skip:1; align:4; short[n] b; \x7d bool c; <long d;"
    let bytes : List UInt8 := [2, 1, 2, 3, 4, 5, 6, 7, 8, 9, 10, 11, 12, 13, 14, 15, 16, 17, 18, 19]
    ∃ layout, compileWith none script = .ok layout ∧ layout.customTypes = [] ∧
      (∀ lines, layout.lines = .ok lines → ∀ line ∈ lines, line.kind ≠ .var ∧ line.kind ≠ .bit) ∧
      let outcome := layout.readBytes bytes {} {}
      layout.readBytes bytes .msb0 {} = (outcome.1, outcome.2.inOrder .msb0) ∧ outcome.2.source.pending = [] := by
  intro script bytes
  have hcompiles : (compileWith none script).toOption.any (fun layout => layout.customTypes.isEmpty &&
      layout.lines.toOption.any (·.all fun line => line.kind ≠ .var && line.kind ≠ .bit)) = true := by decide +kernel
  obtain ⟨layout, hlayout, hchecks⟩ := of_any_ok hcompiles
  simp only [Bool.and_eq_true] at hchecks
  obtain ⟨hcustom, hkinds⟩ := hchecks
  have hnone : layout.customTypes = [] := List.isEmpty_iff.mp hcustom
  have hlines : ∀ lines, layout.lines = .ok lines → ∀ line ∈ lines, line.kind ≠ .var ∧ line.kind ≠ .bit := by
    intro lines heq line hm
    simpa using forall_mem_of_any_all hkinds lines heq line hm
  exact ⟨layout, hlayout, hnone, hlines, readBytes_bitOrder hlayout hnone hlines {} {} bytes .msb0⟩

end LayoutScript
