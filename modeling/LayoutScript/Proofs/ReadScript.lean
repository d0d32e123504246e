import LayoutScript.Proofs.ScriptCode
import LayoutScript.Supply.CustomType

/-! # A compiled script reads as its declarations

Compiling a script and applying the layout reads exactly what reading the declarations of
the script directly reads: the same record or fault, the same readings and the same source
behind them, whatever the options, the collaborators and the input are.
-/
namespace LayoutScript
variable {σ : Type} [BitSource σ]

namespace Layout.IsOf

/-- A layout of declarations is read as these declarations are. -/
theorem read_eq {ds : List Declaration} (s : Setting σ) (h : s.layout.IsOf ds) (source : σ) :
    s.read source = Declaration.readScript s ds source := by
  have hstart : s.layout.start (Declaration.linesAll ds) = Declaration.before ds ⟨[], [], []⟩ := by
    simp only [start, Declaration.before, h.named, h.sizes, List.append_nil]
  have hend : s.walk 0 ⟨[], [], []⟩ = pure (.done [] ⟨[], [], []⟩) := by
    rw [Setting.walk, if_pos rfl]
  have hwalk : s.walk 0 (s.layout.start (Declaration.linesAll ds)) =
      Yield.toWalk ⟨[], [], []⟩ <$> Declaration.readAll s 0 ds := by
    rw [hstart, Setting.walk_beforeAll s ds h.formed, hend, map_eq_pure_bind]
    congr 1
    funext y
    cases hy : y.halted <;> simp [Yield.toWalk, Yield.thenWalk, Walk.prepend, hy]
  have hfields : ∀ y : Yield, (y.toWalk ⟨[], [], []⟩).fields = y.fields := by
    intro y
    cases hy : y.halted <;> simp [Yield.toWalk, Walk.fields, hy]
  rw [Setting.read, Declaration.readScript, h.lines]
  simp only [Stateful.liftM_ok, pure_bind, hwalk, map_eq_pure_bind, bind_assoc, hfields]

end Layout.IsOf

/-- Whatever a script declares is read from its code as from the tree of its declarations.
The numbers of custom types take 31 bits of the code, so there cannot be more of them. -/
theorem Layout.read_compileWith {custom : Option CustomTypes} {script : String} {layout : Layout}
    (h : compileWith custom script = .ok layout) (hcustoms : layout.customTypes.length ≤ 2 ^ 31) :
    ∃ ds, Declaration.ofScript custom script = some ds ∧
      ∀ {σ : Type} [BitSource σ] (options : ReadOptions) (collaborators : Collaborators σ) (source : σ),
        Setting.read ⟨layout, options, collaborators⟩ source =
          Declaration.readScript ⟨layout, options, collaborators⟩ ds source := by
  obtain ⟨ts, d, ds, -, hds, htraced, hopened, rfl⟩ := compileWith_traced h
  refine ⟨ds, hds, ?_⟩
  intro σ _ options collaborators source
  exact IsOf.read_eq ⟨_, options, collaborators⟩ (htraced.isOf hopened hcustoms script) source

theorem Layout.read_counted_custom :
    let table : List CustomType := [⟨"u24", .number 3, true, none⟩]
    let script := "ubyte n; r[n] \x7b u24 c; bit:3 b; \x7d"
    let collaborators : Collaborators Reader := { readCustom := some (CustomType.reader table) }
    let source := Reader.ofBytes [2, 1, 2, 3, 0x2b, 4, 5, 6, 7] .lsb0
    ∃ layout ds, compileWith (some (CustomType.declared table)) script = .ok layout ∧
      layout.customTypes.length ≤ 2 ^ 31 ∧
      Declaration.ofScript (some (CustomType.declared table)) script = some ds ∧
      Setting.read ⟨layout, {}, collaborators⟩ source =
        Declaration.readScript ⟨layout, {}, collaborators⟩ ds source := by
  intro table script collaborators source
  have hcompiles : (compileWith (some (CustomType.declared table)) script).toOption.any
      (decide <| ·.customTypes.length ≤ 2 ^ 31) = true := by decide +kernel
  obtain ⟨layout, hlayout, hcustoms⟩ := of_any_ok hcompiles
  obtain ⟨ds, hds, hread⟩ := read_compileWith hlayout (of_decide_eq_true hcustoms)
  exact ⟨layout, ds, hlayout, of_decide_eq_true hcustoms, hds, hread {} collaborators source⟩

end LayoutScript
