import LayoutScript.Proofs.BufferedBits
import LayoutScript.Proofs.SideBySide

/-! # Reading out of a buffer

A layout is read through the buffered reader as through the reader of lists with the same bits:
with the same outcome, the same readings and readers behind them that have the same bits left.
Whatever holds of reading bytes holds of reading them by shifting bits.
-/
namespace LayoutScript

/-- Settings whose collaborators do the same on a buffered reader as on the reader of lists. -/
structure Setting.Views (s : Setting BufferedReader) (s' : Setting Reader) : Prop where
  layout : s'.layout = s.layout
  options : s'.options = s.options
  provider : s'.collaborators.provider = s.collaborators.provider
  readVar : Option.Rel (fun read read' => ∀ q readings, Stateful.Lifts BufferedReader.view (read q readings) (read' q readings))
    s.collaborators.readVar s'.collaborators.readVar
  readCustom : Option.Rel (fun read read' => ∀ type q readings,
      Stateful.Lifts BufferedReader.view (read type q readings) (read' type q readings))
    s.collaborators.readCustom s'.collaborators.readCustom

/-- A run of the buffered reader as one of the reader of lists. -/
def Run.view (run : Run BufferedReader) : Run Reader := ⟨run.source.view, run.readings⟩

namespace BufferedReader

/-- A buffered reader and the reader of lists with the same bits. -/
def viewing : Pairing BufferedReader Reader where
  Meets b r := b.view = r

theorem alike_of_lifts {α : Type} {x : Stateful BufferedReader α} {y : Stateful Reader α} (h : Stateful.Lifts view x y) :
    viewing.Alike x y := by
  rintro b _ rfl
  rw [← h b]
  exact .same (x b).1 rfl

theorem viewing_readsBytes : viewing.ReadsBytes where
  counter := by
    rintro b _ rfl
    rfl
  align := by
    rintro b _ rfl
    rfl
  restart := by
    rintro b _ rfl
    rfl
  readByte := alike_of_lifts lifts_readByte
  skipBytes count := alike_of_lifts (lifts_skipBytes count)

theorem viewing_keepsLeft : viewing.KeepsLeft := by
  rintro b _ rfl
  exact b.left_view

theorem view_of_meets {run : Run BufferedReader} {run' : Run Reader} (h : viewing.runs.Meets run run') : run' = run.view := by
  obtain ⟨hsource, hreadings⟩ := h
  cases run'
  cases hsource
  cases hreadings
  rfl

variable {s : Setting BufferedReader} {s' : Setting Reader} (hs : s.Views s')
include hs

theorem viewing_under : viewing.Under s.options s'.options where
  tolerant := by rw [hs.options]
  maxDepth := by rw [hs.options]
  maxElements := by rw [hs.options]
  left _ := viewing_keepsLeft
  unexcused _ _ := id

theorem viewing_readValue (h : Head) (q : Request) (readings : Readings) :
    viewing.Alike (h.readValue s q readings) (h.readValue s' q readings) := by
  by_cases hplain : h.Plain
  · exact viewing_readsBytes.readValue (viewing_under hs) hplain (fun _ => viewing_keepsLeft)
      (fun _ width => ⟨alike_of_lifts (lifts_readBits width), fun _ => alike_of_lifts (lifts_takeBits width true)⟩) readings
  rw [Head.readValue, Head.readValue]
  cases hkind : h.kind with
  | var =>
    have hreaders := hs.readVar
    dsimp only
    generalize s.collaborators.readVar = read, s'.collaborators.readVar = read' at hreaders ⊢
    cases hreaders with
    | none => exact .throw _
    | some hread => exact (alike_of_lifts (hread q readings)).bind fun _ => .pure _
  | custom =>
    have hreaders := hs.readCustom
    dsimp only
    generalize s.collaborators.readCustom = read, s'.collaborators.readCustom = read' at hreaders ⊢
    cases h.custom with
    | none => exact .throw _
    | some custom =>
      cases hreaders with
      | none => exact .throw _
      | some hread => exact (alike_of_lifts (hread custom.2 q readings)).bind fun _ => .pure _
  | align | skip | restart | bit | whole | opening | closing => exact absurd ⟨by simp [hkind], by simp [hkind]⟩ hplain

theorem viewing_suits (h : Head) : viewing.Suits s s' h where
  request run run' hruns := by
    obtain ⟨hsource, hreadings⟩ := hruns
    refine h.request_outcome_of_sources (by rw [hs.options]) fun source _ => ?_
    rw [Setting.sizeContext, Setting.sizeContext, hs.layout, hs.provider, hreadings, ← hsource]
    rfl
  value q _ readings := viewing_readValue hs h q readings
  left _ := viewing_keepsLeft

theorem readScript_view {P : Head → Prop} {ds : List Declaration} (hf : Declaration.FormedAll P ds) (b : BufferedReader) :
    Declaration.readScript s' ds b.view = ((Declaration.readScript s ds b).1, (Declaration.readScript s ds b).2.view) := by
  have hsuits : Declaration.FormedAll (viewing.Suits s s') ds := .of_heads ds hf fun head _ => viewing_suits hs head
  have hagree := Pairing.agree_readScript (viewing_under hs) hsuits (show viewing.Meets b b.view from rfl)
  rcases hagree.cases with ⟨a, run, run', hx, hy, hrun⟩ | ⟨fault, run, run', hx, hy, hrun⟩ | ⟨_, _, _, hexcused⟩
  · rw [hx, hy, view_of_meets hrun]
  · rw [hx, hy, view_of_meets hrun]
  · exact hexcused.elim

end BufferedReader

/-- Through the buffered reader a compiled script is read as through the reader of lists. -/
theorem Layout.read_view {custom : Option CustomTypes} {script : String} {layout : Layout}
    (h : compileWith custom script = .ok layout) (hcustoms : layout.customTypes.length ≤ 2 ^ 31)
    {s : Setting BufferedReader} {s' : Setting Reader} (hlayout : s.layout = layout) (hs : s.Views s') (b : BufferedReader) :
    s'.read b.view = ((s.read b).1, (s.read b).2.view) := by
  subst hlayout
  obtain ⟨ts, d, ds, -, hds, htraced, hopened, hsame⟩ := compileWith_traced h
  have hof : s.layout.IsOf ds := by
    rw [hsame]
    exact htraced.isOf hopened (by rwa [hsame] at hcustoms) script
  rw [IsOf.read_eq s hof, IsOf.read_eq s' (by rwa [hs.layout])]
  exact BufferedReader.readScript_view hs hof.formed b

end LayoutScript
