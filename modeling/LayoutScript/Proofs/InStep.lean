import Mathlib.Data.List.Infix
import LayoutScript.Proofs.Chronicle
import LayoutScript.Proofs.CodeTables

/-! # Cursors in step

Every instruction takes what belongs to it from the tables: a name if it has one, and a size for each
of its computed values. At every place that a reading visits, what is left of the tables is what
belongs to the instructions from that place on, whether they are read or passed, at any depth and in
every element of an array.
-/
namespace LayoutScript

namespace CodeLine

/-- How many names these lines take from the table. -/
def namesTaken (lines : List CodeLine) : Nat := lines.countP (·.instruction.named)

/-- How many sizes these lines take from the table. -/
def sizesTaken (lines : List CodeLine) : Nat := (lines.map (·.instruction.computedCount)).sum

/-- The number of structures open behind a line. -/
def depthBehind (depth : Nat) (line : CodeLine) : Nat :=
  if line.kind = .opening then depth + 1 else if line.kind = .closing then depth - 1 else depth

/-- The number of structures open behind these lines. -/
def nesting (lines : List CodeLine) : Nat := lines.foldl depthBehind 0

theorem namesTaken_concat (lines : List CodeLine) (line : CodeLine) :
    namesTaken (lines ++ [line]) = namesTaken lines + if line.instruction.named then 1 else 0 := by
  rw [namesTaken, List.countP_append, List.countP_singleton]
  rfl

theorem sizesTaken_concat (lines : List CodeLine) (line : CodeLine) :
    sizesTaken (lines ++ [line]) = sizesTaken lines + line.instruction.computedCount := by
  simp [sizesTaken]

theorem nesting_concat (lines : List CodeLine) (line : CodeLine) :
    nesting (lines ++ [line]) = depthBehind (nesting lines) line := by
  simp [nesting]

theorem depthBehind_closing {line : CodeLine} (h : line.kind = .closing) (depth : Nat) :
    depthBehind depth line = depth - 1 := by
  simp [depthBehind, h]

theorem depthBehind_of_ne {line : CodeLine} (h : line.kind ≠ .closing) (depth : Nat) :
    depthBehind depth line = if line.kind = .opening then depth + 1 else depth := by
  simp [depthBehind, h]

end CodeLine

theorem takeName_rest {line : CodeLine} {named named' : List NamedField} {info : Option NamedField}
    (h : takeName line named = .ok (info, named')) :
    named' = named.drop (if line.instruction.named then 1 else 0) := by
  cases hn : line.instruction.named with
  | false =>
    rw [takeName.eq_def, hn] at h
    cases h
    rfl
  | true =>
    rw [takeName.eq_def, hn] at h
    cases named <;> cases h
    rfl

/-- The entry with an offset stands where the offset stands. -/
theorem find?_offset {entries : List NamedField} {front back : List Nat} {offset : Nat}
    (h : entries.map (·.offset) = front ++ offset :: back) (hnew : offset ∉ front) :
    entries.find? (·.offset == offset) = (entries.drop front.length).head? := by
  induction front generalizing entries with
  | nil =>
    obtain ⟨f, rest, rfl, hf, -⟩ := List.map_eq_cons_iff.mp h
    simp [hf]
  | cons other front ih =>
    rw [List.mem_cons, not_or] at hnew
    obtain ⟨f, rest, rfl, hf, hrest⟩ := List.map_eq_cons_iff.mp h
    have hother : ¬ f.offset = offset := fun heq => hnew.1 (heq.symm.trans hf)
    simp [hother, ih hrest hnew.2]

namespace Layout
open CodeLine

/-- The place behind some lines, each of which has taken what belongs to it from the tables. -/
def placeBehind (layout : Layout) (before after : List CodeLine) : Place :=
  ⟨after, layout.named.drop (namesTaken before), layout.sizes.drop (sizesTaken before)⟩

/-- A place in the code, inside `depth` structures, where the tables are in step with the code. -/
def InStep (layout : Layout) (lines : List CodeLine) (depth : Nat) (place : Place) : Prop :=
  ∃ before, lines = before ++ place.code ∧ place = layout.placeBehind before place.code ∧ nesting before = depth

/-- Code with tables that it takes to their ends. -/
structure Tabled (layout : Layout) (lines : List CodeLine) : Prop where
  closing : ∀ line ∈ lines, line.kind = .closing →
    line.instruction.named = false ∧ line.instruction.computedCount = 0
  entries : (lines.filter (·.instruction.named)).map (·.offset) = layout.named.map (·.offset)
  sizes : sizesTaken lines = layout.sizes.length
  nesting : nesting lines = 0
  offsets : lines.Pairwise (·.offset < ·.offset)

variable {layout : Layout} {lines : List CodeLine} {depth : Nat}

theorem Tabled.names (ht : layout.Tabled lines) : namesTaken lines = layout.named.length := by
  have hlength := congrArg List.length ht.entries
  rwa [List.length_map, List.length_map, ← List.countP_eq_length_filter] at hlength

theorem inStep_start (layout : Layout) (lines : List CodeLine) : layout.InStep lines 0 (layout.start lines) :=
  ⟨[], rfl, rfl, rfl⟩

namespace InStep
variable {line : CodeLine} {code : List CodeLine} {named : List NamedField} {sizes : List SizeSource}

theorem suffix {place : Place} (h : layout.InStep lines depth place) : place.code <:+ lines := by
  obtain ⟨before, hlines, -⟩ := h
  exact ⟨before, hlines.symm⟩

theorem mem (h : layout.InStep lines depth ⟨line :: code, named, sizes⟩) : line ∈ lines :=
  h.suffix.subset (List.mem_cons_self ..)

/-- The end of a structure takes nothing from the tables. -/
theorem leave (h : layout.InStep lines depth ⟨line :: code, named, sizes⟩) (ht : layout.Tabled lines)
    (hclosing : line.kind = .closing) : layout.InStep lines (depth - 1) ⟨code, named, sizes⟩ := by
  obtain ⟨hnamed, hcomputed⟩ := ht.closing line h.mem hclosing
  obtain ⟨before, hlines, hplace, hdepth⟩ := h
  injection hplace with _ hn hs
  refine ⟨before ++ [line], by simpa using hlines, ?_, ?_⟩
  · simp [placeBehind, namesTaken_concat, sizesTaken_concat, hnamed, hcomputed, hn, hs]
  · rw [nesting_concat, depthBehind_closing hclosing, hdepth]

theorem pass (h : layout.InStep lines depth ⟨line :: code, named, sizes⟩) (hclosing : line.kind ≠ .closing)
    {info : Option NamedField} {named' : List NamedField} (hname : takeName line named = .ok (info, named')) :
    layout.InStep lines (if line.kind = .opening then depth + 1 else depth)
      ⟨code, named', sizes.drop line.instruction.computedCount⟩ := by
  obtain ⟨before, hlines, hplace, hdepth⟩ := h
  injection hplace with _ hn hs
  refine ⟨before ++ [line], by simpa using hlines, ?_, ?_⟩
  · simp [placeBehind, namesTaken_concat, sizesTaken_concat, takeName_rest hname, hn, hs]
  · rw [nesting_concat, depthBehind_of_ne hclosing, hdepth]

/-- Whatever an instruction is, it takes what belongs to it. -/
theorem next (h : layout.InStep lines depth ⟨line :: code, named, sizes⟩) (ht : layout.Tabled lines)
    {info : Option NamedField} {named' : List NamedField} (hname : takeName line named = .ok (info, named')) :
    layout.InStep lines (depthBehind depth line) ⟨code, named', sizes.drop line.instruction.computedCount⟩ := by
  by_cases hclosing : line.kind = .closing
  · obtain ⟨hunnamed, hcomputed⟩ := ht.closing line h.mem hclosing
    rw [takeName.eq_def, hunnamed] at hname
    cases hname
    rw [hcomputed, depthBehind_closing hclosing]
    exact h.leave ht hclosing
  · rw [depthBehind_of_ne hclosing]
    exact h.pass hclosing hname

/-- The table has a name for every instruction that takes one. -/
theorem takeName_ok (h : layout.InStep lines depth ⟨line :: code, named, sizes⟩) (ht : layout.Tabled lines) :
    ∃ info named', takeName line named = .ok (info, named') := by
  cases hn : line.instruction.named with
  | false =>
    refine ⟨none, named, ?_⟩
    rw [takeName.eq_def, hn]
    rfl
  | true =>
    obtain ⟨before, hlines, hplace, -⟩ := h
    injection hplace with _ hnamed _
    have hcount := ht.names
    simp only [hlines, namesTaken, List.countP_append, List.countP_cons, hn, if_true] at hcount
    have hlength : named.length = layout.named.length - before.countP (·.instruction.named) := by
      rw [hnamed, List.length_drop, namesTaken]
    cases named with
    | nil =>
      rw [List.length_nil] at hlength
      omega
    | cons info rest =>
      refine ⟨some info, rest, ?_⟩
      rw [takeName.eq_def, hn]
      rfl

/-- The name that an instruction takes is the entry with its offset. -/
theorem entry (h : layout.InStep lines depth ⟨line :: code, named, sizes⟩) (ht : layout.Tabled lines)
    {info : Option NamedField} {named' : List NamedField} (hname : takeName line named = .ok (info, named')) :
    layout.named.find? (·.offset == line.offset) = info := by
  obtain ⟨before, hlines, hplace, -⟩ := h
  injection hplace with _ hnamed _
  have hoffsets := ht.offsets
  have hentries := ht.entries
  rw [hlines] at hoffsets hentries
  obtain ⟨-, hbehind, hbefore⟩ := List.pairwise_append.mp hoffsets
  have hfront : line.offset ∉ (before.filter (·.instruction.named)).map (·.offset) := by
    intro hmem
    obtain ⟨l, hl, hsame⟩ := List.mem_map.mp hmem
    exact absurd hsame (Nat.ne_of_lt (hbefore l (List.mem_of_mem_filter hl) line (List.mem_cons_self ..)))
  rw [List.filter_append, List.filter_cons, List.map_append] at hentries
  cases hn : line.instruction.named with
  | false =>
    rw [takeName.eq_def, hn] at hname
    cases hname
    rw [hn] at hentries
    refine List.find?_eq_none.mpr fun f hf heq => ?_
    have hmem : f.offset ∈ layout.named.map (·.offset) := List.mem_map_of_mem hf
    rw [← hentries, beq_iff_eq.mp heq] at hmem
    obtain ⟨l, hl, hsame⟩ := List.mem_map.mp ((List.mem_append.mp hmem).resolve_left hfront)
    exact absurd hsame (Nat.ne_of_gt (List.rel_of_pairwise_cons hbehind (List.mem_of_mem_filter hl)))
  | true =>
    rw [takeName.eq_def, hn] at hname
    rw [hn] at hentries
    have hlength : ((before.filter (·.instruction.named)).map (·.offset)).length = namesTaken before := by
      rw [List.length_map, namesTaken, List.countP_eq_length_filter]
    rw [find?_offset hentries.symm hfront, hlength, ← hnamed]
    cases named with
    | nil => cases hname
    | cons f rest =>
      cases hname
      rfl

/-- There are sources for all computed values of the next instruction. -/
theorem computedCount_le {line : CodeLine} (h : layout.InStep lines depth ⟨line :: code, named, sizes⟩)
    (ht : layout.Tabled lines) : line.instruction.computedCount ≤ sizes.length := by
  obtain ⟨before, hlines, hplace, -⟩ := h
  injection hplace with _ _ hsizes
  have htaken := ht.sizes
  rw [hlines] at htaken
  simp only [sizesTaken, List.map_append, List.map_cons, List.sum_append, List.sum_cons] at htaken
  rw [hsizes, List.length_drop, sizesTaken]
  omega

/-- Passing what is left of a structure ends behind it, in step. -/
theorem skipBody_ok {inner : Nat} (h : layout.InStep lines (depth + 1 + inner) ⟨code, named, sizes⟩)
    (ht : layout.Tabled lines) :
    ∃ next, layout.skipBody inner code named sizes = .ok next ∧ layout.InStep lines depth next ∧
      next.code.length < code.length := by
  induction code generalizing inner named sizes with
  | nil =>
    obtain ⟨before, hlines, -, hdepth⟩ := h
    have hnesting := ht.nesting
    rw [hlines, List.append_nil, hdepth] at hnesting
    omega
  | cons line code ih =>
    by_cases hclosing : line.kind = .closing
    · have hleave := h.leave ht hclosing
      cases inner with
      | zero => exact ⟨_, skipBody_end hclosing code named sizes, hleave, Nat.lt_succ_self _⟩
      | succ inner =>
        obtain ⟨next, hnext, hstep, hlength⟩ := ih hleave
        rw [skipBody_leave hclosing]
        exact ⟨next, hnext, hstep, Nat.lt_succ_of_lt hlength⟩
    · obtain ⟨info, named', hname⟩ := h.takeName_ok ht
      have hpass := h.pass hclosing hname
      have hinner : (if line.kind = .opening then depth + 1 + inner + 1 else depth + 1 + inner) =
          depth + 1 + if line.kind = .opening then inner + 1 else inner := by
        split <;> rfl
      rw [hinner] at hpass
      obtain ⟨next, hnext, hstep, hlength⟩ := ih hpass
      rw [skipBody_pass hclosing, hname]
      exact ⟨next, hnext, hstep, Nat.lt_succ_of_lt hlength⟩

end InStep
end Layout

/-! ## Where a body ends -/

theorem Layout.skipBody_add (layout : Layout) (m n : Nat) (code : List CodeLine) (named : List NamedField) (sizes : List SizeSource) :
    layout.skipBody (m + n + 1) code named sizes = (do
      let next ← layout.skipBody m code named sizes
      layout.skipBody n next.code next.named next.sizes) := by
  induction code generalizing m named sizes with
  | nil => rfl
  | cons line code ih =>
    by_cases hclosing : line.kind = .closing
    · rw [skipBody_leave hclosing]
      cases m with
      | zero =>
        rw [skipBody_end hclosing, Nat.zero_add]
        rfl
      | succ m =>
        rw [skipBody_leave hclosing, Nat.add_right_comm m 1 n, ih]
    · rw [skipBody_pass hclosing, skipBody_pass hclosing, bind_assoc]
      congr 1
      funext ⟨info, named'⟩
      by_cases hopening : line.kind = .opening
      · simp only [if_pos hopening]
        rw [← ih, Nat.add_right_comm m 1 n]
      · simp only [if_neg hopening]
        exact ih m named' _

section bodies
variable {σ : Type} {layout : Layout} {body : Stateful (Run σ) Walk} {start : Place}

/-- Every walk of a body that is not halted ends where the body ends. -/
def EndsBehind (layout : Layout) (body : Stateful (Run σ) Walk) (start : Place) : Prop :=
  ∀ run fields next run', body run = (.ok (.done fields next), run') →
    layout.skipBody 0 start.code start.named start.sizes = .ok next

theorem EndsBehind.repeatBody (h : EndsBehind layout body start) {n : Nat} {acc items : List Record} {place next : Place}
    {run run' : Run σ} (hplace : layout.skipBody 0 start.code start.named start.sizes = .ok place)
    (hok : LayoutScript.repeatBody body n acc place run = (.ok (items, some next), run')) :
    layout.skipBody 0 start.code start.named start.sizes = .ok next := by
  induction n generalizing acc place run with
  | zero =>
    cases hok
    exact hplace
  | succ n ih =>
    rw [LayoutScript.repeatBody] at hok
    obtain ⟨walk, run₁, hwalk, hok⟩ := Stateful.of_bind_ok hok
    cases walk with
    | done fields place' => exact ih (h _ _ _ _ hwalk) hok
    | halted fields => cases hok

variable [BitSource σ]

theorem EndsBehind.repeatUntilEnd (h : EndsBehind layout body start) {options : ReadOptions} {size : Nat}
    {acc items : List Record} {place : Option Place} {next : Place} {halted : Bool} {run run' : Run σ}
    (hplace : ∀ p ∈ place, layout.skipBody 0 start.code start.named start.sizes = .ok p)
    (hok : LayoutScript.repeatUntilEnd options body size acc place run = (.ok (items, some next, halted), run')) :
    layout.skipBody 0 start.code start.named start.sizes = .ok next := by
  induction hn : BitSource.left run.source using Nat.strongRecOn generalizing size acc place run with
  | _ n ih =>
    rw [LayoutScript.repeatUntilEnd] at hok
    split at hok
    · cases hok
      exact hplace next rfl
    split at hok
    · cases hok
    split at hok
    · rename_i fields place' run₁ hbody
      have hplace' := h _ _ _ _ hbody
      split at hok
      · rename_i hless
        refine ih _ (hn ▸ hless) ?_ hok rfl
        rintro p ⟨⟩
        exact hplace'
      · cases hok
        exact hplace'
    · cases hok
    · cases hok

theorem EndsBehind.readStructure {s : Setting σ} (h : EndsBehind s.layout body start) {count : ElementCount}
    {value : Value} {next : Place} {run run' : Run σ}
    (hok : s.readStructure count start body run = (.ok (value, some next), run')) :
    s.layout.skipBody 0 start.code start.named start.sizes = .ok next := by
  rw [Setting.readStructure, elementsOf.eq_def] at hok
  cases count with
  | one =>
    obtain ⟨walk, run₁, hwalk, hok⟩ := Stateful.of_bind_ok hok
    cases walk <;> cases hok
    exact h _ _ _ _ hwalk
  | exactly n =>
    cases n with
    | zero =>
      obtain ⟨place, run₁, hskip, hok⟩ := Stateful.of_bind_ok hok
      cases hok
      exact (Stateful.of_lift_ok hskip).1
    | succ n =>
      obtain ⟨⟨items, place⟩, run₁, htimes, hok⟩ := Stateful.of_bind_ok hok
      cases hok
      obtain ⟨walk, run₂, hwalk, htimes⟩ := Stateful.of_bind_ok htimes
      cases walk with
      | done fields place => exact h.repeatBody (h _ _ _ _ hwalk) htimes
      | halted fields => cases htimes
  | untilEnd =>
    obtain ⟨⟨items, place, halted⟩, run₁, hwhile, hok⟩ := Stateful.of_bind_ok hok
    dsimp only at hok
    split at hok
    · obtain ⟨place, run₁, hskip, hok⟩ := Stateful.of_bind_ok hok
      cases hok
      exact (Stateful.of_lift_ok hskip).1
    · cases hok
      exact h.repeatUntilEnd (fun p hp => by cases hp) hwhile

end bodies

namespace Setting
variable {σ : Type} [BitSource σ] (s : Setting σ)

theorem rest_of_nextSize {line : CodeLine} {sizes sizes' : List SizeSource} {n : Int32} {run run' : Run σ}
    (hok : s.nextSize line sizes run = (.ok (n, sizes'), run')) : sizes' = sizes.drop 1 := by
  cases sizes with
  | nil => cases hok
  | cons size sizes =>
    rw [nextSize] at hok
    cases hn : size.evaluate (s.sizeContext run) <;> rw [hn] at hok <;> cases hok
    rfl

theorem rest_of_extraOf {line : CodeLine} {sizes sizes' : List SizeSource} {n : Int32} {run run' : Run σ}
    (hok : s.extraOf line sizes run = (.ok (n, sizes'), run')) :
    sizes' = sizes.drop (if line.instruction.action.extra? = some .computed then 1 else 0) := by
  rw [extraOf] at hok
  rcases hx : line.instruction.action.extra? with _ | _ | _ <;> rw [hx] at hok
  · cases hok
    rfl
  · cases hok
    rfl
  · exact s.rest_of_nextSize hok

theorem rest_of_countOf {line : CodeLine} {sizes sizes' : List SizeSource} {count : ElementCount} {run run' : Run σ}
    (hok : s.countOf line sizes run = (.ok (count, sizes'), run')) :
    sizes' = sizes.drop (if line.instruction.count = .computed then 1 else 0) := by
  rw [countOf] at hok
  cases hc : line.instruction.count <;> rw [hc] at hok
  case computed =>
    obtain ⟨⟨length, sizes₁⟩, run₁, hsize, hok⟩ := Stateful.of_bind_ok hok
    dsimp only at hok
    split at hok <;> cases hok
    exact s.rest_of_nextSize hsize
  all_goals
    cases hok
    rfl

/-- A request takes its computed values from the table. -/
theorem rest_of_request {line : CodeLine} {info : Option NamedField} {sizes sizes' : List SizeSource} {r : Request}
    {run run' : Run σ} (hok : s.request line info sizes run = (.ok (r, sizes'), run')) :
    sizes' = sizes.drop line.instruction.computedCount := by
  obtain ⟨⟨extra, sizes₁⟩, run₁, hextra, hok⟩ := Stateful.of_bind_ok hok
  obtain ⟨⟨count, sizes₂⟩, run₂, hcount, hok⟩ := Stateful.of_bind_ok hok
  obtain ⟨_, run₃, -, hok⟩ := Stateful.of_bind_ok hok
  cases hok
  rw [Instruction.computedCount, ← List.drop_drop, ← s.rest_of_extraOf hextra]
  exact s.rest_of_countOf hcount

/-- A completed walk of a body ends where passing the body without reading ends. -/
theorem endsBehind_walk (depth : Nat) (place : Place) : EndsBehind s.layout (s.walk (depth + 1) place) place := by
  induction hn : place.code.length using Nat.strongRecOn generalizing depth place with
  | _ n ih =>
    intro run fields next run' hok
    obtain ⟨_ | ⟨line, code⟩, named, sizes⟩ := place
    · rw [walk, if_neg (Nat.succ_ne_zero depth)] at hok
      cases hok
    have hbehind : ∀ (depth : Nat) (next : Place), next.code.length ≤ code.length →
        EndsBehind s.layout (s.walk (depth + 1) next) next := by
      intro depth next hnext
      exact ih _ (hn ▸ Nat.lt_succ_of_le hnext) depth next rfl
    rw [walk] at hok
    by_cases hclosing : line.kind = .closing
    · rw [if_pos hclosing, if_neg (Nat.succ_ne_zero depth)] at hok
      cases hok
      exact Layout.skipBody_end hclosing code named sizes
    rw [if_neg hclosing] at hok
    obtain ⟨⟨info, named'⟩, run₁, hname, hok⟩ := Stateful.of_bind_ok hok
    obtain ⟨⟨r, sizes'⟩, run₂, hrequest, hok⟩ := Stateful.of_bind_ok hok
    obtain ⟨run₃, run₄, -, hok⟩ := Stateful.of_bind_ok hok
    rw [Layout.skipBody_pass hclosing, (Stateful.of_lift_ok hname).1, ← s.rest_of_request hrequest]
    change s.layout.skipBody (if line.kind = .opening then 0 + 1 else 0) code named' sizes' = _
    dsimp only at hok
    split at hok
    · cases hok
    have hrest : ∀ {info : Option NamedField} {value : Value} {place : Place} {run : Run σ},
        place.code.length ≤ code.length →
        (do return (← s.walk (depth + 1) place).cons ⟨info, value⟩ : Stateful (Run σ) Walk) run =
          (.ok (.done fields next), run') → s.layout.skipBody 0 place.code place.named place.sizes = .ok next := by
      intro info value place run hplace hok
      obtain ⟨walk, run₅, hwalk, hok⟩ := Stateful.of_bind_ok hok
      cases walk <;> cases hok
      exact hbehind depth place hplace _ _ _ _ hwalk
    by_cases hopening : line.kind = .opening
    · rw [if_pos hopening] at hok ⊢
      split at hok
      · cases hok
      obtain ⟨⟨value, next?⟩, run₅, hvalue, hok⟩ := Stateful.of_bind_ok hok
      cases next? with
      | none => cases hok
      | some place =>
        dsimp only at hok
        split at hok
        · rename_i hplace
          have hbody : s.layout.skipBody 0 code named' sizes' = .ok place :=
            (hbehind (depth + 1) _ (Nat.le_refl _)).readStructure hvalue
          rw [Layout.skipBody_add _ 0 0, hbody]
          exact hrest hplace hok
        · cases hok
    · rw [if_neg hopening] at hok ⊢
      obtain ⟨reply, run₅, -, hok⟩ := Stateful.of_bind_ok hok
      rcases reply with _ | (_ | value | value)
      · cases hok
      · exact hbehind depth _ (Nat.le_refl _) _ _ _ _ hok
      · obtain ⟨_, run₆, -, hok⟩ := Stateful.of_bind_ok hok
        exact hrest (Nat.le_refl _) hok
      · cases hok

end Setting
/-! ## The tables of scripts -/

theorem CodeLine.Chain.increasing {pos stop : Nat} {lines : List CodeLine} (h : Chain pos lines stop) :
    lines.Pairwise (·.offset < ·.offset) ∧ ∀ line ∈ lines, pos ≤ line.offset := by
  induction lines generalizing pos with
  | nil => exact ⟨.nil, List.forall_mem_nil _⟩
  | cons line lines ih =>
    obtain ⟨hline, hrest⟩ := h
    obtain ⟨hpairwise, hbehind⟩ := ih hrest
    have hoffset : line.offset = pos := by
      rw [hline]
      rfl
    have hnext : pos < line.next := by
      have hlength : 0 < line.instruction.encode.length := Nat.succ_pos _
      rw [hline]
      exact Nat.lt_add_of_pos_right hlength
    refine ⟨List.pairwise_cons.mpr ⟨fun line' hm => ?_, hpairwise⟩, List.forall_mem_cons.mpr ⟨?_, fun line' hm => ?_⟩⟩
    · exact hoffset ▸ Nat.lt_of_lt_of_le hnext (hbehind line' hm)
    · exact Nat.le_of_eq hoffset.symm
    · exact Nat.le_trans (Nat.le_of_lt hnext) (hbehind line' hm)

namespace Traced
variable {custom : Option CustomTypes} {ts : List Token} {d : Draft} {o : Outline}

/-- As many structures are open behind the lines of an outline as are open in it. -/
theorem nesting (h : Traced custom ts d o) : CodeLine.nesting o.lines = o.opened.length := by
  induction h with
  | start => rfl
  | comment _ _ ih => exact ih
  | field _ _ hh ih =>
    obtain ⟨hopening, hclosing⟩ := (Draft.fieldHead_regular hh).2
    rw [Outline.lines_put, CodeLine.nesting_concat, ih, CodeLine.depthBehind_of_ne (by rwa [Head.line_kind]),
      Head.line_kind, if_neg hopening]
    rfl
  | opening _ _ hh ih =>
    have hopening := (Draft.structureHead_regular hh).2
    rw [Outline.lines_enter, CodeLine.nesting_concat, ih, CodeLine.depthBehind_of_ne (by simp [hopening]),
      Head.line_kind, if_pos hopening]
    rfl
  | closing _ _ _ ih =>
    rw [Outline.lines_leave, CodeLine.nesting_concat, ih, CodeLine.depthBehind_closing (Head.closing_kind _ _)]
    rfl

theorem closing_lines (h : Traced custom ts d o) : ∀ line ∈ o.lines, line.kind = .closing →
    line.instruction.named = false ∧ line.instruction.computedCount = 0 := by
  induction h with
  | start => exact List.forall_mem_nil _
  | comment _ _ ih => exact ih
  | field _ _ hh ih =>
    rw [Outline.lines_put]
    refine List.forall_mem_append.mpr ⟨ih, List.forall_mem_singleton.mpr fun hclosing => ?_⟩
    rw [Head.line_kind] at hclosing
    exact absurd hclosing (Draft.fieldHead_regular hh).2.2
  | opening _ _ hh ih =>
    rw [Outline.lines_enter]
    refine List.forall_mem_append.mpr ⟨ih, List.forall_mem_singleton.mpr fun hclosing => ?_⟩
    rw [Head.line_kind, (Draft.structureHead_regular hh).2] at hclosing
    cases hclosing
  | closing _ _ _ ih =>
    rw [Outline.lines_leave]
    exact List.forall_mem_append.mpr ⟨ih, List.forall_mem_singleton.mpr fun _ => ⟨rfl, rfl⟩⟩

/-- The code of a script takes its tables to their ends. -/
theorem tabled {ds : List Declaration} (h : Traced custom ts d ⟨[], ds⟩) (hopened : d.opened = [])
    (hcustoms : d.customTypes.length ≤ 2 ^ 31) (script : String) :
    Layout.Tabled ⟨script, d.code.toList, d.entries.map (·.field), d.sizes, d.customTypes⟩ (Declaration.linesAll ds) where
  closing := h.closing_lines
  entries := by
    rw [(h.isOf hopened hcustoms script).named]
    exact Declaration.named_linesAll h.regular
  sizes := by
    rw [(h.isOf hopened hcustoms script).sizes]
    exact Declaration.computed_linesAll h.regular
  nesting := h.nesting
  offsets := h.chain.increasing.1

end Traced
end LayoutScript
