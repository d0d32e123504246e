import LayoutScript.Proofs.Checked
import LayoutScript.Proofs.ReadScript
import LayoutScript.Proofs.ReadingIndex
import LayoutScript.Proofs.Scope
import LayoutScript.Proofs.SourceFaults

/-! # Faults of reading a compiled script

A script of built-in types that compiles cannot make a reading fail for reasons of its own
making: its code is sound, its sizes find the fields that they ask for, its expressions leave
one value, and the numbers that it tells are in range. What is left are the faults of inputs,
of limits and of numbers that are computed from the input.
-/
namespace LayoutScript

/-- The faults of inputs, limits and computed numbers. Negative lengths, negative extras and
wrong widths come from lines that compute them. -/
inductive Fault.Expected (lines : List CodeLine) : Fault → Prop where
  | endOfInput (counter needBits : Nat) : Expected lines (.input (.endOfInput counter needBits))
  | arrayTooLarge (count limit : Nat) : Expected lines (.input (.arrayTooLarge count limit))
  | tooDeep (limit : Nat) : Expected lines (.input (.tooDeep limit))
  | ofSize {fault : Fault} (h : fault.OfSize) : Expected lines fault
  | negativeLength {line : CodeLine} (hm : line ∈ lines) (hc : line.instruction.count = .computed) (length : Int) :
    Expected lines (.input (.negativeLength line.offset length))
  | negativeExtra {line : CodeLine} (hm : line ∈ lines) (hx : line.instruction.action.extra? = some .computed)
    (value : Int) : Expected lines (.input (.negativeExtra line.offset value))
  | bitWidth {line : CodeLine} (hm : line ∈ lines) (hx : line.instruction.action.extra? = some .computed)
    (width : Int) : Expected lines (.input (.bitWidth line.offset width))

theorem Fault.Expected.of_isEndOfInput {lines : List CodeLine} {fault : Fault} (h : fault.isEndOfInput = true) :
    fault.Expected lines := by
  rw [isEndOfInput.eq_def] at h
  split at h
  · exact .endOfInput _ _
  · cases h

section request
variable {σ : Type} [BitSource σ] {s : Setting σ} {known : List Nat} {run run' : Run σ}

omit [BitSource σ] in
theorem keepReading_offsets (info : Option NamedField) (v : Value) (run : Run σ) :
    run.readings.offsets ⊆ (Setting.keepReading info v run).readings.offsets := by
  rw [Setting.keepReading.eq_def]
  split
  · exact Readings.offsets_subset_put _ _ _
  · exact List.Subset.refl _

/-- The offsets of the named declarations of the layout. -/
def Setting.table (s : Setting σ) : List Nat := s.layout.named.map (·.offset)

theorem Setting.amount_fault (hknown : known ⊆ run.readings.offsets) {a : Amount}
    (hasks : ∀ source ∈ a.sources, source.Over fun index => ∃ offset ∈ known, s.table[index]? = some offset)
    {fault : Fault} (hf : s.amount a run = (.error fault, run')) : fault.OfSize := by
  cases a with
  | known n => cases hf
  | computed source =>
    have hover := hasks source (List.mem_singleton_self _)
    refine SizeSource.evaluate_fault (hover.mono fun index hindex => ?_) (congrArg Prod.fst hf)
    obtain ⟨offset, hoffset, htable⟩ := hindex
    rw [table, List.getElem?_map, Option.map_eq_some_iff] at htable
    obtain ⟨field, hfield, rfl⟩ := htable
    obtain ⟨value, hvalue⟩ := Option.isSome_iff_exists.mp (Readings.get?_isSome (hknown hoffset))
    exact ⟨value.toInt32, SizeContext.valueAt_eq hfield hvalue⟩

/-- A declaration whose sizes ask for known fields fails by what is computed, or is an array
that is too large. -/
theorem Head.request_fault {lines : List CodeLine} {h : Head} (hline : h.line ∈ lines) (hasks : h.Asks s.table known)
    (hknown : known ⊆ run.readings.offsets) {fault : Fault} (hf : (h.request s run).1 = .error fault) :
    fault.Expected lines := by
  obtain ⟨hextra, hextent⟩ := List.forall_mem_append.mp hasks
  have heq : h.request s run = (.error fault, run) := by rw [request_eq, hf]
  rcases Stateful.of_bind_error heq with heq | ⟨extra, run₁, hx, heq⟩
  · exact .ofSize (Setting.amount_fault hknown hextra heq)
  obtain rfl : run₁ = run := (congrArg Prod.snd hx).symm.trans (s.amount_run _ _)
  rcases Stateful.of_bind_error heq with heq | ⟨count, run₂, -, heq⟩
  · rw [elementCount] at heq
    cases he : h.extent with
    | one | known | untilEnd =>
      rw [he] at heq
      cases heq
    | computed source =>
      simp only [he] at heq
      have hcomputed : h.line.instruction.count = .computed := by
        rw [line_instruction, instruction, he]
        rfl
      rcases Stateful.of_bind_error heq with heq | ⟨length, run₃, -, heq⟩
      · refine .ofSize (Setting.amount_fault hknown ?_ heq)
        rwa [he] at hextent
      · split at heq
        · cases heq
          exact .negativeLength hline hcomputed _
        · cases heq
  · rcases Stateful.of_bind_error heq with heq | ⟨_, run₃, -, heq⟩
    · rw [Setting.checkCount.eq_def] at heq
      split at heq
      · split at heq <;> cases heq
        exact .arrayTooLarge _ _
      · cases heq
    · cases heq

end request

namespace Head
variable {s : Setting Reader} {lines : List CodeLine} {h : Head} {q : Request}

theorem nonNegative_fails (hc : h.Checked lines) (hq : h.Requests q) (hkind : h.kind = .align ∨ h.kind = .skip) :
    FailsBy (Fault.Expected lines) (h.nonNegative (σ := Reader) q.extra) := by
  rw [nonNegative]
  split
  · rename_i hnegative
    cases hx : h.extra with
    | computed source =>
      have hcomputed : h.line.instruction.action.extra? = some .computed := by
        rw [line_instruction, instruction, hx]
        rcases hkind with hkind | hkind <;> rw [hkind] <;> rfl
      exact .of_throw (.negativeExtra hc.line hcomputed _)
    | known n =>
      have haccepts := hc.accepts n hx
      rw [hq.extra n hx] at hnegative
      rcases hkind with hkind | hkind <;> rw [hkind] at haccepts
      · exact absurd (Int32.lt_of_lt_of_le hnegative (Int32.le_trans (by decide) haccepts)) (Int32.lt_irrefl)
      · exact absurd (Int32.lt_of_lt_of_le hnegative haccepts) Int32.lt_irrefl
  · exact .of_pure _

/-- Reading a value fails at the end of the input, by an extra that is out of range, or as an array that
is too large. -/
theorem readValue_failsBy {P : Fault → Prop} (hp : h.Plain)
    (hbrace : h.kind = .opening ∨ h.kind = .closing → P (.corrupt h.offset))
    (hend : ∀ fault : Fault, fault.isEndOfInput = true → P fault)
    (hlarge : ∀ n, P (.input (.arrayTooLarge n s.options.maxElements)))
    (hextra : h.kind = .align ∨ h.kind = .skip → FailsBy P (h.nonNegative (σ := Reader) q.extra))
    (hwidth : h.kind = .bit → ¬(1 ≤ q.extra ∧ q.extra ≤ 8) → P (.input (.bitWidth h.offset q.extra.toInt)))
    (readings : Readings) : FailsBy P (h.readValue s q readings) := by
  have hends : ∀ {α : Type} {action : Stateful Reader α}, Ends action → FailsBy P action := fun h => h.mono hend
  rw [readValue.eq_def]
  cases hk : h.kind with
  | var => exact absurd hk hp.1
  | custom => exact absurd hk hp.2
  | opening => exact .of_throw (hbrace (.inl hk))
  | closing => exact .of_throw (hbrace (.inr hk))
  | restart => exact (FailsBy.of_modify _).bind fun _ => .of_pure _
  | align => exact (hextra (.inl hk)).bind fun n => (hends (ends_alignTo _)).bind fun _ => .of_pure _
  | skip => exact (hextra (.inr hk)).bind fun n => (hends (ends_skipBytes n)).bind fun _ => .of_pure _
  | whole type => exact (hends (ends_readWhole q.order type)).readScalars hlarge q.count
  | bit =>
    dsimp only
    split
    · rename_i hin
      exact (hends (ends_readBits (toNat_of_width hin) q.count)).readScalars hlarge q.count
    · rename_i hout
      exact .of_throw (hwidth hk hout)

/-- Only a computed extra can be out of range. -/
theorem readValue_fails (hc : h.Checked lines) (hformed : h.kind ≠ .opening ∧ h.kind ≠ .closing)
    (hq : h.Requests q) (readings : Readings) : FailsBy (Fault.Expected lines) (h.readValue s q readings) := by
  refine readValue_failsBy hc.plain ?_ (fun _ => .of_isEndOfInput) (fun n => .arrayTooLarge n _) (nonNegative_fails hc hq) ?_
    readings
  · rintro (hk | hk)
    · exact absurd hk hformed.1
    · exact absurd hk hformed.2
  · intro hk hwidth
    cases hx : h.extra with
    | computed source =>
      have hcomputed : h.line.instruction.action.extra? = some .computed := by
        rw [line_instruction, instruction, hx, hk]
        rfl
      exact .bitWidth hc.line hcomputed _
    | known n =>
      have haccepts := hc.accepts n hx
      rw [hk] at haccepts
      rw [hq.extra n hx] at hwidth
      exact absurd haccepts hwidth

/-- A field whose number can be a size reads a scalar. -/
theorem readValue_scalar {σ : Type} [BitSource σ] {s : Setting σ} (hp : h.Plain) (hnumeric : h.kind.isNumeric = true)
    (hone : q.count = .one) {readings : Readings} {source source' : σ} {reply : Reply}
    (hok : h.readValue s q readings source = (.ok reply, source')) : ∃ type v, reply = .value (.scalar type v) := by
  rw [readValue, hone] at hok
  cases hk : h.kind with
  | var => exact absurd hk hp.1
  | custom => exact absurd hk hp.2
  | opening | closing | restart | align | skip =>
    rw [hk] at hnumeric
    cases hnumeric
  | whole type =>
    rw [hk] at hok
    obtain ⟨v, r₁, -, hok⟩ := Stateful.of_bind_ok hok
    cases hok
    exact ⟨_, v, rfl⟩
  | bit =>
    rw [hk] at hok
    dsimp only at hok
    split at hok
    · obtain ⟨v, r₁, -, hok⟩ := Stateful.of_bind_ok hok
      cases hok
      exact ⟨_, v, rfl⟩
    · cases hok

/-- A declaration whose number is kept has a name and reads a scalar. -/
theorem readValue_kept {σ : Type} [BitSource σ] {s : Setting σ} (hp : h.Plain) (hkeeps : h.keeps = true)
    (hq : h.Requests q) {readings : Readings} {source source' : σ} {reply : Reply}
    (hok : h.readValue s q readings source = (.ok reply, source')) :
    ∃ field type v, h.info = some field ∧ reply = .value (.scalar type v) := by
  rw [keeps, Bool.and_eq_true, Bool.and_eq_true] at hkeeps
  obtain ⟨⟨hinfo, hnumeric⟩, hone⟩ := hkeeps
  obtain ⟨field, hfield⟩ := Option.isSome_iff_exists.mp hinfo
  obtain ⟨type, v, hreply⟩ := readValue_scalar hp hnumeric (hq.one.mpr (of_decide_eq_true hone)) hok
  exact ⟨field, type, v, hfield, hreply⟩

end Head

/-- A reading fails in an expected way, or keeps the numbers that were kept before, together
with those of `after` unless it halts. -/
def Lands {α : Type} (lines : List CodeLine) (halted : α → Bool) (after : List Nat) (run : Run Reader) :
    Except Fault α × Run Reader → Prop
  | (.error fault, _) => fault.Expected lines
  | (.ok a, run') =>
    run.readings.offsets ⊆ run'.readings.offsets ∧ (halted a = false → after ⊆ run'.readings.offsets)

theorem Lands.cases {α : Type} {lines : List CodeLine} {halted : α → Bool} {after : List Nat} {run : Run Reader}
    {outcome : Except Fault α × Run Reader} (h : Lands lines halted after run outcome) :
    (∃ fault run', outcome = (.error fault, run') ∧ fault.Expected lines) ∨
    ∃ a run', outcome = (.ok a, run') ∧ run.readings.offsets ⊆ run'.readings.offsets ∧
      (halted a = false → after ⊆ run'.readings.offsets) := by
  rcases outcome with ⟨fault | a, run'⟩
  · exact .inl ⟨fault, run', rfl, h⟩
  · exact .inr ⟨a, run', rfl, h⟩

theorem Head.readSingle_lands {s : Setting Reader} {lines : List CodeLine} {h : Head} {q : Request}
    (hc : h.Checked lines) (hformed : h.kind ≠ .opening ∧ h.kind ≠ .closing) (hq : h.Requests q) {known : List Nat}
    {run : Run Reader} (hknown : known ⊆ run.readings.offsets) :
    Lands lines (·.halted) (Declaration.after known (.single h)) run (h.readSingle s q run) := by
  rw [readSingle_eq]
  rcases hv : h.readValue s q run.readings run.source with ⟨fault | reply, source⟩
  · have hfault := readValue_fails hc hformed hq run.readings run.source fault source hv
    by_cases htolerated : fault.isEndOfInput && s.options.tolerant
    · simp only [if_pos htolerated]
      exact ⟨List.Subset.refl _, fun h => by cases h⟩
    · simp only [if_neg htolerated]
      exact hfault
  cases hkeeps : h.keeps with
  | false =>
    have hafter : Declaration.after known (.single h) = known := by
      rw [Declaration.after, hkeeps]
      rfl
    rw [hafter]
    cases reply with
    | nothing => exact ⟨List.Subset.refl _, fun _ => hknown⟩
    | cut value => exact ⟨List.Subset.refl _, fun h => by cases h⟩
    | value value =>
      have hgrows := keepReading_offsets h.info value { run with source }
      exact ⟨hgrows, fun _ => List.Subset.trans hknown hgrows⟩
  | true =>
    have hafter : Declaration.after known (.single h) = h.offset :: known := by
      rw [Declaration.after, hkeeps]
      rfl
    obtain ⟨f, type, v, hf, rfl⟩ := readValue_kept hc.plain hkeeps hq hv
    have hgrows := run.readings.offsets_subset_put f (.ofInt (type.toInt v))
    have hmem := run.readings.offset_mem_put f (.ofInt (type.toInt v))
    rw [hc.regular.info f hf] at hmem
    rw [hafter, hf]
    exact ⟨hgrows, fun _ => List.cons_subset.mpr ⟨hmem, List.Subset.trans hknown hgrows⟩⟩

namespace Declaration
variable {s : Setting Reader} {lines : List CodeLine} {known after : List Nat} {body : Stateful (Run Reader) Yield}

/-- A body that lands wherever what is known before it was read. -/
def LandsFrom (lines : List CodeLine) (known after : List Nat) (body : Stateful (Run Reader) Yield) : Prop :=
  ∀ run : Run Reader, known ⊆ run.readings.offsets → Lands lines (·.halted) after run (body run)

/-- The elements of an array leave known what was known before them. -/
theorem readTimes_lands (hbody : LandsFrom lines known after body) (n : Nat) {run : Run Reader}
    (hknown : known ⊆ run.readings.offsets) : Lands lines Prod.snd known run (readTimes body n run) := by
  induction n generalizing run with
  | zero => exact ⟨List.Subset.refl _, fun _ => hknown⟩
  | succ n ih =>
    rw [readTimes_succ]
    rcases (hbody run hknown).cases with ⟨fault, run₁, hy, hfault⟩ | ⟨y, run₁, hy, hgrows, -⟩
    · rw [hy]
      exact hfault
    rw [hy]
    by_cases hhalted : y.halted
    · simp only [if_pos hhalted]
      exact ⟨hgrows, fun h => by cases h⟩
    simp only [if_neg hhalted]
    have hrest := ih (List.Subset.trans hknown hgrows)
    rcases hrest.cases with ⟨fault, run₂, hx, hfault⟩ | ⟨x, run₂, hx, hgrows', hafter⟩
    · rw [hx]
      exact hfault
    · rw [hx]
      exact ⟨List.Subset.trans hgrows hgrows', hafter⟩

theorem readWhile_lands (hbody : LandsFrom lines known after body) (options : ReadOptions) (size : Nat)
    {run : Run Reader} (hknown : known ⊆ run.readings.offsets) :
    Lands lines Prod.snd known run (readWhile options body size run) := by
  induction hn : BitSource.left run.source using Nat.strongRecOn generalizing size run with
  | _ n ih =>
    rw [readWhile]
    by_cases hend : BitSource.left run.source = 0
    · rw [if_pos hend]
      exact ⟨List.Subset.refl _, fun _ => hknown⟩
    rw [if_neg hend]
    by_cases hmax : options.maxElements ≤ size
    · rw [if_pos hmax]
      exact .arrayTooLarge _ _
    rw [if_neg hmax]
    rcases (hbody run hknown).cases with ⟨fault, run₁, hy, hfault⟩ | ⟨y, run₁, hy, hgrows, -⟩
    · rw [hy]
      exact hfault
    rw [hy]
    have hknown₁ := List.Subset.trans hknown hgrows
    by_cases hhalted : y.halted
    · simp only [if_pos hhalted]
      exact ⟨hgrows, fun h => by cases h⟩
    simp only [if_neg hhalted]
    by_cases hless : BitSource.left run₁.source < BitSource.left run.source
    · simp only [if_pos hless]
      have hrest := ih _ (hn ▸ hless) (size + 1) hknown₁ rfl
      rcases hrest.cases with ⟨fault, run₂, hx, hfault⟩ | ⟨x, run₂, hx, hgrows', hafter⟩
      · rw [hx]
        exact hfault
      · rw [hx]
        exact ⟨List.Subset.trans hgrows hgrows', hafter⟩
    · simp only [if_neg hless]
      exact ⟨hgrows, fun _ => hknown₁⟩

/-- A structure lands as its members do; an array lands with what was known before it. -/
theorem readElements_lands (hbody : LandsFrom lines known after body) (options : ReadOptions) (count : ElementCount)
    {run : Run Reader} (hknown : known ⊆ run.readings.offsets) :
    Lands lines Prod.snd (if count = .one then after else known) run (readElements options count body run) := by
  cases count with
  | one =>
    rw [readElements_one, if_pos rfl]
    rcases (hbody run hknown).cases with ⟨fault, run₁, hy, hfault⟩ | ⟨y, run₁, hy, hlands⟩
    · rw [hy]
      exact hfault
    · rw [hy]
      exact hlands
  | exactly n =>
    rw [readElements_exactly, if_neg (fun h => by cases h)]
    rcases (readTimes_lands hbody n hknown).cases with ⟨fault, run₁, hx, hfault⟩ | ⟨x, run₁, hx, hlands⟩
    · rw [hx]
      exact hfault
    · rw [hx]
      exact hlands
  | untilEnd =>
    rw [readElements_untilEnd, if_neg (fun h => by cases h)]
    rcases (readWhile_lands hbody options 0 hknown).cases with ⟨fault, run₁, hx, hfault⟩ | ⟨x, run₁, hx, hlands⟩
    · rw [hx]
      exact hfault
    · rw [hx]
      exact hlands

mutual

theorem read_lands : (d : Declaration) → d.Formed (Head.Checked lines) → ∀ (known : List Nat) (depth : Nat),
    d.Scoped s.table known → LandsFrom lines known (d.after known) (d.read s depth)
  | .single h, hf, known, depth, hscoped, run, hknown => by
    rw [read_single]
    cases hq : (h.request s run).1 with
    | error fault => exact Head.request_fault hf.1.line hscoped hknown hq
    | ok q =>
      dsimp only
      by_cases hstop : s.stopsBefore h.kind q.count run
      · rw [if_pos hstop]
        exact ⟨List.Subset.refl _, fun h => by cases h⟩
      · rw [if_neg hstop]
        exact Head.readSingle_lands hf.1 hf.2 (Head.request_ok hq) hknown
  | .nested h members, hf, known, depth, hscoped, run, hknown => by
    rw [read_nested]
    cases hq : (h.request s run).1 with
    | error fault => exact Head.request_fault hf.1.line hscoped.1 hknown hq
    | ok q =>
      dsimp only
      by_cases hstop : s.stopsBefore h.kind q.count run
      · rw [if_pos hstop]
        exact ⟨List.Subset.refl _, fun h => by cases h⟩
      rw [if_neg hstop]
      by_cases hdepth : s.options.maxDepth < depth + 1
      · rw [if_pos hdepth]
        exact .tooDeep _
      rw [if_neg hdepth]
      have hmembers := readAll_lands members hf.2.2 known (depth + 1) hscoped.2
      have helements := readElements_lands hmembers s.options q.count hknown
      rcases helements.cases with ⟨fault, run₁, hx, hfault⟩ | ⟨x, run₁, hx, hgrows, hafter⟩
      · rw [hx]
        exact hfault
      rw [hx]
      refine ⟨hgrows, fun hhalted => ?_⟩
      rw [Declaration.after]
      -- Only a single structure is sure to have been read, so only its members are known behind it.
      by_cases hone : h.extent = .one
      · have hinside := hafter hhalted
        rw [if_pos ((Head.request_ok hq).one.mpr hone)] at hinside
        rwa [if_pos hone]
      · rw [if_neg hone]
        exact List.Subset.trans hknown hgrows

/-- Declarations whose sizes ask for what is known land with what is known behind them. -/
theorem readAll_lands : (ds : List Declaration) → FormedAll (Head.Checked lines) ds →
    ∀ (known : List Nat) (depth : Nat), ScopedAll s.table known ds →
      LandsFrom lines known (afterAll known ds) (readAll s depth ds)
  | [], _, _, _, _, _, hknown => ⟨List.Subset.refl _, fun _ => hknown⟩
  | d :: ds, hf, known, depth, hscoped, run, hknown => by
    rw [readAll_cons]
    have hfirst := read_lands d hf.1 known depth hscoped.1 run hknown
    rcases hfirst.cases with ⟨fault, run₁, hd, hfault⟩ | ⟨first, run₁, hd, hgrows, hafter⟩
    · rw [hd]
      exact hfault
    rw [hd]
    by_cases hhalted : first.halted
    · simp only [if_pos hhalted]
      exact ⟨hgrows, fun h => absurd (h.symm.trans hhalted) (by decide)⟩
    simp only [if_neg hhalted]
    have hknown₁ := hafter (Bool.eq_false_iff.mpr hhalted)
    have hrest := readAll_lands ds hf.2 (d.after known) depth hscoped.2 run₁ hknown₁
    rcases hrest.cases with ⟨fault, run₂, hds, hfault⟩ | ⟨rest, run₂, hds, hgrows', hafter'⟩
    · rw [hds]
      exact hfault
    · rw [hds]
      exact ⟨List.Subset.trans hgrows hgrows', hafter'⟩

end

end Declaration

theorem Layout.IsOf.read_fault (s : Setting Reader) {ds : List Declaration} {lines : List CodeLine}
    (h : s.layout.IsOf ds) (hchecked : Declaration.FormedAll (Head.Checked lines) ds)
    (hscoped : Declaration.ScopedAll s.table [] ds) {source : Reader} {fault : Fault} {run : Run Reader}
    (hread : s.read source = (.error fault, run)) : fault.Expected lines := by
  have hlands := Declaration.readAll_lands ds hchecked [] 0 hscoped { source } (List.nil_subset _)
  rw [h.read_eq] at hread
  rcases Stateful.of_bind_error hread with hread | ⟨y, run₁, -, hpure⟩
  · rw [hread] at hlands
    exact hlands
  · cases hpure

/-- Whatever the input, the options and the collaborators are, reading a script of built-in
types without `var` fails in an expected way if it fails. -/
theorem Layout.read_fault_expected {script : String} {layout : Layout} (h : compile script = .ok layout) :
    ∃ lines, layout.lines = .ok lines ∧ ((∀ line ∈ lines, line.kind ≠ .var) →
      ∀ (options : ReadOptions) (collaborators : Collaborators Reader) (source : Reader) (fault : Fault)
        (run : Run Reader), Setting.read ⟨layout, options, collaborators⟩ source = (.error fault, run) →
          fault.Expected lines) := by
  obtain ⟨ts, d, ds, -, -, htraced, hopened, rfl⟩ := compileWith_traced h
  have hof := htraced.isOf hopened (by rw [htraced.no_customs]; exact Nat.zero_le _) script
  refine ⟨Declaration.linesAll ds, hof.lines, ?_⟩
  intro hvar options collaborators source fault run hread
  exact IsOf.read_fault ⟨_, options, collaborators⟩ hof (htraced.checked hvar) htraced.scopedAll hread

/-- A length that is computed from the input can be negative, also in tolerant readings. -/
theorem Layout.read_negative_length :
    let script := "byte n; r[n] \x7b ubyte a; bit:3 b; \x7d"
    let source := Reader.ofBytes [255] .lsb0
    let fault : Fault := .input (.negativeLength 1 (-1))
    ∃ layout lines run, compile script = .ok layout ∧ layout.lines = .ok lines ∧
      (∀ line ∈ lines, line.kind ≠ .var) ∧ Setting.read ⟨layout, .lenient, {}⟩ source = (.error fault, run) ∧
      fault.Expected lines := by
  intro script source fault
  have hcompiles : (compile script).toOption.any (fun layout => layout.lines.toOption.any (·.all (·.kind ≠ .var)) &&
      match (Setting.read ⟨layout, .lenient, {}⟩ source).1 with
      | .error fault' => fault' = fault
      | .ok _ => false) = true := by decide +kernel
  obtain ⟨layout, hlayout, hchecks⟩ := of_any_ok hcompiles
  obtain ⟨hlines, hfails⟩ := Bool.and_eq_true_iff.mp hchecks
  obtain ⟨code, hcode, hkinds⟩ := of_any_ok hlines
  obtain ⟨lines, hdecoded, hexpected⟩ := read_fault_expected hlayout
  have hvar : ∀ line ∈ lines, line.kind ≠ .var := by
    rw [hcode] at hdecoded
    cases hdecoded
    exact fun line hm => of_decide_eq_true (List.all_eq_true.mp hkinds line hm)
  rcases hread : Setting.read ⟨layout, .lenient, {}⟩ source with ⟨fault' | record, run⟩
  · rw [hread] at hfails
    obtain rfl : fault' = fault := of_decide_eq_true hfails
    exact ⟨layout, lines, run, hlayout, hdecoded, hvar, hread, hexpected hvar _ _ _ _ _ hread⟩
  · rw [hread] at hfails
    cases hfails

end LayoutScript
