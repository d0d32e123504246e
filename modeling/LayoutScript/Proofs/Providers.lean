import LayoutScript.Proofs.ClassifiedSizes
import LayoutScript.Proofs.ReadFaults
import LayoutScript.Proofs.SideBySide

/-! # Layouts without external values

A layout tells from its sizes alone whether anything in it may ask for an external value. One that
does not is read in the same way whoever provides external values, and never misses one.
-/
namespace LayoutScript

/-- No external value is missing. -/
def Fault.Provided (fault : Fault) : Prop := ∀ name, fault ≠ .supply (.externalValue name)

namespace Fault.Provided

theorem input (cause : InputCause) : Fault.Provided (.input cause) := fun _ h => by cases h

theorem expression (cause : ExprCause) : Fault.Provided (.expression cause) := fun _ h => by cases h

theorem of_isEndOfInput {fault : Fault} (h : fault.isEndOfInput = true) : fault.Provided := by
  rintro name rfl
  cases h

end Fault.Provided

/-! ## Sizes -/

namespace ExprProgram
variable {cx : SizeContext} {op : ExprOp}

theorem operate_provider (h : ∀ name, op ≠ .external name) (provider : Option Provider) (stack : List Int32) :
    operate { cx with provider } op stack = operate cx op stack := by
  cases op with
  | external name => exact absurd rfl (h name)
  | literal | field | position => rfl
  | unary => cases stack <;> rfl
  | binary => rcases stack with _ | ⟨_, _ | _⟩ <;> rfl

theorem operate_provided (h : ∀ name, op ≠ .external name) {stack : List Int32} {fault : Fault}
    (hf : operate cx op stack = .error fault) : fault.Provided := by
  cases op with
  | external name => exact absurd rfl (h name)
  | literal | position => cases hf
  | field index =>
    rw [operate_field] at hf
    rcases of_bind_error hf with hf | ⟨n, -, hf⟩
    · rcases SizeContext.valueAt_fault hf with rfl | ⟨path, rfl⟩ <;> exact .input _
    · cases hf
  | unary =>
    cases stack <;> cases hf
    exact .expression _
  | binary op =>
    rcases stack with _ | ⟨right, _ | ⟨left, stack⟩⟩
    · cases hf
      exact .expression _
    · cases hf
      exact .expression _
    rw [operate_binary] at hf
    rcases of_bind_error hf with hf | ⟨n, -, hf⟩
    · rw [BinaryOp.apply.eq_def] at hf
      split at hf
      case h_4 | h_5 =>
        split at hf <;> cases hf
        exact .expression _
      all_goals cases hf
    · cases hf

theorem run_provided {ops : List ExprOp} (h : ∀ op ∈ ops, ∀ name, op ≠ .external name) {stack : List Int32}
    {fault : Fault} (hf : run cx ops stack = .error fault) : fault.Provided := by
  induction ops generalizing stack with
  | nil => cases hf
  | cons op ops ih =>
    obtain ⟨hop, hops⟩ := List.forall_mem_cons.mp h
    rw [run] at hf
    rcases of_bind_error hf with hf | ⟨⟨n, stack'⟩, -, hf⟩
    · exact operate_provided hop hf
    · dsimp only at hf
      split at hf
      · cases hf
        exact .expression _
      · exact ih hops hf

variable {p : ExprProgram}

theorem ne_external (h : p.usesExternal = false) : ∀ op ∈ p.ops, ∀ name, op ≠ .external name := by
  rintro op hm name rfl
  exact List.any_eq_false.mp h _ hm rfl

theorem evaluate_provider (h : p.usesExternal = false) (provider : Option Provider) :
    p.evaluate { cx with provider } = p.evaluate cx := by
  have hrun : ∀ stack, run { cx with provider } p.ops stack = run cx p.ops stack :=
    run_agree fun op hm => operate_provider (ne_external h op hm) provider
  simp only [evaluate, hrun]

theorem evaluate_provided (h : p.usesExternal = false) {fault : Fault} (hf : p.evaluate cx = .error fault) :
    fault.Provided := by
  rw [evaluate] at hf
  rcases of_bind_error hf with hf | ⟨stack, -, hf⟩
  · exact run_provided (ne_external h) hf
  · split at hf <;> cases hf
    exact .expression _

end ExprProgram

namespace SizeSource
variable {cx : SizeContext} {source : SizeSource}

theorem evaluate_provider (h : source.usesExternal = false) (provider : Option Provider) :
    source.evaluate { cx with provider } = source.evaluate cx := by
  cases source with
  | expression program => exact ExprProgram.evaluate_provider h provider
  | external name => cases h
  | field | position => rfl

theorem evaluate_provided (h : source.usesExternal = false) {fault : Fault} (hf : source.evaluate cx = .error fault) :
    fault.Provided := by
  cases source with
  | expression program => exact ExprProgram.evaluate_provided h hf
  | external name => cases h
  | field index name =>
    rcases SizeContext.valueAt_fault hf with rfl | ⟨path, rfl⟩ <;> exact .input _
  | position => cases hf

end SizeSource

/-- Declarations whose sizes ask for no external value. -/
def Head.AsksNobody (h : Head) : Prop := ∀ source ∈ h.sources, source.usesExternal = false

theorem Layout.IsOf.asksNobody {layout : Layout} {ds : List Declaration} (h : layout.IsOf ds)
    (hexternal : layout.usesExternal = false) : Declaration.FormedAll Head.AsksNobody ds := by
  refine .of_heads ds h.formed fun head hm source hsource => ?_
  have hmem : source ∈ layout.sizes := by
    rw [h.sizes]
    exact List.mem_flatMap.mpr ⟨head, hm, hsource⟩
  exact Bool.eq_false_iff.mpr (List.any_eq_false.mp hexternal source hmem)

/-! ## Readings with two providers -/

/-- The same setting with another provider of external values. -/
def Setting.withProvider {σ : Type} (s : Setting σ) (provider : Option Provider) : Setting σ :=
  { s with collaborators := { s.collaborators with provider } }

/-- Two readings of one source. -/
def Pairing.identical (σ : Type) : Pairing σ σ := ⟨fun s t => t = s, fun _ => False⟩

section providers
variable {σ : Type}

theorem Pairing.Alike.refl {α : Type} (x : Stateful σ α) : (identical σ).Alike x x := by
  rintro s _ rfl
  exact .same _ rfl

variable [BitSource σ]

theorem Pairing.identical_keepsLeft : (identical σ).KeepsLeft := by
  rintro s _ rfl
  rfl

theorem Pairing.identical_under (options : ReadOptions) : (identical σ).Under options options where
  tolerant := rfl
  maxDepth := rfl
  maxElements := rfl
  left _ := identical_keepsLeft
  unexcused _ _ h := h

/-- A provider is asked by sizes and by nothing else. -/
theorem Head.AsksNobody.suits {h : Head} (hh : h.AsksNobody) (s : Setting σ) (provider : Option Provider) :
    (Pairing.identical σ).Suits s (s.withProvider provider) h where
  request := by
    rintro run ⟨_, _⟩ ⟨rfl, rfl⟩
    refine h.request_outcome_of_sources rfl fun source hsource => ?_
    have hsame : source.evaluate { s.sizeContext run with provider } = source.evaluate (s.sizeContext run) :=
      SizeSource.evaluate_provider (hh source hsource) provider
    exact hsame
  value _ _ _ := .refl _
  left _ := Pairing.identical_keepsLeft

theorem Declaration.readScript_provider {ds : List Declaration} (hf : FormedAll Head.AsksNobody ds) (s : Setting σ)
    (provider : Option Provider) (source : σ) :
    readScript (s.withProvider provider) ds source = readScript s ds source := by
  have hsuits : FormedAll ((Pairing.identical σ).Suits s (s.withProvider provider)) ds :=
    .of_heads ds hf fun head hm => Head.AsksNobody.suits (FormedAll.heads ds hf head hm) s provider
  have hunder : (Pairing.identical σ).Under s.options (s.withProvider provider).options := Pairing.identical_under s.options
  have hagree := Pairing.agree_readScript hunder hsuits (show source = source from rfl)
  generalize readScript s ds source = x at hagree ⊢
  generalize readScript (s.withProvider provider) ds source = y at hagree ⊢
  cases hagree with
  | @same outcome run run' hruns =>
    obtain ⟨hsource, hreadings⟩ := hruns
    cases run
    cases run'
    cases hsource
    cases hreadings
    rfl
  | excused h => exact absurd h id

end providers

/-! ## Missing external values -/

section faults
variable {σ : Type} {P : Fault → Prop}

open Declaration

section bodies
variable {body : Stateful (Run σ) Yield}

theorem FailsBy.readTimes (h : FailsBy P body) (n : Nat) : FailsBy P (readTimes body n) := by
  induction n with
  | zero => exact .of_pure _
  | succ n ih =>
    refine h.bind fun y => ?_
    split
    · exact .of_pure _
    · exact ih.bind fun _ => .of_pure _

variable [BitSource σ] {options : ReadOptions}

theorem FailsBy.readWhile (hinput : ∀ cause, P (.input cause)) (h : FailsBy P body) (size : Nat) :
    FailsBy P (readWhile options body size) := by
  intro run fault run' heq
  induction hn : BitSource.left run.source using Nat.strongRecOn generalizing size run with
  | _ n ih =>
    rw [Declaration.readWhile] at heq
    split at heq
    · cases heq
    split at heq
    · cases heq
      exact hinput _
    rcases hy : body run with ⟨fault' | y, next⟩ <;> rw [hy] at heq
    · cases heq
      exact h run fault run' hy
    · dsimp only at heq
      split at heq
      · cases heq
      split at heq
      · rename_i hless
        rcases hrest : Declaration.readWhile options body (size + 1) next with ⟨fault' | x, last⟩ <;>
          rw [hrest] at heq <;> cases heq
        exact ih _ (hn ▸ hless) _ next hrest rfl
      · cases heq

theorem FailsBy.readElements (hinput : ∀ cause, P (.input cause)) (h : FailsBy P body) (count : ElementCount) :
    FailsBy P (readElements options count body) := by
  cases count with
  | one => exact h.bind fun _ => .of_pure _
  | exactly n => exact (h.readTimes n).bind fun _ => .of_pure _
  | untilEnd => exact (h.readWhile hinput 0).bind fun _ => .of_pure _

end bodies

variable [BitSource σ] {s : Setting σ} {h : Head}

theorem FailsBy.amount {a : Amount}
    (hsources : ∀ source ∈ a.sources, ∀ cx fault, source.evaluate cx = .error fault → P fault) : FailsBy P (s.amount a) := by
  intro run fault run' heq
  cases a with
  | known n => cases heq
  | computed source => exact hsources source (List.mem_singleton_self _) _ fault (congrArg Prod.fst heq)

theorem FailsBy.request (hinput : ∀ cause, P (.input cause))
    (hsources : ∀ source ∈ h.sources, ∀ cx fault, source.evaluate cx = .error fault → P fault) :
    FailsBy P (h.request s) := by
  obtain ⟨hextra, hextent⟩ := List.forall_mem_append.mp hsources
  have hcount : FailsBy P (h.elementCount s) := by
    rw [Head.elementCount]
    cases he : h.extent with
    | one | known | untilEnd => exact .of_pure _
    | computed source =>
      rw [he] at hextent
      refine (FailsBy.amount (a := .computed source) hextent).bind fun n => ?_
      split
      · exact .of_throw (hinput _)
      · exact .of_pure _
  refine (FailsBy.amount hextra).bind fun _ => hcount.bind fun count => FailsBy.bind ?_ fun _ => .of_pure _
  cases count with
  | one | untilEnd => exact .of_pure _
  | exactly n =>
    rw [Setting.checkCount]
    split
    · exact .of_throw (hinput _)
    · exact .of_pure _

/-- Declarations whose sizes and values fail by nothing but faults that satisfy `P`. -/
structure Head.FailsOnlyBy (P : Fault → Prop) (s : Setting σ) (h : Head) : Prop where
  sources : ∀ source ∈ h.sources, ∀ cx fault, source.evaluate cx = .error fault → P fault
  value : ∀ q readings, FailsBy P (h.readValue s q readings)

theorem FailsBy.readSingle (hv : ∀ q readings, FailsBy P (h.readValue s q readings)) (q : Request) :
    FailsBy P (h.readSingle s q) := by
  intro run fault run' heq
  rw [Head.readSingle_eq] at heq
  rcases hx : h.readValue s q run.readings run.source with ⟨fault' | (_ | _ | _), source⟩ <;> rw [hx] at heq
  · dsimp only at heq
    split at heq <;> cases heq
    exact hv q run.readings run.source fault source hx
  all_goals cases heq

theorem FailsBy.enter (hinput : ∀ cause, P (.input cause))
    (hsources : ∀ source ∈ h.sources, ∀ cx fault, source.evaluate cx = .error fault → P fault) :
    FailsBy P (h.enter s) :=
  (FailsBy.request hinput hsources).bind fun _ => FailsBy.of_get.bind fun _ => .of_pure _

mutual

theorem fails_read (hinput : ∀ cause, P (.input cause)) : (d : Declaration) → d.Formed (Head.FailsOnlyBy P s) →
    ∀ depth : Nat, FailsBy P (d.read s depth)
  | .single h, hf, depth => by
    rw [Declaration.read]
    refine (FailsBy.enter hinput hf.1.sources).bind fun q? => ?_
    cases q? with
    | none => exact .of_pure _
    | some q => exact .readSingle hf.1.value q
  | .nested h members, hf, depth => by
    rw [Declaration.read]
    refine (FailsBy.enter hinput hf.1.sources).bind fun q? => ?_
    cases q? with
    | none => exact .of_pure _
    | some q =>
      dsimp only
      split
      · exact .of_throw (hinput _)
      · exact ((fails_readAll hinput members hf.2.2 (depth + 1)).readElements hinput q.count).bind fun _ => .of_pure _

/-- Reading fails by the faults of inputs, of sizes and of single values. -/
theorem fails_readAll (hinput : ∀ cause, P (.input cause)) : (ds : List Declaration) → FormedAll (Head.FailsOnlyBy P s) ds →
    ∀ depth : Nat, FailsBy P (readAll s depth ds)
  | [], _, _ => .of_pure _
  | d :: ds, hf, depth => by
    rw [readAll]
    refine (fails_read hinput d hf.1 depth).bind fun first => ?_
    split
    · exact .of_pure _
    · exact (fails_readAll hinput ds hf.2 depth).bind fun _ => .of_pure _

end

end faults

/-- The values of built-in types are read without external values. -/
theorem Head.Plain.readValue_provided {s : Setting Reader} {h : Head} (hp : h.Plain) (q : Request) (readings : Readings) :
    FailsBy Fault.Provided (h.readValue s q readings) := by
  refine readValue_failsBy hp (fun _ => .input _) (fun _ => .of_isEndOfInput) (fun _ => .input _) ?_ (fun _ _ => .input _)
    readings
  intro _
  rw [nonNegative]
  split
  · exact .of_throw (.input _)
  · exact .of_pure _

theorem Layout.IsOf.read_provided (s : Setting Reader) {ds : List Declaration} (h : s.layout.IsOf ds)
    (hplain : Declaration.FormedAll Head.Plain ds) (hexternal : s.layout.usesExternal = false) {source : Reader}
    {fault : Fault} {run : Run Reader} (hread : s.read source = (.error fault, run)) : fault.Provided := by
  have hasks := Declaration.FormedAll.heads ds (h.asksNobody hexternal)
  have hheads : Declaration.FormedAll (Head.FailsOnlyBy Fault.Provided s) ds := .of_heads ds h.formed fun head hm =>
    ⟨fun source hsource _ _ => SizeSource.evaluate_provided (hasks head hm source hsource),
      (Declaration.FormedAll.heads ds hplain head hm).readValue_provided⟩
  rw [h.read_eq] at hread
  exact ((fails_readAll .input ds hheads 0).bind fun _ => .of_pure _) _ _ _ hread

/-- A script that does not use external values, as its layout tells, is read in the same way whatever
the provider is, and external values are missed in no other scripts. -/
theorem Layout.usesExternal_sound {custom : Option CustomTypes} {script : String} {layout : Layout}
    (h : compileWith custom script = .ok layout) (hcustom : layout.customTypes = [])
    (hvar : ∀ lines, layout.lines = .ok lines → ∀ line ∈ lines, line.kind ≠ .var) :
    (layout.usesExternal = false → ∀ {σ : Type} [BitSource σ] (options : ReadOptions) (collaborators : Collaborators σ)
      (provider : Option Provider) (source : σ),
      Setting.read ⟨layout, options, { collaborators with provider }⟩ source =
        Setting.read ⟨layout, options, collaborators⟩ source) ∧
    ∀ (options : ReadOptions) (collaborators : Collaborators Reader) (source : Reader) (name : String) (run : Run Reader),
      Setting.read ⟨layout, options, collaborators⟩ source = (.error (.supply (.externalValue name)), run) →
        layout.usesExternal = true := by
  obtain ⟨ts, d, ds, -, -, htraced, hopened, rfl⟩ := compileWith_traced h
  have hof := htraced.isOf hopened (by rw [show d.customTypes = [] from hcustom]; exact Nat.zero_le _) script
  refine ⟨?_, ?_⟩
  · intro hexternal σ _ options collaborators provider source
    rw [IsOf.read_eq _ hof, IsOf.read_eq _ hof]
    exact Declaration.readScript_provider (hof.asksNobody hexternal) ⟨_, options, collaborators⟩ provider source
  · intro options collaborators source name run hread
    by_contra hexternal
    have hprovided := IsOf.read_provided ⟨_, options, collaborators⟩ hof (hof.plain hcustom hvar)
      (Bool.eq_false_iff.mpr hexternal) hread
    exact hprovided name rfl

/-- Sizes that are told by the input, whoever provides external values, and a length that nobody provides. -/
theorem Layout.usesExternal_counted_missing :
    let provider : Provider := fun _ readings _ => some (Int32.ofNat readings.size)
    let source := Reader.ofBytes [2, 1, 2, 3, 4, 5] .lsb0
    ∃ layout layout', compileWith none "ubyte n; r[n] \x7b ubyte k; <ushort[k] a; \x7d" = .ok layout ∧
      layout.usesExternal = false ∧
      Setting.read ⟨layout, {}, { provider := some provider }⟩ source = Setting.read ⟨layout, {}, {}⟩ source ∧
      compileWith none "ubyte n; r[n] \x7b byte[$k] a; \x7d" = .ok layout' ∧
      (Setting.read ⟨layout', {}, {}⟩ source).1 = .error (.supply (.externalValue "k")) ∧ layout'.usesExternal = true := by
  intro provider source
  have hcompiles : (compileWith none "ubyte n; r[n] \x7b ubyte k; <ushort[k] a; \x7d").toOption.any (fun layout =>
      layout.customTypes.isEmpty && layout.lines.toOption.any (·.all (·.kind ≠ .var)) &&
      layout.usesExternal = false) = true := by decide +kernel
  have hcompiles' : (compileWith none "ubyte n; r[n] \x7b byte[$k] a; \x7d").toOption.any (fun layout =>
      layout.customTypes.isEmpty && layout.lines.toOption.any (·.all (·.kind ≠ .var)) &&
      (Setting.read ⟨layout, {}, {}⟩ source).1.map (fun _ => ()) = .error (.supply (.externalValue "k"))) = true := by
    decide +kernel
  obtain ⟨layout, hlayout, hchecks⟩ := of_any_ok hcompiles
  obtain ⟨layout', hlayout', hchecks'⟩ := of_any_ok hcompiles'
  simp only [Bool.and_eq_true] at hchecks hchecks'
  obtain ⟨⟨hcustom, hvars⟩, hexternal⟩ := hchecks
  obtain ⟨⟨hcustom', hvars'⟩, hfails⟩ := hchecks'
  have hsame := (usesExternal_sound hlayout (List.isEmpty_iff.mp hcustom) fun lines hlines line hm =>
    of_decide_eq_true (forall_mem_of_any_all hvars lines hlines line hm)).1 (of_decide_eq_true hexternal) {} {} (some provider) source
  have hmissing := (usesExternal_sound hlayout' (List.isEmpty_iff.mp hcustom') fun lines hlines line hm =>
    of_decide_eq_true (forall_mem_of_any_all hvars' lines hlines line hm)).2 {} {} source "k"
  rcases hread : Setting.read ⟨layout', {}, {}⟩ source with ⟨fault | record, run⟩
  · rw [hread] at hfails
    cases of_decide_eq_true hfails
    exact ⟨layout, layout', hlayout, of_decide_eq_true hexternal, hsame, hlayout', congrArg Prod.fst hread, hmissing run hread⟩
  · rw [hread] at hfails
    cases of_decide_eq_true hfails

end LayoutScript
