import LayoutScript.Proofs.Limits
import LayoutScript.Proofs.Rationed
import LayoutScript.Proofs.Tolerance

/-! # Progress of arrays up to the end of the input

An array of structures up to the end of the input has no number of elements to count down. Each of its
elements takes input, so there are no more of them than the input has bits, and what ends the array is
that no input is left or that one more element takes none.
-/
namespace LayoutScript

/-- The reader of an input of `bits` bits. -/
structure Reader.Reads (bits : Nat) (r : Reader) : Prop where
  sound : r.Sound
  size : 8 * r.data.size = bits

namespace Reader
variable {r r' : Reader} {bits : Nat}

theorem Reads.consumed_add_left (h : r.Reads bits) : r.consumed + r.left = bits := by
  rw [Reader.consumed_add_left h.sound, h.size]

theorem Passes.reads (hpasses : r.Passes r') (h : r.Reads bits) : r'.Reads bits := by
  refine ⟨hpasses.sound h.sound, ?_⟩
  rw [hpasses.size, h.size]

theorem reads_ofBytes (bytes : List UInt8) (order : BitOrder) : (ofBytes bytes order).Reads (8 * bytes.length) :=
  ⟨sound_ofBytes bytes order, rfl⟩

end Reader

namespace Declaration

/-- Structures that `body` reads one after the other, each from at least `least` bits. -/
inductive Series (body : Stateful (Run Reader) Yield) (inside : Run Reader → List Field → Prop) (least : Nat) :
    Run Reader → List Record → Run Reader → Prop
  | nil (run : Run Reader) : Series body inside least run [] run
  | cons {run next last : Run Reader} {fields : List Field} {items : List Record}
    (hbody : body run = (.ok ⟨fields, false⟩, next)) (hinside : inside run fields)
    (htakes : run.source.consumed + least ≤ next.source.consumed) (hrest : Series body inside least next items last) :
    Series body inside least run (⟨fields⟩ :: items) last

/-- No input is left, or one more structure takes none. -/
def Ended (body : Stateful (Run Reader) Yield) (run : Run Reader) : Prop :=
  run.source.left = 0 ∨
    ∃ fields run', body run = (.ok ⟨fields, false⟩, run') ∧ run'.source.consumed = run.source.consumed

/-- The value is a structure or an array of structures that `body` reads from `run` on. Each element of an array
up to the end of the input of `bits` bits takes input, and reading without tolerance goes on with them to the end. -/
def Structures (bits : Nat) (tolerant toEnd : Bool) (body : Stateful (Run Reader) Yield)
    (inside : Run Reader → List Field → Prop) (run : Run Reader) : Value → Prop
  | .record item => toEnd = false ∧ inside run item.fields
  | .records items => ∃ last, Series body inside toEnd.toNat run items last ∧
      (toEnd = true → items.length ≤ bits ∧ (tolerant = false → Ended body last))
  | .scalar .. | .array .. | .text _ => False

mutual

/-- Whether the arrays up to the end of the input of `bits` bits in the value of a declaration, which is read from
`run` on, have progressed. -/
def Progresses (s : Setting Reader) (bits depth : Nat) : Declaration → Run Reader → Value → Prop
  | .single _, _, _ => True
  | .nested h members, run, v =>
    Structures bits s.options.tolerant (h.extent = .untilEnd) (readAll s (depth + 1) members)
      (fun run fields => ProgressesAll s bits (depth + 1) members run fields) run v

/-- The same for the fields of declarations, of which the last ones can be missing. -/
def ProgressesAll (s : Setting Reader) (bits depth : Nat) : List Declaration → Run Reader → List Field → Prop
  | [], _, fields => fields = []
  | d :: ds, run, fields =>
    let run' := (d.read s depth run).2
    if d.isModifier then ProgressesAll s bits depth ds run' fields
    else
      match fields with
      | [] => True
      | f :: fields => d.Progresses s bits depth run f.value ∧ ProgressesAll s bits depth ds run' fields

end

section series
variable {body : Stateful (Run Reader) Yield} {inside : Run Reader → List Field → Prop} {least : Nat}
  {run last : Run Reader} {items : List Record}

theorem Series.consumed_le (h : Series body inside least run items last) :
    run.source.consumed + items.length * least ≤ last.source.consumed := by
  induction h with
  | nil run => simp only [List.length_nil, Nat.zero_mul, Nat.add_zero, Nat.le_refl]
  | cons hbody hinside htakes hrest ih =>
    rw [List.length_cons, Nat.succ_mul]
    omega

/-- Reading with `body` goes forward and comes to fields that are as told. Without tolerance it does not halt. -/
structure Advances (bits : Nat) (tolerant : Bool) (body : Stateful (Run Reader) Yield)
    (inside : Run Reader → List Field → Prop) : Prop where
  forward : ∀ run : Run Reader, run.source.Passes (body run).2.source
  outcome : ∀ run y run', run.source.Reads bits → body run = (.ok y, run') →
    inside run y.fields ∧ (tolerant = false → y.halted = false)

namespace Advances
variable {bits : Nat} {tolerant : Bool} (hbody : Advances bits tolerant body inside) {options : ReadOptions}
  {run' : Run Reader} {halted : Bool}
include hbody

theorem passes {y : Yield} (hy : body run = (.ok y, run')) : run.source.Passes run'.source := by
  have hpasses := hbody.forward run
  rwa [hy] at hpasses

theorem readTimes {n : Nat} (hreads : run.source.Reads bits) (hok : readTimes body n run = (.ok (items, halted), run')) :
    (∃ last, Series body inside 0 run items last) ∧ (tolerant = false → halted = false) := by
  induction n generalizing run items with
  | zero =>
    cases hok
    exact ⟨⟨run', .nil run'⟩, fun _ => rfl⟩
  | succ n ih =>
    obtain ⟨⟨fields, halts⟩, run₁, hy, hcases⟩ := readTimes_succ_ok hok
    have hpasses := hbody.passes hy
    obtain ⟨hinside, hgoes⟩ := hbody.outcome run _ run₁ hreads hy
    rcases hcases with ⟨rfl, rfl, rfl, -⟩ | ⟨rfl, rest, hrest, rfl⟩
    · exact ⟨⟨run, .nil run⟩, hgoes⟩
    · obtain ⟨⟨last, hseries⟩, hhalted⟩ := ih (hpasses.reads hreads) hrest
      have hconsumed := hpasses.consumed hreads.sound
      have hle := hpasses.left_le
      exact ⟨⟨last, .cons hy hinside (by omega) hseries⟩, hhalted⟩

theorem readWhile {size : Nat} (hreads : run.source.Reads bits)
    (hok : readWhile options body size run = (.ok (items, halted), run')) :
    (∃ last, Series body inside 1 run items last ∧ run.source.Passes last.source ∧ (tolerant = false → Ended body last)) ∧
      (tolerant = false → halted = false) := by
  refine readWhile_induction (P := fun _ run items halted _ => run.source.Reads bits →
    (∃ last, Series body inside 1 run items last ∧ run.source.Passes last.source ∧ (tolerant = false → Ended body last)) ∧
      (tolerant = false → halted = false)) ?_ ?_ ?_ ?_ hok hreads
  · exact fun _ run hend _ => ⟨⟨run, .nil run, .refl _, fun _ => .inl hend⟩, fun _ => rfl⟩
  · intro _ run fields run' hy hreads
    obtain ⟨-, hgoes⟩ := hbody.outcome run _ run' hreads hy
    exact ⟨⟨run, .nil run, .refl _, fun hstrict => Bool.noConfusion (hgoes hstrict)⟩, hgoes⟩
  · intro _ run fields run' hy hidle hreads
    have hconsumed := (hbody.passes hy).consumed hreads.sound
    have hle := (hbody.passes hy).left_le
    simp only [BitSource.left] at hidle
    exact ⟨⟨run, .nil run, .refl _, fun _ => .inr ⟨fields, run', hy, by omega⟩⟩, fun _ => rfl⟩
  · intro _ run fields next items halted run' _ hy hless hrest hreads
    have hpasses := hbody.passes hy
    have hconsumed := hpasses.consumed hreads.sound
    obtain ⟨hinside, -⟩ := hbody.outcome run _ next hreads hy
    obtain ⟨⟨last, hseries, hlast, hended⟩, hhalted⟩ := hrest (hpasses.reads hreads)
    simp only [BitSource.left] at hless
    exact ⟨⟨last, .cons hy hinside (by omega) hseries, hpasses.trans hlast, hended⟩, hhalted⟩

theorem readElements {toEnd : Bool} {count : ElementCount} (hcount : count = .untilEnd ↔ toEnd = true) {v : Value}
    (hreads : run.source.Reads bits) (hok : readElements options count body run = (.ok (v, halted), run')) :
    Structures bits tolerant toEnd body inside run v ∧ (tolerant = false → halted = false) := by
  cases count with
  | one =>
    obtain ⟨y, run₁, hy, hpure⟩ := Stateful.of_bind_ok hok
    cases hpure
    obtain rfl : toEnd = false := Bool.eq_false_iff.mpr fun htrue => nomatch hcount.mpr htrue
    obtain ⟨hinside, hgoes⟩ := hbody.outcome run y run' hreads hy
    exact ⟨⟨rfl, hinside⟩, hgoes⟩
  | exactly n =>
    obtain ⟨⟨items, halts⟩, run₁, hitems, hpure⟩ := Stateful.of_bind_ok hok
    cases hpure
    obtain rfl : toEnd = false := Bool.eq_false_iff.mpr fun htrue => nomatch hcount.mpr htrue
    obtain ⟨⟨last, hseries⟩, hhalted⟩ := hbody.readTimes hreads hitems
    exact ⟨⟨last, hseries, fun hend => nomatch hend⟩, hhalted⟩
  | untilEnd =>
    obtain ⟨⟨items, halts⟩, run₁, hitems, hpure⟩ := Stateful.of_bind_ok hok
    cases hpure
    obtain rfl : toEnd = true := hcount.mp rfl
    obtain ⟨⟨last, hseries, hpasses, hended⟩, hhalted⟩ := hbody.readWhile hreads hitems
    refine ⟨⟨last, hseries, fun _ => ⟨?_, hended⟩⟩, hhalted⟩
    have htaken := hseries.consumed_le
    have hall := (hpasses.reads hreads).consumed_add_left
    omega

end Advances
end series

/-! ## Declarations -/

theorem progressesAll_nil (s : Setting Reader) (bits depth : Nat) (ds : List Declaration) (run : Run Reader) :
    ProgressesAll s bits depth ds run [] := by
  induction ds generalizing run with
  | nil => rfl
  | cons d ds ih =>
    unfold ProgressesAll
    dsimp only
    split
    · exact ih _
    · trivial

/-- Fields of declarations behind those of the first one, where it has not halted. -/
theorem progressesAll_cons {s : Setting Reader} {bits depth : Nat} {d : Declaration} {ds : List Declaration}
    {run run₁ : Run Reader} {first : Yield} {fields : List Field} (hd : d.read s depth run = (.ok first, run₁))
    (hfirst : ∀ f ∈ first.fields, d.Progresses s bits depth run f.value) (hhalted : first.halted = true → fields = [])
    (hfields : ProgressesAll s bits depth ds run₁ fields) :
    ProgressesAll s bits depth (d :: ds) run (first.fields ++ fields) := by
  have hshows := returns_read_shows depth d run first run₁ hd
  unfold Shows at hshows
  unfold ProgressesAll
  rw [hd]
  dsimp only
  by_cases hmodifier : d.isModifier
  · rw [if_pos hmodifier] at hshows ⊢
    rwa [hshows]
  rw [if_neg hmodifier] at hshows ⊢
  rcases hshows with ⟨hhalts, hempty⟩ | ⟨f, hone, -⟩
  · rw [hempty, hhalted hhalts]
    trivial
  · rw [hone] at hfirst ⊢
    exact ⟨hfirst f (List.mem_singleton_self f), hfields⟩

/-- Every line of code but the ends of structures is that of a head. -/
theorem exists_head {ds : List Declaration} {line : CodeLine} (hmem : line ∈ linesAll ds) (hkind : line.kind ≠ .closing) :
    ∃ h ∈ headsAll ds, line = h.line := by
  let heads : CodeLine → List CodeLine := fun line => if line.kind = .closing then [] else [line]
  have hflat := flatMap_linesAll (f := heads) (fun h members => if_pos (h.closing_kind members)) ds
  have hline : line ∈ (linesAll ds).flatMap heads := List.mem_flatMap.mpr ⟨line, hmem, by simp [heads, hkind]⟩
  rw [hflat] at hline
  obtain ⟨h, hhead, hline⟩ := List.mem_flatMap.mp hline
  refine ⟨h, hhead, ?_⟩
  simp only [heads] at hline
  split at hline
  · cases hline
  · exact List.mem_singleton.mp hline

end Declaration

/-- What the head declares is read forward. -/
structure Head.GoesForward (s : Setting Reader) (h : Head) : Prop where
  fits : h.Fits s.layout.customTypes
  forward : s.collaborators.ForwardOn h.kind

section reading
variable {s : Setting Reader} {bits : Nat}

theorem Head.returns_readSingle_goesOn (hstrict : s.options.tolerant = false) {h : Head} (hh : h.Fits s.layout.customTypes)
    (q : Request) : Returns (·.halted = false) (h.readSingle s q) := by
  intro run y run' hok
  rw [readSingle_eq] at hok
  rcases hv : h.readValue s q run.readings run.source with ⟨fault | reply, source⟩ <;> rw [hv] at hok
  · simp only [hstrict, Bool.and_false, Bool.false_eq_true, if_false] at hok
    cases hok
  · rw [← s.readField_line hh] at hv
    have huncut := Setting.readField_complete hstrict h.line q _ _ reply _ hv
    cases reply with
    | cut v => exact absurd rfl (huncut v)
    | nothing | value =>
      cases hok
      rfl

/-- What is read goes forward if a walk that reads it first does. -/
theorem Setting.passes_of_walk {x : Stateful (Run Reader) Yield} {depth : Nat} {place : Place}
    (hwalk : s.walk depth place = do let y ← x; y.thenWalk (s.walk depth ⟨[], [], []⟩))
    (hforward : ∀ line ∈ place.code, s.collaborators.ForwardOn line.kind) (run : Run Reader) :
    run.source.Passes (x run).2.source := by
  have hpasses := (s.attains_walk depth place hforward).forward run
  rw [hwalk, Stateful.bind_apply] at hpasses
  rcases hx : x run with ⟨fault | y, run'⟩ <;> rw [hx] at hpasses
  · exact hpasses
  · have hend : (y.thenWalk (s.walk depth ⟨[], [], []⟩) run').2 = run' := by
      unfold Yield.thenWalk
      split
      · rfl
      · refine Stateful.bind_state ?_ fun _ => rfl
        rw [walk]
        split <;> rfl
    dsimp only at hpasses
    rwa [hend] at hpasses

namespace Declaration

theorem forwardOn_line {ds : List Declaration} (hf : FormedAll (Head.GoesForward s) ds) {line : CodeLine}
    (hmem : line ∈ linesAll ds) : s.collaborators.ForwardOn line.kind := by
  by_cases hkind : line.kind = .closing
  · rw [hkind]
    trivial
  · obtain ⟨h, hhead, rfl⟩ := exists_head hmem hkind
    rw [Head.line_kind]
    exact (FormedAll.heads ds hf h hhead).forward

theorem forward_readAll {ds : List Declaration} (hf : FormedAll (Head.GoesForward s) ds) (depth : Nat) (run : Run Reader) :
    run.source.Passes (readAll s depth ds run).2.source := by
  have hfits : FormedAll (Head.Fits s.layout.customTypes) ds :=
    .of_heads ds hf fun h hm => (FormedAll.heads ds hf h hm).fits
  refine Setting.passes_of_walk (s.walk_beforeAll ds hfits depth ⟨[], [], []⟩) (fun line hmem => ?_) run
  rw [before, List.append_nil] at hmem
  exact forwardOn_line hf hmem

theorem forward_read {d : Declaration} (hf : d.Formed (Head.GoesForward s)) (depth : Nat) (run : Run Reader) :
    run.source.Passes (d.read s depth run).2.source := by
  have hone : FormedAll (Head.GoesForward s) [d] := ⟨hf, trivial⟩
  have hall := forward_readAll hone depth run
  rw [readAll_cons] at hall
  rcases hd : d.read s depth run with ⟨fault | first, run₁⟩ <;> rw [hd] at hall
  · exact hall
  · dsimp only at hall
    split at hall <;> exact hall

mutual

theorem progresses_read : (d : Declaration) → d.Formed (Head.GoesForward s) → ∀ (depth : Nat) (run : Run Reader) (y : Yield)
    (run' : Run Reader), run.source.Reads bits → d.read s depth run = (.ok y, run') →
      (∀ f ∈ y.fields, d.Progresses s bits depth run f.value) ∧ (s.options.tolerant = false → y.halted = false)
  | .single h, hf, depth, run, y, run', hreads, hok => by
    refine ⟨fun f _ => trivial, fun hstrict => ?_⟩
    obtain ⟨q, -, hok⟩ := read_single_ok hstrict hok
    exact Head.returns_readSingle_goesOn hstrict hf.1.fits q run y run' hok
  | .nested h members, hf, depth, run, y, run', hreads, hok => by
    rw [read_nested] at hok
    cases hq : (h.request s run).1 with
    | error fault =>
      rw [hq] at hok
      cases hok
    | ok q =>
      simp only [hq] at hok
      by_cases hstops : s.stopsBefore h.kind q.count run = true
      · rw [if_pos hstops] at hok
        cases hok
        refine ⟨List.forall_mem_nil _, fun hstrict => ?_⟩
        simp only [Setting.stopsBefore, hstrict, Bool.false_and, Bool.false_eq_true] at hstops
      rw [if_neg hstops] at hok
      split at hok
      · cases hok
      rcases hx : readElements s.options q.count (readAll s (depth + 1) members) run with ⟨fault | ⟨v, halted⟩, run₁⟩ <;>
        rw [hx] at hok <;> cases hok
      have hcount : q.count = .untilEnd ↔ decide (h.extent = .untilEnd) = true := by
        rw [decide_eq_true_iff]
        exact (Head.request_ok hq).untilEnd
      obtain ⟨hstructures, hhalted⟩ := (advances_readAll members hf.2.2 (depth + 1)).readElements hcount hreads hx
      exact ⟨List.forall_mem_singleton.mpr hstructures, hhalted⟩

/-- Fields are read forward, and the arrays up to the end of the input in them progress. -/
theorem advances_readAll : (ds : List Declaration) → FormedAll (Head.GoesForward s) ds → ∀ depth : Nat,
    Advances bits s.options.tolerant (readAll s depth ds) (fun run fields => ProgressesAll s bits depth ds run fields)
  | [], hf, depth => by
    refine ⟨forward_readAll hf depth, fun run y run' _ hok => ?_⟩
    cases hok
    exact ⟨rfl, fun _ => rfl⟩
  | d :: ds, hf, depth => by
    refine ⟨forward_readAll hf depth, fun run y run' hreads hok => ?_⟩
    obtain ⟨first, run₁, hd, hcases⟩ := readAll_cons_ok hok
    have hpasses := forward_read hf.1 depth run
    rw [hd] at hpasses
    obtain ⟨hfirst, hgoesOn⟩ := progresses_read d hf.1 depth run first run₁ hreads hd
    rcases hcases with ⟨hhalts, rfl, rfl⟩ | ⟨hgoes, rest, hds, rfl⟩
    · refine ⟨?_, hgoesOn⟩
      rw [← List.append_nil y.fields]
      exact progressesAll_cons hd hfirst (fun _ => rfl) (progressesAll_nil s bits depth ds run')
    · obtain ⟨hrest, hhalted⟩ := (advances_readAll ds hf.2 depth).outcome run₁ rest run' (hpasses.reads hreads) hds
      exact ⟨progressesAll_cons hd hfirst (fun hhalts => nomatch hgoes.symm.trans hhalts) hrest, hhalted⟩

end

end Declaration
end reading

/-- The code of declarations with built-in types is read forward where the reader of `var` values goes forward. -/
theorem Layout.IsOf.goesForward {layout : Layout} {ds : List Declaration} (h : layout.IsOf ds)
    (hcustom : layout.customTypes = []) {options : ReadOptions} {collaborators : Collaborators Reader}
    (hvar : ∀ lines, layout.lines = .ok lines → ∀ line ∈ lines, line.kind = .var → collaborators.ForwardOn .var) :
    Declaration.FormedAll (Head.GoesForward ⟨layout, options, collaborators⟩) ds := by
  refine .of_heads ds h.formed fun head hm => ⟨Declaration.FormedAll.heads ds h.formed head hm, ?_⟩
  cases hk : head.kind with
  | var =>
    refine hvar _ h.lines _ (Declaration.line_memAll ds hm) ?_
    rwa [Head.line_kind]
  | custom =>
    obtain ⟨index, type, -, htype⟩ := (Declaration.FormedAll.heads ds h.formed head hm).custom hk
    rw [hcustom] at htype
    cases htype
  | _ => trivial

/-- Whatever bytes code with built-in types is applied to, reading ends: it needs no more than some number of
rounds. Each element of an array of structures up to the end of the input that comes out of it has taken input,
so there are at most as many of them as the input has bits, and without tolerance the array ends where no input
is left or where one more element takes none. A reader of `var` values takes its input from the front. -/
theorem Layout.read_ends {custom : Option CustomTypes} {script : String} {layout : Layout}
    (h : compileWith custom script = .ok layout) (hcustom : layout.customTypes = []) :
    ∃ ds, Declaration.ofScript custom script = some ds ∧
      ∀ (options : ReadOptions) (collaborators : Collaborators Reader) (bytes : List UInt8),
        (∀ lines, layout.lines = .ok lines → ∀ line ∈ lines, line.kind = .var → collaborators.ForwardOn .var) →
          let s : Setting Reader := ⟨layout, options, collaborators⟩
          let source := Reader.ofBytes bytes options.bitOrder
          (∃ n, ∀ rounds, n ≤ rounds → Rationed.read s rounds source = some (s.read source)) ∧
            ∀ record run, s.read source = (.ok record, run) →
              Declaration.ProgressesAll s (8 * bytes.length) 0 ds { source } record.fields := by
  obtain ⟨ts, d, ds, -, hds, htraced, hopened, rfl⟩ := compileWith_traced h
  have hof := htraced.isOf hopened (by rw [show d.customTypes = [] from hcustom]; exact Nat.zero_le _) script
  refine ⟨ds, hds, ?_⟩
  intro options collaborators bytes hvar s source
  have hforward : Declaration.FormedAll (Head.GoesForward s) ds := hof.goesForward hcustom hvar
  constructor
  · refine s.read_inRounds bytes fun lines hlines line hmem => ?_
    rw [hof.lines] at hlines
    cases hlines
    exact Declaration.forwardOn_line hforward hmem
  · intro record run hok
    rw [IsOf.read_eq s hof] at hok
    obtain ⟨y, run₁, hy, hpure⟩ := Stateful.of_bind_ok hok
    cases hpure
    exact ((Declaration.advances_readAll ds hforward 0).outcome _ y run (Reader.reads_ofBytes bytes _) hy).1

/-- Two elements take two bytes each, behind a value that others read. -/
theorem Layout.read_ends_two :
    let script := "var v; r[_] \x7b ubyte a; bit:4[2] b; \x7d"
    let collaborators : Collaborators Reader :=
      { readVar := some fun _ _ => do return .scalar (.whole .ubyte) (← BitSource.readByte) }
    let bytes : List UInt8 := [9, 1, 2, 3, 4]
    ∃ layout ds record run, compileWith none script = .ok layout ∧ layout.customTypes = [] ∧
      Declaration.ofScript none script = some ds ∧ collaborators.ForwardOn .var ∧
      (∃ n, ∀ rounds, n ≤ rounds → Rationed.read ⟨layout, {}, collaborators⟩ rounds (.ofBytes bytes .lsb0) =
        some (.ok record, run)) ∧
      Declaration.ProgressesAll ⟨layout, {}, collaborators⟩ 40 0 ds { source := .ofBytes bytes .lsb0 } record.fields := by
  intro script collaborators bytes
  have hcompiles : (compileWith none script).toOption.any (fun layout => layout.customTypes.isEmpty &&
      (Setting.read ⟨layout, {}, collaborators⟩ (.ofBytes bytes .lsb0)).1.toOption.isSome) = true := by decide +kernel
  obtain ⟨layout, hlayout, hchecks⟩ := of_any_ok hcompiles
  obtain ⟨hcustom, hread⟩ := Bool.and_eq_true_iff.mp hchecks
  have hnone : layout.customTypes = [] := List.isEmpty_iff.mp hcustom
  have hforward : collaborators.ForwardOn .var := by
    intro read hread q readings
    cases hread
    exact Forward.readByte.bind fun _ => .of_pure _
  obtain ⟨ds, hds, hends⟩ := read_ends hlayout hnone
  obtain ⟨hrounds, hprogresses⟩ := hends {} collaborators bytes fun _ _ _ _ _ => hforward
  rcases hrun : Setting.read ⟨layout, {}, collaborators⟩ (.ofBytes bytes .lsb0) with ⟨fault | record, run⟩ <;>
    rw [hrun] at hread
  · cases hread
  · refine ⟨layout, ds, record, run, hlayout, hnone, hds, hforward, ?_, hprogresses record run hrun⟩
    rwa [hrun] at hrounds

end LayoutScript
