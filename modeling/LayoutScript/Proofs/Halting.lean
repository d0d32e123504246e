import LayoutScript.Proofs.Chronicle
import LayoutScript.Proofs.DraftSteps
import LayoutScript.Proofs.ReadSteps
import LayoutScript.Proofs.SizeFaults
import LayoutScript.Proofs.SourceFaults

/-! # The end of a tolerant reading

A tolerant reading never fails at the end of the input, wherever the end is met: it halts. Nothing is
executed, kept or added after that, and the run stays as it is.
-/
namespace LayoutScript

/-! ## Faults that are not the end of the input -/

/-- A computation that does not fail at the end of the input, since it has nothing to do with it. -/
def EndFree {α : Type} (x : Except Fault α) : Prop := ∀ fault, x = .error fault → fault.isEndOfInput = false

namespace EndFree
variable {α β : Type} {x : Except Fault α}

theorem of_ok (a : α) : EndFree (.ok a) := fun _ h => by cases h

theorem of_error {fault : Fault} (h : fault.isEndOfInput = false) : EndFree (.error fault : Except Fault α) := by
  rintro _ ⟨⟩
  exact h

theorem bind {f : α → Except Fault β} (hx : EndFree x) (hf : ∀ a, EndFree (f a)) : EndFree (x >>= f) := by
  intro fault h
  cases x with
  | error fault' =>
    cases h
    exact hx fault rfl
  | ok a => exact hf a fault h

end EndFree

theorem Fault.OfSize.endFree {fault : Fault} (h : fault.OfSize) : fault.isEndOfInput = false := by
  cases h <;> rfl

section sizes
variable (cx : SizeContext)

theorem endFree_valueAt (index : Nat) : EndFree (cx.valueAt index) := by
  intro fault h
  rcases SizeContext.valueAt_fault h with rfl | ⟨path, rfl⟩ <;> rfl

theorem endFree_external (name : String) : EndFree (cx.external name) :=
  fun _ h => (SizeContext.external_fault h).endFree

theorem ExprProgram.endFree_operate (op : ExprOp) (stack : List Int32) : EndFree (operate cx op stack) := by
  cases op with
  | literal | position => exact .of_ok _
  | field index => exact (endFree_valueAt cx index).bind fun _ => .of_ok _
  | external name => exact (endFree_external cx name).bind fun _ => .of_ok _
  | unary =>
    cases stack with
    | nil => exact .of_error rfl
    | cons => exact .of_ok _
  | binary op =>
    rcases stack with _ | ⟨right, _ | ⟨left, stack⟩⟩
    · exact .of_error rfl
    · exact .of_error rfl
    · exact EndFree.bind (fun _ h => (BinaryOp.apply_fault h).endFree) fun _ => .of_ok _

theorem ExprProgram.endFree_run (ops : List ExprOp) (stack : List Int32) : EndFree (run cx ops stack) := by
  induction ops generalizing stack with
  | nil => exact .of_ok _
  | cons op ops ih =>
    refine (endFree_operate cx op stack).bind fun result => ?_
    dsimp only
    split
    · exact .of_error rfl
    · exact ih _

theorem SizeSource.endFree_evaluate (source : SizeSource) : EndFree (source.evaluate cx) := by
  cases source with
  | position => exact .of_ok _
  | field index => exact endFree_valueAt cx index
  | external name => exact endFree_external cx name
  | expression program =>
    refine (ExprProgram.endFree_run cx program.ops []).bind fun stack => ?_
    split
    · exact .of_ok _
    · exact .of_error rfl

end sizes

section code

theorem CodeLine.endFree_read (c : CodeCursor) : EndFree (CodeLine.read c) := by
  intro fault h
  obtain ⟨pos, -, rfl⟩ := read_fault h
  rfl

theorem CodeLine.endFree_linesFrom (c : CodeCursor) : ∀ fault, (linesFrom c).2 = some fault → fault.isEndOfInput = false := by
  induction hn : c.rest.length using Nat.strongRecOn generalizing c with
  | _ n ih =>
    intro fault h
    rw [linesFrom] at h
    split at h
    · cases h
    · split at h
      · rename_i fault' hread
        cases h
        exact endFree_read c fault hread
      · rename_i line c' hread
        exact ih _ (hn ▸ read_shorter hread) c' rfl fault h

theorem Layout.endFree_lines (layout : Layout) : EndFree layout.lines := by
  intro fault h
  unfold lines CodeLine.ofCode at h
  split at h
  · cases h
  · rename_i lines fault' heq
    cases h
    exact CodeLine.endFree_linesFrom _ fault (congrArg Prod.snd heq)

theorem endFree_takeName (line : CodeLine) (named : List NamedField) : EndFree (takeName line named) := by
  unfold takeName
  split
  · split
    · exact .of_error rfl
    · exact .of_ok _
  · exact .of_ok _

end code

section requests
variable {σ : Type} [BitSource σ] (s : Setting σ)

theorem Setting.request_endFree (line : CodeLine) (info : Option NamedField) (sizes : List SizeSource) :
    FailsBy (·.isEndOfInput = false) (s.request line info sizes) := by
  have hnext : ∀ sizes, FailsBy (·.isEndOfInput = false) (s.nextSize line sizes) := by
    intro sizes run fault run' heq
    cases sizes with
    | nil =>
      cases heq
      rfl
    | cons size rest =>
      cases hsize : size.evaluate (s.sizeContext run) with
      | error fault' =>
        simp only [nextSize, hsize, Except.map] at heq
        cases heq
        exact size.endFree_evaluate _ fault hsize
      | ok n =>
        simp only [nextSize, hsize, Except.map] at heq
        cases heq
  unfold request extraOf countOf checkCount
  refine FailsBy.bind ?_ fun extra => FailsBy.bind ?_ fun count => FailsBy.bind ?_ fun _ => .of_pure _
  · split
    · exact .of_pure _
    · exact hnext sizes
    · exact .of_pure _
  · split
    · exact .of_pure _
    · exact .of_pure _
    · exact .of_pure _
    · refine (hnext extra.2).bind fun length => ?_
      dsimp only
      split
      · exact .of_throw rfl
      · exact .of_pure _
  · split
    · split
      · exact .of_throw rfl
      · exact .of_pure _
    · exact .of_pure _

/-- Tolerance leaves no fault at the end of the input, whoever reports it. -/
theorem Setting.tryField_endFree (htolerant : s.options.tolerant = true) (line : CodeLine) (r : Request) :
    FailsBy (·.isEndOfInput = false) (s.tryField line r) := by
  intro run fault run' heq
  unfold tryField at heq
  split at heq
  · cases heq
  · split at heq
    · cases heq
    · rename_i hkept
      cases heq
      simpa only [htolerant, Bool.and_true, Bool.not_eq_true] using hkept

end requests

/-! ## Chronicles of readings that go on or have halted -/

namespace Chronicle
variable {σ : Type} {c : Chronicle σ}

/-- Reading has not halted so far. -/
def Going (c : Chronicle σ) : Prop := ∀ event ∈ c.events, event.isHalt = false

/-- Reading has halted once, and nothing has happened since. -/
def Halted (c : Chronicle σ) : Prop :=
  ∃ earlier, c.events = .halts c.run :: earlier ∧ ∀ event ∈ earlier, event.isHalt = false

theorem Going.record (h : c.Going) {events : List (Event σ)} (hevents : ∀ event ∈ events, event.isHalt = false) :
    Going (c.record events) :=
  List.forall_mem_append.mpr ⟨fun event hm => hevents event (List.mem_reverse.mp hm), h⟩

theorem Going.halted (h : c.Going) : Halted ⟨c.run, .halts c.run :: c.events⟩ := ⟨c.events, rfl, h⟩

theorem Going.not_halts (h : c.Going) (later earlier : List (Event σ)) (run : Run σ) :
    c.events ≠ later ++ .halts run :: earlier := by
  intro hevents
  have hhalt := h (.halts run) (hevents ▸ List.mem_append_right _ (List.mem_cons_self ..))
  cases hhalt

/-- After a halt there is no event, and the run is that of the halt. -/
theorem Halted.last (h : c.Halted) {later earlier : List (Event σ)} {run : Run σ}
    (hevents : c.events = later ++ .halts run :: earlier) : later = [] ∧ c.run = run := by
  obtain ⟨before, hbefore, hfirst⟩ := h
  rw [hbefore] at hevents
  cases later with
  | nil =>
    cases hevents
    exact ⟨rfl, rfl⟩
  | cons event later =>
    obtain ⟨rfl, rfl⟩ := List.cons.inj hevents
    exact absurd rfl (Going.not_halts (c := ⟨c.run, _⟩) hfirst later earlier run)

end Chronicle

/-- From a reading that goes on, an action fails at no end of the input. Where it succeeds, the reading goes on
with an outcome of which `going` is true, or it has halted with one of which `halted` is true. -/
def Halts {σ α : Type} (going halted : α → Prop) (action : Stateful (Chronicle σ) α) : Prop :=
  ∀ c : Chronicle σ, c.Going →
    match action c with
    | (.error fault, c') => fault.isEndOfInput = false ∧ c'.Going
    | (.ok a, c') => going a ∧ c'.Going ∨ halted a ∧ c'.Halted

namespace Halts
variable {σ α β : Type} {going halted : α → Prop} {action : Stateful (Chronicle σ) α}

theorem of_pure {a : α} (h : going a) : Halts going halted (pure a : Stateful (Chronicle σ) α) :=
  fun _ hc => .inl ⟨h, hc⟩

theorem of_throw {fault : Fault} (h : fault.isEndOfInput = false) :
    Halts going halted (throw fault : Stateful (Chronicle σ) α) := fun _ hc => ⟨h, hc⟩

theorem note (h : Halts going halted action) {events : Run σ → List (Chronicle.Event σ)}
    (hevents : ∀ run, ∀ event ∈ events run, event.isHalt = false) : Halts going halted (do Noted.note events; action) :=
  fun c hc => h (c.record (events c.run)) (hc.record (hevents c.run))

theorem visit (h : Halts going halted action) (place : Place) (depth : Nat) (skipping : Bool) :
    Halts going halted (do Chronicle.noteVisit place depth skipping; action) := h.note (by simp [Chronicle.Event.isHalt])

/-- The halt is the last that happens. -/
theorem halt {a : α} (h : halted a) : Halts going halted (do Chronicle.noteHalt (σ := σ); pure a) :=
  fun _ hc => .inr ⟨h, hc.halted⟩

/-- What is done on a run notes nothing. -/
theorem does {action : Stateful (Run σ) α} (h : FailsBy (·.isEndOfInput = false) action) :
    Halts (fun _ => True) (fun _ => False) (Noted.does action) := by
  intro c hc
  unfold Noted.does
  rcases ha : action c.run with ⟨fault | a, run⟩
  · exact ⟨h c.run fault run ha, hc⟩
  · exact .inl ⟨trivial, hc⟩

theorem lift {x : Except Fault α} (h : EndFree x) :
    Halts (σ := σ) (fun _ => True) (fun _ => False) (liftM x) := by
  cases x with
  | error fault => exact of_throw (h fault rfl)
  | ok a => exact of_pure trivial

/-- After a halt the rest of a sequence does nothing but hand it on. -/
theorem bind {f : α → Stateful (Chronicle σ) β} {going' halted' : β → Prop} (h : Halts going halted action)
    (hgoing : ∀ a, going a → Halts going' halted' (f a)) (hhalted : ∀ a, halted a → ∃ b, f a = pure b ∧ halted' b) :
    Halts going' halted' (action >>= f) := by
  intro c hc
  have haction := h c hc
  rw [Stateful.bind_apply]
  rcases ha : action c with ⟨fault | a, c'⟩
  · rw [ha] at haction
    exact haction
  · rw [ha] at haction
    rcases haction with ⟨ha, hc'⟩ | ⟨ha, hc'⟩
    · exact hgoing a ha c' hc'
    · obtain ⟨b, hb, hhalts⟩ := hhalted a ha
      simp only [hb]
      exact .inr ⟨hhalts, hc'⟩

/-- A sequence whose first part does not halt. -/
theorem after {f : α → Stateful (Chronicle σ) β} {going' halted' : β → Prop}
    (h : Halts going (fun _ => False) action) (hnext : ∀ a, Halts going' halted' (f a)) :
    Halts going' halted' (action >>= f) := h.bind (fun a _ => hnext a) fun _ ha => ha.elim

end Halts

theorem halts_keepReading {σ : Type} (info : Option NamedField) (v : Value) :
    Halts (σ := σ) (fun _ => True) (fun _ => False) (Chronicle.keepReading info v) := by
  unfold Chronicle.keepReading
  split
  · exact (Halts.does (.of_modify _)).after fun _ c hc => .inl ⟨trivial, hc.record (by simp [Chronicle.Event.isHalt])⟩
  · exact .of_pure trivial

/-! ## Walks -/

/-- The walk has come to the place behind its body. -/
def Walk.isDone : Walk → Prop
  | .done _ _ => True
  | .halted _ => False

theorem Walk.isDone_cons (f : Field) (w : Walk) : (w.cons f).isDone ↔ w.isDone := by
  cases w <;> exact Iff.rfl

/-- A body goes on with a walk that is done, and halts with one that is not. -/
abbrev HaltingBody {σ : Type} (body : Stateful (Chronicle σ) Walk) : Prop := Halts Walk.isDone (¬ ·.isDone) body

section bodies
variable {σ : Type} {body : Stateful (Chronicle σ) Walk}

theorem halts_skipBody (layout : Layout) (depth inner : Nat) (code : List CodeLine) (named : List NamedField)
    (sizes : List SizeSource) :
    Halts (σ := σ) (fun _ => True) (fun _ => False) (Chronicle.skipBody layout depth inner code named sizes) := by
  induction code generalizing inner named sizes with
  | nil => exact .of_throw rfl
  | cons line code ih =>
    refine Halts.visit ?_ _ _ _
    split
    · split
      · exact .of_pure trivial
      · exact ih _ _ _
    · exact (Halts.lift (endFree_takeName line named)).after fun _ => ih _ _ _

theorem halts_noteAdded (hbody : HaltingBody body) : HaltingBody (body >>= Chronicle.noteAdded) := by
  refine hbody.bind (fun walk hwalk => ?_) fun walk hwalk => ?_
  · cases walk with
    | done fields place => exact (Halts.of_pure trivial).note (by simp [Chronicle.Event.isHalt])
    | halted fields => exact hwalk.elim
  · cases walk with
    | done fields place => exact absurd trivial hwalk
    | halted fields => exact ⟨_, rfl, hwalk⟩

theorem halts_repeatBody (hbody : HaltingBody body) (n : Nat) (acc : List Record) (place : Place) :
    Halts (fun x => x.2.isSome) (fun x => x.2 = none) (repeatBody body n acc place) := by
  induction n generalizing acc place with
  | zero => exact .of_pure rfl
  | succ n ih =>
    refine hbody.bind (fun walk hwalk => ?_) fun walk hwalk => ?_
    · cases walk with
      | done fields place => exact ih _ _
      | halted fields => exact hwalk.elim
    · cases walk with
      | done fields place => exact absurd trivial hwalk
      | halted fields => exact ⟨_, rfl, rfl⟩

variable [BitSource σ]

theorem halts_repeatUntilEnd (hbody : HaltingBody body) (options : ReadOptions) (size : Nat) (acc : List Record)
    (place : Option Place) (hplace : acc ≠ [] → place.isSome) :
    Halts (fun x => x.2.2 = false ∧ (x.1 ≠ [] → x.2.1.isSome)) (fun x => x.2.2 = true ∧ x.2.1 = none)
      (Chronicle.repeatUntilEnd options body size acc place) := by
  intro c hc
  induction hn : BitSource.left c.run.source using Nat.strongRecOn generalizing size acc place c with
  | _ n ih =>
    rw [Chronicle.repeatUntilEnd]
    by_cases hend : BitSource.left c.run.source = 0
    · rw [if_pos hend]
      refine .inl ⟨⟨rfl, fun hne => hplace fun hnil => hne ?_⟩, hc⟩
      rw [hnil, List.reverse_nil]
    rw [if_neg hend]
    by_cases hmax : options.maxElements ≤ size
    · rw [if_pos hmax]
      exact ⟨rfl, hc⟩
    rw [if_neg hmax]
    have hwalk := hbody c hc
    rcases hb : body c with ⟨fault | fields | fields, c'⟩
    · rw [hb] at hwalk
      exact hwalk
    · rw [hb] at hwalk
      obtain ⟨-, hc'⟩ := hwalk.resolve_right fun h => h.1 trivial
      dsimp only
      by_cases hless : BitSource.left c'.run.source < BitSource.left c.run.source
      · rw [if_pos hless]
        exact ih _ (hn ▸ hless) _ _ _ (fun _ => rfl) (c'.record [.adds ⟨fields⟩]) (hc'.record (by simp [Chronicle.Event.isHalt])) rfl
      · rw [if_neg hless]
        exact .inl ⟨⟨rfl, fun _ => rfl⟩, hc'⟩
    · rw [hb] at hwalk
      obtain ⟨-, hc'⟩ := hwalk.resolve_left fun h => h.1
      exact .inr ⟨⟨rfl, rfl⟩, hc'⟩

theorem halts_structure (hbody : HaltingBody body) (s : Setting σ) (depth : Nat) (count : ElementCount) (place : Place) :
    Halts (fun x => x.2.isSome) (fun x => x.2 = none) (s.chronicleStructure depth count place body) := by
  have hskip := halts_skipBody (σ := σ) s.layout (depth + 1) 0 place.code place.named place.sizes
  cases count with
  | one =>
    refine hbody.bind (fun walk hwalk => ?_) fun walk hwalk => ?_
    · cases walk with
      | done fields next => exact .of_pure rfl
      | halted fields => exact hwalk.elim
    · cases walk with
      | done fields next => exact absurd trivial hwalk
      | halted fields => exact ⟨_, rfl, rfl⟩
  | exactly n =>
    cases n with
    | zero => exact hskip.after fun _ => .of_pure rfl
    | succ n => exact (halts_repeatBody (halts_noteAdded hbody) _ _ _).bind (fun x hx => .of_pure hx) fun x hx => ⟨_, rfl, hx⟩
  | untilEnd =>
    refine (halts_repeatUntilEnd hbody s.options 0 [] none fun h => absurd rfl h).bind (fun x hx => ?_) fun x hx => ?_
    · by_cases hempty : (x.1.isEmpty && !x.2.2) = true
      · simp only [if_pos hempty]
        exact hskip.after fun _ => .of_pure rfl
      · simp only [if_neg hempty]
        refine .of_pure (hx.2 ?_)
        simpa [hx.1] using hempty
    · refine ⟨(.records x.1, x.2.1), ?_, hx.2⟩
      simp only [hx.1, Bool.not_true, Bool.and_false, Bool.false_eq_true, if_false]

end bodies

section walks
variable {σ : Type} [BitSource σ] {s : Setting σ}

theorem Setting.halts_chronicleWalk (htolerant : s.options.tolerant = true) (depth : Nat) (place : Place) :
    HaltingBody (s.chronicleWalk depth place) := by
  induction hn : place.code.length using Nat.strongRecOn generalizing depth place with
  | _ n ih =>
    obtain ⟨_ | ⟨line, code⟩, named, sizes⟩ := place
    · rw [chronicleWalk]
      split
      · exact .of_pure trivial
      · exact .of_throw rfl
    have hbehind : ∀ (depth : Nat) (next : Place), next.code.length ≤ code.length →
        HaltingBody (s.chronicleWalk depth next) := by
      intro depth next hnext
      exact ih _ (hn ▸ Nat.lt_succ_of_le hnext) depth next rfl
    have hcons : ∀ (f : Field) (depth : Nat) (next : Place), next.code.length ≤ code.length →
        HaltingBody (do return (← s.chronicleWalk depth next).cons f) := by
      intro f depth next hnext
      refine (hbehind depth next hnext).bind (fun w hw => .of_pure ?_) fun w hw => ⟨_, rfl, ?_⟩
      · exact (Walk.isDone_cons f w).mpr hw
      · exact fun hdone => hw ((Walk.isDone_cons f w).mp hdone)
    rw [chronicleWalk]
    refine Halts.visit ?_ _ _ _
    split
    · split
      · exact .of_throw rfl
      · exact .of_pure trivial
    refine (Halts.lift (endFree_takeName line named)).after fun taken => ?_
    refine (Halts.does (s.request_endFree line _ _)).after fun asked => ?_
    refine (Halts.does .of_get).after fun run => ?_
    split
    · exact .halt fun h => h
    split
    · by_cases hdepth : s.options.maxDepth < depth + 1
      · simp only [if_pos hdepth]
        exact .of_throw rfl
      simp only [if_neg hdepth]
      refine (halts_structure (hbehind _ _ (Nat.le_refl _)) s _ _ _).bind
        (fun x hx => ?_) fun x hx => ?_
      · obtain ⟨value, _ | next⟩ := x
        · cases hx
        dsimp only
        split
        · rename_i hnext
          exact hcons _ _ _ hnext
        · exact .of_throw rfl
      · obtain ⟨value, _ | next⟩ := x
        · exact ⟨_, rfl, fun h => h⟩
        · cases hx
    · refine (Halts.does (s.tryField_endFree htolerant line _)).after fun reply? => ?_
      rcases reply? with _ | _ | value | value
      · exact .halt fun h => h
      · exact hbehind _ _ (Nat.le_refl _)
      · exact (halts_keepReading _ _).after fun _ => hcons _ _ _ (Nat.le_refl _)
      · exact .halt fun h => h

/-- A tolerant reading, of any layout with any collaborators, does not fail at the end of the input. Once it has
halted, it has come to its end: no instruction is executed or passed, no number is kept and no structure is
added to an array, the run stays as it is, and a record is given. -/
theorem Setting.chronicle_halts (s : Setting σ) (htolerant : s.options.tolerant = true) (source : σ) :
    ((s.chronicle source).1, (s.chronicle source).2.run) = s.read source ∧
    (∀ fault, (s.read source).1 = .error fault → fault.isEndOfInput = false) ∧
    ∀ later run earlier, (s.chronicle source).2.events = later ++ .halts run :: earlier →
      later = [] ∧ (s.read source).2 = run ∧ ∃ record, (s.read source).1 = .ok record := by
  have hread := s.chronicle_run source
  have hhalts : Halts (fun _ => True) (fun _ => True) s.chronicleRecord := by
    refine (Halts.lift s.layout.endFree_lines).after fun lines => ?_
    exact (halts_chronicleWalk htolerant 0 _).bind (fun _ _ => .of_pure trivial) fun _ _ => ⟨_, rfl, trivial⟩
  have houtcome := hhalts { run := { source } } (List.forall_mem_nil _)
  refine ⟨hread, ?_⟩
  rw [← hread]
  rcases hc : s.chronicle source with ⟨fault | record, c⟩
  · rw [show s.chronicleRecord { run := { source } } = _ from hc] at houtcome
    refine ⟨fun fault' heq => ?_, fun later run earlier hevents => ?_⟩
    · cases heq
      exact houtcome.1
    · exact absurd hevents (houtcome.2.not_halts later earlier run)
  · rw [show s.chronicleRecord { run := { source } } = _ from hc] at houtcome
    refine ⟨fun fault' heq => (by cases heq), fun later run earlier hevents => ?_⟩
    rcases houtcome with ⟨-, hgoing⟩ | ⟨-, hhalted⟩
    · exact absurd hevents (hgoing.not_halts later earlier run)
    · obtain ⟨hlater, hrun⟩ := hhalted.last hevents
      exact ⟨hlater, hrun, record, rfl⟩

/-- The array halts in its second structure, behind its name and before its member. -/
theorem Setting.chronicle_halts_inside :
    let script := "ubyte n; r[n] \x7b ubyte a; \x7d"
    let source := Reader.ofBytes [2, 7] .lsb0
    ∃ layout record run events, Layout.compile script = .ok layout ∧
      Setting.read ⟨layout, .lenient, {}⟩ source = (.ok record, run) ∧
      (Setting.chronicle ⟨layout, .lenient, {}⟩ source).2.events = .halts run :: events ∧
      events.countP (·.isAdded) = 1 := by
  intro script source
  have hcompiles : (Layout.compile script).toOption.any (fun layout =>
      let events := (Setting.chronicle ⟨layout, .lenient, {}⟩ source).2.events
      events.head?.any (·.isHalt) && events.tail.countP (·.isAdded) = 1) = true := by decide +kernel
  obtain ⟨layout, hlayout, hchecks⟩ := of_any_ok hcompiles
  obtain ⟨hhead, hadded⟩ := (Bool.and_eq_true _ _).mp hchecks
  obtain ⟨-, -, hlast⟩ := chronicle_halts ⟨layout, .lenient, {}⟩ rfl source
  rcases hevents : (Setting.chronicle ⟨layout, .lenient, {}⟩ source).2.events with _ | ⟨event, events⟩ <;>
    rw [hevents] at hhead hadded
  · cases hhead
  cases event with
  | halts run =>
    obtain ⟨-, rfl, record, hrecord⟩ := hlast [] run events hevents
    exact ⟨layout, record, _, events, hlayout, Prod.ext hrecord rfl, hevents, of_decide_eq_true hadded⟩
  | visits | keeps | adds => cases hhead

end walks
end LayoutScript
