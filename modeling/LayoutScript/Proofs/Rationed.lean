import LayoutScript.Proofs.Exhaustion
import LayoutScript.Proofs.Forward
import LayoutScript.Proofs.InStep

/-! # Reading in rounds

The loops of a reading can be written without anything in them that makes them end: an array of scalars
up to the end of the input goes on while there is input, such an array of structures until an element
leaves the number of consumed bits as it is, and a walk goes on from wherever the body of a structure has
led it. Such loops are given a number of rounds, and have no outcome where these do not suffice. Some
number of rounds suffices on every input, and gives what the reading gives, as no input comes back.
-/
namespace LayoutScript

/-- A computation on a state that may fail. It has no outcome if its rounds do not suffice. -/
abbrev Rationed (σ α : Type) := ExceptT Fault (StateT σ Option) α

namespace Rationed

def lift {σ α : Type} (x : Stateful σ α) : Rationed σ α := fun t => some (x t)

def giveUp {σ α : Type} : Rationed σ α := fun _ => none

/-- Reads elements as long as there is input. -/
def readUntilEnd {α : Type} (options : ReadOptions) (read : Stateful Reader α) :
    (rounds : Nat) → (size : Nat) → (acc : List α) → Rationed Reader (List α × Bool)
  | 0, _, _ => giveUp
  | rounds + 1, size, acc => fun r =>
    if r.left = 0 then some (.ok (acc.reverse, false), r)
    else if options.maxElements ≤ size then
      some (.error (.input (.arrayTooLarge (size + 1) options.maxElements)), r)
    else
      match read r with
      | (.ok v, r') => readUntilEnd options read rounds (size + 1) (v :: acc) r'
      | (.error fault, r') =>
        if fault.isEndOfInput && options.tolerant then some (.ok (acc.reverse, true), r')
        else some (.error fault, r')

def readScalars (options : ReadOptions) (rounds : Nat) (type : ScalarType) (count : ElementCount)
    (read : Stateful Reader type.Carrier) : Rationed Reader Reply :=
  match count with
  | .untilEnd => do
    let (values, cut) ← readUntilEnd options read rounds 0 []
    return if cut then .cut (.array type values) else .value (.array type values)
  | count => lift (LayoutScript.readScalars options type count read)

def readField (s : Setting Reader) (rounds : Nat) (line : CodeLine) (r : Request) (readings : Readings) :
    Rationed Reader Reply :=
  match line.instruction.action with
  | .whole type => readScalars s.options rounds (.whole type) r.count (readWhole r.order type)
  | .bit _ =>
    let width := r.extra.toInt.toNat
    if 1 ≤ r.extra ∧ r.extra ≤ 8 then
      readScalars s.options rounds (.bit width) r.count
        (match r.count with
          | .untilEnd => do return (← BitSource.readBitsUpTo width).1
          | _ => BitSource.readBits width)
    else throw (.input (.bitWidth line.offset r.extra.toInt))
  | _ => lift (s.readField line r readings)

/-- Reads a field; under tolerant options a fault about the end of the input gives none. -/
def tryField (s : Setting Reader) (rounds : Nat) (line : CodeLine) (r : Request) :
    Rationed (Run Reader) (Option Reply) := fun run =>
  match readField s rounds line r run.readings run.source with
  | none => none
  | some (.ok reply, source) => some (.ok (some reply), { run with source })
  | some (.error fault, source) =>
    if fault.isEndOfInput && s.options.tolerant then some (.ok none, { run with source })
    else some (.error fault, { run with source })

/-- Walks `body` for elements as long as there is input and each of them consumes some. -/
def repeatUntilEnd (options : ReadOptions) (body : Rationed (Run Reader) Walk) :
    (rounds : Nat) → (size : Nat) → (acc : List Record) → (place : Option Place) →
      Rationed (Run Reader) (List Record × Option Place × Bool)
  | 0, _, _, _ => giveUp
  | rounds + 1, size, acc, place => fun run =>
    if run.source.left = 0 then some (.ok (acc.reverse, place, false), run)
    else if options.maxElements ≤ size then
      some (.error (.input (.arrayTooLarge (size + 1) options.maxElements)), run)
    else
      match body run with
      | none => none
      | some (.ok (.halted _), run') => some (.ok (acc.reverse, none, true), run')
      | some (.ok (.done fields place), run') =>
        if run'.source.consumed = run.source.consumed then some (.ok (acc.reverse, some place, false), run')
        else repeatUntilEnd options body rounds (size + 1) (⟨fields⟩ :: acc) (some place) run'
      | some (.error fault, run') => some (.error fault, run')

/-- Reads a structure or an array of structures whose body starts at `place`. -/
def readStructure (s : Setting Reader) (rounds : Nat) (count : ElementCount) (place : Place)
    (body : Rationed (Run Reader) Walk) : Rationed (Run Reader) (Value × Option Place) :=
  elementsOf count body (repeatBody body · [] place) (repeatUntilEnd s.options body rounds 0 [] none)
    (lift (liftM (s.layout.skipBody 0 place.code place.named place.sizes)))

/-- Walks a body from `place` on, inside `depth` structures. -/
def walk (s : Setting Reader) : (rounds : Nat) → (depth : Nat) → (place : Place) → Rationed (Run Reader) Walk
  | 0, _, _ => giveUp
  | _ + 1, depth, ⟨[], named, sizes⟩ =>
    if depth = 0 then pure (.done [] ⟨[], named, sizes⟩)
    else throw (.corrupt s.layout.code.length)
  | rounds + 1, depth, ⟨line :: code, named, sizes⟩ =>
    if line.kind = .closing then
      if depth = 0 then throw (.corrupt line.offset) else pure (.done [] ⟨code, named, sizes⟩)
    else do
      let (info, named) ← lift (liftM (takeName line named))
      let (r, sizes) ← lift (s.request line info sizes)
      if s.stopsBefore line.kind r.count (← get) then
        return .halted []
      else if line.kind = .opening then
        if s.options.maxDepth < depth + 1 then throw (.input (.tooDeep s.options.maxDepth))
        let (value, next?) ← readStructure s rounds r.count ⟨code, named, sizes⟩
          (walk s rounds (depth + 1) ⟨code, named, sizes⟩)
        match next? with
        | none => return .halted [⟨info, value⟩]
        | some next => return (← walk s rounds depth next).cons ⟨info, value⟩
      else
        match ← tryField s rounds line r with
        | none => return .halted []
        | some (.cut value) => return .halted [⟨info, value⟩]
        | some .nothing => walk s rounds depth ⟨code, named, sizes⟩
        | some (.value value) =>
          lift (modify (Setting.keepReading info value))
          return (← walk s rounds depth ⟨code, named, sizes⟩).cons ⟨info, value⟩

/-- Reads the fields of a layout from a source. -/
def read (s : Setting Reader) (rounds : Nat) (source : Reader) : Option (Except Fault Record × Run Reader) :=
  let action : Rationed (Run Reader) Record := do
    let lines ← lift (liftM s.layout.lines)
    return ⟨(← walk s rounds 0 (s.layout.start lines)).fields⟩
  action { source }

theorem bind_apply {σ α β : Type} (x : Rationed σ α) (f : α → Rationed σ β) (t : σ) :
    (x >>= f) t =
      match x t with
      | none => none
      | some (.ok a, t') => f a t'
      | some (.error fault, t') => some (.error fault, t') := by
  change (x t).bind (fun p => ExceptT.bindCont f p.1 p.2) = _
  rcases x t with _ | ⟨_ | _, _⟩ <;> rfl

end Rationed

/-- What holds with one round more than sufficiently many holds with sufficiently many rounds. -/
theorem exists_rounds {P : Nat → Nat → Prop} (n : Nat)
    (h : ∀ rounds inner, n ≤ rounds → n ≤ inner → P (rounds + 1) inner) :
    ∃ n, ∀ rounds inner, n ≤ rounds → n ≤ inner → P rounds inner := by
  refine ⟨n + 1, fun rounds inner hrounds hinner => ?_⟩
  obtain ⟨rounds, rfl⟩ := Nat.exists_eq_add_of_le' (Nat.le_of_add_left_le hrounds)
  exact h rounds inner (by omega) (by omega)

/-- From every sound reader on, `x` comes to the outcome of `y` in sufficiently many rounds, and no input is
given back. -/
structure Attains {α : Type} (x : Nat → Rationed (Run Reader) α) (y : Stateful (Run Reader) α) : Prop where
  outcome : ∀ run : Run Reader, run.source.Sound → ∃ n, ∀ rounds, n ≤ rounds → x rounds run = some (y run)
  forward : ∀ run : Run Reader, run.source.Passes (y run).2.source

namespace Attains
variable {α β : Type} {x : Nat → Rationed (Run Reader) α} {y : Stateful (Run Reader) α}

theorem of_lift (h : ∀ run : Run Reader, run.source.Passes (y run).2.source) : Attains (fun _ => Rationed.lift y) y :=
  ⟨fun _ _ => ⟨0, fun _ _ => rfl⟩, h⟩

theorem of_pure (a : α) : Attains (fun _ => pure a) (pure a) := of_lift fun run => .refl run.source

theorem of_throw (fault : Fault) : Attains (α := α) (fun _ => throw fault) (throw fault) :=
  of_lift fun run => .refl run.source

theorem of_except (x : Except Fault α) : Attains (fun _ => Rationed.lift (liftM x)) (liftM x) := by
  cases x with
  | error fault => exact of_throw fault
  | ok a => exact of_pure a

theorem of_get : Attains (fun _ => get) get := of_lift fun run => .refl run.source

/-- Only what is done after an outcome of the first part counts. -/
theorem bind {f : Nat → α → Rationed (Run Reader) β} {g : α → Stateful (Run Reader) β} (h : Attains x y)
    (hf : ∀ a run run', y run = (.ok a, run') → Attains (f · a) (g a)) :
    Attains (fun rounds => x rounds >>= f rounds) (y >>= g) := by
  refine ⟨fun run hsound => ?_, fun run => ?_⟩
  · obtain ⟨n, hx⟩ := h.outcome run hsound
    have hpasses := h.forward run
    rcases hy : y run with ⟨fault | a, run'⟩ <;> rw [hy] at hx hpasses
    · refine ⟨n, fun rounds hn => ?_⟩
      rw [Rationed.bind_apply, Stateful.bind_apply, hx rounds hn, hy]
    · obtain ⟨m, hfa⟩ := (hf a run run' hy).outcome run' (hpasses.sound hsound)
      refine ⟨max n m, fun rounds hmax => ?_⟩
      rw [Rationed.bind_apply, Stateful.bind_apply, hx rounds (by omega), hy]
      exact hfa rounds (by omega)
  · have hpasses := h.forward run
    rw [Stateful.bind_apply]
    rcases hy : y run with ⟨fault | a, run'⟩ <;> rw [hy] at hpasses
    · exact hpasses
    · exact hpasses.trans ((hf a run run' hy).forward run')

theorem of_succ {x' : Nat → Rationed (Run Reader) α} (h : Attains x' y) (hx : ∀ rounds, x (rounds + 1) = x' rounds) :
    Attains x y := by
  refine ⟨fun run hsound => ?_, h.forward⟩
  obtain ⟨n, hn⟩ := h.outcome run hsound
  obtain ⟨m, hm⟩ := exists_rounds (P := fun rounds _ => x rounds run = some (y run)) n fun rounds _ hrounds _ => by
    rw [hx, hn rounds hrounds]
  exact ⟨m, fun rounds hrounds => hm rounds rounds hrounds hrounds⟩

end Attains

/-! ## Fields -/

namespace Rationed
variable {options : ReadOptions}

/-- One more round comes to the next element. -/
theorem readUntilEnd_succ {options : ReadOptions} {α : Type} {read : Stateful Reader α} (h : Takes read) {rounds size : Nat}
    {acc : List α} {r : Reader} (hrest : ∀ v r', read r = (.ok v, r') →
      readUntilEnd options read rounds (size + 1) (v :: acc) r' =
        some (LayoutScript.readUntilEnd options read (size + 1) (v :: acc) r')) :
    readUntilEnd options read (rounds + 1) size acc r = some (LayoutScript.readUntilEnd options read size acc r) := by
  rw [LayoutScript.readUntilEnd, readUntilEnd]
  simp only [BitSource.left]
  by_cases hend : r.left = 0
  · rw [if_pos hend, if_pos hend]
  rw [if_neg hend, if_neg hend]
  by_cases hmax : options.maxElements ≤ size
  · rw [if_pos hmax, if_pos hmax]
  rw [if_neg hmax, if_neg hmax]
  rcases hread : read r with ⟨fault | v, r'⟩
  · dsimp only
    split <;> rfl
  · simp only [if_pos (h r v r' hread)]
    exact hrest v r' hread

/-- Elements that take input cannot be read forever. -/
theorem readUntilEnd_eq (options : ReadOptions) {α : Type} {read : Stateful Reader α} (h : Takes read) (size : Nat)
    (acc : List α) (r : Reader) : ∃ n, ∀ rounds inner, n ≤ rounds → n ≤ inner →
      readUntilEnd options read rounds size acc r = some (LayoutScript.readUntilEnd options read size acc r) := by
  induction hleft : r.left using Nat.strongRecOn generalizing size acc r with
  | _ left ih =>
    by_cases hgoes : ∃ v r', read r = (.ok v, r')
    · obtain ⟨v, r', hread⟩ := hgoes
      obtain ⟨n, hn⟩ := ih _ (hleft ▸ h r v r' hread) (size + 1) (v :: acc) r' rfl
      refine exists_rounds n fun rounds inner hrounds hinner => readUntilEnd_succ h fun v' r'' hread' => ?_
      rw [hread] at hread'
      cases hread'
      exact hn rounds inner hrounds hinner
    · exact exists_rounds 0 fun rounds inner _ _ => readUntilEnd_succ h fun v r' hread => absurd ⟨v, r', hread⟩ hgoes

theorem readScalars_eq {type : ScalarType} {read : Stateful Reader type.Carrier} (h : Takes read) (count : ElementCount)
    (r : Reader) : ∃ n, ∀ rounds, n ≤ rounds →
      readScalars options rounds type count read r = some (LayoutScript.readScalars options type count read r) := by
  cases count with
  | one | exactly => exact ⟨0, fun _ _ => rfl⟩
  | untilEnd =>
    obtain ⟨n, hn⟩ := readUntilEnd_eq options h 0 [] r
    refine ⟨n, fun rounds hrounds => ?_⟩
    simp only [readScalars, LayoutScript.readScalars, readArray]
    rw [bind_apply, Stateful.bind_apply, hn rounds rounds hrounds hrounds]
    rcases LayoutScript.readUntilEnd options read 0 [] r with ⟨_ | _, _⟩ <;> rfl

theorem readField_eq (s : Setting Reader) (line : CodeLine) (q : Request) (readings : Readings) (r : Reader) :
    ∃ n, ∀ rounds, n ≤ rounds → readField s rounds line q readings r = some (s.readField line q readings r) := by
  unfold readField Setting.readField
  cases line.instruction.action with
  | align | skip | restart | opening | closing | var | custom => exact ⟨0, fun _ _ => rfl⟩
  | whole type => exact readScalars_eq (takes_readWhole q.order type) q.count r
  | bit =>
    dsimp only
    by_cases hwidth : 1 ≤ q.extra ∧ q.extra ≤ 8
    · simp only [if_pos hwidth]
      exact readScalars_eq (takes_readBits _ q.count) q.count r
    · simp only [if_neg hwidth]
      exact ⟨0, fun _ _ => rfl⟩

theorem attains_tryField {s : Setting Reader} {line : CodeLine} (hline : s.collaborators.ForwardOn line.kind) (q : Request) :
    Attains (fun rounds => tryField s rounds line q) (s.tryField line q) := by
  refine ⟨fun run _ => ?_, Setting.forward_tryField hline q⟩
  obtain ⟨n, hn⟩ := readField_eq s line q run.readings run.source
  refine ⟨n, fun rounds hrounds => ?_⟩
  unfold tryField Setting.tryField onSource
  rw [hn rounds hrounds]
  rcases s.readField line q run.readings run.source with ⟨fault | reply, source⟩
  · dsimp only
    split <;> rfl
  · rfl

/-! ## Bodies -/

section bodies
variable {x : Nat → Rationed (Run Reader) Walk} {body : Stateful (Run Reader) Walk} (hbody : Attains x body)
include hbody

theorem attains_repeatBody (n : Nat) (acc : List Record) (place : Place) :
    Attains (fun rounds => repeatBody (x rounds) n acc place) (repeatBody body n acc place) := by
  induction n generalizing acc place with
  | zero => exact .of_pure _
  | succ n ih =>
    refine hbody.bind fun walk _ _ _ => ?_
    cases walk with
    | done fields place => exact ih _ _
    | halted fields => exact .of_pure _

omit hbody in
/-- One more round comes to the next element, which consumes input if it leaves less. -/
theorem repeatUntilEnd_succ {x : Rationed (Run Reader) Walk} {rounds size : Nat} {acc : List Record} {place : Option Place}
    {run : Run Reader} (hx : x run = some (body run)) (hsound : run.source.Sound)
    (hpasses : run.source.Passes (body run).2.source)
    (hrest : ∀ fields next run', body run = (.ok (.done fields next), run') → run'.source.left < run.source.left →
      repeatUntilEnd options x rounds (size + 1) (⟨fields⟩ :: acc) (some next) run' =
        some (LayoutScript.repeatUntilEnd options body (size + 1) (⟨fields⟩ :: acc) (some next) run')) :
    repeatUntilEnd options x (rounds + 1) size acc place run =
      some (LayoutScript.repeatUntilEnd options body size acc place run) := by
  rw [LayoutScript.repeatUntilEnd, repeatUntilEnd]
  simp only [BitSource.left, hx]
  by_cases hend : run.source.left = 0
  · rw [if_pos hend, if_pos hend]
  rw [if_neg hend, if_neg hend]
  by_cases hmax : options.maxElements ≤ size
  · rw [if_pos hmax, if_pos hmax]
  rw [if_neg hmax, if_neg hmax]
  rcases hy : body run with ⟨fault | ⟨fields, next⟩ | fields, run'⟩
  · rfl
  · rw [hy] at hpasses
    have hconsumed := hpasses.consumed hsound
    have hle := hpasses.left_le
    dsimp only at hconsumed hle ⊢
    by_cases hless : run'.source.left < run.source.left
    · rw [if_neg (by omega), if_pos hless]
      exact hrest fields next run' hy hless
    · rw [if_pos (by omega), if_neg hless]
  · rfl

/-- The loop needs as many rounds as it has elements, besides those of its body. -/
theorem repeatUntilEnd_eq (size : Nat) (acc : List Record) (place : Option Place) (run : Run Reader)
    (hsound : run.source.Sound) : ∃ n, ∀ rounds inner, n ≤ rounds → n ≤ inner →
      repeatUntilEnd options (x inner) rounds size acc place run =
        some (LayoutScript.repeatUntilEnd options body size acc place run) := by
  induction hleft : run.source.left using Nat.strongRecOn generalizing size acc place run with
  | _ left ih =>
    obtain ⟨n, hn⟩ := hbody.outcome run hsound
    have hpasses := hbody.forward run
    by_cases hgoes : ∃ fields next run', body run = (.ok (.done fields next), run') ∧ run'.source.left < run.source.left
    · obtain ⟨fields, next, run', hy, hless⟩ := hgoes
      have hsound' : run'.source.Sound := by
        have hsound' := hpasses.sound hsound
        rwa [hy] at hsound'
      obtain ⟨m, hm⟩ := ih _ (hleft ▸ hless) (size + 1) (⟨fields⟩ :: acc) (some next) run' hsound' rfl
      refine exists_rounds (max n m) fun rounds inner hrounds hinner =>
        repeatUntilEnd_succ (hn inner (by omega)) hsound hpasses fun fields' next' run'' hy' _ => ?_
      rw [hy] at hy'
      cases hy'
      exact hm rounds inner (by omega) (by omega)
    · exact exists_rounds n fun rounds inner _ hinner =>
        repeatUntilEnd_succ (hn inner hinner) hsound hpasses fun fields next run' hy hless =>
          absurd ⟨fields, next, run', hy, hless⟩ hgoes

theorem forward_repeatUntilEnd (size : Nat) (acc : List Record) (place : Option Place) (run : Run Reader) :
    run.source.Passes (LayoutScript.repeatUntilEnd options body size acc place run).2.source := by
  induction hleft : BitSource.left run.source using Nat.strongRecOn generalizing size acc place run with
  | _ left ih =>
    have hpasses := hbody.forward run
    rw [LayoutScript.repeatUntilEnd]
    split
    · exact .refl _
    split
    · exact .refl _
    rcases hy : body run with ⟨fault | fields | fields, run'⟩ <;> rw [hy] at hpasses
    · exact hpasses
    · dsimp only
      split
      · rename_i hless
        exact hpasses.trans (ih _ (hleft ▸ hless) _ _ _ run' rfl)
      · exact hpasses
    · exact hpasses

theorem attains_repeatUntilEnd (size : Nat) (acc : List Record) (place : Option Place) :
    Attains (fun rounds => repeatUntilEnd options (x rounds) rounds size acc place)
      (LayoutScript.repeatUntilEnd options body size acc place) := by
  refine ⟨fun run hsound => ?_, forward_repeatUntilEnd hbody size acc place⟩
  obtain ⟨n, hn⟩ := repeatUntilEnd_eq hbody size acc place run hsound
  exact ⟨n, fun rounds hrounds => hn rounds rounds hrounds hrounds⟩

theorem attains_readStructure (s : Setting Reader) (count : ElementCount) (place : Place) :
    Attains (fun rounds => readStructure s rounds count place (x rounds)) (s.readStructure count place body) := by
  cases count with
  | one =>
    refine hbody.bind fun walk _ _ _ => ?_
    cases walk <;> exact .of_pure _
  | exactly n =>
    cases n with
    | zero => exact (Attains.of_except _).bind fun _ _ _ _ => .of_pure _
    | succ n => exact (attains_repeatBody hbody _ _ _).bind fun _ _ _ _ => .of_pure _
  | untilEnd =>
    refine (attains_repeatUntilEnd hbody 0 [] none).bind fun elements _ _ _ => ?_
    by_cases hempty : (elements.1.isEmpty && !elements.2.2) = true
    · simp only [if_pos hempty]
      exact (Attains.of_except _).bind fun _ _ _ _ => .of_pure _
    · simp only [if_neg hempty]
      exact .of_pure _

end bodies
end Rationed

/-! ## Walks -/

theorem Layout.skipBody_suffix {layout : Layout} {inner : Nat} {code : List CodeLine} {named : List NamedField} {sizes : List SizeSource}
    {next : Place} (h : layout.skipBody inner code named sizes = .ok next) : next.code <:+ code := by
  induction code generalizing inner named sizes with
  | nil => cases h
  | cons line code ih =>
    refine List.IsSuffix.trans ?_ (List.suffix_cons line code)
    by_cases hclosing : line.kind = .closing
    · cases inner with
      | zero =>
        rw [skipBody_end hclosing] at h
        cases h
        exact List.suffix_refl _
      | succ inner =>
        rw [skipBody_leave hclosing] at h
        exact ih h
    · rw [skipBody_pass hclosing] at h
      cases hname : takeName line named with
      | error fault =>
        rw [hname] at h
        cases h
      | ok taken =>
        rw [hname] at h
        exact ih h

namespace Setting
variable (s : Setting Reader)

theorem request_run (line : CodeLine) (info : Option NamedField) (sizes : List SizeSource) (run : Run Reader) :
    (s.request line info sizes run).2 = run := by
  have hnext : ∀ sizes, (s.nextSize line sizes run).2 = run := by
    intro sizes
    cases sizes <;> rfl
  refine Stateful.bind_state ?_ fun extra => Stateful.bind_state ?_ fun count =>
    Stateful.bind_state (s.checkCount_run _ run) fun _ => rfl
  · rw [extraOf]
    rcases line.instruction.action.extra? with _ | _ | _
    · rfl
    · rfl
    · exact hnext sizes
  · rw [countOf]
    cases line.instruction.count with
    | one | fixed | wholeStream => rfl
    | computed =>
      refine Stateful.bind_state (hnext extra.2) fun length => ?_
      dsimp only
      split <;> rfl

/-- A walk ends in sufficiently many rounds. -/
theorem attains_walk (depth : Nat) (place : Place)
    (hforward : ∀ line ∈ place.code, s.collaborators.ForwardOn line.kind) :
    Attains (fun rounds => Rationed.walk s rounds depth place) (s.walk depth place) := by
  induction hn : place.code.length using Nat.strongRecOn generalizing depth place with
  | _ n ih =>
    obtain ⟨_ | ⟨line, code⟩, named, sizes⟩ := place
    · rw [walk]
      refine Attains.of_succ ?_ fun rounds => Rationed.walk.eq_2 ..
      split
      · exact .of_pure _
      · exact .of_throw _
    obtain ⟨hline, hcode⟩ := List.forall_mem_cons.mp hforward
    have hbehind : ∀ (depth : Nat) (next : Place), next.code <:+ code →
        Attains (fun rounds => Rationed.walk s rounds depth next) (s.walk depth next) := by
      intro depth next hnext
      refine ih _ (hn ▸ Nat.lt_succ_of_le hnext.length_le) depth next (fun line hmem => ?_) rfl
      exact hcode line (hnext.subset hmem)
    have hcons : ∀ (f : Field) (depth : Nat) (next : Place), next.code <:+ code →
        Attains (fun rounds => do return (← Rationed.walk s rounds depth next).cons f)
          (do return (← s.walk depth next).cons f) :=
      fun f depth next hnext => (hbehind depth next hnext).bind fun _ _ _ _ => .of_pure _
    rw [walk]
    refine Attains.of_succ ?_ fun rounds => Rationed.walk.eq_3 ..
    split
    · split
      · exact .of_throw _
      · exact .of_pure _
    refine (Attains.of_except _).bind fun taken _ _ _ => ?_
    have hrequest : ∀ run : Run Reader, run.source.Passes (s.request line taken.1 sizes run).2.source := by
      intro run
      rw [request_run]
      exact .refl _
    refine (Attains.of_lift hrequest).bind fun asked _ _ _ => ?_
    refine Attains.of_get.bind fun run _ _ _ => ?_
    split
    · exact .of_pure _
    split
    · by_cases hdepth : s.options.maxDepth < depth + 1
      · simp only [if_pos hdepth]
        exact .of_throw _
      simp only [if_neg hdepth]
      have hbody := hbehind (depth + 1) ⟨code, taken.2, asked.2⟩ (List.suffix_refl code)
      refine (Rationed.attains_readStructure hbody s asked.1.count _).bind fun x run run' hx => ?_
      obtain ⟨value, _ | next⟩ := x
      · exact .of_pure _
      -- The place behind the body is where passing the body ends, so the walk goes on behind it.
      have hnext := Layout.skipBody_suffix ((s.endsBehind_walk depth _).readStructure hx)
      dsimp only at hnext ⊢
      rw [if_pos hnext.length_le]
      exact hcons _ _ _ hnext
    · refine (Rationed.attains_tryField hline asked.1).bind fun reply? _ _ _ => ?_
      have hrest := List.suffix_refl code
      rcases reply? with _ | _ | value | value
      · exact .of_pure _
      · exact hbehind _ _ hrest
      · refine (Attains.of_lift fun run => ?_).bind fun _ _ _ _ => hcons _ _ _ hrest
        change run.source.Passes (keepReading taken.1 value run).source
        rw [keepReading_source]
        exact .refl _
      · exact .of_pure _

/-- A reading of whatever bytes ends in sufficiently many rounds. -/
theorem read_inRounds (bytes : List UInt8)
    (hforward : ∀ lines, s.layout.lines = .ok lines → ∀ line ∈ lines, s.collaborators.ForwardOn line.kind) :
    ∃ n, ∀ rounds, n ≤ rounds →
      Rationed.read s rounds (.ofBytes bytes s.options.bitOrder) = some (s.read (.ofBytes bytes s.options.bitOrder)) := by
  refine Attains.outcome ((Attains.of_except s.layout.lines).bind fun lines run run' hok => ?_) _ (Reader.sound_ofBytes _ _)
  have hlines : s.layout.lines = .ok lines := by
    cases h : s.layout.lines <;> rw [h] at hok <;> cases hok
    rfl
  exact (s.attains_walk 0 (s.layout.start lines) (hforward lines hlines)).bind fun _ _ _ _ => .of_pure _

end Setting
end LayoutScript
