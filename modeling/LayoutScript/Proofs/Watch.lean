import LayoutScript.Proofs.Noted
import LayoutScript.Proofs.ReadScript
import LayoutScript.Proofs.ReadSteps

/-! # Watching a reading

A reading can be watched without being disturbed. What sizes ask for and what is decoded is
written down as it happens, each time with the elements of the structure arrays in which it
happens. What a watched reading gives is what the reading gives, and a decoded field comes with
an element for each structure array around it.
-/
namespace LayoutScript
open Stateful (Lifts)

/-- The element of each structure array around some place of a reading, the outermost array
first. An array is known by the offset of its instruction. -/
abbrev Repetition := List (Nat × Nat)

inductive Event where
  | decoded (field : NamedField) (value : Value) (place : Repetition)
  /-- A size asks for the number of the named declaration with this index. -/
  | asked (index : Nat) (answer : Except Fault Int32) (place : Repetition)

/-! ## What sizes ask for -/

def ExprOp.asked? : ExprOp → Option Nat
  | .field index => some index
  | .literal _ | .external _ | .position | .unary _ | .binary _ => none

/-- The named declarations that operations ask for on a stack, up to the one that fails. -/
def ExprProgram.asks (cx : SizeContext) : List ExprOp → List Int32 → List Nat
  | [], _ => []
  | op :: ops, stack =>
    op.asked?.toList ++
      match operate cx op stack with
      | .error _ => []
      | .ok (n, stack) => if stack.length = stackDepth then [] else asks cx ops (n :: stack)

def SizeSource.asks (cx : SizeContext) : SizeSource → List Nat
  | .expression program => ExprProgram.asks cx program.ops []
  | .field index _ => [index]
  | .external _ | .position => []

namespace ExprProgram
variable {cx cx' : SizeContext}

theorem mem_of_asks {ops : List ExprOp} {stack : List Int32} {index : Nat} (h : index ∈ asks cx ops stack) :
    .field index ∈ ops := by
  induction ops generalizing stack with
  | nil => cases h
  | cons op ops ih =>
    rcases List.mem_append.mp h with h | h
    · cases op with
      | field i =>
        rw [List.mem_singleton.mp h]
        exact List.mem_cons_self ..
      | literal | external | position | unary | binary => cases h
    · apply List.mem_cons_of_mem
      split at h
      · cases h
      · split at h
        · cases h
        · exact ih h

end ExprProgram

variable {σ : Type}

abbrev Watch (σ : Type) := Noted σ Event

/-! ## The watched reading -/

/-- The events of fields that have been read. -/
def Yield.decoded (y : Yield) (place : Repetition) : List Event :=
  y.fields.filterMap fun f => f.info.map fun field => .decoded field f.value place

/-- The place inside of an element of an array, or inside of a single structure. -/
def Repetition.within (place : Repetition) (offset : Nat) : Option Nat → Repetition
  | none => place
  | some element => place ++ [(offset, element)]

variable [BitSource σ]

namespace Head

/-- The named declarations that a declaration asks for at some point of a run. Its length is
computed if there was no fault in its extra. -/
def asks (s : Setting σ) (h : Head) (run : Run σ) : List Nat :=
  h.extra.sources.flatMap (SizeSource.asks (s.sizeContext run)) ++
    match (s.amount h.extra run).1 with
    | .error _ => []
    | .ok _ => h.extent.sources.flatMap (SizeSource.asks (s.sizeContext run))

def asked (s : Setting σ) (h : Head) (place : Repetition) (run : Run σ) : List Event :=
  (h.asks s run).map fun index => .asked index ((s.sizeContext run).valueAt index) place

def watchEnter (s : Setting σ) (h : Head) (place : Repetition) : Stateful (Watch σ) (Option Request) := do
  Noted.note (h.asked s place)
  Noted.does (h.enter s)

def watchSingle (s : Setting σ) (h : Head) (r : Request) (place : Repetition) : Stateful (Watch σ) Yield := do
  let y ← Noted.does (h.readSingle s r)
  Noted.note fun _ => y.decoded place
  return y

theorem erases_watchEnter (s : Setting σ) (h : Head) (place : Repetition) : Lifts Noted.run (h.watchEnter s place) (h.enter s) :=
  Noted.lifts_note (Noted.lifts_does _) _

theorem erases_watchSingle (s : Setting σ) (h : Head) (r : Request) (place : Repetition) :
    Lifts Noted.run (h.watchSingle s r place) (h.readSingle s r) := by
  have hbind : Lifts Noted.run (h.watchSingle s r place) (h.readSingle s r >>= pure) :=
    (Noted.lifts_does _).bind fun y => Noted.lifts_note (.pure y) _
  rwa [bind_pure] at hbind

theorem watchEnter_requests {s : Setting σ} {h : Head} {place : Repetition} {r : Request} {w w' : Watch σ}
    (hok : h.watchEnter s place w = (.ok (some r), w')) : h.Requests r := by
  have herases := h.erases_watchEnter s place w
  rw [hok, enter_eq] at herases
  cases hq : (h.request s w.run).1 with
  | error fault =>
    rw [hq] at herases
    cases herases
  | ok q =>
    rw [hq] at herases
    simp only [Except.map, Prod.mk.injEq, Except.ok.injEq] at herases
    split at herases
    · cases herases.1
    · cases herases.1
      exact request_ok hq

end Head

namespace Declaration

/-- Watches the elements from `element` on. -/
def watchTimes (body : Nat → Stateful (Watch σ) Yield) : (n element : Nat) → Stateful (Watch σ) (List Record × Bool)
  | 0, _ => pure ([], false)
  | n + 1, element => do
    let y ← body element
    if y.halted then return ([], true)
    let (items, halted) ← watchTimes body n (element + 1)
    return (⟨y.fields⟩ :: items, halted)

def watchWhile (options : ReadOptions) (body : Nat → Stateful (Watch σ) Yield) (size : Nat) (w : Watch σ) :
    Except Fault (List Record × Bool) × Watch σ :=
  if BitSource.left w.run.source = 0 then (.ok ([], false), w)
  else if options.maxElements ≤ size then
    (.error (.input (.arrayTooLarge (size + 1) options.maxElements)), w)
  else
    match body size w with
    | (.error fault, w') => (.error fault, w')
    | (.ok y, w') =>
      if y.halted then (.ok ([], true), w')
      else if BitSource.left w'.run.source < BitSource.left w.run.source then
        match watchWhile options body (size + 1) w' with
        | (.ok (items, halted), w'') => (.ok (⟨y.fields⟩ :: items, halted), w'')
        | (.error fault, w'') => (.error fault, w'')
      else (.ok ([], false), w')
termination_by BitSource.left w.run.source

def watchElements (options : ReadOptions) (count : ElementCount) (body : Option Nat → Stateful (Watch σ) Yield) :
    Stateful (Watch σ) (Value × Bool) :=
  match count with
  | .one => do
    let y ← body none
    return (.record ⟨y.fields⟩, y.halted)
  | .exactly n => do
    let (items, halted) ← watchTimes (fun element => body (some element)) n 0
    return (.records items, halted)
  | .untilEnd => do
    let (items, halted) ← watchWhile options (fun element => body (some element)) 0
    return (.records items, halted)

mutual

/-- Watches a declaration inside `depth` structures. -/
def watch (s : Setting σ) (depth : Nat) (place : Repetition) : Declaration → Stateful (Watch σ) Yield
  | .single h => do
    match ← h.watchEnter s place with
    | none => return ⟨[], true⟩
    | some r => h.watchSingle s r place
  | .nested h members => do
    match ← h.watchEnter s place with
    | none => return ⟨[], true⟩
    | some r =>
      if s.options.maxDepth < depth + 1 then throw (.input (.tooDeep s.options.maxDepth))
      else
        let (value, halted) ← watchElements s.options r.count fun element =>
          watchAll s (depth + 1) (place.within h.offset element) members
        return ⟨[⟨h.info, value⟩], halted⟩

def watchAll (s : Setting σ) (depth : Nat) (place : Repetition) : List Declaration → Stateful (Watch σ) Yield
  | [] => pure ⟨[], false⟩
  | d :: ds => do
    let first ← d.watch s depth place
    if first.halted then return first
    else
      let rest ← watchAll s depth place ds
      return ⟨first.fields ++ rest.fields, rest.halted⟩

end

/-- Watches the reading of a script from its start. -/
def watchScript (s : Setting σ) (ds : List Declaration) (source : σ) : Except Fault Record × Watch σ :=
  let action : Stateful (Watch σ) Record := do return ⟨(← watchAll s 0 [] ds).fields⟩
  action.on { run := { source } }

section elements
variable {body' : Nat → Stateful (Watch σ) Yield} {body : Stateful (Run σ) Yield}

omit [BitSource σ] in
theorem erases_watchTimes (h : ∀ element, Lifts Noted.run (body' element) body) (n element : Nat) :
    Lifts Noted.run (watchTimes body' n element) (readTimes body n) := by
  induction n generalizing element with
  | zero => exact .pure _
  | succ n ih =>
    apply Lifts.bind (h element)
    intro y
    cases y.halted with
    | true => exact .pure _
    | false => exact (ih _).bind fun _ => .pure _

theorem erases_watchWhile (h : ∀ element, Lifts Noted.run (body' element) body) (options : ReadOptions) (size : Nat) :
    Lifts Noted.run (watchWhile options body' size) (readWhile options body size) := by
  intro w
  induction hn : BitSource.left w.run.source using Nat.strongRecOn generalizing size w with
  | _ n ih =>
    rw [watchWhile, readWhile]
    by_cases hend : BitSource.left w.run.source = 0
    · rw [if_pos hend, if_pos hend]
    rw [if_neg hend, if_neg hend]
    by_cases hmax : options.maxElements ≤ size
    · rw [if_pos hmax, if_pos hmax]
    rw [if_neg hmax, if_neg hmax, ← h size w]
    rcases body' size w with ⟨fault | y, w'⟩
    · rfl
    dsimp only
    by_cases hhalted : y.halted
    · rw [if_pos hhalted, if_pos hhalted]
    rw [if_neg hhalted, if_neg hhalted]
    by_cases hless : BitSource.left w'.run.source < BitSource.left w.run.source
    · rw [if_pos hless, if_pos hless, ← ih _ (hn ▸ hless) (size + 1) w' rfl]
      rcases watchWhile options body' (size + 1) w' with ⟨_ | _, _⟩ <;> rfl
    · rw [if_neg hless, if_neg hless]

theorem erases_watchElements {body' : Option Nat → Stateful (Watch σ) Yield}
    (h : ∀ element, Lifts Noted.run (body' element) body) (options : ReadOptions) (count : ElementCount) :
    Lifts Noted.run (watchElements options count body') (readElements options count body) := by
  cases count with
  | one => exact (h none).bind fun _ => .pure _
  | exactly n => exact (erases_watchTimes (fun element => h (some element)) n 0).bind fun _ => .pure _
  | untilEnd =>
    have hwhile : Lifts Noted.run (watchWhile options (fun element => body' (some element)) 0) (readWhile options body 0) :=
      erases_watchWhile (fun element => h (some element)) options 0
    exact hwhile.bind fun _ => .pure _

end elements

mutual

theorem erases_watch (s : Setting σ) : (d : Declaration) → ∀ (depth : Nat) (place : Repetition),
    Lifts Noted.run (d.watch s depth place) (d.read s depth)
  | .single h, depth, place => by
    apply Lifts.bind (h.erases_watchEnter s place)
    intro entered
    cases entered with
    | none => exact .pure _
    | some r => exact h.erases_watchSingle s r place
  | .nested h members, depth, place => by
    apply Lifts.bind (h.erases_watchEnter s place)
    intro entered
    cases entered with
    | none => exact .pure _
    | some r =>
      by_cases hdepth : s.options.maxDepth < depth + 1
      · simp only [if_pos hdepth]
        exact .throw _
      · simp only [if_neg hdepth]
        have helements := erases_watchElements
          (fun element => erases_watchAll s members (depth + 1) (place.within h.offset element)) s.options r.count
        exact helements.bind fun _ => .pure _

theorem erases_watchAll (s : Setting σ) : (ds : List Declaration) → ∀ (depth : Nat) (place : Repetition),
    Lifts Noted.run (watchAll s depth place ds) (readAll s depth ds)
  | [], _, _ => .pure _
  | d :: ds, depth, place => by
    apply Lifts.bind (erases_watch s d depth place)
    intro first
    cases first.halted with
    | true => exact .pure _
    | false => exact (erases_watchAll s ds depth place).bind fun _ => .pure _

end

/-- A watched reading of a script gives what the reading gives. -/
theorem watchScript_run (s : Setting σ) (ds : List Declaration) (source : σ) :
    ((watchScript s ds source).1, (watchScript s ds source).2.run) = readScript s ds source := by
  have herases : Lifts Noted.run (do return (⟨(← watchAll s 0 [] ds).fields⟩ : Record))
      (do return ⟨(← readAll s 0 ds).fields⟩) :=
    (erases_watchAll s ds 0 []).bind fun _ => .pure _
  exact herases { run := { source } }

/-! ## Places of decoded fields -/

mutual

/-- The named fields of a declaration, each with the structure arrays around it. -/
def placed (arrays : List Nat) : Declaration → List (NamedField × List Nat)
  | .single h => h.info.toList.map (·, arrays)
  | .nested h members => placedAll (if h.extent = .one then arrays else arrays ++ [h.offset]) members

def placedAll (arrays : List Nat) : List Declaration → List (NamedField × List Nat)
  | [] => []
  | d :: ds => d.placed arrays ++ placedAll arrays ds

end

end Declaration

/-- A decoded field of `table` is written down with an element for each of its arrays. -/
def Event.Placed (table : List (NamedField × List Nat)) : Event → Prop
  | .decoded field _ place => (field, place.map (·.1)) ∈ table
  | .asked .. => True

/-- An action that writes down nothing but events that satisfy `P`. -/
def Records {α : Type} (P : Event → Prop) (action : Stateful (Watch σ) α) : Prop :=
  ∀ w : Watch σ, (∀ e ∈ w.events, P e) → ∀ e ∈ (action w).2.events, P e

namespace Records
variable {α β : Type} {P : Event → Prop} {action : Stateful (Watch σ) α}

omit [BitSource σ] in
theorem pure (a : α) : Records P (Pure.pure a : Stateful (Watch σ) α) := fun _ h => h

omit [BitSource σ] in
theorem bind {next : α → Stateful (Watch σ) β} (h : Records P action)
    (hnext : ∀ a w w', action w = (.ok a, w') → Records P (next a)) : Records P (action >>= next) := by
  intro w hw
  have haction := h w hw
  rw [Stateful.bind_apply]
  rcases ha : action w with ⟨fault | a, w'⟩
  · rw [ha] at haction
    exact haction
  · rw [ha] at haction
    exact hnext a w w' ha w' haction

omit [BitSource σ] in
theorem note {events : Run σ → List Event} (hevents : ∀ run, ∀ e ∈ events run, P e) (h : Records P action) :
    Records P (do Noted.note events; action) := by
  intro w hw
  apply h
  intro e he
  rcases List.mem_append.mp he with he | he
  · exact hevents w.run e (List.mem_reverse.mp he)
  · exact hw e he

end Records

namespace Declaration
variable {P : Event → Prop} {s : Setting σ} {table : List (NamedField × List Nat)}

section elements
variable {body : Nat → Stateful (Watch σ) Yield} (hbody : ∀ element, Records P (body element))

include hbody

omit [BitSource σ] in
theorem records_watchTimes (n element : Nat) : Records P (watchTimes body n element) := by
  induction n generalizing element with
  | zero => exact .pure _
  | succ n ih =>
    apply Records.bind (hbody element)
    intro y _ _ _
    cases y.halted with
    | true => exact .pure _
    | false => exact (ih _).bind fun _ _ _ _ => .pure _

theorem records_watchWhile (options : ReadOptions) (size : Nat) : Records P (watchWhile options body size) := by
  intro w hw
  induction hn : BitSource.left w.run.source using Nat.strongRecOn generalizing size w with
  | _ n ih =>
    have hbefore := hbody size w hw
    rw [watchWhile]
    split
    · exact hw
    split
    · exact hw
    rcases hy : body size w with ⟨fault | y, w'⟩
    · rw [hy] at hbefore
      exact hbefore
    rw [hy] at hbefore
    dsimp only
    split
    · exact hbefore
    split
    · rename_i hless
      have hrest := ih _ (hn ▸ hless) (size + 1) w' hbefore rfl
      rcases hx : watchWhile options body (size + 1) w' with ⟨fault | x, w''⟩
      · rw [hx] at hrest
        exact hrest
      · rw [hx] at hrest
        exact hrest
    · exact hbefore

end elements

theorem records_watchElements {body : Option Nat → Stateful (Watch σ) Yield} {count : ElementCount}
    (hbody : ∀ element, (element = none ↔ count = .one) → Records P (body element)) (options : ReadOptions) :
    Records P (watchElements options count body) := by
  cases count with
  | one => exact (hbody none (by simp)).bind fun _ _ _ _ => .pure _
  | exactly n =>
    have hmany : ∀ element, Records P (body (some element)) := fun element => hbody (some element) (by simp)
    exact (records_watchTimes hmany n 0).bind fun _ _ _ _ => .pure _
  | untilEnd =>
    have hmany : ∀ element, Records P (body (some element)) := fun element => hbody (some element) (by simp)
    have hwhile : Records P (watchWhile options (fun element => body (some element)) 0) :=
      records_watchWhile hmany options 0
    exact hwhile.bind fun _ _ _ _ => .pure _

end Declaration

namespace Head
variable {s : Setting σ} {h : Head} {place : Repetition} {table : List (NamedField × List Nat)}

theorem records_watchEnter : Records (Event.Placed table) (h.watchEnter s place) := by
  apply Records.note
  · intro w e he
    obtain ⟨index, -, rfl⟩ := List.mem_map.mp he
    trivial
  · exact fun w hw => hw

theorem info_of_readSingle {r : Request} {run run' : Run σ} {y : Yield} (hok : h.readSingle s r run = (.ok y, run')) :
    ∀ f ∈ y.fields, f.info = h.info := by
  rw [readSingle_eq] at hok
  rcases hv : h.readValue s r run.readings run.source with ⟨fault | reply, source⟩
  · simp only [hv] at hok
    split at hok <;> cases hok
    exact List.forall_mem_nil _
  · rw [hv] at hok
    cases reply with
    | nothing =>
      cases hok
      exact List.forall_mem_nil _
    | cut v | value v =>
      cases hok
      exact List.forall_mem_singleton.mpr rfl

theorem records_watchSingle {r : Request} (htable : ∀ field ∈ h.info, (field, place.map (·.1)) ∈ table) :
    Records (Event.Placed table) (h.watchSingle s r place) := by
  have hread : Records (Event.Placed table) (Noted.does (h.readSingle s r)) := fun w hw => hw
  apply hread.bind
  intro y w w' hy
  have hok : h.readSingle s r w.run = (.ok y, w'.run) := by rw [← Noted.lifts_does (h.readSingle s r) w, hy]
  refine Records.note (fun _ e he => ?_) (.pure y)
  obtain ⟨f, hf, he⟩ := List.mem_filterMap.mp he
  obtain ⟨field, hfield, rfl⟩ := Option.map_eq_some_iff.mp he
  rw [info_of_readSingle hok f hf] at hfield
  exact htable field hfield

end Head

namespace Declaration
variable {s : Setting σ} {table : List (NamedField × List Nat)}

mutual

theorem records_watch : (d : Declaration) → ∀ (depth : Nat) (place : Repetition), d.placed (place.map (·.1)) ⊆ table →
    Records (Event.Placed table) (d.watch s depth place)
  | .single h, depth, place, htable => by
    apply Records.bind Head.records_watchEnter
    intro entered _ _ _
    cases entered with
    | none => exact .pure _
    | some r =>
      apply Head.records_watchSingle
      intro field hfield
      apply htable
      exact List.mem_map_of_mem (Option.mem_toList.mpr hfield)
  | .nested h members, depth, place, htable => by
    apply Records.bind Head.records_watchEnter
    intro entered _ _ hentered
    cases entered with
    | none => exact .pure _
    | some r =>
      have hone := (Head.watchEnter_requests hentered).one
      by_cases hdepth : s.options.maxDepth < depth + 1
      · simp only [if_pos hdepth]
        exact fun _ hw => hw
      simp only [if_neg hdepth]
      have helements : Records (Event.Placed table) (watchElements s.options r.count fun element =>
          watchAll s (depth + 1) (place.within h.offset element) members) := by
        apply records_watchElements
        intro element helement
        apply records_watchAll members
        have harrays : placedAll ((place.within h.offset element).map (·.1)) members =
            (nested h members).placed (place.map (·.1)) := by
          rw [placed]
          cases element with
          | none => rw [if_pos (hone.mp (helement.mp rfl)), Repetition.within]
          | some element =>
            have hmany : h.extent ≠ .one := fun heq => by cases helement.mpr (hone.mpr heq)
            rw [if_neg hmany, Repetition.within, List.map_append, List.map_singleton]
        rw [harrays]
        exact htable
      exact helements.bind fun _ _ _ _ => .pure _

theorem records_watchAll : (ds : List Declaration) → ∀ (depth : Nat) (place : Repetition),
    placedAll (place.map (·.1)) ds ⊆ table → Records (Event.Placed table) (watchAll s depth place ds)
  | [], _, _, _ => .pure _
  | d :: ds, depth, place, htable => by
    obtain ⟨hfirst, hrest⟩ := List.append_subset.mp htable
    apply Records.bind (records_watch d depth place hfirst)
    intro first _ _ _
    cases first.halted with
    | true => exact .pure _
    | false => exact (records_watchAll ds depth place hrest).bind fun _ _ _ _ => .pure _

end

/-- Every field that is decoded is written down with an element for each structure array around it. -/
theorem watchScript_placed (s : Setting σ) (ds : List Declaration) (source : σ) :
    ∀ e ∈ (watchScript s ds source).2.events, e.Placed (placedAll [] ds) := by
  have hall : Records (Event.Placed (placedAll [] ds)) (watchAll s 0 [] ds) :=
    records_watchAll ds 0 [] (List.Subset.refl _)
  have hscript : Records (Event.Placed (placedAll [] ds)) (do return (⟨(← watchAll s 0 [] ds).fields⟩ : Record)) :=
    hall.bind fun _ _ _ _ => .pure _
  exact hscript { run := { source } } (List.forall_mem_nil _)

end Declaration
end LayoutScript
