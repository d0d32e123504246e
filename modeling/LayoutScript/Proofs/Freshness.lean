import LayoutScript.Proofs.CodeTables
import LayoutScript.Proofs.ReadFaults
import LayoutScript.Proofs.Watch

/-! # Sizes see the current element

The readings keep one number for each declaration, whatever the elements of the arrays around
it are. A size nevertheless never sees a number of an earlier element: what it may name has
been read in every element that the size itself is in.
-/
namespace LayoutScript

namespace Event

/-- What was decoded last for the field at an offset, and where. The last event is in front. -/
def latest (offset : Nat) : List Event → Option (Value × Repetition)
  | [] => none
  | .decoded field value place :: events => if field.offset = offset then some (value, place) else latest offset events
  | .asked .. :: events => latest offset events

/-- The answer to a question behind `events` is the number that was decoded last for the named
declaration, cut to 32 bits, and it was decoded in the same element of every structure array
around that declaration. -/
def Fresh (named : List NamedField) (events : List Event) (index : Nat) (answer : Except Fault Int32)
    (place : Repetition) : Prop :=
  ∃ field value place' number, named[index]? = some field ∧ latest field.offset events = some (value, place') ∧
    place' <+: place ∧ value.number? = some number ∧ answer = .ok number.toInt32

def AllFresh (named : List NamedField) : List Event → Prop
  | [] => True
  | .decoded .. :: events => AllFresh named events
  | .asked index answer place :: events => Fresh named events index answer place ∧ AllFresh named events

variable {named : List NamedField} {events : List Event}

theorem AllFresh.asked {later earlier : List Event} {index : Nat} {answer : Except Fault Int32} {place : Repetition}
    (h : AllFresh named (later ++ .asked index answer place :: earlier)) : Fresh named earlier index answer place := by
  induction later with
  | nil => exact h.1
  | cons e later ih =>
    cases e with
    | decoded => exact ih h
    | asked => exact ih h.2

/-- Questions of the same moment do not change what was decoded last. -/
theorem latest_asked {new : List Event} (hnew : ∀ e ∈ new, ∃ index answer place, e = .asked index answer place)
    (offset : Nat) : latest offset (new ++ events) = latest offset events := by
  induction new with
  | nil => rfl
  | cons e new ih =>
    obtain ⟨he, hrest⟩ := List.forall_mem_cons.mp hnew
    obtain ⟨index, answer, place, rfl⟩ := he
    exact ih hrest

theorem AllFresh.append_asked {new : List Event} {place : Repetition} (h : AllFresh named events)
    (hnew : ∀ e ∈ new, ∃ index answer, e = .asked index answer place ∧ Fresh named events index answer place) :
    AllFresh named (new ++ events) := by
  induction new with
  | nil => exact h
  | cons e new ih =>
    obtain ⟨he, hrest⟩ := List.forall_mem_cons.mp hnew
    obtain ⟨index, answer, rfl, field, value, place', number, hfield, hlatest, hfresh⟩ := he
    have hsame : latest field.offset (new ++ events) = latest field.offset events := by
      apply latest_asked
      intro e he
      obtain ⟨index, answer, heq, -⟩ := hrest e he
      exact ⟨index, answer, place, heq⟩
    exact ⟨⟨field, value, place', number, hfield, hsame.trans hlatest, hfresh⟩, ih hrest⟩

end Event

/-! ## What sizes ask for is known -/

theorem Expr.Over.of_mem {P : Nat → Prop} {e : Expr} (h : e.Over P) {index : Nat} (hm : .field index ∈ e.postfixOps) :
    P index := by
  induction e with
  | literal | external | position =>
    cases List.mem_singleton.mp hm
  | field i =>
    cases List.mem_singleton.mp hm
    exact h
  | unary op operand ih =>
    rcases List.mem_append.mp hm with hm | hm
    · exact ih h hm
    · cases List.mem_singleton.mp hm
  | binary op left right ihl ihr =>
    rcases List.mem_append.mp hm with hm | hm
    · rcases List.mem_append.mp hm with hm | hm
      · exact ihl h.1 hm
      · exact ihr h.2 hm
    · cases List.mem_singleton.mp hm

theorem SizeSource.Over.of_asks {P : Nat → Prop} {source : SizeSource} (h : source.Over P) {cx : SizeContext}
    {index : Nat} (hm : index ∈ source.asks cx) : P index := by
  cases source with
  | expression program =>
    obtain ⟨e, he, hover⟩ := h
    have hop := ExprProgram.mem_of_asks hm
    rw [he] at hop
    exact hover.of_mem hop
  | field i name =>
    cases List.mem_singleton.mp hm
    exact h
  | external | position => cases hm

variable {σ : Type}

/-! ## What is known is current -/

namespace Watch
open Event
variable {w w' w'' : Watch σ} {offset : Nat} {known changed : List Nat} {place place' : Repetition}

/-- The number that is kept for the field at an offset was decoded last for it, in the elements
around `place`. -/
def Current (offset : Nat) (place : Repetition) (w : Watch σ) : Prop :=
  ∃ value place' number, latest offset w.events = some (value, place') ∧ place' <+: place ∧
    value.number? = some number ∧ ∀ field : NamedField, field.offset = offset → w.run.readings.get? field = some number

def Knows (known : List Nat) (place : Repetition) (w : Watch σ) : Prop := ∀ offset ∈ known, w.Current offset place

/-- Nothing has happened to the fields at other offsets than those of `changed`. -/
def Keeps (changed : List Nat) (w w' : Watch σ) : Prop :=
  ∀ offset ∉ changed, latest offset w'.events = latest offset w.events ∧
    ∀ field : NamedField, field.offset = offset → w'.run.readings.get? field = w.run.readings.get? field

theorem Keeps.refl (changed : List Nat) (w : Watch σ) : w.Keeps changed w := fun _ _ => ⟨rfl, fun _ _ => rfl⟩

theorem Keeps.trans (h : w.Keeps changed w') (h' : w'.Keeps changed w'') : w.Keeps changed w'' := by
  intro offset hoffset
  obtain ⟨hlatest, hget⟩ := h offset hoffset
  obtain ⟨hlatest', hget'⟩ := h' offset hoffset
  exact ⟨hlatest'.trans hlatest, fun field hfield => (hget' field hfield).trans (hget field hfield)⟩

theorem Keeps.mono {changed' : List Nat} (h : w.Keeps changed w') (hsub : changed ⊆ changed') : w.Keeps changed' w' :=
  fun offset hoffset => h offset (mt (@hsub offset) hoffset)

theorem Knows.keeps (h : w.Knows known place) (hkeeps : w.Keeps changed w') (hapart : known.Disjoint changed) :
    w'.Knows known place := by
  intro offset hoffset
  obtain ⟨value, place', number, hlatest, hplace, hnumber, hget⟩ := h offset hoffset
  obtain ⟨hlatest', hget'⟩ := hkeeps offset fun hchanged => hapart hoffset hchanged
  exact ⟨value, place', number, hlatest'.trans hlatest, hplace, hnumber,
    fun field hfield => (hget' field hfield).trans (hget field hfield)⟩

theorem Knows.within (h : w.Knows known place) (offset : Nat) (element : Option Nat) :
    w.Knows known (place.within offset element) := by
  have hwithin : place <+: place.within offset element := by
    cases element with
    | none => exact List.prefix_refl _
    | some element => exact List.prefix_append _ _
  intro offset hoffset
  obtain ⟨value, place', number, hlatest, hplace, hcurrent⟩ := h offset hoffset
  exact ⟨value, place', number, hlatest, hplace.trans hwithin, hcurrent⟩

end Watch

/-- What can be said behind a watched action: all answers so far were fresh, fields at other
offsets than those of `changed` are untouched, and what is known behind it is current unless it
halts. -/
structure Settles {α : Type} (named : List NamedField) (changed after : List Nat) (place : Repetition)
    (halted : α → Bool) (w : Watch σ) (outcome : Except Fault α × Watch σ) : Prop where
  fresh : Event.AllFresh named outcome.2.events
  keeps : w.Keeps changed outcome.2
  knows : ∀ a, outcome.1 = .ok a → halted a = false → outcome.2.Knows after place

namespace Settles
open Event
variable {α β : Type} {named : List NamedField} {changed known mid after : List Nat} {place place' : Repetition}
  {halted stops : α → Bool} {w : Watch σ} {outcome : Except Fault α × Watch σ}

theorem ok {a : α} (hfresh : AllFresh named w.events) (hknows : halted a = false → w.Knows after place) :
    Settles named changed after place halted w (.ok a, w) := by
  refine ⟨hfresh, .refl _ _, ?_⟩
  intro b hb
  cases hb
  exact hknows

theorem error {fault : Fault} (hfresh : AllFresh named w.events) :
    Settles named changed after place halted w (.error fault, w) := by
  refine ⟨hfresh, .refl _ _, ?_⟩
  intro b hb
  cases hb

theorem mono {changed' : List Nat} (h : Settles named changed after place halted w outcome)
    (hsub : changed ⊆ changed') : Settles named changed' after place halted w outcome :=
  ⟨h.fresh, h.keeps.mono hsub, h.knows⟩

/-- Whatever happens inside of an array, what was known around it stays known. -/
theorem around (h : Settles named changed after place' halted w outcome) (hknows : w.Knows known place)
    (hapart : known.Disjoint changed) : Settles named changed known place stops w outcome :=
  ⟨h.fresh, h.keeps, fun _ _ _ => hknows.keeps h.keeps hapart⟩

theorem bind {action : Stateful (Watch σ) α} {next : α → Stateful (Watch σ) β} {halted : β → Bool}
    (h : Settles named changed mid place stops w (action w))
    (hnext : ∀ a w', action w = (.ok a, w') → AllFresh named w'.events → (stops a = false → w'.Knows mid place) →
      Settles named changed after place' halted w' (next a w')) :
    Settles named changed after place' halted w ((action >>= next) w) := by
  rw [Stateful.bind_apply]
  rcases haction : action w with ⟨fault | a, w'⟩
  · rw [haction] at h
    refine ⟨h.fresh, h.keeps, ?_⟩
    intro b hb
    cases hb
  · rw [haction] at h
    have hrest := hnext a w' haction h.fresh (h.knows a rfl)
    exact ⟨hrest.fresh, h.keeps.trans hrest.keeps, hrest.knows⟩

end Settles

namespace Head
open Event
variable {s : Setting σ} {h : Head} {known : List Nat} {place : Repetition} {w : Watch σ}

/-- A field that is written down is the last one for its offset, and no other field is touched. -/
theorem record_decoded (hregular : h.Regular) (v : Value) (halted : Bool) (place : Repetition) (w : Watch σ) :
    let w' := w.record (Yield.decoded ⟨[⟨h.info, v⟩], halted⟩ place)
    (∀ named, AllFresh named w.events → AllFresh named w'.events) ∧ w.Keeps [h.offset] w' ∧
      (h.info.isSome → latest h.offset w'.events = some (v, place)) := by
  intro w'
  cases hinfo : h.info with
  | none =>
    have hnone : w' = w := by
      change w.record (Yield.decoded ⟨[⟨h.info, v⟩], halted⟩ place) = w
      rw [hinfo]
      rfl
    rw [hnone]
    exact ⟨fun _ hfresh => hfresh, .refl _ _, fun hsome => by cases hsome⟩
  | some field =>
    have hoffset : field.offset = h.offset := hregular.info field hinfo
    have hevents : w'.events = .decoded field v place :: w.events := by
      change (w.record (Yield.decoded ⟨[⟨h.info, v⟩], halted⟩ place)).events = _
      rw [hinfo]
      rfl
    rw [hevents]
    refine ⟨fun _ hfresh => hfresh, ?_, ?_⟩
    · intro offset hchanged
      refine ⟨?_, fun _ _ => rfl⟩
      have hother : field.offset ≠ offset := by
        rintro rfl
        exact hchanged (List.mem_singleton.mpr hoffset)
      rw [hevents, latest, if_neg hother]
    · intro _
      rw [latest, if_pos hoffset]

theorem keeps_keepReading (hregular : h.Regular) (v : Value) (w : Watch σ) :
    w.Keeps [h.offset] { w with run := Setting.keepReading h.info v w.run } := by
  intro offset hchanged
  refine ⟨rfl, fun field hfield => ?_⟩
  dsimp only
  rw [Setting.keepReading.eq_def]
  split
  · rename_i kept number hinfo _
    have hoffset : kept.offset = h.offset := hregular.info kept hinfo
    have hother : field.offset ≠ kept.offset := by
      rw [hfield, hoffset]
      exact fun heq => hchanged (List.mem_singleton.mpr heq)
    rw [Readings.get?_put, if_neg hother]
  · rfl

variable [BitSource σ]

theorem Asks.of_asks {s : Setting σ} {h : Head} {known : List Nat} (hasks : h.Asks s.table known) {run : Run σ}
    {index : Nat} (hm : index ∈ h.asks s run) : ∃ offset ∈ known, s.table[index]? = some offset := by
  have hsource : ∃ source ∈ h.sources, index ∈ source.asks (s.sizeContext run) := by
    rcases List.mem_append.mp hm with hm | hm
    · obtain ⟨source, hsource, hm⟩ := List.mem_flatMap.mp hm
      exact ⟨source, List.mem_append_left _ hsource, hm⟩
    · split at hm
      · cases hm
      · obtain ⟨source, hsource, hm⟩ := List.mem_flatMap.mp hm
        exact ⟨source, List.mem_append_right _ hsource, hm⟩
  obtain ⟨source, hsource, hm⟩ := hsource
  exact (hasks source hsource).of_asks hm

/-- The answers to what a declaration asks for are fresh where what is known is current. -/
theorem asked_fresh (hasks : h.Asks s.table known) (hknows : w.Knows known place) :
    ∀ e ∈ h.asked s place w.run, ∃ index answer, e = .asked index answer place ∧
      Fresh s.layout.named w.events index answer place := by
  intro e he
  obtain ⟨index, hindex, rfl⟩ := List.mem_map.mp he
  obtain ⟨offset, hoffset, htable⟩ := hasks.of_asks hindex
  rw [Setting.table, List.getElem?_map, Option.map_eq_some_iff] at htable
  obtain ⟨field, hfield, rfl⟩ := htable
  obtain ⟨value, place', number, hlatest, hplace, hnumber, hget⟩ := hknows _ hoffset
  have hanswer : (s.sizeContext w.run).valueAt index = .ok number.toInt32 :=
    SizeContext.valueAt_eq hfield (hget field rfl)
  exact ⟨index, _, rfl, field, value, place', number, hfield, hlatest, hplace, hnumber, hanswer⟩

theorem watchEnter_settles (hasks : h.Asks s.table known) (hfresh : AllFresh s.layout.named w.events)
    (hknows : w.Knows known place) :
    Settles s.layout.named [] known place (fun _ => false) w (h.watchEnter s place w) := by
  have hasked := asked_fresh hasks hknows
  have hmem : ∀ e ∈ (h.asked s place w.run).reverse, e ∈ h.asked s place w.run := fun e he => List.mem_reverse.mp he
  have heq : h.watchEnter s place w = ((h.enter s w.run).1, w.record (h.asked s place w.run)) := by
    change ((h.enter s w.run).1, { (w.record (h.asked s place w.run)) with run := (h.enter s w.run).2 }) = _
    rw [enter_eq]
    rfl
  have hkeeps : w.Keeps [] (w.record (h.asked s place w.run)) := by
    intro offset _
    refine ⟨latest_asked (fun e he => ?_) offset, fun _ _ => rfl⟩
    obtain ⟨index, answer, heq, -⟩ := hasked e (hmem e he)
    exact ⟨index, answer, place, heq⟩
  rw [heq]
  refine ⟨?_, hkeeps, ?_⟩
  · apply hfresh.append_asked
    intro e he
    exact hasked e (hmem e he)
  · intro _ _ _
    exact hknows.keeps hkeeps (List.disjoint_nil_right _)

theorem watchSingle_eq (r : Request) :
    h.watchSingle s r place w =
      match h.readSingle s r w.run with
      | (.error fault, run) => (.error fault, { w with run })
      | (.ok y, run) => (.ok y, ({ w with run } : Watch σ).record (y.decoded place)) := by
  rw [watchSingle, Stateful.bind_apply, Noted.does]
  rcases h.readSingle s r w.run with ⟨fault | y, run⟩ <;> rfl

/-- What is known behind a declaration that is no structure was decoded there or before it. -/
theorem watchSingle_settles {named : List NamedField} {r : Request} (hplain : h.Plain) (hregular : h.Regular)
    (hr : h.Requests r) (hapart : h.offset ∉ known) (hfresh : AllFresh named w.events) (hknows : w.Knows known place) :
    Settles named [h.offset] (Declaration.after known (.single h)) place (·.halted) w (h.watchSingle s r place w) := by
  rw [watchSingle_eq, readSingle_eq, Declaration.after]
  rcases hv : h.readValue s r w.run.readings w.run.source with ⟨fault | reply, source⟩
  · by_cases htolerated : fault.isEndOfInput && s.options.tolerant
    · simp only [if_pos htolerated]
      exact ⟨hfresh, fun _ _ => ⟨rfl, fun _ _ => rfl⟩, fun y hy hhalted => by cases hy; cases hhalted⟩
    · simp only [if_neg htolerated]
      exact ⟨hfresh, fun _ _ => ⟨rfl, fun _ _ => rfl⟩, fun y hy => by cases hy⟩
  let w₁ : Watch σ := { w with run := { w.run with source } }
  have hmoved : w.Keeps [h.offset] w₁ := fun _ _ => ⟨rfl, fun _ _ => rfl⟩
  have hdisjoint : known.Disjoint [h.offset] := List.disjoint_singleton.mpr hapart
  cases reply with
  | nothing =>
    refine ⟨hfresh, hmoved, ?_⟩
    intro _ _ _
    cases hkeeps : h.keeps with
    | false => exact hknows.keeps hmoved hdisjoint
    | true =>
      obtain ⟨field, type, n, -, heq⟩ := readValue_kept hplain hkeeps hr hv
      cases heq
  | cut v =>
    obtain ⟨hfresh', hkeeps', -⟩ := record_decoded hregular v true place w₁
    exact ⟨hfresh' named hfresh, hmoved.trans hkeeps', fun y hy hhalted => by cases hy; cases hhalted⟩
  | value v =>
    let w₂ : Watch σ := { w₁ with run := Setting.keepReading h.info v w₁.run }
    obtain ⟨hfresh', hkeeps', hlatest⟩ := record_decoded hregular v false place w₂
    have hchanged : w.Keeps [h.offset] (w₂.record (Yield.decoded ⟨[⟨h.info, v⟩], false⟩ place)) :=
      (hmoved.trans (keeps_keepReading hregular v w₁)).trans hkeeps'
    have hbefore := hknows.keeps hchanged hdisjoint
    -- What was known before is kept, and the number of the field itself is both kept and decoded last.
    refine ⟨hfresh' named hfresh, hchanged, ?_⟩
    intro _ _ _
    cases hkeeps : h.keeps with
    | false => exact hbefore
    | true =>
      obtain ⟨field, type, n, hinfo, heq⟩ := readValue_kept hplain hkeeps hr hv
      cases heq
      have hput : w₂.run.readings = w.run.readings.put field (.ofInt (type.toInt n)) := by
        change (Setting.keepReading h.info _ w₁.run).readings = _
        rw [hinfo]
        rfl
      have hget : ∀ field' : NamedField, field'.offset = h.offset →
          w₂.run.readings.get? field' = some (.ofInt (type.toInt n)) := by
        intro field' hfield'
        rw [hput, Readings.get?_put, if_pos (hfield'.trans (hregular.info field hinfo).symm)]
      have hcurrent : Watch.Current h.offset place (w₂.record (Yield.decoded ⟨[⟨h.info, _⟩], false⟩ place)) :=
        ⟨_, place, _, hlatest (Option.isSome_of_eq_some hinfo), List.prefix_refl _, rfl, hget⟩
      exact List.forall_mem_cons.mpr ⟨hcurrent, hbefore⟩

end Head

namespace Declaration
open Event
variable [BitSource σ] {s : Setting σ} {named : List NamedField} {changed known after : List Nat} {place : Repetition}

/-- An action that settles wherever what is known before it is current. -/
def SettlesFrom {α : Type} (named : List NamedField) (changed known after : List Nat) (place : Repetition)
    (halted : α → Bool) (action : Stateful (Watch σ) α) : Prop :=
  ∀ w : Watch σ, AllFresh named w.events → w.Knows known place →
    Settles named changed after place halted w (action w)

section elements
variable {body : Nat → Stateful (Watch σ) Yield}
  (hbody : ∀ element, SettlesFrom named changed known known place (fun _ => false) (body element))

include hbody

omit [BitSource σ] in
theorem watchTimes_settles (n element : Nat) :
    SettlesFrom named changed known known place (fun _ => false) (watchTimes body n element) := by
  induction n generalizing element with
  | zero => exact fun w hfresh hknows => .ok hfresh fun _ => hknows
  | succ n ih =>
    intro w hfresh hknows
    apply Settles.bind (hbody element w hfresh hknows)
    intro y w' _ hfresh' hknows'
    cases y.halted with
    | true => exact .ok hfresh' hknows'
    | false =>
      apply Settles.bind (ih (element + 1) w' hfresh' (hknows' rfl))
      exact fun _ _ _ hfresh'' hknows'' => .ok hfresh'' hknows''

theorem watchWhile_settles (options : ReadOptions) (size : Nat) :
    SettlesFrom named changed known known place (fun _ => false) (watchWhile options body size) := by
  intro w hfresh hknows
  induction hn : BitSource.left w.run.source using Nat.strongRecOn generalizing size w with
  | _ n ih =>
    rw [watchWhile]
    by_cases hend : BitSource.left w.run.source = 0
    · rw [if_pos hend]
      exact .ok hfresh fun _ => hknows
    rw [if_neg hend]
    by_cases hmax : options.maxElements ≤ size
    · rw [if_pos hmax]
      exact .error hfresh
    rw [if_neg hmax]
    have helement := hbody size w hfresh hknows
    rcases hy : body size w with ⟨fault | y, w'⟩
    · rw [hy] at helement
      exact ⟨helement.fresh, helement.keeps, fun _ heq => by cases heq⟩
    rw [hy] at helement
    have hknows' := helement.knows y rfl rfl
    dsimp only
    by_cases hhalted : y.halted
    · rw [if_pos hhalted]
      exact ⟨helement.fresh, helement.keeps, fun _ _ _ => hknows'⟩
    rw [if_neg hhalted]
    by_cases hless : BitSource.left w'.run.source < BitSource.left w.run.source
    · rw [if_pos hless]
      have hrest := ih _ (hn ▸ hless) (size + 1) w' helement.fresh hknows' rfl
      rcases hx : watchWhile options body (size + 1) w' with ⟨fault | x, w''⟩
      · rw [hx] at hrest
        exact ⟨hrest.fresh, helement.keeps.trans hrest.keeps, fun _ heq => by cases heq⟩
      · rw [hx] at hrest
        exact ⟨hrest.fresh, helement.keeps.trans hrest.keeps, fun _ _ _ => hrest.knows x rfl rfl⟩
    · rw [if_neg hless]
      exact ⟨helement.fresh, helement.keeps, fun _ _ _ => hknows'⟩

end elements

/-- What was known before a structure is known in its members. Behind it, the members are known
only if it is no array. -/
theorem watchElements_settles {body : Option Nat → Stateful (Watch σ) Yield} {offset : Nat}
    (hbody : ∀ element, SettlesFrom named changed known after (place.within offset element) (·.halted) (body element))
    (hapart : known.Disjoint changed) (options : ReadOptions) (count : ElementCount) :
    SettlesFrom named changed known (if count = .one then after else known) place Prod.snd
      (watchElements options count body) := by
  have helement : ∀ element,
      SettlesFrom named changed known known place (fun _ => false) (body (some element)) := by
    intro element w hfresh hknows
    exact (hbody (some element) w hfresh (hknows.within offset (some element))).around hknows hapart
  intro w hfresh hknows
  cases count with
  | one =>
    rw [if_pos rfl]
    apply Settles.bind (hbody none w hfresh hknows)
    exact fun _ _ _ hfresh' hknows' => .ok hfresh' hknows'
  | exactly n =>
    rw [if_neg (fun h => by cases h)]
    apply Settles.bind (watchTimes_settles helement n 0 w hfresh hknows)
    exact fun _ _ _ hfresh' hknows' => .ok hfresh' fun _ => hknows' rfl
  | untilEnd =>
    rw [if_neg (fun h => by cases h)]
    apply Settles.bind (watchWhile_settles helement options 0 w hfresh hknows)
    exact fun _ _ _ hfresh' hknows' => .ok hfresh' fun _ => hknows' rfl

/-- The offsets of a declaration and of those inside of it. -/
def offsets (d : Declaration) : List Nat := d.heads.map (·.offset)

def offsetsAll (ds : List Declaration) : List Nat := (headsAll ds).map (·.offset)

theorem offsets_nested (h : Head) (members : List Declaration) :
    (nested h members).offsets = h.offset :: offsetsAll members := rfl

theorem offsetsAll_cons (d : Declaration) (ds : List Declaration) :
    offsetsAll (d :: ds) = d.offsets ++ offsetsAll ds := List.map_append

mutual

theorem after_subset : (d : Declaration) → ∀ known : List Nat, d.after known ⊆ known ++ d.offsets
  | .single h, known => by
    rw [Declaration.after]
    split
    · intro offset hm
      rcases List.mem_cons.mp hm with rfl | hm
      · exact List.mem_append_right _ (List.mem_singleton_self _)
      · exact List.mem_append_left _ hm
    · exact List.subset_append_left _ _
  | .nested h members, known => by
    rw [Declaration.after, offsets_nested]
    split
    · intro offset hm
      rcases List.mem_append.mp (afterAll_subset members known hm) with hm | hm
      · exact List.mem_append_left _ hm
      · exact List.mem_append_right _ (List.mem_cons_of_mem _ hm)
    · exact List.subset_append_left _ _

theorem afterAll_subset : (ds : List Declaration) → ∀ known : List Nat, afterAll known ds ⊆ known ++ offsetsAll ds
  | [], known => List.subset_append_left _ _
  | d :: ds, known => by
    rw [offsetsAll_cons]
    intro offset hm
    rcases List.mem_append.mp (afterAll_subset ds (d.after known) hm) with hm | hm
    · rcases List.mem_append.mp (after_subset d known hm) with hm | hm
      · exact List.mem_append_left _ hm
      · exact List.mem_append_right _ (List.mem_append_left _ hm)
    · exact List.mem_append_right _ (List.mem_append_right _ hm)

end

mutual

theorem watch_settles : (d : Declaration) → d.Formed (fun h => h.Plain ∧ h.Regular) →
    ∀ (known : List Nat) (depth : Nat) (place : Repetition), d.Scoped s.table known → known.Disjoint d.offsets →
      d.offsets.Nodup →
      SettlesFrom s.layout.named d.offsets known (d.after known) place (·.halted) (d.watch s depth place)
  | .single h, hf, known, depth, place, hscoped, hapart, _ => by
    intro w hfresh hknows
    have hentered := Head.watchEnter_settles hscoped hfresh hknows
    apply Settles.bind (hentered.mono (List.nil_subset _))
    intro entered w' hok hfresh' hknows'
    cases entered with
    | none => exact .ok hfresh' fun hhalted => by cases hhalted
    | some r =>
      have hr := h.watchEnter_requests hok
      exact Head.watchSingle_settles hf.1.1 hf.1.2 hr (List.disjoint_singleton.mp hapart) hfresh' (hknows' rfl)
  | .nested h members, hf, known, depth, place, hscoped, hapart, hnodup => by
    intro w hfresh hknows
    rw [offsets_nested] at hapart hnodup ⊢
    have hentered := Head.watchEnter_settles hscoped.1 hfresh hknows
    apply Settles.bind (hentered.mono (List.nil_subset _))
    intro entered w' hok hfresh' hknows'
    cases entered with
    | none => exact .ok hfresh' fun hhalted => by cases hhalted
    | some r =>
      have hr := h.watchEnter_requests hok
      by_cases hdepth : s.options.maxDepth < depth + 1
      · simp only [if_pos hdepth]
        exact .error hfresh'
      simp only [if_neg hdepth]
      have hinside : known.Disjoint (offsetsAll members) := (List.disjoint_cons_right.mp hapart).2
      have hmembers := watchAll_settles members hf.2.2 known (depth + 1)
      have hmembers := fun element =>
        watchAll_settles members hf.2.2 known (depth + 1) (place.within h.offset element) hscoped.2 hinside
          (List.nodup_cons.mp hnodup).2
      have helements := watchElements_settles hmembers hinside s.options r.count w' hfresh' (hknows' rfl)
      -- The members of an array are not known behind it, but what was known before it still is.
      have hafter : Settles s.layout.named (offsetsAll members) (Declaration.after known (.nested h members)) place
          Prod.snd w' (watchElements s.options r.count
            (fun element => watchAll s (depth + 1) (place.within h.offset element) members) w') := by
        rw [Declaration.after]
        by_cases hone : h.extent = .one
        · rw [if_pos hone]
          rwa [if_pos (hr.one.mpr hone)] at helements
        · rw [if_neg hone]
          exact helements.around (hknows' rfl) hinside
      apply Settles.bind (hafter.mono (List.subset_cons_self _ _))
      exact fun _ _ _ hfresh'' hknows'' => .ok hfresh'' hknows''

/-- Declarations whose sizes ask for what is known get fresh answers, and what is known behind
them is current. -/
theorem watchAll_settles : (ds : List Declaration) → FormedAll (fun h => h.Plain ∧ h.Regular) ds →
    ∀ (known : List Nat) (depth : Nat) (place : Repetition), ScopedAll s.table known ds →
      known.Disjoint (offsetsAll ds) → (offsetsAll ds).Nodup →
      SettlesFrom s.layout.named (offsetsAll ds) known (afterAll known ds) place (·.halted) (watchAll s depth place ds)
  | [], _, _, _, _, _, _, _ => fun _ hfresh hknows => .ok hfresh fun _ => hknows
  | d :: ds, hf, known, depth, place, hscoped, hapart, hnodup => by
    intro w hfresh hknows
    rw [offsetsAll_cons] at hapart hnodup ⊢
    obtain ⟨hnodup, hnodups, hothers⟩ := List.nodup_append.mp hnodup
    obtain ⟨hfirst, hrest⟩ := List.disjoint_append_right.mp hapart
    have hbehind : (d.after known).Disjoint (offsetsAll ds) := by
      intro offset hm hm'
      rcases List.mem_append.mp (after_subset d known hm) with hm | hm
      · exact hrest hm hm'
      · exact hothers offset hm offset hm' rfl
    have hd := watch_settles d hf.1 known depth place hscoped.1 hfirst hnodup w hfresh hknows
    apply Settles.bind (hd.mono (List.subset_append_left _ _))
    intro first w' _ hfresh' hknows'
    cases hhalted : first.halted with
    | true => exact .ok hfresh' fun h => by rw [hhalted] at h; cases h
    | false =>
      have hds := watchAll_settles ds hf.2 (d.after known) depth place hscoped.2 hbehind hnodups w' hfresh'
        (hknows' hhalted)
      apply Settles.bind (hds.mono (List.subset_append_right _ _))
      exact fun _ _ _ hfresh'' hknows'' => .ok hfresh'' hknows''

end

theorem watchScript_fresh {ds : List Declaration} (hf : FormedAll (fun h => h.Plain ∧ h.Regular) ds)
    (hscoped : ScopedAll s.table [] ds) (hnodup : (offsetsAll ds).Nodup) (source : σ) :
    AllFresh s.layout.named (watchScript s ds source).2.events := by
  have hsettles := watchAll_settles ds hf [] 0 [] hscoped (List.disjoint_nil_left _) hnodup { run := { source } } trivial
    (List.forall_mem_nil _)
  have hscript : Settles s.layout.named (offsetsAll ds) [] [] (fun _ => false) { run := { source } }
      (watchScript s ds source) :=
    Settles.bind hsettles fun _ _ _ hfresh _ => .ok hfresh fun _ => List.forall_mem_nil _
  exact hscript.fresh

end Declaration

/-- Watching a reading of a compiled script changes nothing of it. Every field is written down
with its elements of the structure arrays around it, and every size that asks for a field gets
the number that was decoded last for it, in the same element of each of these arrays. -/
theorem Layout.read_asked_fresh {custom : Option CustomTypes} {script : String} {layout : Layout}
    (h : compileWith custom script = .ok layout) (hcustom : layout.customTypes = [])
    (hvar : ∀ lines, layout.lines = .ok lines → ∀ line ∈ lines, line.kind ≠ .var) :
    ∃ ds, Declaration.ofScript custom script = some ds ∧
      ∀ {σ : Type} [BitSource σ] (options : ReadOptions) (collaborators : Collaborators σ) (source : σ),
        let s : Setting σ := ⟨layout, options, collaborators⟩
        let watched := Declaration.watchScript s ds source
        (watched.1, watched.2.run) = s.read source ∧
          (∀ e ∈ watched.2.events, e.Placed (Declaration.placedAll [] ds)) ∧
          ∀ later index answer place earlier, watched.2.events = later ++ .asked index answer place :: earlier →
            Event.Fresh layout.named earlier index answer place := by
  obtain ⟨ts, d, ds, -, hds, htraced, hopened, rfl⟩ := compileWith_traced h
  have hof := htraced.isOf hopened (by rw [show d.customTypes = [] from hcustom]; exact Nat.zero_le _) script
  have hplain := hof.plain hcustom hvar
  have hf : Declaration.FormedAll (fun h => h.Plain ∧ h.Regular) ds := by
    apply Declaration.FormedAll.of_heads ds hplain
    intro head hm
    exact ⟨Declaration.FormedAll.heads ds hplain head hm, htraced.regular head hm⟩
  have hnodup : (Declaration.offsetsAll ds).Nodup := by
    apply List.pairwise_map.mpr
    exact htraced.offsets_increase.imp Nat.ne_of_lt
  refine ⟨ds, hds, ?_⟩
  intro σ _ options collaborators source s watched
  refine ⟨?_, Declaration.watchScript_placed s ds source, ?_⟩
  · rw [hof.read_eq s source]
    exact Declaration.watchScript_run s ds source
  · intro later index answer place earlier hevents
    have hfresh := Declaration.watchScript_fresh (s := s) hf htraced.scopedAll hnodup source
    rw [show (Declaration.watchScript s ds source).2.events = _ from hevents] at hfresh
    exact hfresh.asked

/-- What is asked in an event, and the answer. -/
def Event.question? : Event → Option (Nat × Except Fault Int32 × Repetition)
  | .decoded .. => none
  | .asked index answer place => some (index, answer, place)

/-- The second element of an array asks for its own `k`, not for that of the first one. -/
theorem Layout.read_asked_fresh_record :
    let script := "ubyte n; rec[n] \x7b ubyte k; ubyte[k] a; \x7d"
    let source := Reader.ofBytes [2, 1, 7, 2, 8, 9] .lsb0
    ∃ layout ds, compileWith none script = .ok layout ∧ layout.customTypes = [] ∧
      (∀ lines, layout.lines = .ok lines → ∀ line ∈ lines, line.kind ≠ .var) ∧
      Declaration.ofScript none script = some ds ∧
      let watched := Declaration.watchScript ⟨layout, {}, {}⟩ ds source
      watched.2.events.filterMap Event.question? =
          [(2, .ok 2, [(1, 1)]), (2, .ok 1, [(1, 0)]), (0, .ok 2, [])] ∧
        ∃ later earlier, watched.2.events = later ++ .asked 2 (.ok 2) [(1, 1)] :: earlier ∧
          Event.Fresh layout.named earlier 2 (.ok 2) [(1, 1)] := by
  intro script source
  have hcompiles : (compileWith none script).toOption.any (fun layout => layout.customTypes.isEmpty &&
      layout.lines.toOption.any (·.all fun line => line.kind ≠ .var) &&
      (Declaration.ofScript none script).any fun ds =>
        (Declaration.watchScript ⟨layout, {}, {}⟩ ds source).2.events.filterMap Event.question? =
          [(2, .ok 2, [(1, 1)]), (2, .ok 1, [(1, 0)]), (0, .ok 2, [])]) = true := by decide +kernel
  obtain ⟨layout, hlayout, hchecks⟩ := of_any_ok hcompiles
  simp only [Bool.and_eq_true] at hchecks
  obtain ⟨⟨hcustom, hlines⟩, hquestions⟩ := hchecks
  have hvar : ∀ lines, layout.lines = .ok lines → ∀ line ∈ lines, line.kind ≠ .var :=
    fun lines heq line hm => of_decide_eq_true (forall_mem_of_any_all hlines lines heq line hm)
  have hcustom := List.isEmpty_iff.mp hcustom
  obtain ⟨ds, hds, hread⟩ := read_asked_fresh hlayout hcustom hvar
  rw [hds] at hquestions
  have hquestions := of_decide_eq_true hquestions
  refine ⟨layout, ds, hlayout, hcustom, hvar, hds, hquestions, ?_⟩
  have hasked : Event.asked 2 (.ok 2) [(1, 1)] ∈ (Declaration.watchScript ⟨layout, {}, {}⟩ ds source).2.events := by
    have hm := List.mem_filterMap.mp (hquestions ▸ List.mem_cons_self ..)
    obtain ⟨e, he, hquestion⟩ := hm
    cases e with
    | decoded => cases hquestion
    | asked =>
      cases hquestion
      exact he
  obtain ⟨later, earlier, hevents⟩ := List.append_of_mem hasked
  exact ⟨later, earlier, hevents, (hread {} {} source).2.2 later 2 (.ok 2) _ earlier hevents⟩

end LayoutScript
