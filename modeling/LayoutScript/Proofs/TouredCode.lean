import LayoutScript.Proofs.InStep
import LayoutScript.Proofs.ReadMembers
import LayoutScript.Proofs.Tolerance

/-! # What a reading visits

The tour of a reading, the visits in its chronicle, comes to places where the tables are in step with
the code, and reads at no place inside more structures than the options allow: a structure that would
be deeper ends the reading with a fault. What is read to the end without tolerance has been visited
line by line, though not every line has been read.
-/
namespace LayoutScript
variable {σ : Type} [BitSource σ]

namespace Visit

/-- The start of a structure that is to be read inside as many structures as are allowed. -/
def TooDeep (s : Setting σ) (v : Visit σ) : Prop :=
  v.skipping = false ∧ s.options.maxDepth < v.depth + 1 ∧ ∃ line ∈ v.place.code.head?, line.kind = .opening

/-- What the instruction asks for when it is read, or the fault of its name or its sizes. -/
def asked (s : Setting σ) (v : Visit σ) : Except Fault Request :=
  match v.place.code with
  | [] => .error (.corrupt 0)
  | line :: _ => do
    let (info, _) ← takeName line v.place.named
    (s.request line info v.place.sizes v.run).1.map (·.1)

/-- The fault of a structure that lies too deep. What it asks for is told first. -/
def refusal (s : Setting σ) (v : Visit σ) : Fault :=
  match v.asked s with
  | .error fault => fault
  | .ok _ => .input (.tooDeep s.options.maxDepth)

/-- A visit in step with the code. What is read is in no more structures than are allowed. -/
structure Fits (s : Setting σ) (lines : List CodeLine) (v : Visit σ) : Prop where
  nonempty : v.place.code ≠ []
  step : s.layout.InStep lines v.depth v.place
  bounded : v.skipping = false → v.depth ≤ s.options.maxDepth

/-- A structure that lies too deep is refused by every reading without tolerance. -/
def Refused (s : Setting σ) (v : Visit σ) : Prop := s.options.tolerant = false ∧ v.TooDeep s

end Visit

/-- The visits of a reading that has met with no structure to be refused. -/
def Sound (s : Setting σ) (lines : List CodeLine) (visits : List (Visit σ)) : Prop :=
  ∀ v ∈ visits, v.Fits s lines ∧ ¬ v.Refused s

/-- The visits of a reading that ended with a fault. -/
def Failed (s : Setting σ) (lines : List CodeLine) (fault : Fault) (visits : List (Visit σ)) : Prop :=
  ∀ v ∈ visits, v.Fits s lines ∧ (v.Refused s → v.refusal s = fault)

theorem Sound.failed {s : Setting σ} {lines : List CodeLine} {visits : List (Visit σ)} (h : Sound s lines visits)
    (fault : Fault) : Failed s lines fault visits :=
  fun v hv => ⟨(h v hv).1, fun hrefused => absurd hrefused (h v hv).2⟩

/-- The lines of the code before `rest` have been visited. -/
def Covers (lines : List CodeLine) (visits : List (Visit σ)) (rest : List CodeLine) : Prop :=
  ∀ code, code <:+ lines → rest.length < code.length → ∃ v ∈ visits, v.place.code = code

omit [BitSource σ] in
theorem Covers.mono {lines rest rest' : List CodeLine} {visits : List (Visit σ)} (h : Covers lines visits rest)
    (hlength : rest.length ≤ rest'.length) : Covers lines visits rest' :=
  fun code hcode hlt => h code hcode (Nat.lt_of_le_of_lt hlength hlt)

omit [BitSource σ] in
theorem Covers.visit {lines code : List CodeLine} {line : CodeLine} {visits : List (Visit σ)}
    (h : Covers lines visits (line :: code)) (hsuffix : line :: code <:+ lines) {v : Visit σ}
    (hv : v.place.code = line :: code) : Covers lines (v :: visits) code := by
  intro code' hcode' hlt
  rcases Nat.lt_or_eq_of_le (Nat.succ_le_of_lt hlt) with hlt | heq
  · obtain ⟨v', hv', hplace⟩ := h code' hcode' hlt
    exact ⟨v', List.mem_cons_of_mem _ hv', hplace⟩
  · have hsame := List.suffix_of_suffix_length_le hsuffix hcode' (Nat.le_of_eq heq)
    exact ⟨v, List.mem_cons_self .., hv.trans (hsame.eq_of_length heq)⟩

/-! ## Rules for visits -/

/-- From visits that `before` holds of, an action comes to visits that `after` holds of, or fails. -/
def Leads {α : Type} (s : Setting σ) (lines : List CodeLine) (before : List (Visit σ) → Prop)
    (action : Stateful (Chronicle σ) α) (after : α → List (Visit σ) → Prop) : Prop :=
  ∀ c, Sound s lines c.visits → before c.visits →
    match action c with
    | (.ok a, c') => Sound s lines c'.visits ∧ after a c'.visits
    | (.error fault, c') => Failed s lines fault c'.visits

namespace Leads
variable {α β : Type} {s : Setting σ} {lines : List CodeLine} {before before' : List (Visit σ) → Prop}
  {action : Stateful (Chronicle σ) α} {after : α → List (Visit σ) → Prop}

theorem pure {a : α} (h : ∀ visits, before visits → after a visits) :
    Leads s lines before (Pure.pure a) after := fun c hsound hc => ⟨hsound, h c.visits hc⟩

theorem throw (fault : Fault) : Leads s lines before (MonadExcept.throw fault) after :=
  fun _ hsound _ => hsound.failed fault

theorem weaken (h : Leads s lines before action after) (hbefore : ∀ visits, before' visits → before visits) :
    Leads s lines before' action after := fun c hsound hc => h c hsound (hbefore _ hc)

theorem imp {after' : α → List (Visit σ) → Prop} (h : Leads s lines before action after)
    (hafter : ∀ a visits, after a visits → after' a visits) : Leads s lines before action after' := by
  intro c hsound hc
  have haction := h c hsound hc
  rcases ha : action c with ⟨fault | a, c'⟩
  · rw [ha] at haction
    exact haction
  · rw [ha] at haction
    exact ⟨haction.1, hafter _ _ haction.2⟩

/-- What is known before an action and does not concern its visits can be told apart. -/
theorem given {P : Prop} (h : P → Leads s lines before action after) :
    Leads s lines (fun visits => P ∧ before visits) action after := fun c hsound hc => h hc.1 c hsound hc.2

theorem bind {next : α → Stateful (Chronicle σ) β} {last : β → List (Visit σ) → Prop} (h : Leads s lines before action after)
    (hnext : ∀ a, Leads s lines (after a) (next a) last) : Leads s lines before (action >>= next) last := by
  intro c hsound hc
  have haction := h c hsound hc
  rw [Stateful.bind_apply]
  rcases ha : action c with ⟨fault | a, c'⟩
  · rw [ha] at haction
    exact haction
  · rw [ha] at haction
    exact hnext a c' haction.1 haction.2

/-- What is done on a run notes nothing. -/
theorem does (action : Stateful (Run σ) α) :
    Leads s lines before (Noted.does action)
      (fun a visits => (∃ run run', action run = (.ok a, run')) ∧ before visits) := by
  intro c hsound hc
  rw [Noted.does]
  rcases ha : action c.run with ⟨fault | a, run⟩
  · exact hsound.failed fault
  · exact ⟨hsound, ⟨c.run, run, ha⟩, hc⟩

theorem lift (x : Except Fault α) :
    Leads s lines before (liftM x) (fun a visits => x = .ok a ∧ before visits) := by
  cases x with
  | error fault => exact .throw fault
  | ok a => exact .pure fun visits hvisits => ⟨rfl, hvisits⟩

/-- What is no visit may be noted. -/
theorem note {events : Run σ → List (Chronicle.Event σ)} (hevents : ∀ run, ∀ event ∈ events run, event.visit? = none) :
    Leads s lines before (Noted.note events) (fun _ => before) := by
  intro c hsound hc
  have hvisits : Chronicle.visits (c.record (events c.run)) = c.visits := by
    have hnone : (events c.run).reverse.filterMap Chronicle.Event.visit? = [] :=
      List.filterMap_eq_nil_iff.mpr fun event hm => hevents c.run event (List.mem_reverse.mp hm)
    rw [Chronicle.visits, Noted.record, List.filterMap_append, hnone]
    rfl
  change Sound s lines (Chronicle.visits (c.record (events c.run))) ∧ before (Chronicle.visits (c.record (events c.run)))
  rw [hvisits]
  exact ⟨hsound, hc⟩

/-- A visit that fits and is not refused is noted before going on. -/
theorem visit {line : CodeLine} {code : List CodeLine} {named : List NamedField} {sizes : List SizeSource} {depth : Nat}
    {skipping : Bool} (hstep : s.layout.InStep lines depth ⟨line :: code, named, sizes⟩)
    (hbounded : skipping = false → depth ≤ s.options.maxDepth)
    (hrefused : ∀ run, ¬ (⟨⟨line :: code, named, sizes⟩, depth, skipping, run⟩ : Visit σ).Refused s)
    (h : Leads s lines (Covers lines · code) action after) :
    Leads s lines (Covers lines · (line :: code))
      (do Chronicle.noteVisit ⟨line :: code, named, sizes⟩ depth skipping; action) after := by
  intro c hsound hc
  refine h (c.record [.visits ⟨_, depth, skipping, c.run⟩]) ?_ (hc.visit hstep.suffix rfl)
  exact List.forall_mem_cons.mpr ⟨⟨⟨List.cons_ne_nil _ _, hstep, hbounded⟩, hrefused _⟩, hsound⟩

end Leads

/-! ## Bodies -/

def Walk.next? : Walk → Option Place
  | .done _ next => some next
  | .halted _ => none

theorem Walk.next?_cons (f : Field) (w : Walk) : (w.cons f).next? = w.next? := by cases w <;> rfl

/-- A walk of the code `start` has come to a place, with the code before it visited, or has halted at the
end of the input. -/
def Arrives (s : Setting σ) (lines : List CodeLine) (depth : Nat) (start : List CodeLine) :
    Option Place → List (Visit σ) → Prop
  | some next, visits =>
    s.layout.InStep lines depth next ∧ next.code.length ≤ start.length ∧ Covers lines visits next.code
  | none, _ => s.options.tolerant = true

/-- The elements up to the end of the input have been walked. Without any, the body has yet to be passed. -/
structure Exhausts (s : Setting σ) (lines : List CodeLine) (depth : Nat) (start : List CodeLine) (items : List Record)
    (next? : Option Place) (halted : Bool) (visits : List (Visit σ)) : Prop where
  halts : halted = true → s.options.tolerant = true ∧ next? = none
  covers : halted = false → Covers lines visits start
  arrives : halted = false → items ≠ [] → Arrives s lines depth start next? visits

variable {s : Setting σ} {lines : List CodeLine}

omit [BitSource σ] in
theorem Arrives.mono {depth : Nat} {start start' : List CodeLine} {next? : Option Place} {visits : List (Visit σ)}
    (h : Arrives s lines depth start next? visits) (hlength : start.length ≤ start'.length) :
    Arrives s lines depth start' next? visits := by
  cases next? with
  | none => exact h
  | some next => exact ⟨h.1, Nat.le_trans h.2.1 hlength, h.2.2⟩

theorem leads_noteHalt {before : List (Visit σ) → Prop} : Leads s lines before Chronicle.noteHalt (fun _ => before) :=
  .note (by simp [Chronicle.Event.visit?])

theorem leads_keepReading {before : List (Visit σ) → Prop} (info : Option NamedField) (v : Value) :
    Leads s lines before (Chronicle.keepReading info v) (fun _ => before) := by
  unfold Chronicle.keepReading
  split
  · exact (Leads.does _).bind fun _ => .given fun _ => .note (by simp [Chronicle.Event.visit?])
  · exact .pure fun _ h => h

theorem leads_skipBody (ht : s.layout.Tabled lines) {depth inner : Nat} {code : List CodeLine} {named : List NamedField}
    {sizes : List SizeSource} (hstep : s.layout.InStep lines (depth + 1 + inner) ⟨code, named, sizes⟩) :
    Leads s lines (Covers lines · code) (Chronicle.skipBody s.layout (depth + 1) inner code named sizes)
      (fun next => Arrives s lines depth code (some next)) := by
  induction code generalizing inner named sizes with
  | nil => exact .throw _
  | cons line code ih =>
    refine Leads.visit hstep (by simp) (fun run h => Bool.noConfusion h.2.1) ?_
    have hlonger : code.length ≤ (line :: code).length := Nat.le_succ _
    by_cases hclosing : line.kind = .closing
    · rw [if_pos hclosing]
      have hleave := hstep.leave ht hclosing
      cases inner with
      | zero => exact .pure fun visits h => ⟨hleave, hlonger, h⟩
      | succ inner => exact (ih hleave).imp fun next visits h => h.mono hlonger
    · rw [if_neg hclosing]
      apply (Leads.lift _).bind
      intro taken
      refine .given fun hname => ?_
      have hpass := hstep.pass hclosing hname
      have hinner : (if line.kind = .opening then depth + 1 + inner + 1 else depth + 1 + inner) =
          depth + 1 + if line.kind = .opening then inner + 1 else inner := by
        split <;> rfl
      rw [hinner] at hpass
      exact (ih hpass).imp fun next visits h => h.mono hlonger

section bodies
variable {body : Stateful (Chronicle σ) Walk} {code : List CodeLine} {depth : Nat}
  (hbody : Leads s lines (Covers lines · code) body fun walk => Arrives s lines depth code walk.next?)

include hbody

theorem leads_repeatBody (n : Nat) (acc : List Record) (place : Place) :
    Leads s lines (Arrives s lines depth code (some place)) (repeatBody body n acc place)
      (fun elements => Arrives s lines depth code elements.2) := by
  induction n generalizing acc place with
  | zero => exact .pure fun _ h => h
  | succ n ih =>
    apply (hbody.weaken fun _ h => h.2.2.mono h.2.1).bind
    intro walk
    cases walk with
    | done fields place => exact ih _ _
    | halted fields => exact .pure fun _ h => h

theorem leads_repeatUntilEnd (options : ReadOptions) (size : Nat) (acc : List Record) (place : Option Place) :
    Leads s lines (fun visits => Covers lines visits code ∧ (acc ≠ [] → Arrives s lines depth code place visits))
      (Chronicle.repeatUntilEnd options body size acc place)
      (fun elements => Exhausts s lines depth code elements.1 elements.2.1 elements.2.2) := by
  intro c hsound hc
  induction hn : BitSource.left c.run.source using Nat.strongRecOn generalizing size acc place c with
  | _ n ih =>
    rw [Chronicle.repeatUntilEnd]
    by_cases hend : BitSource.left c.run.source = 0
    · rw [if_pos hend]
      refine ⟨hsound, by simp, fun _ => hc.1, fun _ hne => hc.2 fun hnil => ?_⟩
      exact hne (List.reverse_eq_nil_iff.mpr hnil)
    rw [if_neg hend]
    by_cases hmax : options.maxElements ≤ size
    · rw [if_pos hmax]
      exact hsound.failed _
    rw [if_neg hmax]
    have hwalk := hbody c hsound hc.1
    rcases hb : body c with ⟨fault | fields | fields, c'⟩
    · rw [hb] at hwalk
      exact hwalk
    · rw [hb] at hwalk
      obtain ⟨hsound', harrives⟩ := hwalk
      have hcovers : Covers lines c'.visits code := harrives.2.2.mono harrives.2.1
      dsimp only
      by_cases hless : BitSource.left c'.run.source < BitSource.left c.run.source
      · rw [if_pos hless]
        exact ih _ (hn ▸ hless) (size + 1) _ _ (c'.record [.adds ⟨fields⟩]) hsound' ⟨hcovers, fun _ => harrives⟩ rfl
      · rw [if_neg hless]
        exact ⟨hsound', by simp, fun _ => hcovers, fun _ _ => harrives⟩
    · rw [hb] at hwalk
      exact ⟨hwalk.1, fun _ => ⟨hwalk.2, rfl⟩, by simp, by simp⟩

theorem leads_noteAdded :
    Leads s lines (Covers lines · code) (body >>= Chronicle.noteAdded) fun walk => Arrives s lines depth code walk.next? := by
  apply hbody.bind
  intro walk
  cases walk with
  | done fields place => exact (Leads.note (by simp [Chronicle.Event.visit?])).bind fun _ => .pure fun _ h => h
  | halted fields => exact .pure fun _ h => h

omit hbody in
theorem leads_structure (ht : s.layout.Tabled lines) {named : List NamedField} {sizes : List SizeSource}
    (hstep : s.layout.InStep lines (depth + 1) ⟨code, named, sizes⟩)
    (hbody : Leads s lines (Covers lines · code) body fun walk => Arrives s lines depth code walk.next?)
    (count : ElementCount) :
    Leads s lines (Covers lines · code) (s.chronicleStructure depth count ⟨code, named, sizes⟩ body)
      (fun read => Arrives s lines depth code read.2) := by
  have hskip : Leads s lines (Covers lines · code) (Chronicle.skipBody s.layout (depth + 1) 0 code named sizes)
      (fun next => Arrives s lines depth code (some next)) := leads_skipBody ht hstep
  cases count with
  | one =>
    apply hbody.bind
    intro walk
    cases walk <;> exact .pure fun _ h => h
  | exactly n =>
    cases n with
    | zero => exact hskip.bind fun _ => .pure fun _ h => h
    | succ n =>
      have hadded := leads_noteAdded hbody
      have htimes : Leads s lines (Covers lines · code)
          (repeatBody (body >>= Chronicle.noteAdded) (n + 1) [] ⟨code, named, sizes⟩)
          (fun elements => Arrives s lines depth code elements.2) := by
        apply hadded.bind
        intro walk
        cases walk with
        | done fields place => exact leads_repeatBody hadded _ _ _
        | halted fields => exact .pure fun _ h => h
      exact htimes.bind fun _ => .pure fun _ h => h
  | untilEnd =>
    have hwhile := leads_repeatUntilEnd hbody s.options 0 [] none
    apply (hwhile.weaken fun visits h => ⟨h, fun hne => absurd rfl hne⟩).bind
    rintro ⟨items, next, halted⟩
    dsimp only
    cases halted with
    | true =>
      rw [Bool.not_true, Bool.and_false, if_neg Bool.false_ne_true]
      refine .pure fun visits h => ?_
      obtain ⟨htolerant, rfl⟩ := h.halts rfl
      exact htolerant
    | false =>
      cases items with
      | nil =>
        apply (hskip.weaken fun visits h => h.covers rfl).bind
        exact fun _ => .pure fun _ h => h
      | cons item items => exact .pure fun visits h => h.arrives rfl (List.cons_ne_nil _ _)

end bodies

/-! ## The tour of a reading -/

/-- A structure that is to be read and lies too deep ends a reading. -/
theorem chronicleWalk_refused {line : CodeLine} {code : List CodeLine} {named : List NamedField}
    {sizes : List SizeSource} {depth : Nat} (c : Chronicle σ)
    (hrefused : (⟨⟨line :: code, named, sizes⟩, depth, false, c.run⟩ : Visit σ).Refused s) :
    ∃ run, s.chronicleWalk depth ⟨line :: code, named, sizes⟩ c =
      (.error ((⟨⟨line :: code, named, sizes⟩, depth, false, c.run⟩ : Visit σ).refusal s),
        ⟨run, .visits ⟨⟨line :: code, named, sizes⟩, depth, false, c.run⟩ :: c.events⟩) := by
  obtain ⟨hstrict, -, hdeep, _, ⟨⟩, hopening⟩ := hrefused
  have hclosing : line.kind ≠ .closing := by simp [hopening]
  have hstops (count : ElementCount) (run : Run σ) : s.stopsBefore line.kind count run = false := by
    simp [Setting.stopsBefore, hstrict]
  rw [Setting.chronicleWalk, Visit.refusal, Visit.asked]
  simp only [if_neg hclosing, if_pos hopening, if_pos hdeep, hstops]
  cases hname : takeName line named with
  | error fault => exact ⟨c.run, rfl⟩
  | ok taken =>
    obtain ⟨info, named'⟩ := taken
    change ∃ run, (Noted.does (s.request line info sizes) >>= _) (⟨c.run, _⟩ : Chronicle σ) =
      (.error (match (s.request line info sizes c.run).1.map (·.1) with | .error fault => fault | .ok _ => _), _)
    rw [Stateful.bind_apply, Noted.does]
    rcases s.request line info sizes c.run with ⟨fault | ⟨r, sizes'⟩, run⟩
    · exact ⟨run, rfl⟩
    · exact ⟨run, rfl⟩

/-- A walk of some code comes to a place outside of the structure around it with the code before visited, at the
end of all code if there is no structure around, or it halts. -/
theorem leads_chronicleWalk (ht : s.layout.Tabled lines) (depth : Nat) (place : Place)
    (hstep : s.layout.InStep lines depth place) (hdepth : depth ≤ s.options.maxDepth) :
    Leads s lines (Covers lines · place.code) (s.chronicleWalk depth place)
      (fun walk visits => Arrives s lines (depth - 1) place.code walk.next? visits ∧
        (depth = 0 → ∀ next ∈ walk.next?, next.code = [])) := by
  induction hn : place.code.length using Nat.strongRecOn generalizing depth place with
  | _ n ih =>
    obtain ⟨_ | ⟨line, code⟩, named, sizes⟩ := place
    · rw [Setting.chronicleWalk]
      by_cases hzero : depth = 0
      · rw [if_pos hzero]
        subst hzero
        refine .pure fun visits h => ⟨⟨hstep, Nat.le_refl _, h⟩, fun _ next hnext => ?_⟩
        cases hnext
        rfl
      · rw [if_neg hzero]
        exact .throw _
    by_cases hdeep : s.options.tolerant = false ∧ s.options.maxDepth < depth + 1 ∧ line.kind = .opening
    · intro c hsound _
      have hrefused : (⟨⟨line :: code, named, sizes⟩, depth, false, c.run⟩ : Visit σ).Refused s :=
        ⟨hdeep.1, rfl, hdeep.2.1, line, rfl, hdeep.2.2⟩
      obtain ⟨run, heq⟩ := chronicleWalk_refused c hrefused
      rw [heq]
      refine List.forall_mem_cons.mpr ⟨⟨⟨List.cons_ne_nil _ _, hstep, fun _ => hdepth⟩, fun _ => rfl⟩, ?_⟩
      exact hsound.failed _
    have hbehind : ∀ next, s.layout.InStep lines depth next → next.code.length ≤ code.length →
        Leads s lines (Covers lines · next.code) (s.chronicleWalk depth next)
          (fun walk visits => Arrives s lines (depth - 1) (line :: code) walk.next? visits ∧
            (depth = 0 → ∀ next ∈ walk.next?, next.code = [])) := by
      intro next hnext hlength
      have hwalk := ih _ (hn ▸ Nat.lt_succ_of_le hlength) depth next hnext hdepth rfl
      exact hwalk.imp fun walk visits h => ⟨h.1.mono (Nat.le_succ_of_le hlength), h.2⟩
    rw [Setting.chronicleWalk]
    refine .visit hstep (fun _ => hdepth) (fun run hrefused => ?_) ?_
    · obtain ⟨hstrict, -, hmax, _, hline, hopening⟩ := hrefused
      cases hline
      exact hdeep ⟨hstrict, hmax, hopening⟩
    by_cases hclosing : line.kind = .closing
    · rw [if_pos hclosing]
      by_cases hzero : depth = 0
      · rw [if_pos hzero]
        exact .throw _
      · rw [if_neg hzero]
        exact .pure fun visits h => ⟨⟨hstep.leave ht hclosing, Nat.le_succ _, h⟩, fun h => absurd h hzero⟩
    rw [if_neg hclosing]
    apply (Leads.lift _).bind
    rintro ⟨info, named'⟩
    refine .given fun hname => ?_
    apply (Leads.does _).bind
    rintro ⟨r, sizes'⟩
    apply Leads.given
    rintro ⟨run, run', hrequest⟩
    have hpass := hstep.pass hclosing hname
    rw [← s.rest_of_request hrequest] at hpass
    apply (Leads.does _).bind
    intro run
    refine .given fun _ => ?_
    by_cases hstop : s.stopsBefore line.kind r.count run = true
    · rw [if_pos hstop]
      have htolerant : s.options.tolerant = true := by
        simp only [Setting.stopsBefore, Bool.and_eq_true] at hstop
        exact hstop.1.1
      refine leads_noteHalt.bind fun _ => .pure fun _ _ => ?_
      exact ⟨htolerant, fun _ next hnext => by cases hnext⟩
    rw [if_neg hstop]
    by_cases hopening : line.kind = .opening
    · rw [if_pos hopening] at hpass ⊢
      by_cases hmax : s.options.maxDepth < depth + 1
      · simp only [if_pos hmax]
        exact .throw _
      simp only [if_neg hmax]
      have hwalk := ih _ (hn ▸ Nat.lt_succ_self _) (depth + 1) ⟨code, named', sizes'⟩ hpass (Nat.le_of_not_lt hmax) rfl
      have hbody : Leads s lines (Covers lines · code) (s.chronicleWalk (depth + 1) ⟨code, named', sizes'⟩)
          (fun walk => Arrives s lines depth code walk.next?) := hwalk.imp fun _ _ h => h.1
      apply (leads_structure ht hpass hbody r.count).bind
      rintro ⟨value, _ | next⟩
      · exact .pure fun _ htolerant => ⟨htolerant, fun _ next hnext => by cases hnext⟩
      dsimp only
      by_cases hlength : next.code.length ≤ code.length
      · rw [if_pos hlength]
        refine Leads.bind (.given fun hnext => (hbehind next hnext hlength).weaken fun _ h => h.2) ?_
        exact fun walk => .pure fun _ h => by rwa [Walk.next?_cons]
      · rw [if_neg hlength]
        exact .throw _
    · rw [if_neg hopening] at hpass ⊢
      have hrest := hbehind _ hpass (Nat.le_refl _)
      apply (Leads.does _).bind
      intro reply
      apply Leads.given
      rintro ⟨run, run', hreply⟩
      have htolerant : reply = none ∨ (∃ v, reply = some (.cut v)) → s.options.tolerant = true := by
        intro hcut
        by_contra hstrict
        obtain ⟨hsome, hwhole⟩ := Setting.tryField_complete (Bool.eq_false_iff.mpr hstrict) hreply
        rcases hcut with hnone | ⟨v, hv⟩
        · exact hsome hnone
        · exact hwhole v hv
      rcases reply with _ | (_ | value | value)
      · refine leads_noteHalt.bind fun _ => .pure fun _ _ => ?_
        exact ⟨htolerant (.inl rfl), fun _ next hnext => by cases hnext⟩
      · exact hrest
      · apply (leads_keepReading _ _).bind
        intro _
        exact hrest.bind fun walk => .pure fun _ h => by rwa [Walk.next?_cons]
      · refine leads_noteHalt.bind fun _ => .pure fun _ _ => ?_
        exact ⟨htolerant (.inr ⟨value, rfl⟩), fun _ next hnext => by cases hnext⟩

/-- The tour of a reading has sound visits where it succeeds, all lines of the code among them unless it halts, and it
has failed visits where it does not. -/
theorem leads_tour (hlines : s.layout.lines = .ok lines) (ht : s.layout.Tabled lines) (source : σ) :
    match s.chronicle source with
    | (.ok _, t) => Sound s lines t.visits ∧ (s.options.tolerant = false → Covers lines t.visits [])
    | (.error fault, t) => Failed s lines fault t.visits := by
  have hwalk := leads_chronicleWalk ht 0 _ (s.layout.inStep_start lines) (Nat.zero_le _)
  have haction : Leads s lines (Covers lines · lines)
      (do return (⟨(← s.chronicleWalk 0 (s.layout.start lines)).fields⟩ : Record))
      (fun _ visits => s.options.tolerant = false → Covers lines visits []) := by
    apply hwalk.bind
    intro walk
    refine .pure fun visits h hstrict => ?_
    cases walk with
    | done fields next =>
      have hend : next.code = [] := h.2 rfl next rfl
      exact hend ▸ h.1.2.2
    | halted fields =>
      have htolerant : s.options.tolerant = true := h.1
      rw [hstrict] at htolerant
      cases htolerant
  have hstart : Covers (σ := σ) lines [] lines := fun code hcode hlt => absurd hcode.length_le (Nat.not_le_of_lt hlt)
  have htour := haction { run := { source } } (List.forall_mem_nil _) hstart
  have heq : s.chronicle source = (do return (⟨(← s.chronicleWalk 0 (s.layout.start lines)).fields⟩ : Record)) { run := { source } } := by
    rw [Setting.chronicle, Setting.chronicleRecord, hlines]
    rfl
  rw [← heq] at htour
  rcases ht : s.chronicle source with ⟨fault | record, t⟩ <;> rw [ht] at htour <;> exact htour

section tour
variable (hlines : s.layout.lines = .ok lines) (ht : s.layout.Tabled lines) {source : σ}
include hlines ht

theorem tour_fits {v : Visit σ} (hv : v ∈ (s.chronicle source).2.visits) : v.Fits s lines := by
  have htour := leads_tour hlines ht source
  rcases hx : s.chronicle source with ⟨fault | record, t⟩ <;> rw [hx] at htour hv
  · exact (htour v hv).1
  · exact (htour.1 v hv).1

theorem tour_refused {v : Visit σ} (hv : v ∈ (s.chronicle source).2.visits) (hrefused : v.Refused s) :
    (s.chronicle source).1 = .error (v.refusal s) := by
  have htour := leads_tour hlines ht source
  rcases hx : s.chronicle source with ⟨fault | record, t⟩ <;> rw [hx] at htour hv
  · exact congrArg _ ((htour v hv).2 hrefused).symm
  · exact absurd hrefused (htour.1 v hv).2

theorem tour_covers (hstrict : s.options.tolerant = false) {record : Record} (hok : (s.chronicle source).1 = .ok record) :
    Covers lines (s.chronicle source).2.visits [] := by
  have htour := leads_tour hlines ht source
  rcases hx : s.chronicle source with ⟨fault | record, t⟩ <;> rw [hx] at htour hok
  · cases hok
  · exact htour.2 hstrict

end tour

/-- No reading of a compiled script reads in more structures than are allowed, and one without tolerance fails where
it comes to a structure that would be deeper. Where it succeeds it has gone through all of the code, but structures
that are deeper were passed each time, as parts of empty arrays. -/
theorem Layout.tour_depth {custom : Option CustomTypes} {script : String} {layout : Layout}
    (h : compileWith custom script = .ok layout) {lines : List CodeLine} (hlines : layout.lines = .ok lines)
    (options : ReadOptions) (collaborators : Collaborators σ) (source : σ) :
    let s : Setting σ := ⟨layout, options, collaborators⟩
    ((s.chronicle source).1, (s.chronicle source).2.run) = s.read source ∧
    (∀ v ∈ (s.chronicle source).2.visits, (∃ before, lines = before ++ v.place.code ∧ v.depth = CodeLine.nesting before) ∧
      (v.skipping = false → v.depth ≤ options.maxDepth)) ∧
    (options.tolerant = false →
      (∀ v ∈ (s.chronicle source).2.visits, v.TooDeep s → (s.read source).1 = .error (v.refusal s)) ∧
      ∀ record, (s.read source).1 = .ok record → ∀ before line after, lines = before ++ line :: after →
        (∃ v ∈ (s.chronicle source).2.visits, v.place.code = line :: after) ∧
        (line.kind = .opening → options.maxDepth < CodeLine.nesting before + 1 →
          ∀ v ∈ (s.chronicle source).2.visits, v.place.code = line :: after → v.skipping = true)) := by
  intro s
  obtain ⟨ts, d, ds, -, -, htraced, hopened, rfl⟩ := compileWith_traced h
  have hcustoms := htraced.length_customs hlines
  have hcode := (htraced.isOf hopened hcustoms script).lines
  rw [hlines] at hcode
  obtain rfl : lines = Declaration.linesAll ds := Except.ok.inj hcode
  have ht := htraced.tabled hopened hcustoms script
  have hread : (s.read source).1 = (s.chronicle source).1 := congrArg Prod.fst (s.chronicle_run source).symm
  have hdepth : ∀ v ∈ (s.chronicle source).2.visits,
      ∃ before, Declaration.linesAll ds = before ++ v.place.code ∧ v.depth = CodeLine.nesting before := by
    intro v hv
    obtain ⟨before, hbefore, -, hnesting⟩ := (tour_fits (s := s) hlines ht hv).step
    exact ⟨before, hbefore, hnesting.symm⟩
  refine ⟨s.chronicle_run source, fun v hv => ⟨hdepth v hv, (tour_fits (s := s) hlines ht hv).bounded⟩, fun hstrict => ⟨?_, ?_⟩⟩
  · intro v hv hdeep
    rw [hread]
    exact tour_refused (s := s) hlines ht hv ⟨hstrict, hdeep⟩
  · intro record hok before line after hsplit
    rw [hread] at hok
    have hsuffix : line :: after <:+ Declaration.linesAll ds := ⟨before, hsplit.symm⟩
    refine ⟨tour_covers (s := s) hlines ht hstrict hok _ hsuffix (Nat.succ_pos _), fun hopening hmax v hv hcode => ?_⟩
    by_contra hreading
    obtain ⟨before', hbefore, hnesting⟩ := hdepth v hv
    rw [hcode, hsplit] at hbefore
    obtain rfl := List.append_cancel_right hbefore
    have hdeep : v.TooDeep s :=
      ⟨Bool.eq_false_iff.mpr hreading, hnesting ▸ hmax, line, by rw [hcode]; rfl, hopening⟩
    rw [tour_refused (s := s) hlines ht hv ⟨hstrict, hdeep⟩] at hok
    cases hok

/-- A structure in an empty array is passed however deep it is. -/
theorem Layout.tour_depth_passed :
    let script := "a[0] \x7b b \x7b \x7d \x7d"
    let options : ReadOptions := { maxDepth := 1 }
    let source := Reader.ofBytes [] .lsb0
    ∃ layout outer inner after record, compileWith none script = .ok layout ∧
      layout.lines = .ok ([outer] ++ inner :: after) ∧ (Setting.read ⟨layout, options, {}⟩ source).1 = .ok record ∧
      inner.kind = .opening ∧ options.maxDepth < CodeLine.nesting [outer] + 1 ∧
      ∃ v ∈ (Setting.chronicle ⟨layout, options, {}⟩ source).2.visits, v.place.code = inner :: after ∧ v.skipping = true := by
  intro script options source
  have hcompiles : (compileWith none script).toOption.any (fun layout =>
      layout.lines.toOption.any (fun lines => lines.map (·.kind) == [.opening, .opening, .closing, .closing]) &&
        (Setting.read ⟨layout, options, {}⟩ source).1.toOption.isSome) = true := by decide +kernel
  obtain ⟨layout, hlayout, hchecks⟩ := of_any_ok hcompiles
  obtain ⟨hlines, hread⟩ := (Bool.and_eq_true _ _).mp hchecks
  obtain ⟨lines, hlines, hkinds⟩ := of_any_ok hlines
  obtain ⟨outer, rest, rfl, houter, hkinds⟩ := List.map_eq_cons_iff.mp (beq_iff_eq.mp hkinds)
  obtain ⟨inner, after, rfl, hinner, -⟩ := List.map_eq_cons_iff.mp hkinds
  have hdeep : options.maxDepth < CodeLine.nesting [outer] + 1 := by
    simp [options, CodeLine.nesting, CodeLine.depthBehind, houter]
  cases hok : (Setting.read ⟨layout, options, {}⟩ source).1 with
  | error fault =>
    rw [hok] at hread
    cases hread
  | ok record =>
    obtain ⟨-, -, hstrict⟩ := tour_depth hlayout hlines options {} source
    obtain ⟨⟨v, hv, hcode⟩, hpassed⟩ := (hstrict rfl).2 record hok [outer] inner after rfl
    exact ⟨layout, outer, inner, after, record, hlayout, hlines, hok, hinner, hdeep, v, hv, hcode,
      hpassed hinner hdeep v hv hcode⟩

end LayoutScript
