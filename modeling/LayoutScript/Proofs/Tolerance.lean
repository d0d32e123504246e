import LayoutScript.Proofs.Checked
import LayoutScript.Proofs.ReadScript

/-! # Tolerant reading of inputs that are long enough

Tolerant reading halts before a structure or a skip when the input is used up, also where the
members of the structure read nothing and the skip goes over no bytes. An input that is read
to the end of the script without tolerance can therefore be read differently with it. What
the declarations behind such a place would have shown decides whether it is.
-/
namespace LayoutScript

/-- The options with tolerance of the end of the input. -/
def ReadOptions.tolerating (options : ReadOptions) : ReadOptions := { options with tolerant := true }

/-- The setting with tolerance of the end of the input. -/
def Setting.tolerating {σ : Type} (s : Setting σ) : Setting σ := { s with options := s.options.tolerating }

section agreement
variable {σ : Type} [BitSource σ] {options : ReadOptions}

omit [BitSource σ] in
theorem readExactly_tolerating (hstrict : options.tolerant = false) {α : Type} {read : Stateful σ α} {n : Nat}
    {acc : List α} {s s' : σ} {x : List α × Bool} (hok : readExactly options read n acc s = (.ok x, s')) :
    x.2 = false ∧ readExactly options.tolerating read n acc s = (.ok x, s') := by
  induction n generalizing acc s with
  | zero =>
    cases hok
    exact ⟨rfl, rfl⟩
  | succ n ih =>
    rcases hread : read s with ⟨fault | v, s₁⟩
    · simp only [readExactly, hread, hstrict, Bool.and_false, Bool.false_eq_true, if_false] at hok
      cases hok
    · simp only [readExactly, hread] at hok ⊢
      exact ih hok

theorem readUntilEnd_tolerating (hstrict : options.tolerant = false) {α : Type} {read : Stateful σ α}
    {size : Nat} {acc : List α} {s s' : σ} {x : List α × Bool}
    (hok : readUntilEnd options read size acc s = (.ok x, s')) :
    x.2 = false ∧ readUntilEnd options.tolerating read size acc s = (.ok x, s') := by
  induction hn : BitSource.left s using Nat.strongRecOn generalizing size acc s with
  | _ n ih =>
    rw [readUntilEnd] at hok ⊢
    by_cases hend : BitSource.left s = 0
    · rw [if_pos hend] at hok ⊢
      cases hok
      exact ⟨rfl, rfl⟩
    rw [if_neg hend] at hok ⊢
    by_cases hmax : options.maxElements ≤ size
    · rw [if_pos hmax] at hok
      cases hok
    rw [if_neg hmax] at hok
    rw [if_neg (show ¬options.tolerating.maxElements ≤ size from hmax)]
    rcases hread : read s with ⟨fault | v, s₁⟩
    · simp only [hread, hstrict, Bool.and_false, Bool.false_eq_true, if_false] at hok
      cases hok
    simp only [hread] at hok ⊢
    by_cases hless : BitSource.left s₁ < BitSource.left s
    · rw [if_pos hless] at hok ⊢
      exact ih _ (hn ▸ hless) hok rfl
    · rw [if_neg hless] at hok ⊢
      cases hok
      exact ⟨rfl, rfl⟩

theorem readScalars_tolerating (hstrict : options.tolerant = false) {type : ScalarType} {count : ElementCount}
    {read : Stateful σ type.Carrier} {s s' : σ} {reply : Reply}
    (hok : readScalars options type count read s = (.ok reply, s')) :
    (∀ v, reply ≠ .cut v) ∧ readScalars options.tolerating type count read s = (.ok reply, s') := by
  cases count with
  | one =>
    obtain ⟨v, s₁, hv, hrest⟩ := Stateful.of_bind_ok hok
    refine ⟨?_, hok⟩
    cases hrest
    exact fun _ h => by cases h
  | exactly n =>
    obtain ⟨⟨values, cut⟩, s₁, hx, hrest⟩ := Stateful.of_bind_ok hok
    obtain ⟨rfl, htol⟩ := readExactly_tolerating hstrict hx
    refine ⟨?_, (Stateful.bind_ok htol _).trans hrest⟩
    cases hrest
    exact fun _ h => by cases h
  | untilEnd =>
    obtain ⟨⟨values, cut⟩, s₁, hx, hrest⟩ := Stateful.of_bind_ok hok
    obtain ⟨rfl, htol⟩ := readUntilEnd_tolerating hstrict hx
    refine ⟨?_, (Stateful.bind_ok htol _).trans hrest⟩
    cases hrest
    exact fun _ h => by cases h

end agreement

namespace Setting
variable {σ : Type} [BitSource σ] {s : Setting σ}

/-- Without tolerance nothing is cut off. -/
theorem readField_complete (hstrict : s.options.tolerant = false) (line : CodeLine) (r : Request) (readings : Readings) :
    Returns (fun reply => ∀ v, reply ≠ .cut v) (s.readField line r readings) := by
  have hscalars (type : ScalarType) (read : Stateful σ type.Carrier) :
      Returns (fun reply => ∀ v, reply ≠ .cut v) (readScalars s.options type r.count read) :=
    fun _ _ _ hok => (readScalars_tolerating hstrict hok).1
  rw [readField]
  cases line.instruction.action with
  | align | skip => exact .after fun _ => .after fun _ => .of_pure fun _ h => by cases h
  | restart => exact .after fun _ => .of_pure fun _ h => by cases h
  | whole type => exact hscalars _ _
  | opening | closing => exact .of_throw _
  | bit =>
    dsimp only
    split
    · exact hscalars _ _
    · exact .of_throw _
  | var =>
    cases s.collaborators.readVar with
    | none => exact .of_throw _
    | some read => exact .after fun _ => .of_pure fun _ h => by cases h
  | custom index =>
    dsimp only
    cases s.layout.customTypes[index]? with
    | none => exact .of_throw _
    | some type =>
      cases s.collaborators.readCustom with
      | none => exact .of_throw _
      | some read => exact .after fun _ => .of_pure fun _ h => by cases h

/-- A field is missing or cut off only where the end of the input is tolerated. -/
theorem tryField_complete (hstrict : s.options.tolerant = false) {line : CodeLine} {r : Request} {run run' : Run σ}
    {reply : Option Reply} (hok : s.tryField line r run = (.ok reply, run')) : reply ≠ none ∧ ∀ v, reply ≠ some (.cut v) := by
  rw [tryField, onSource] at hok
  rcases hread : s.readField line r run.readings run.source with ⟨fault | reply', source⟩
  · rw [hread] at hok
    simp only [hstrict, Bool.and_false, Bool.false_eq_true, if_false] at hok
    cases hok
  · rw [hread] at hok
    cases hok
    refine ⟨Option.some_ne_none _, fun v heq => ?_⟩
    exact readField_complete hstrict line r _ _ _ _ hread v (Option.some.inj heq)

end Setting

namespace Head
variable {σ : Type} [BitSource σ] {s : Setting σ}

@[simp] theorem request_tolerating (h : Head) : h.request s.tolerating = h.request s := by
  have hamount : ∀ a, s.tolerating.amount a = s.amount a := by
    intro a
    cases a <;> rfl
  have hcount : h.elementCount s.tolerating = h.elementCount s := by
    rw [elementCount, elementCount]
    cases h.extent with
    | one | known | untilEnd => rfl
    | computed source => simp only [hamount]
  rw [request, request, hamount, hcount]
  rfl

theorem readValue_tolerating (hstrict : s.options.tolerant = false) {h : Head} (hp : h.Plain)
    {q : Request} {readings : Readings} {b b' : σ} {reply : Reply} (hok : h.readValue s q readings b = (.ok reply, b')) :
    (∀ v, reply ≠ .cut v) ∧ h.readValue s.tolerating q readings b = (.ok reply, b') := by
  rw [readValue] at hok ⊢
  cases hk : h.kind with
  | opening | closing =>
    rw [hk] at hok
    cases hok
  | restart =>
    rw [hk] at hok
    cases hok
    refine ⟨?_, rfl⟩
    exact fun _ h => by cases h
  | align | skip =>
    rw [hk] at hok
    refine ⟨?_, hok⟩
    obtain ⟨n, b₁, -, hrest⟩ := Stateful.of_bind_ok hok
    obtain ⟨_, b₂, -, hpure⟩ := Stateful.of_bind_ok hrest
    cases hpure
    exact fun _ h => by cases h
  | whole type =>
    rw [hk] at hok
    exact readScalars_tolerating hstrict hok
  | bit =>
    rw [hk] at hok
    dsimp only at hok ⊢
    split at hok
    · rename_i hwidth
      rw [if_pos hwidth]
      exact readScalars_tolerating hstrict hok
    · cases hok
  | var => exact absurd hk hp.1
  | custom => exact absurd hk hp.2

/-- A declaration that is read without tolerance is read the same with it. -/
theorem readSingle_tolerating (hstrict : s.options.tolerant = false) {h : Head} (hp : h.Plain) {q : Request}
    {run run' : Run σ} {y : Yield} (hok : h.readSingle s q run = (.ok y, run')) :
    y.halted = false ∧ h.readSingle s.tolerating q run = (.ok y, run') := by
  rw [readSingle_eq] at hok ⊢
  rcases hv : h.readValue s q run.readings run.source with ⟨fault | reply, source⟩
  · simp only [hv, hstrict, Bool.and_false, Bool.false_eq_true, if_false] at hok
    cases hok
  obtain ⟨hcut, htol⟩ := readValue_tolerating hstrict hp hv
  rw [hv] at hok
  rw [htol]
  cases reply with
  | cut v => exact absurd rfl (hcut v)
  | nothing | value v =>
    cases hok
    exact ⟨rfl, rfl⟩

end Head
/-- Where tolerant reading stops short of what is read without tolerance. -/
inductive Stop where
  | none
  /-- It stops in front of nothing that shows. -/
  | silent
  | visible
deriving DecidableEq

namespace Declaration

/-- Whether one of `n` structures is stopped in. -/
def stopsTimes (body : Stateful (Run Reader) Yield) (stop : Run Reader → Stop) : (n : Nat) → Run Reader → Bool
  | 0, _ => false
  | n + 1, run => stop run ≠ .none || stopsTimes body stop n (body run).2

/-- Whether one of the structures up to the end of the input is stopped in. -/
def stopsWhile (body : Stateful (Run Reader) Yield) (stop : Run Reader → Stop) (run : Run Reader) : Bool :=
  if BitSource.left run.source = 0 then false
  else if stop run ≠ .none then true
  else if BitSource.left (body run).2.source < BitSource.left run.source then stopsWhile body stop (body run).2
  else false
termination_by BitSource.left run.source

/-- A structure that is stopped in shows it, if by nothing else, then by the elements that an
array lacks. -/
def stopElements (count : ElementCount) (body : Stateful (Run Reader) Yield) (stop : Run Reader → Stop)
    (run : Run Reader) : Stop :=
  match count with
  | .one => stop run
  | .exactly n => if stopsTimes body stop n run then .visible else .none
  | .untilEnd => if stopsWhile body stop run then .visible else .none

mutual

/-- Where tolerant reading of a declaration stops. -/
def stop (s : Setting Reader) (depth : Nat) : Declaration → Run Reader → Stop
  | .single h, run =>
    match (h.request s run).1 with
    | .error _ => .none
    | .ok q => if run.source.left = 0 ∧ readsInput h.kind q.count then .silent else .none
  | .nested h members, run =>
    match (h.request s run).1 with
    | .error _ => .none
    | .ok q =>
      if run.source.left = 0 ∧ readsInput h.kind q.count then .visible
      else stopElements q.count (readAll s (depth + 1) members) (stopAll s (depth + 1) members) run

/-- Where tolerant reading of declarations stops. What comes behind shows by its fields, or by
the counter that it restarts. -/
def stopAll (s : Setting Reader) (depth : Nat) : List Declaration → Run Reader → Stop
  | [], _ => .none
  | d :: ds, run =>
    let run' := (d.read s depth run).2
    match d.stop s depth run with
    | .none => stopAll s depth ds run'
    | .visible => .visible
    | .silent =>
      match readAll s depth ds run' with
      | (.ok rest, run'') => if rest.fields.isEmpty ∧ run''.source = run'.source then .silent else .visible
      | (.error _, _) => .visible

end

end Declaration

/-- What is read from a stop on falls short of `y` and `run`, whatever is read behind these. -/
def Yield.Loses (y : Yield) (run : Run Reader) (y' : Yield) (run' : Run Reader) : Prop :=
  (∀ more, y'.fields ≠ y.fields ++ more) ∨
    (y'.fields = y.fields ∧ run.source.restart = run.source ∧ run'.source.restart ≠ run'.source)

/-- The tolerant outcome where `y` and `run` are read without tolerance. -/
def Stop.Explains (stop : Stop) (y : Yield) (run : Run Reader) (tolerant : Except Fault Yield × Run Reader) : Prop :=
  match stop with
  | .none => tolerant = (.ok y, run)
  | .silent => tolerant = (.ok ⟨y.fields, true⟩, run) ∧ run.source.left = 0
  | .visible => ∃ y' run', tolerant = (.ok y', run') ∧ y'.halted = true ∧ run.source.left = 0 ∧ y.Loses run y' run'

/-- A stop is a halt on a used-up input. -/
theorem Stop.Explains.halts {stop : Stop} {y : Yield} {run : Run Reader} {tolerant : Except Fault Yield × Run Reader}
    (h : stop.Explains y run tolerant) (hstop : stop ≠ .none) :
    run.source.left = 0 ∧ ∃ y' run', tolerant = (.ok y', run') ∧ y'.halted = true := by
  cases stop with
  | none => exact absurd rfl hstop
  | silent => exact ⟨h.2, _, run, h.1, rfl⟩
  | visible =>
    obtain ⟨y', run', htol, hhalted, hleft, -⟩ := h
    exact ⟨hleft, y', run', htol, hhalted⟩

/-- What is read before does not change what a stop explains. -/
theorem Stop.Explains.behind {stop : Stop} {y : Yield} {run : Run Reader} {tolerant : Except Fault Yield × Run Reader}
    (h : stop.Explains y run tolerant) (fields : List Field) :
    stop.Explains ⟨fields ++ y.fields, y.halted⟩ run (Yield.behind fields tolerant) := by
  cases stop with
  | none =>
    obtain rfl : tolerant = (.ok y, run) := h
    rfl
  | silent =>
    obtain ⟨rfl, hleft⟩ := h
    exact ⟨rfl, hleft⟩
  | visible =>
    obtain ⟨y', run', rfl, hhalts, hleft, hloses⟩ := h
    refine ⟨⟨fields ++ y'.fields, y'.halted⟩, run', rfl, hhalts, hleft, ?_⟩
    rcases hloses with hloses | ⟨hfields, hsource⟩
    · refine .inl fun more heq => hloses more ?_
      rw [List.append_assoc] at heq
      exact List.append_cancel_left heq
    · refine .inr ⟨?_, hsource⟩
      rw [hfields]

namespace Declaration

/-- Tolerant reading of a body as `stop` tells it. -/
def Tolerates (body body' : Stateful (Run Reader) Yield) (stop : Run Reader → Stop) : Prop :=
  ∀ run y run', body run = (.ok y, run') → y.halted = false ∧ (stop run).Explains y run' (body' run)

section elements
variable {body body' : Stateful (Run Reader) Yield} {stop : Run Reader → Stop} (hbody : Tolerates body body' stop)
  (hidle : IdleBody body)
include hbody

include hidle in
theorem readTimes_tolerating {n : Nat} {run run' : Run Reader} {items : List Record} {halted : Bool}
    (hok : readTimes body n run = (.ok (items, halted), run')) :
    halted = false ∧
      if stopsTimes body stop n run then
        run'.source.left = 0 ∧
          ∃ items' run'', readTimes body' n run = (.ok (items', true), run'') ∧ items'.length < items.length
      else readTimes body' n run = (.ok (items, halted), run') := by
  induction n generalizing run items halted with
  | zero =>
    cases hok
    exact ⟨rfl, rfl⟩
  | succ n ih =>
    rw [readTimes_succ] at hok
    rcases hy : body run with ⟨fault | y, run₁⟩
    · rw [hy] at hok
      cases hok
    obtain ⟨hhalted, hexplains⟩ := hbody run y run₁ hy
    rcases hrest : readTimes body n run₁ with ⟨fault | ⟨items₁, halted₁⟩, run₂⟩
    · simp only [hy, hhalted, hrest] at hok
      cases hok
    simp only [hy, hhalted, hrest] at hok
    cases hok
    obtain ⟨hnext, hsplit⟩ := ih hrest
    refine ⟨hnext, ?_⟩
    rw [stopsTimes, hy, readTimes_succ]
    by_cases hstop : stop run = .none
    · rw [hstop] at hexplains
      have hsame : body' run = (.ok y, run₁) := hexplains
      simp only [hstop, ne_eq, not_true_eq_false, decide_false, Bool.false_or, hsame, hhalted, Bool.false_eq_true,
        if_false]
      by_cases hrests : stopsTimes body stop n run₁
      · rw [if_pos hrests] at hsplit ⊢
        obtain ⟨hleft, items', run'', htimes, hlength⟩ := hsplit
        exact ⟨hleft, ⟨y.fields⟩ :: items', run'', by rw [htimes], Nat.succ_lt_succ hlength⟩
      · rw [if_neg hrests] at hsplit ⊢
        rw [hsplit]
    · obtain ⟨hleft, y', run', htol, hhalts⟩ := hexplains.halts hstop
      have hend := (readTimes_usedUp hidle hleft hrest).2.left hleft
      simp only [hstop, ne_eq, not_false_eq_true, decide_true, Bool.true_or, if_true, htol, hhalts]
      exact ⟨hend, [], run', rfl, Nat.succ_pos _⟩

theorem readWhile_tolerating {options : ReadOptions} {size : Nat} {run run' : Run Reader} {items : List Record}
    {halted : Bool} (hok : readWhile options body size run = (.ok (items, halted), run')) :
    halted = false ∧
      if stopsWhile body stop run then
        run'.source.left = 0 ∧
          ∃ items' run'', readWhile options.tolerating body' size run = (.ok (items', true), run'') ∧
            items'.length < items.length
      else readWhile options.tolerating body' size run = (.ok (items, halted), run') := by
  induction hn : BitSource.left run.source using Nat.strongRecOn generalizing size run items halted with
  | _ n ih =>
    rw [readWhile] at hok
    rw [stopsWhile, readWhile]
    by_cases hend : BitSource.left run.source = 0
    · simp only [if_pos hend] at hok ⊢
      cases hok
      exact ⟨rfl, rfl⟩
    simp only [if_neg hend] at hok ⊢
    by_cases hmax : options.maxElements ≤ size
    · rw [if_pos hmax] at hok
      cases hok
    rw [if_neg hmax] at hok
    simp only [if_neg (show ¬options.tolerating.maxElements ≤ size from hmax)]
    rcases hy : body run with ⟨fault | y, run₁⟩
    · rw [hy] at hok
      cases hok
    obtain ⟨hhalted, hexplains⟩ := hbody run y run₁ hy
    simp only [hy, hhalted, Bool.false_eq_true, if_false] at hok
    by_cases hstop : stop run = .none
    · rw [hstop] at hexplains
      have hsame : body' run = (.ok y, run₁) := hexplains
      simp only [hstop, ne_eq, not_true_eq_false, if_false, hsame, hhalted, Bool.false_eq_true]
      by_cases hless : BitSource.left run₁.source < BitSource.left run.source
      · simp only [if_pos hless] at hok ⊢
        rcases hrest : readWhile options body (size + 1) run₁ with ⟨fault | ⟨items₁, halted₁⟩, run₂⟩
        · rw [hrest] at hok
          cases hok
        rw [hrest] at hok
        cases hok
        obtain ⟨hnext, hsplit⟩ := ih _ (hn ▸ hless) hrest rfl
        refine ⟨hnext, ?_⟩
        by_cases hrests : stopsWhile body stop run₁
        · rw [if_pos hrests] at hsplit ⊢
          obtain ⟨hleft, items', run'', hwhile, hlength⟩ := hsplit
          exact ⟨hleft, ⟨y.fields⟩ :: items', run'', by rw [hwhile], Nat.succ_lt_succ hlength⟩
        · rw [if_neg hrests] at hsplit ⊢
          rw [hsplit]
      · simp only [if_neg hless, Bool.false_eq_true, if_false] at hok ⊢
        cases hok
        exact ⟨rfl, rfl⟩
    · obtain ⟨hleft, y', run', htol, hhalts⟩ := hexplains.halts hstop
      have hzero : BitSource.left run₁.source = 0 := hleft
      have hless : BitSource.left run₁.source < BitSource.left run.source := by omega
      rw [if_pos hless, readWhile, if_pos hzero] at hok
      cases hok
      simp only [ne_eq, hstop, not_false_eq_true, if_true, htol, hhalts]
      exact ⟨trivial, hleft, [], run', rfl, Nat.one_pos⟩

include hidle in
/-- Elements are read with tolerance as the stops in their bodies tell it. -/
theorem readElements_tolerating {options : ReadOptions} {count : ElementCount} {run run' : Run Reader}
    {value : Value} {halted : Bool} (info : Option NamedField)
    (hok : readElements options count body run = (.ok (value, halted), run')) :
    halted = false ∧
      (stopElements count body stop run).Explains ⟨[⟨info, value⟩], halted⟩ run'
        (Yield.ofValue info (readElements options.tolerating count body' run)) := by
  have hrecords : ∀ (items items' : List Record) (h' : Bool) (r : Run Reader), items'.length < items.length →
      (⟨[⟨info, .records items⟩], false⟩ : Yield).Loses run' ⟨[⟨info, .records items'⟩], h'⟩ r := by
    intro items items' h' r hlength
    refine .inl fun more heq => ?_
    cases heq
    exact Nat.lt_irrefl _ hlength
  cases count with
  | one =>
    rw [readElements_one] at hok ⊢
    rcases hy : body run with ⟨fault | y, run₁⟩
    · rw [hy] at hok
      cases hok
    rw [hy] at hok
    cases hok
    obtain ⟨hhalted, hexplains⟩ := hbody run y run' hy
    refine ⟨hhalted, ?_⟩
    rw [stopElements]
    cases hstop : stop run with
    | none =>
      rw [hstop] at hexplains
      have hsame : body' run = (.ok y, run') := hexplains
      rw [hsame]
      rfl
    | silent =>
      rw [hstop] at hexplains
      refine ⟨?_, hexplains.2⟩
      rw [hexplains.1]
      rfl
    | visible =>
      rw [hstop] at hexplains
      obtain ⟨y', run'', htol, hhalts, hleft, hloses⟩ := hexplains
      refine ⟨⟨[⟨info, .record ⟨y'.fields⟩⟩], y'.halted⟩, run'', by rw [htol]; rfl, hhalts, hleft, ?_⟩
      rcases hloses with hloses | ⟨hfields, hrestarted⟩
      · refine .inl fun more heq => hloses [] ?_
        have hsame : y'.fields = y.fields ∧ [] = more := by simpa using heq
        rw [List.append_nil, hsame.1]
      · refine .inr ⟨?_, hrestarted⟩
        rw [hfields]
  | exactly n =>
    rw [readElements_exactly] at hok ⊢
    rcases hx : readTimes body n run with ⟨fault | ⟨items, halted₁⟩, run₁⟩
    · rw [hx] at hok
      cases hok
    rw [hx] at hok
    cases hok
    obtain ⟨hhalted, hsplit⟩ := readTimes_tolerating hbody hidle hx
    refine ⟨hhalted, ?_⟩
    rw [stopElements]
    by_cases hstops : stopsTimes body stop n run
    · rw [if_pos hstops] at hsplit
      obtain ⟨hleft, items', run'', htimes, hlength⟩ := hsplit
      rw [if_pos hstops, htimes, hhalted]
      exact ⟨_, run'', rfl, rfl, hleft, hrecords items items' true run'' hlength⟩
    · rw [if_neg hstops] at hsplit
      rw [if_neg hstops, hsplit]
      rfl
  | untilEnd =>
    rw [readElements_untilEnd] at hok ⊢
    rcases hx : readWhile options body 0 run with ⟨fault | ⟨items, halted₁⟩, run₁⟩
    · rw [hx] at hok
      cases hok
    rw [hx] at hok
    cases hok
    obtain ⟨hhalted, hsplit⟩ := readWhile_tolerating hbody hx
    refine ⟨hhalted, ?_⟩
    rw [stopElements]
    by_cases hstops : stopsWhile body stop run
    · rw [if_pos hstops] at hsplit
      obtain ⟨hleft, items', run'', hwhile, hlength⟩ := hsplit
      rw [if_pos hstops, hwhile, hhalted]
      exact ⟨_, run'', rfl, rfl, hleft, hrecords items items' true run'' hlength⟩
    · rw [if_neg hstops] at hsplit
      rw [if_neg hstops, hsplit]
      rfl

end elements

variable {s : Setting Reader}

theorem stopsBefore_tolerating (kind : Kind) (count : ElementCount) (run : Run Reader) :
    s.tolerating.stopsBefore kind count run = true ↔ run.source.left = 0 ∧ readsInput kind count = true := by
  have hmore : BitSource.hasMore run.source = decide (0 < run.source.left) := rfl
  have htolerant : s.tolerating.options.tolerant = true := rfl
  rw [Setting.stopsBefore, hmore, htolerant]
  simp only [Bool.true_and, Bool.and_eq_true, Bool.not_eq_true', decide_eq_false_iff_not, Nat.not_lt, Nat.le_zero]

theorem Run.ext {run run' : Run Reader} (hsource : run'.source = run.source) (hreadings : run'.readings = run.readings) :
    run' = run := by
  cases run
  cases run'
  cases hsource
  cases hreadings
  rfl

/-- What is lost stays lost behind more that is read from the used-up input. -/
theorem Loses_append {y y' rest : Yield} {run run₁ run' : Run Reader} (h : y.Loses run₁ y' run')
    (hidle : run₁.Idles run) (halted : Bool) :
    (⟨y.fields ++ rest.fields, halted⟩ : Yield).Loses run y' run' := by
  rcases h with h | ⟨hfields, hsource, hrestart⟩
  · refine .inl fun more heq => h (rest.fields ++ more) ?_
    rw [heq, List.append_assoc]
  · have hrun : run.source = run₁.source := by
      rcases hidle.source with hs | hs
      · exact hs
      · exact hs.trans hsource
    cases hrest : rest.fields with
    | nil =>
      refine .inr ⟨?_, ?_, hrestart⟩
      · rw [hfields, List.append_nil]
      · rw [hrun, hsource]
    | cons f fs =>
      refine .inl fun more heq => ?_
      rw [hfields, List.append_assoc] at heq
      have hnil := List.append_right_eq_self.mp heq.symm
      cases hnil

/-- A declaration that tolerant reading stops before reads nothing. -/
theorem readSingle_stops (hstrict : s.options.tolerant = false) {h : Head} (hp : h.Plain) {q : Request}
    {run run' : Run Reader} {y : Yield} (hleft : run.source.left = 0) (hneeds : readsInput h.kind q.count = true)
    (hok : h.readSingle s q run = (.ok y, run')) : y = ⟨[], false⟩ ∧ run' = run := by
  rw [Head.readSingle_eq] at hok
  rcases hv : h.readValue s q run.readings run.source with ⟨fault | reply, source⟩
  · simp only [hv, hstrict, Bool.and_false, Bool.false_eq_true, if_false] at hok
    cases hok
  obtain ⟨-, -, hnothing⟩ := Head.readValue_usedUp hstrict hp hleft hv
  obtain ⟨rfl, rfl⟩ := hnothing hneeds
  rw [hv] at hok
  cases hok
  exact ⟨rfl, rfl⟩

mutual

theorem tolerates_read (hstrict : s.options.tolerant = false) : (d : Declaration) → d.Formed Head.Plain →
    ∀ depth : Nat, Tolerates (d.read s depth) (d.read s.tolerating depth) (d.stop s depth)
  | .single h, hf, depth, run, y, run', hok => by
    rw [read_single] at hok
    rw [read_single, stop, Head.request_tolerating]
    cases hq : (h.request s run).1 with
    | error fault =>
      rw [hq] at hok
      cases hok
    | ok q =>
      have hgo : s.stopsBefore h.kind q.count run = false := by simp [Setting.stopsBefore, hstrict]
      simp only [hq, hgo, Bool.false_eq_true, if_false] at hok
      dsimp only
      obtain ⟨hhalted, htol⟩ := Head.readSingle_tolerating hstrict hf.1 hok
      refine ⟨hhalted, ?_⟩
      by_cases hstop : run.source.left = 0 ∧ readsInput h.kind q.count = true
      · rw [if_pos hstop, if_pos ((stopsBefore_tolerating h.kind q.count run).mpr hstop)]
        obtain ⟨rfl, rfl⟩ := readSingle_stops hstrict hf.1 hstop.1 hstop.2 hok
        exact ⟨rfl, hstop.1⟩
      · rw [if_neg hstop, if_neg (mt (stopsBefore_tolerating h.kind q.count run).mp hstop)]
        exact htol
  | .nested h members, hf, depth, run, y, run', hok => by
    have hall := hok
    rw [read_nested] at hok
    rw [read_nested, stop, Head.request_tolerating]
    cases hq : (h.request s run).1 with
    | error fault =>
      rw [hq] at hok
      cases hok
    | ok q =>
      have hgo : s.stopsBefore h.kind q.count run = false := by simp [Setting.stopsBefore, hstrict]
      simp only [hq, hgo, Bool.false_eq_true, if_false] at hok
      dsimp only
      by_cases hdepth : s.options.maxDepth < depth + 1
      · rw [if_pos hdepth] at hok
        cases hok
      rw [if_neg hdepth] at hok
      rcases hx : readElements s.options q.count (readAll s (depth + 1) members) run with ⟨fault | ⟨value, halted⟩, run₁⟩
      · rw [hx] at hok
        cases hok
      rw [hx] at hok
      cases hok
      obtain ⟨hhalted, hexplains⟩ := readElements_tolerating (tolerates_readAll hstrict members hf.2.2 (depth + 1))
        (readAll_usedUp hstrict members hf.2.2 (depth + 1)) h.info hx
      refine ⟨hhalted, ?_⟩
      by_cases hstop : run.source.left = 0 ∧ readsInput h.kind q.count = true
      · rw [if_pos hstop, if_pos ((stopsBefore_tolerating h.kind q.count run).mpr hstop)]
        have hidle := (read_usedUp hstrict (.nested h members) hf depth run _ run' hstop.1 hall).2
        exact ⟨_, run, rfl, rfl, hidle.left hstop.1, .inl fun more heq => by cases heq⟩
      · rw [if_neg hstop, if_neg (mt (stopsBefore_tolerating h.kind q.count run).mp hstop)]
        rw [if_neg (show ¬s.tolerating.options.maxDepth < depth + 1 from hdepth)]
        exact hexplains

theorem tolerates_readAll (hstrict : s.options.tolerant = false) : (ds : List Declaration) → FormedAll Head.Plain ds →
    ∀ depth : Nat, Tolerates (readAll s depth ds) (readAll s.tolerating depth ds) (stopAll s depth ds)
  | [], _, _, run, y, run', hok => by
    cases hok
    exact ⟨rfl, rfl⟩
  | d :: ds, hf, depth, run, y, run', hok => by
    rw [readAll_cons] at hok
    rcases hd : d.read s depth run with ⟨fault | first, run₁⟩
    · rw [hd] at hok
      cases hok
    obtain ⟨hfirst, hexplains⟩ := tolerates_read hstrict d hf.1 depth run first run₁ hd
    rcases hds : readAll s depth ds run₁ with ⟨fault | rest, run₂⟩
    · simp only [hd, hfirst, hds] at hok
      cases hok
    simp only [hd, hfirst, hds] at hok
    cases hok
    obtain ⟨hrest, hbehind⟩ := tolerates_readAll hstrict ds hf.2 depth run₁ rest run' hds
    refine ⟨hrest, ?_⟩
    rw [stopAll, hd, readAll_cons]
    cases hstop : d.stop s depth run with
    | none =>
      rw [hstop] at hexplains
      have hsame : d.read s.tolerating depth run = (.ok first, run₁) := hexplains
      rw [hsame]
      simp only [hfirst, Bool.false_eq_true, if_false]
      exact Stop.Explains.behind hbehind first.fields
    | silent =>
      rw [hstop] at hexplains
      obtain ⟨htol, hleft⟩ := hexplains
      have hidle := (readAll_usedUp hstrict ds hf.2 depth run₁ rest run' hleft hds).2
      rw [htol, hds]
      simp only [if_true]
      by_cases hshows : rest.fields.isEmpty = true ∧ run'.source = run₁.source
      · rw [if_pos hshows]
        have hnil : rest.fields = [] := List.isEmpty_iff.mp hshows.1
        have hrun : run' = run₁ := Run.ext hshows.2 hidle.readings
        refine ⟨?_, hidle.left hleft⟩
        rw [hnil, List.append_nil, hrun]
      · rw [if_neg hshows]
        refine ⟨_, run₁, rfl, rfl, hidle.left hleft, ?_⟩
        cases hfields : rest.fields with
        | cons f fs =>
          refine .inl fun more heq => ?_
          rw [List.append_assoc] at heq
          cases List.append_right_eq_self.mp heq.symm
        | nil =>
          have hmoved : run'.source ≠ run₁.source := fun hsame => hshows ⟨by rw [hfields]; rfl, hsame⟩
          have hrestart : run'.source = run₁.source.restart := hidle.source.resolve_left hmoved
          refine .inr ⟨?_, ?_, ?_⟩
          · rw [List.append_nil]
          · rw [hrestart, Reader.restart_restart]
          · rw [← hrestart]
            exact hmoved
    | visible =>
      rw [hstop] at hexplains
      obtain ⟨y', run'', htol, hhalts, hleft, hloses⟩ := hexplains
      have hidle := (readAll_usedUp hstrict ds hf.2 depth run₁ rest run' hleft hds).2
      rw [htol]
      simp only [hhalts, if_true]
      exact ⟨y', run'', rfl, hhalts, hidle.left hleft, Loses_append hloses hidle _⟩

end

/-- The fields and the end of a tolerant reading are those of the strict one, unless it stops
where that shows. -/
theorem readScript_tolerating (hstrict : s.options.tolerant = false) {ds : List Declaration}
    (hf : FormedAll Head.Plain ds) {source : Reader} {record : Record} {run : Run Reader}
    (hok : readScript s ds source = (.ok record, run)) :
    (∃ record' run', readScript s.tolerating ds source = (.ok record', run')) ∧
      (readScript s.tolerating ds source = (.ok record, run) ↔ stopAll s 0 ds { source } ≠ .visible) := by
  obtain ⟨y, run₁, hy, hpure⟩ := Stateful.of_bind_ok hok
  cases hpure
  have hscript : ∀ {y' : Yield} {run' : Run Reader}, readAll s.tolerating 0 ds { source } = (.ok y', run') →
      readScript s.tolerating ds source = (.ok ⟨y'.fields⟩, run') := fun htol => Stateful.bind_ok htol _
  obtain ⟨-, hexplains⟩ := tolerates_readAll hstrict ds hf 0 { source } y run hy
  cases hstop : stopAll s 0 ds { source } with
  | none =>
    rw [hstop] at hexplains
    have hsame := hscript hexplains
    exact ⟨⟨_, _, hsame⟩, fun _ h => (by cases h), fun _ => hsame⟩
  | silent =>
    rw [hstop] at hexplains
    have hsame := hscript hexplains.1
    exact ⟨⟨_, _, hsame⟩, fun _ h => (by cases h), fun _ => hsame⟩
  | visible =>
    rw [hstop] at hexplains
    obtain ⟨y', run', htol, -, -, hloses⟩ := hexplains
    refine ⟨⟨_, _, hscript htol⟩, ?_, fun hne => absurd rfl hne⟩
    intro hsame
    rw [hscript htol] at hsame
    simp only [Prod.mk.injEq, Except.ok.injEq, Record.mk.injEq] at hsame
    obtain ⟨hfields, rfl⟩ := hsame
    rcases hloses with hloses | ⟨-, hrestart, hmoved⟩
    · exact absurd (hfields.trans (List.append_nil _).symm) (hloses [])
    · exact absurd hrestart hmoved

end Declaration

/-- Where an input can be read without tolerance, it can be read with it, and in the same way
unless tolerant reading stops where that shows. -/
theorem Layout.read_tolerating {custom : Option CustomTypes} {script : String} {layout : Layout}
    (h : compileWith custom script = .ok layout) (hcustom : layout.customTypes = [])
    (hvar : ∀ lines, layout.lines = .ok lines → ∀ line ∈ lines, line.kind ≠ .var) :
    ∃ ds, Declaration.ofScript custom script = some ds ∧
      ∀ (options : ReadOptions) (collaborators : Collaborators Reader) (source : Reader) (record : Record)
        (run : Run Reader), options.tolerant = false →
        Setting.read ⟨layout, options, collaborators⟩ source = (.ok record, run) →
          (∃ record' run', Setting.read ⟨layout, options.tolerating, collaborators⟩ source = (.ok record', run')) ∧
          (Setting.read ⟨layout, options.tolerating, collaborators⟩ source = (.ok record, run) ↔
            Declaration.stopAll ⟨layout, options, collaborators⟩ 0 ds { source } ≠ .visible) := by
  obtain ⟨ts, d, ds, -, hds, htraced, hopened, rfl⟩ := compileWith_traced h
  have hof := htraced.isOf hopened (by rw [show d.customTypes = [] from hcustom]; exact Nat.zero_le _) script
  refine ⟨ds, hds, ?_⟩
  intro options collaborators source record run hstrict hok
  rw [IsOf.read_eq _ hof] at hok ⊢
  exact Declaration.readScript_tolerating hstrict (hof.plain hcustom hvar) hok

/-- A structure whose members read nothing stops tolerant reading behind the last byte, and the
record around it is dropped. -/
theorem Layout.tolerant_drops_record :
    let script := "ubyte n; rec[n] \x7b ubyte a; tag \x7b \x7d \x7d"
    let source := Reader.ofBytes [1, 7] .lsb0
    ∃ layout record run, compileWith none script = .ok layout ∧ layout.customTypes = [] ∧
      (∀ lines, layout.lines = .ok lines → ∀ line ∈ lines, line.kind ≠ .var) ∧
      Setting.read ⟨layout, {}, {}⟩ source = (.ok record, run) ∧
      (∃ record' run', Setting.read ⟨layout, .lenient, {}⟩ source = (.ok record', run')) ∧
      Setting.read ⟨layout, .lenient, {}⟩ source ≠ (.ok record, run) := by
  intro script source
  have hcompiles : (compileWith none script).toOption.any (fun layout => layout.customTypes.isEmpty &&
      layout.lines.toOption.any (·.all (·.kind ≠ .var)) &&
      (Setting.read ⟨layout, {}, {}⟩ source).1.toOption.isSome &&
      (Declaration.ofScript none script).any fun ds =>
        Declaration.stopAll ⟨layout, {}, {}⟩ 0 ds { source } = .visible) = true := by decide +kernel
  obtain ⟨layout, hlayout, hchecks⟩ := of_any_ok hcompiles
  simp only [Bool.and_eq_true] at hchecks
  obtain ⟨⟨⟨hcustom, hlines⟩, hread⟩, hstop⟩ := hchecks
  have hnone : layout.customTypes = [] := List.isEmpty_iff.mp hcustom
  obtain ⟨code, hcode, hkinds⟩ := of_any_ok hlines
  have hvar : ∀ lines, layout.lines = .ok lines → ∀ line ∈ lines, line.kind ≠ .var := by
    intro lines heq line hm
    rw [hcode] at heq
    cases heq
    exact of_decide_eq_true (List.all_eq_true.mp hkinds line hm)
  rcases hrun : Setting.read ⟨layout, {}, {}⟩ source with ⟨fault | record, run⟩
  · rw [hrun] at hread
    cases hread
  obtain ⟨ds, hds, htol⟩ := read_tolerating hlayout hnone hvar
  obtain ⟨hsucceeds, hiff⟩ := htol {} {} source record run rfl hrun
  rw [hds] at hstop
  refine ⟨layout, record, run, hlayout, hnone, hvar, hrun, hsucceeds, ?_⟩
  intro hsame
  exact hiff.mp hsame (of_decide_eq_true hstop)

end LayoutScript
