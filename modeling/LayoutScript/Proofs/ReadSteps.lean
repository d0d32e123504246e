import LayoutScript.Proofs.Reference
import LayoutScript.Proofs.Stateful

/-! # What reading a declaration does

A request is computed from a run without moving it. What a declaration reads depends on its
request alone: reading halts before it, fails, or reads a value or the members of a
structure.
-/
namespace LayoutScript
variable {σ : Type} [BitSource σ]

namespace Setting

@[simp] theorem amount_run (s : Setting σ) (a : Amount) (run : Run σ) : (s.amount a run).2 = run := by
  cases a <;> rfl

omit [BitSource σ] in
theorem keepReading_source (info : Option NamedField) (v : Value) (run : Run σ) :
    (keepReading info v run).source = run.source := by
  rw [keepReading.eq_def]
  split <;> rfl

omit [BitSource σ] in
@[simp] theorem checkCount_run (s : Setting σ) (count : ElementCount) (run : Run σ) :
    (s.checkCount count run).2 = run := by
  cases count with
  | exactly n =>
    rw [checkCount]
    split <;> rfl
  | one | untilEnd => rfl

end Setting

/-- A sequence of two parts that leave the state alone leaves it alone. -/
theorem Stateful.bind_state {σ α β : Type} {x : Stateful σ α} {f : α → Stateful σ β} {s : σ} (hx : (x s).2 = s)
    (hf : ∀ a, (f a s).2 = s) : ((x >>= f) s).2 = s := by
  rw [bind_apply]
  rcases h : x s with ⟨fault | a, s'⟩
  · rw [h] at hx
    exact hx
  · rw [h] at hx
    obtain rfl : s' = s := hx
    exact hf a

/-- The outcome of a sequence is told by the outcomes of its parts if these leave the state alone. -/
theorem Stateful.bind_outcome {σ τ α β : Type} {x : Stateful σ α} {y : Stateful τ α} {f : α → Stateful σ β}
    {g : α → Stateful τ β} {s : σ} {t : τ} (hs : (x s).2 = s) (ht : (y t).2 = t) (hxy : (y t).1 = (x s).1)
    (hfg : ∀ a, (x s).1 = .ok a → (g a t).1 = (f a s).1) : ((y >>= g) t).1 = ((x >>= f) s).1 := by
  rw [bind_apply, bind_apply]
  rcases h : x s with ⟨fault | a, s'⟩ <;> rcases h' : y t with ⟨fault' | a', t'⟩ <;> rw [h, h'] at hxy <;> cases hxy
  · rfl
  · rw [h] at hs hfg
    rw [h'] at ht
    obtain rfl : s' = s := hs
    obtain rfl : t' = t := ht
    exact hfg a rfl

namespace Head

@[simp] theorem elementCount_run (s : Setting σ) (h : Head) (run : Run σ) : (h.elementCount s run).2 = run := by
  rw [elementCount]
  cases h.extent with
  | one | known | untilEnd => rfl
  | computed source =>
    refine Stateful.bind_state (s.amount_run _ run) fun n => ?_
    by_cases hn : n < 0
    · simp only [if_pos hn]
      rfl
    · simp only [if_neg hn]
      rfl

@[simp] theorem request_run (s : Setting σ) (h : Head) (run : Run σ) : (h.request s run).2 = run :=
  Stateful.bind_state (s.amount_run _ run) fun _ =>
    Stateful.bind_state (h.elementCount_run s run) fun _ => Stateful.bind_state (s.checkCount_run _ run) fun _ => rfl

theorem request_eq (s : Setting σ) (h : Head) (run : Run σ) : h.request s run = ((h.request s run).1, run) := by
  rw [Prod.ext_iff]
  exact ⟨rfl, h.request_run s run⟩

/-- A request depends on the numbers of its extra and of its length and on the limit of arrays, and on
nothing else. -/
theorem request_outcome_of_amounts {τ : Type} [BitSource τ] {s : Setting σ} {s' : Setting τ} (h : Head) {run : Run σ}
    {run' : Run τ} (hlimit : s'.options.maxElements = s.options.maxElements)
    (hextra : (s'.amount h.extra run').1 = (s.amount h.extra run).1)
    (hextent : ∀ n, (s.amount h.extra run).1 = .ok n → ∀ source ∈ h.extent.sources,
      source.evaluate (s'.sizeContext run') = source.evaluate (s.sizeContext run)) :
    (h.request s' run').1 = (h.request s run).1 := by
  have hcheck : ∀ count, (s'.checkCount count run').1 = (s.checkCount count run).1 := by
    intro count
    cases count with
    | one | untilEnd => rfl
    | exactly n =>
      rw [Setting.checkCount, Setting.checkCount, hlimit]
      split <;> rfl
  refine Stateful.bind_outcome (s.amount_run _ run) (s'.amount_run _ run') hextra fun extra hok => ?_
  have hcount : (h.elementCount s' run').1 = (h.elementCount s run).1 := by
    rw [elementCount, elementCount]
    cases he : h.extent with
    | one | known | untilEnd => rfl
    | computed source =>
      have hsource : source ∈ h.extent.sources := by
        rw [he]
        exact List.mem_singleton_self _
      refine Stateful.bind_outcome (s.amount_run _ run) (s'.amount_run _ run') (hextent extra hok source hsource) fun n _ => ?_
      dsimp only
      split <;> rfl
  refine Stateful.bind_outcome (h.elementCount_run s run) (h.elementCount_run s' run') hcount fun count _ => ?_
  exact Stateful.bind_outcome (s.checkCount_run _ run) (s'.checkCount_run _ run') (hcheck count) fun _ _ => rfl

theorem request_outcome_of_sources {τ : Type} [BitSource τ] {s : Setting σ} {s' : Setting τ} (h : Head) {run : Run σ}
    {run' : Run τ} (hlimit : s'.options.maxElements = s.options.maxElements)
    (hsources : ∀ source ∈ h.sources, source.evaluate (s'.sizeContext run') = source.evaluate (s.sizeContext run)) :
    (h.request s' run').1 = (h.request s run).1 := by
  obtain ⟨hextra, hextent⟩ := List.forall_mem_append.mp hsources
  refine h.request_outcome_of_amounts hlimit ?_ fun _ _ => hextent
  cases hx : h.extra with
  | known n => rfl
  | computed source =>
    rw [hx] at hextra
    exact hextra source (List.mem_singleton_self _)

theorem request_outcome {s : Setting σ} (h : Head) {run run' : Run σ} (hcx : s.sizeContext run' = s.sizeContext run) :
    (h.request s run').1 = (h.request s run).1 :=
  h.request_outcome_of_sources rfl fun source _ => by rw [hcx]

/-- A request agrees with what its declaration says without computing. -/
structure Requests (h : Head) (q : Request) : Prop where
  order : q.order = h.order
  extra : ∀ n, h.extra = .known n → q.extra = n
  one : q.count = .one ↔ h.extent = .one
  untilEnd : q.count = .untilEnd ↔ h.extent = .untilEnd

theorem request_ok {s : Setting σ} {h : Head} {q : Request} {run : Run σ} (hq : (h.request s run).1 = .ok q) :
    h.Requests q := by
  have heq : h.request s run = (.ok q, run) := by rw [request_eq, hq]
  obtain ⟨extra, run₁, hextra, heq⟩ := Stateful.of_bind_ok heq
  obtain ⟨count, run₂, hcount, heq⟩ := Stateful.of_bind_ok heq
  obtain ⟨_, run₃, -, heq⟩ := Stateful.of_bind_ok heq
  cases heq
  have hextra' : ∀ n, h.extra = .known n → extra = n := by
    intro n hn
    rw [hn] at hextra
    cases hextra
    rfl
  rw [elementCount] at hcount
  cases hextent : h.extent with
  | one | known | untilEnd =>
    rw [hextent] at hcount
    cases hcount
    exact ⟨rfl, hextra', by simp [hextent], by simp [hextent]⟩
  | computed source =>
    rw [hextent] at hcount
    obtain ⟨length, run₄, -, hcount⟩ := Stateful.of_bind_ok hcount
    split at hcount <;> cases hcount
    exact ⟨rfl, hextra', by simp [hextent], by simp [hextent]⟩

theorem enter_eq (s : Setting σ) (h : Head) (run : Run σ) :
    h.enter s run =
      ((h.request s run).1.map fun q => if s.stopsBefore h.kind q.count run then none else some q, run) := by
  rw [enter, Stateful.bind_apply, request_eq]
  cases (h.request s run).1 <;> rfl

theorem readSingle_eq (s : Setting σ) (h : Head) (q : Request) (run : Run σ) :
    h.readSingle s q run =
      match h.readValue s q run.readings run.source with
      | (.ok .nothing, source) => (.ok ⟨[], false⟩, { run with source })
      | (.ok (.cut value), source) => (.ok ⟨[⟨h.info, value⟩], true⟩, { run with source })
      | (.ok (.value value), source) =>
        (.ok ⟨[⟨h.info, value⟩], false⟩, Setting.keepReading h.info value { run with source })
      | (.error fault, source) =>
        if fault.isEndOfInput && s.options.tolerant then (.ok ⟨[], true⟩, { run with source })
        else (.error fault, { run with source }) := by
  rw [readSingle, Stateful.bind_apply, tryValue, onSource]
  rcases h.readValue s q run.readings run.source with ⟨fault | reply, source⟩
  · by_cases hfault : fault.isEndOfInput && s.options.tolerant
    · simp only [if_pos hfault]
      rfl
    · simp only [if_neg hfault]
  · cases reply <;> rfl

end Head

/-- The outcome of a structure whose value was read. -/
def Yield.ofValue (info : Option NamedField) : Except Fault (Value × Bool) × Run σ → Except Fault Yield × Run σ
  | (.error fault, run) => (.error fault, run)
  | (.ok (value, halted), run) => (.ok ⟨[⟨info, value⟩], halted⟩, run)

/-- The outcome of declarations with fields read before them. -/
def Yield.behind (fields : List Field) : Except Fault Yield × Run σ → Except Fault Yield × Run σ
  | (.error fault, run) => (.error fault, run)
  | (.ok y, run) => (.ok ⟨fields ++ y.fields, y.halted⟩, run)

namespace Declaration

theorem read_single (s : Setting σ) (depth : Nat) (h : Head) (run : Run σ) :
    read s depth (.single h) run =
      match (h.request s run).1 with
      | .error fault => (.error fault, run)
      | .ok q => if s.stopsBefore h.kind q.count run then (.ok ⟨[], true⟩, run) else h.readSingle s q run := by
  rw [read, Stateful.bind_apply, Head.enter_eq]
  cases (h.request s run).1 with
  | error fault => rfl
  | ok q =>
    simp only [Except.map]
    by_cases hstop : s.stopsBefore h.kind q.count run
    · rw [if_pos hstop, if_pos hstop]
      rfl
    · rw [if_neg hstop, if_neg hstop]

theorem read_nested (s : Setting σ) (depth : Nat) (h : Head) (members : List Declaration) (run : Run σ) :
    read s depth (.nested h members) run =
      match (h.request s run).1 with
      | .error fault => (.error fault, run)
      | .ok q =>
        if s.stopsBefore h.kind q.count run then (.ok ⟨[], true⟩, run)
        else if s.options.maxDepth < depth + 1 then (.error (.input (.tooDeep s.options.maxDepth)), run)
        else Yield.ofValue h.info (readElements s.options q.count (readAll s (depth + 1) members) run) := by
  rw [read, Stateful.bind_apply, Head.enter_eq]
  cases (h.request s run).1 with
  | error fault => rfl
  | ok q =>
    simp only [Except.map]
    by_cases hstop : s.stopsBefore h.kind q.count run
    · rw [if_pos hstop, if_pos hstop]
      rfl
    rw [if_neg hstop, if_neg hstop]
    by_cases hdepth : s.options.maxDepth < depth + 1
    · simp only [if_pos hdepth]
      rfl
    simp only [if_neg hdepth]
    rw [Stateful.bind_apply]
    rcases readElements s.options q.count (readAll s (depth + 1) members) run with ⟨_ | _, _⟩ <;> rfl

theorem readAll_cons (s : Setting σ) (depth : Nat) (d : Declaration) (ds : List Declaration) (run : Run σ) :
    readAll s depth (d :: ds) run =
      match read s depth d run with
      | (.error fault, run') => (.error fault, run')
      | (.ok first, run') =>
        if first.halted then (.ok first, run')
        else Yield.behind first.fields (readAll s depth ds run') := by
  rw [readAll, Stateful.bind_apply]
  rcases read s depth d run with ⟨fault | first, run'⟩
  · rfl
  dsimp only
  by_cases hhalted : first.halted
  · rw [if_pos hhalted, if_pos hhalted]
    rfl
  rw [if_neg hhalted, if_neg hhalted, Stateful.bind_apply]
  rcases readAll s depth ds run' with ⟨_ | _, _⟩ <;> rfl

omit [BitSource σ] in
theorem readTimes_succ {body : Stateful (Run σ) Yield} (n : Nat) (run : Run σ) :
    readTimes body (n + 1) run =
      match body run with
      | (.error fault, run') => (.error fault, run')
      | (.ok y, run') =>
        if y.halted then (.ok ([], true), run')
        else
          match readTimes body n run' with
          | (.error fault, run'') => (.error fault, run'')
          | (.ok (items, halted), run'') => (.ok (⟨y.fields⟩ :: items, halted), run'') := by
  rw [readTimes, Stateful.bind_apply]
  rcases body run with ⟨fault | y, run'⟩
  · rfl
  dsimp only
  by_cases hhalted : y.halted
  · rw [if_pos hhalted, if_pos hhalted]
    rfl
  rw [if_neg hhalted, if_neg hhalted, Stateful.bind_apply]
  rcases readTimes body n run' with ⟨_ | _, _⟩ <;> rfl

/-! ## Readings that succeed -/

section success
variable {s : Setting σ} {depth : Nat} {h : Head} {run run' : Run σ} {y : Yield}

theorem read_single_ok (hstrict : s.options.tolerant = false) (hok : read s depth (.single h) run = (.ok y, run')) :
    ∃ q, (h.request s run).1 = .ok q ∧ h.readSingle s q run = (.ok y, run') := by
  rw [read_single] at hok
  cases hq : (h.request s run).1 with
  | error fault =>
    rw [hq] at hok
    cases hok
  | ok q =>
    simp only [hq, Setting.stopsBefore, hstrict, Bool.false_and, Bool.false_eq_true, if_false] at hok
    exact ⟨q, rfl, hok⟩

theorem read_nested_ok {members : List Declaration} (hstrict : s.options.tolerant = false)
    (hok : read s depth (.nested h members) run = (.ok y, run')) :
    ∃ q value halted, (h.request s run).1 = .ok q ∧ depth + 1 ≤ s.options.maxDepth ∧
      readElements s.options q.count (readAll s (depth + 1) members) run = (.ok (value, halted), run') ∧
      y = ⟨[⟨h.info, value⟩], halted⟩ := by
  rw [read_nested] at hok
  cases hq : (h.request s run).1 with
  | error fault =>
    rw [hq] at hok
    cases hok
  | ok q =>
    simp only [hq, Setting.stopsBefore, hstrict, Bool.false_and, Bool.false_eq_true, if_false] at hok
    split at hok
    · cases hok
    rename_i hdepth
    rcases hx : readElements s.options q.count (readAll s (depth + 1) members) run with ⟨fault | ⟨value, halted⟩, run₁⟩
    · rw [hx] at hok
      cases hok
    · rw [hx] at hok
      cases hok
      exact ⟨q, value, _, rfl, Nat.le_of_not_lt hdepth, hx, rfl⟩

theorem readAll_cons_ok {d : Declaration} {ds : List Declaration}
    (hok : readAll s depth (d :: ds) run = (.ok y, run')) :
    ∃ first run₁, d.read s depth run = (.ok first, run₁) ∧
      (first.halted = true ∧ y = first ∧ run' = run₁ ∨
        first.halted = false ∧ ∃ rest, readAll s depth ds run₁ = (.ok rest, run') ∧
          y = ⟨first.fields ++ rest.fields, rest.halted⟩) := by
  rw [readAll_cons] at hok
  rcases hd : d.read s depth run with ⟨fault | first, run₁⟩
  · rw [hd] at hok
    cases hok
  rw [hd] at hok
  refine ⟨first, run₁, rfl, ?_⟩
  cases hhalted : first.halted with
  | true =>
    simp only [hhalted, if_true] at hok
    cases hok
    exact .inl ⟨rfl, rfl, rfl⟩
  | false =>
    simp only [hhalted, Bool.false_eq_true, if_false] at hok
    rcases hds : readAll s depth ds run₁ with ⟨fault | rest, run₂⟩
    · rw [hds] at hok
      cases hok
    · rw [hds] at hok
      cases hok
      exact .inr ⟨rfl, rest, rfl, rfl⟩

omit [BitSource σ] in
theorem readTimes_succ_ok {body : Stateful (Run σ) Yield} {n : Nat} {items : List Record} {halted : Bool}
    (hok : readTimes body (n + 1) run = (.ok (items, halted), run')) :
    ∃ y run₁, body run = (.ok y, run₁) ∧
      (y.halted = true ∧ items = [] ∧ halted = true ∧ run' = run₁ ∨
        y.halted = false ∧ ∃ rest, readTimes body n run₁ = (.ok (rest, halted), run') ∧ items = ⟨y.fields⟩ :: rest) := by
  rw [readTimes_succ] at hok
  rcases hbody : body run with ⟨fault | y, run₁⟩
  · rw [hbody] at hok
    cases hok
  rw [hbody] at hok
  refine ⟨y, run₁, rfl, ?_⟩
  cases hhalted : y.halted with
  | true =>
    simp only [hhalted, if_true] at hok
    cases hok
    exact .inl ⟨rfl, rfl, rfl, rfl⟩
  | false =>
    simp only [hhalted, Bool.false_eq_true, if_false] at hok
    rcases hrest : readTimes body n run₁ with ⟨fault | ⟨rest, halted'⟩, run₂⟩
    · rw [hrest] at hok
      cases hok
    · rw [hrest] at hok
      cases hok
      exact .inr ⟨rfl, rest, rfl, rfl⟩

/-- What is true of the structures that are read up to the end of the input: of none where no input is left and
where the first of them halts or takes no input, and of one more in front of others. -/
theorem readWhile_induction {options : ReadOptions} {body : Stateful (Run σ) Yield}
    {P : Nat → Run σ → List Record → Bool → Run σ → Prop}
    (hend : ∀ size run, BitSource.left run.source = 0 → P size run [] false run)
    (hhalts : ∀ size run fields run', body run = (.ok ⟨fields, true⟩, run') → P size run [] true run')
    (hidle : ∀ size run fields run', body run = (.ok ⟨fields, false⟩, run') →
      ¬BitSource.left run'.source < BitSource.left run.source → P size run [] false run')
    (hnext : ∀ size run fields next items halted run', size < options.maxElements →
      body run = (.ok ⟨fields, false⟩, next) → BitSource.left next.source < BitSource.left run.source →
      P (size + 1) next items halted run' → P size run (⟨fields⟩ :: items) halted run')
    {size : Nat} {items : List Record} {halted : Bool}
    (hok : readWhile options body size run = (.ok (items, halted), run')) : P size run items halted run' := by
  induction hn : BitSource.left run.source using Nat.strongRecOn generalizing size run items halted with
  | _ n ih =>
    rw [readWhile] at hok
    split at hok
    · rename_i hleft
      cases hok
      exact hend size run' hleft
    split at hok
    · cases hok
    rename_i hmax
    rcases hy : body run with ⟨fault | ⟨fields, halts⟩, next⟩ <;> rw [hy] at hok
    · cases hok
    cases halts with
    | true =>
      cases hok
      exact hhalts size run fields run' hy
    | false =>
      simp only [Bool.false_eq_true, if_false] at hok
      split at hok
      · rename_i hless
        rcases hrest : readWhile options body (size + 1) next with ⟨fault | ⟨rest, halted'⟩, last⟩ <;>
          rw [hrest] at hok <;> cases hok
        exact hnext size run fields next rest halted run' (Nat.lt_of_not_le hmax) hy hless (ih _ (hn ▸ hless) hrest rfl)
      · rename_i hless
        cases hok
        exact hidle size run fields run' hy hless

end success

section elements
variable (options : ReadOptions) (body : Stateful (Run σ) Yield) (run : Run σ)

theorem readElements_one :
    readElements options .one body run =
      match body run with
      | (.error fault, run') => (.error fault, run')
      | (.ok y, run') => (.ok (.record ⟨y.fields⟩, y.halted), run') := by
  rw [readElements, Stateful.bind_apply]
  rcases body run with ⟨_ | _, _⟩ <;> rfl

theorem readElements_exactly (n : Nat) :
    readElements options (.exactly n) body run =
      match readTimes body n run with
      | (.error fault, run') => (.error fault, run')
      | (.ok (items, halted), run') => (.ok (.records items, halted), run') := by
  rw [readElements, Stateful.bind_apply]
  rcases readTimes body n run with ⟨_ | _, _⟩ <;> rfl

theorem readElements_untilEnd :
    readElements options .untilEnd body run =
      match readWhile options body 0 run with
      | (.error fault, run') => (.error fault, run')
      | (.ok (items, halted), run') => (.ok (.records items, halted), run') := by
  rw [readElements, Stateful.bind_apply]
  rcases readWhile options body 0 run with ⟨_ | _, _⟩ <;> rfl

end elements

end Declaration

end LayoutScript
