import LayoutScript.Proofs.Reference
import LayoutScript.Proofs.Stateful

/-! # Walks through the code of declarations

A walk that stands before the code of declarations reads those declarations and then goes on
behind them. The names and sizes that it takes from the tables are those of the declarations,
also where a body is walked again for every element or passed without reading.
-/
namespace LayoutScript
variable {σ : Type} [BitSource σ]

/-- A head agrees with the custom types of a layout, and has an extra only where its kind
has one. -/
structure Head.Fits (customTypes : List TypeSpec) (h : Head) : Prop where
  plain : h.kind.hasExtra = false → h.extra = .known 0
  custom : h.kind = .custom →
    ∃ index type, h.custom = some (index, type) ∧ customTypes[index]? = some type

theorem Draft.extra?_actionOf (kind : Kind) (extra : Packed) (index : Nat) :
    (Draft.actionOf kind extra index).extra? = if kind.hasExtra then some extra else none := by
  cases kind <;> rfl

namespace Setting
variable (s : Setting σ)

theorem nextSize_cons (line : CodeLine) (source : SizeSource) (sizes : List SizeSource) :
    s.nextSize line (source :: sizes) = do return (← s.amount (.computed source), sizes) := by
  funext run
  rw [Stateful.bind_apply]
  simp only [nextSize, amount]
  cases source.evaluate (s.sizeContext run) <;> rfl

theorem extraOf_line {h : Head} (hh : h.Fits s.layout.customTypes) (sizes : List SizeSource) :
    s.extraOf h.line (h.extra.sources ++ sizes) = do return (← s.amount h.extra, sizes) := by
  rw [extraOf, Head.line_instruction, Head.instruction, Draft.extra?_actionOf]
  by_cases hx : h.kind.hasExtra
  · rw [if_pos hx]
    cases h.extra with
    | known n => rfl
    | computed source => exact nextSize_cons s h.line source sizes
  · rw [if_neg hx, hh.plain (Bool.eq_false_iff.mpr hx)]
    rfl

theorem countOf_line (h : Head) (sizes : List SizeSource) :
    s.countOf h.line (h.extent.sources ++ sizes) = do return (← h.elementCount s, sizes) := by
  rw [countOf, Head.line_instruction, Head.instruction, Head.elementCount]
  cases h.extent with
  | one | known | untilEnd => rfl
  | computed source =>
    change (s.nextSize h.line (source :: sizes) >>= _) = _
    rw [nextSize_cons]
    simp only [bind_assoc, pure_bind, Head.line_offset]
    congr 1
    funext length
    by_cases hl : length < 0
    · simp only [if_pos hl, Stateful.throw_bind]
    · simp only [if_neg hl, pure_bind]

theorem request_line {h : Head} (hh : h.Fits s.layout.customTypes) (sizes : List SizeSource) :
    s.request h.line h.info (h.sources ++ sizes) = do return (← h.request s, sizes) := by
  have horder : (if h.line.instruction.little then ByteOrder.little else .big) = h.order := by
    rcases h with ⟨_, _, order⟩
    cases order <;> rfl
  rw [request, Head.request, Head.sources, List.append_assoc, extraOf_line s hh]
  simp only [bind_assoc, pure_bind, countOf_line, horder]

theorem readField_line {h : Head} (hh : h.Fits s.layout.customTypes) (r : Request) (readings : Readings) :
    s.readField h.line r readings = h.readValue s r readings := by
  rw [readField, Head.line_instruction, Head.instruction, Head.readValue]
  cases hk : h.kind with
  | custom =>
    obtain ⟨index, type, hc, ht⟩ := hh.custom hk
    simp only [hc, Option.map_some, Option.getD_some, Draft.actionOf, ht]
    rfl
  | _ => rfl

theorem tryField_line {h : Head} (hh : h.Fits s.layout.customTypes) (r : Request) :
    s.tryField h.line r = h.tryValue s r := by
  funext run
  rw [tryField, readField_line s hh]
  rfl

end Setting

theorem takeName_line (h : Head) (named : List NamedField) :
    takeName h.line (h.info.toList ++ named) = .ok (h.info, named) := by
  rcases h with ⟨_, _, _, info⟩
  cases info <;> rfl

namespace Declaration

/-- The place before declarations, in front of another place. -/
def before (ds : List Declaration) (place : Place) : Place :=
  ⟨linesAll ds ++ place.code, namedAll ds ++ place.named, sourcesAll ds ++ place.sizes⟩

theorem before_nil (place : Place) : before [] place = place := rfl

theorem before_cons (d : Declaration) (ds : List Declaration) (place : Place) :
    before (d :: ds) place = before [d] (before ds place) := by
  simp only [before, namedAll, sourcesAll, headsAll, linesAll, List.filterMap_append, List.flatMap_append,
    List.append_assoc, List.append_nil]

theorem before_single (h : Head) (place : Place) :
    before [.single h] place =
      ⟨h.line :: place.code, h.info.toList ++ place.named, h.sources ++ place.sizes⟩ := by
  simp only [before, namedAll, sourcesAll, headsAll, linesAll, heads, lines, List.append_nil, List.flatMap_cons, List.flatMap_nil]
  cases hi : h.info <;> simp [hi]

/-- The place behind the end of a structure. -/
def closed (h : Head) (members : List Declaration) (place : Place) : Place :=
  { place with code := h.closing (linesAll members) :: place.code }

theorem before_nested (h : Head) (members : List Declaration) (place : Place) :
    before [.nested h members] place =
      ⟨h.line :: (before members (closed h members place)).code,
        h.info.toList ++ (before members (closed h members place)).named,
        h.sources ++ (before members (closed h members place)).sizes⟩ := by
  simp only [before, closed, namedAll, sourcesAll, headsAll, linesAll, heads, lines, List.append_nil,
    List.cons_append, List.append_assoc, List.nil_append, List.flatMap_cons, List.filterMap_cons]
  cases h.info <;> simp

end Declaration

/-- A walk with fields read before it. -/
def Walk.prepend (fields : List Field) : Walk → Walk
  | .done fields' place => .done (fields ++ fields') place
  | .halted fields' => .halted (fields ++ fields')

theorem Walk.prepend_nil (w : Walk) : w.prepend [] = w := by cases w <;> rfl

theorem Walk.prepend_singleton (f : Field) (w : Walk) : w.prepend [f] = w.cons f := by cases w <;> rfl

theorem Walk.prepend_append (fields fields' : List Field) (w : Walk) :
    (w.prepend fields').prepend fields = w.prepend (fields ++ fields') := by
  cases w <;> simp [Walk.prepend]

/-- Goes on with a walk behind what was read, unless reading has halted. -/
def Yield.thenWalk (y : Yield) (next : Stateful (Run σ) Walk) : Stateful (Run σ) Walk :=
  if y.halted then pure (.halted y.fields) else do return (← next).prepend y.fields

namespace Setting
variable (s : Setting σ)

/-- A walk from a head on, as far as the head decides it. -/
theorem walk_head {h : Head} (hh : h.Fits s.layout.customTypes) (hclosing : h.kind ≠ .closing) (depth : Nat) (place : Place) :
    s.walk depth ⟨h.line :: place.code, h.info.toList ++ place.named, h.sources ++ place.sizes⟩ = (do
      match ← h.enter s with
      | none => return .halted []
      | some r =>
        if h.kind = .opening then
          if s.options.maxDepth < depth + 1 then throw (.input (.tooDeep s.options.maxDepth))
          else
            let (value, next?) ← s.readStructure r.count place (s.walk (depth + 1) place)
            match next? with
            | none => return .halted [⟨h.info, value⟩]
            | some next =>
              if next.code.length ≤ place.code.length then
                return (← s.walk depth next).cons ⟨h.info, value⟩
              else throw (.corrupt h.offset)
        else
          (← h.readSingle s r).thenWalk (s.walk depth place)) := by
  rw [walk, Head.line_kind, if_neg hclosing, takeName_line, Stateful.liftM_ok, pure_bind]
  dsimp only
  rw [request_line s hh, Head.enter]
  simp only [bind_assoc, pure_bind]
  congr 1
  funext r
  congr 1
  funext run
  by_cases hstop : s.stopsBefore h.kind r.count run = true
  · rw [if_pos hstop, if_pos hstop]
  · rw [if_neg hstop, if_neg hstop]
    dsimp only
    by_cases hopen : h.kind = .opening
    · rw [if_pos hopen, if_pos hopen]
      by_cases hdepth : s.options.maxDepth < depth + 1
      · rw [if_pos hdepth, if_pos hdepth, Stateful.throw_bind]
      · rw [if_neg hdepth, if_neg hdepth]
        rfl
    · rw [if_neg hopen, if_neg hopen, tryField_line s hh, Head.readSingle]
      simp only [bind_assoc]
      congr 1
      funext reply
      rcases reply with _ | (_ | value | value)
      · rfl
      · simp only [pure_bind, Yield.thenWalk, Bool.false_eq_true, if_false, Walk.prepend_nil, bind_pure]
      · simp only [pure_bind, bind_assoc, Yield.thenWalk, Bool.false_eq_true, if_false, Walk.prepend_singleton]
      · rfl

end Setting

/-- The walk that a body of declarations is, with the place behind it. -/
def Yield.toWalk (place : Place) (y : Yield) : Walk :=
  if y.halted then .halted y.fields else .done y.fields place

section repeating
variable {body : Stateful (Run σ) Walk} {body' : Stateful (Run σ) Yield} {place : Place}

omit [BitSource σ] in
theorem repeatBody_eq (hbody : body = Yield.toWalk place <$> body') (n : Nat) (acc : List Record)
    (start : Place) :
    repeatBody body (n + 1) acc start = do
      let (items, halted) ← Declaration.readTimes body' (n + 1)
      return (acc.reverse ++ items, if halted then none else some place) := by
  have hbind : ∀ f : Walk → Stateful (Run σ) Elements, (body >>= f) = body' >>= fun y => f (y.toWalk place) := by
    intro f
    rw [hbody, map_eq_pure_bind, bind_assoc]
    simp only [pure_bind]
  induction n generalizing acc start with
  | zero =>
    rw [repeatBody, Declaration.readTimes, hbind]
    simp only [bind_assoc, repeatBody, Declaration.readTimes]
    congr 1
    funext y
    cases hy : y.halted <;> simp [Yield.toWalk, hy]
  | succ n ih =>
    rw [repeatBody, Declaration.readTimes, hbind]
    simp only [bind_assoc]
    congr 1
    funext y
    cases hy : y.halted <;> simp [Yield.toWalk, hy, ih]

theorem repeatUntilEnd_eq (hbody : body = Yield.toWalk place <$> body') (options : ReadOptions)
    (size : Nat) (acc : List Record) (next : Option Place) (run : Run σ)
    (hnext : acc ≠ [] → next = some place) :
    match Declaration.readWhile options body' size run with
    | (.error fault, run') => repeatUntilEnd options body size acc next run = (.error fault, run')
    | (.ok (items, halted), run') =>
      ∃ next', repeatUntilEnd options body size acc next run = (.ok (acc.reverse ++ items, next', halted), run') ∧
        (halted → next' = none) ∧ (halted = false → acc.reverse ++ items ≠ [] → next' = some place) := by
  induction hn : BitSource.left run.source using Nat.strongRecOn generalizing size acc next run with
  | _ n ih =>
    rw [repeatUntilEnd, Declaration.readWhile]
    by_cases hend : BitSource.left run.source = 0
    · simp only [if_pos hend]
      refine ⟨next, by simp, by simp, ?_⟩
      simpa using hnext
    rw [if_neg hend, if_neg hend]
    by_cases hmax : options.maxElements ≤ size
    · simp only [if_pos hmax]
    rw [if_neg hmax, if_neg hmax]
    have hmap : body run = (body' >>= fun y => pure (y.toWalk place)) run := by rw [hbody, map_eq_pure_bind]
    rcases hy : body' run with ⟨fault | y, run'⟩
    · have hrun : body run = (.error fault, run') := hmap.trans (Stateful.bind_error hy _)
      simp only [hrun]
    have hrun : body run = (.ok (y.toWalk place), run') := hmap.trans (Stateful.bind_ok hy _)
    simp only [hrun]
    cases hh : y.halted with
    | true =>
      simp only [Yield.toWalk, hh, if_true]
      exact ⟨none, by simp, by simp, by simp⟩
    | false =>
      simp only [Yield.toWalk, hh, Bool.false_eq_true, if_false]
      by_cases hless : BitSource.left run'.source < BitSource.left run.source
      · simp only [if_pos hless]
        have hrest := ih _ (hn ▸ hless) (size + 1) (⟨y.fields⟩ :: acc) (some place) run' (fun _ => rfl) rfl
        rcases hw : Declaration.readWhile options body' (size + 1) run' with ⟨fault | ⟨items, halted⟩, run''⟩
        · rw [hw] at hrest
          exact hrest
        · rw [hw] at hrest
          obtain ⟨next', heq, h1, h2⟩ := hrest
          refine ⟨next', ?_, h1, ?_⟩
          · rw [heq]
            simp
          · simpa using h2
      · simp only [if_neg hless]
        exact ⟨some place, by simp, by simp, fun _ _ => rfl⟩

end repeating

namespace Setting
variable (s : Setting σ)

theorem readStructure_eq {body : Stateful (Run σ) Walk}
    {body' : Stateful (Run σ) Yield} {start place : Place} (hbody : body = Yield.toWalk place <$> body')
    (hskip : s.layout.skipBody 0 start.code start.named start.sizes = .ok place) (count : ElementCount) :
    s.readStructure count start body = do
      let (value, halted) ← Declaration.readElements s.options count body'
      return (value, if halted then none else some place) := by
  cases count with
  | one =>
    simp only [readStructure, elementsOf, Declaration.readElements, hbody, map_eq_pure_bind, bind_assoc, pure_bind]
    congr 1
    funext y
    cases hy : y.halted <;> simp [Yield.toWalk, hy]
  | exactly n =>
    cases n with
    | zero => 
      simp only [readStructure, elementsOf, Declaration.readElements, Declaration.readTimes, hskip, Stateful.liftM_ok, pure_bind]
      rfl
    | succ n =>
      simp only [readStructure, elementsOf, Declaration.readElements, repeatBody_eq hbody, bind_assoc, pure_bind]
      rfl
  | untilEnd =>
    funext run
    have h := repeatUntilEnd_eq hbody s.options 0 [] none run (fun h => absurd rfl h)
    simp only [readStructure, elementsOf, Declaration.readElements, bind_assoc, pure_bind]
    rw [Stateful.bind_apply, Stateful.bind_apply]
    rcases hw : Declaration.readWhile s.options body' 0 run with ⟨fault | ⟨items, halted⟩, run'⟩
    · rw [hw] at h
      rw [h]
    · rw [hw] at h
      obtain ⟨next, heq, hhalted, hnext⟩ := h
      rw [heq]
      dsimp only [List.reverse_nil, List.nil_append] at hnext ⊢
      cases halted with
      | true => 
        rw [hhalted rfl]
        cases items <;> rfl
      | false =>
        cases items with
        | nil => simp only [hskip, Stateful.liftM_ok]; rfl
        | cons item items => rw [hnext rfl (List.cons_ne_nil _ _)]; rfl
end Setting

theorem Head.length_sources {h : Head} (hplain : h.kind.hasExtra = false → h.extra = .known 0) :
    h.instruction.computedCount = h.sources.length := by
  rw [Instruction.computedCount, instruction, Draft.extra?_actionOf, sources, List.length_append]
  congr 1
  · by_cases hx : h.kind.hasExtra
    · cases h.extra <;> simp [hx, Amount.packed, Amount.sources]
    · rw [hplain (Bool.eq_false_iff.mpr hx)]
      simp [hx, Amount.sources]
  · cases h.extent <;> simp [Extent.count, Extent.sources]

section skipping
variable {layout : Layout} {line : CodeLine}

namespace Layout

theorem skipBody_end (h : line.kind = .closing) (code : List CodeLine) (named : List NamedField) (sizes : List SizeSource) :
    layout.skipBody 0 (line :: code) named sizes = .ok ⟨code, named, sizes⟩ := by
  rw [skipBody]
  exact h

theorem skipBody_leave (h : line.kind = .closing) (inner : Nat) (code : List CodeLine) (named : List NamedField)
    (sizes : List SizeSource) :
    layout.skipBody (inner + 1) (line :: code) named sizes = layout.skipBody inner code named sizes := by
  rw [skipBody]
  exact h

theorem skipBody_pass (h : line.kind ≠ .closing) (inner : Nat) (code : List CodeLine) (named : List NamedField)
    (sizes : List SizeSource) :
    layout.skipBody inner (line :: code) named sizes = (do
      let (_, named) ← takeName line named
      layout.skipBody (if line.kind = .opening then inner + 1 else inner) code named
        (sizes.drop line.instruction.computedCount)) := by
  rw [skipBody]
  · intro hkind
    exact absurd hkind h
  · intro _ hkind
    exact absurd hkind h

theorem skipBody_head {customTypes : List TypeSpec} {h : Head} (hh : h.Fits customTypes) (hclosing : h.kind ≠ .closing) (inner : Nat)
    (code : List CodeLine) (named : List NamedField) (sizes : List SizeSource) :
    layout.skipBody inner (h.line :: code) (h.info.toList ++ named) (h.sources ++ sizes) =
      layout.skipBody (if h.kind = .opening then inner + 1 else inner) code named sizes := by
  have hkind : h.line.kind ≠ .closing := by rwa [Head.line_kind]
  rw [skipBody_pass hkind, takeName_line, Head.line_kind, Head.line_instruction, Head.length_sources hh.plain, List.drop_left]
  rfl

end Layout
end skipping

namespace Layout
open Declaration
variable (layout : Layout)

mutual

theorem skipBody_before {customTypes : List TypeSpec} : (d : Declaration) → d.Formed (Head.Fits customTypes) →
    ∀ (inner : Nat) (place : Place),
      layout.skipBody inner (before [d] place).code (before [d] place).named (before [d] place).sizes =
        layout.skipBody inner place.code place.named place.sizes
  | .single h, hf, inner, place => by
    rw [before_single, skipBody_head hf.1 hf.2.2, if_neg hf.2.1]
  | .nested h members, hf, inner, place => by
    have hclosing : h.kind ≠ .closing := by simp [hf.2.1]
    rw [before_nested, skipBody_head hf.1 hclosing, if_pos hf.2.1, skipBody_beforeAll members hf.2.2]
    rfl

theorem skipBody_beforeAll {customTypes : List TypeSpec} : (ds : List Declaration) → FormedAll (Head.Fits customTypes) ds →
    ∀ (inner : Nat) (place : Place),
      layout.skipBody inner (before ds place).code (before ds place).named (before ds place).sizes =
        layout.skipBody inner place.code place.named place.sizes
  | [], _, _, _ => rfl
  | d :: ds, hf, inner, place => by
    rw [before_cons, skipBody_before d hf.1, skipBody_beforeAll ds hf.2]

end

theorem skipBody_closed {customTypes : List TypeSpec} {members : List Declaration} (hf : FormedAll (Head.Fits customTypes) members)
    (h : Head) (place : Place) :
    layout.skipBody 0 (before members (closed h members place)).code (before members (closed h members place)).named
      (before members (closed h members place)).sizes = .ok place := by
  rw [skipBody_beforeAll layout members hf]
  rfl

end Layout

namespace Setting
variable (s : Setting σ)

open Declaration

theorem walk_closed (h : Head) (members : List Declaration) (depth : Nat) (place : Place) :
    s.walk (depth + 1) (closed h members place) = pure (.done [] place) := by
  rw [closed, walk, Head.closing_kind, if_pos rfl, if_neg (Nat.succ_ne_zero _)]

mutual

/-- A walk through the code of a declaration reads the declaration and goes on behind it. -/
theorem walk_before : (d : Declaration) → d.Formed (Head.Fits s.layout.customTypes) → ∀ (depth : Nat) (place : Place),
    s.walk depth (before [d] place) = do
      let y ← d.read s depth
      y.thenWalk (s.walk depth place)
  | .single h, hf, depth, place => by
    rw [before_single, walk_head s hf.1 hf.2.2, Declaration.read]
    simp only [bind_assoc]
    congr 1
    funext r
    cases r with
    | none => rfl
    | some r => simp only [if_neg hf.2.1]
  | .nested h members, hf, depth, place => by
    have hclosing : h.kind ≠ .closing := by simp [hf.2.1]
    have hbody : s.walk (depth + 1) (before members (closed h members place)) =
        Yield.toWalk place <$> readAll s (depth + 1) members := by
      rw [walk_beforeAll members hf.2.2, walk_closed, map_eq_pure_bind]
      congr 1
      funext y
      cases hy : y.halted <;> simp [Yield.toWalk, Yield.thenWalk, Walk.prepend, hy]
    rw [before_nested, walk_head s hf.1 hclosing, Declaration.read]
    simp only [bind_assoc]
    congr 1
    funext r
    cases r with
    | none => rfl
    | some r =>
      simp only [if_pos hf.2.1]
      by_cases hdepth : s.options.maxDepth < depth + 1
      · simp only [if_pos hdepth, Stateful.throw_bind]
      rw [if_neg hdepth, if_neg hdepth, s.readStructure_eq hbody (s.layout.skipBody_closed hf.2.2 h place)]
      simp only [bind_assoc, pure_bind]
      congr 1
      funext ⟨value, halted⟩
      have hbehind : place.code.length ≤ (before members (closed h members place)).code.length := by
        simp only [before, closed, List.length_append, List.length_cons]
        omega
      cases halted with
      | true => rfl
      | false =>
        simp only [Bool.false_eq_true, if_false, if_pos hbehind, Yield.thenWalk, Walk.prepend_singleton]

theorem walk_beforeAll : (ds : List Declaration) → FormedAll (Head.Fits s.layout.customTypes) ds →
    ∀ (depth : Nat) (place : Place),
    s.walk depth (before ds place) = do
      let y ← readAll s depth ds
      y.thenWalk (s.walk depth place)
  | [], _, depth, place => by
    rw [before_nil, readAll, pure_bind, Yield.thenWalk]
    simp [Walk.prepend_nil]
  | d :: ds, hf, depth, place => by
    rw [before_cons, walk_before d hf.1, walk_beforeAll ds hf.2, readAll]
    simp only [bind_assoc]
    congr 1
    funext y
    cases hy : y.halted with
    | true => simp [Yield.thenWalk, hy]
    | false =>
      simp only [Yield.thenWalk, hy, Bool.false_eq_true, if_false, bind_assoc, pure_bind]
      congr 1
      funext rest
      cases hr : rest.halted with
      | true => simp [Walk.prepend]
      | false => simp only [Bool.false_eq_true, if_false, bind_assoc, pure_bind, Walk.prepend_append]

end

end Setting
end LayoutScript
