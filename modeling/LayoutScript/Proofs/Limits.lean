import LayoutScript.Proofs.Exhaustion
import LayoutScript.Proofs.ReadMembers

/-! # Limits of reading

The limits on the depth of structures and on the length of arrays either end a reading or make no
difference to it. What is read under some limits is read under all wider ones, and no array in it
is longer than they allow.
-/
namespace LayoutScript

/-- The faults of a reading that meets a limit. -/
def Fault.isLimit : Fault → Bool
  | .input (.arrayTooLarge ..) | .input (.tooDeep _) => true
  | _ => false

/-- The options differ in their limits alone, and those of `wider` are no narrower. -/
structure ReadOptions.WidenTo (options wider : ReadOptions) : Prop where
  bitOrder : wider.bitOrder = options.bitOrder
  tolerant : wider.tolerant = options.tolerant
  maxDepth : options.maxDepth ≤ wider.maxDepth
  maxElements : options.maxElements ≤ wider.maxElements

/-- The setting with other options. -/
def Setting.under {σ : Type} (s : Setting σ) (options : ReadOptions) : Setting σ := { s with options }

/-- Where `x` does not meet a limit, `y` does the same. -/
def UnlessLimited {σ α : Type} (x y : Stateful σ α) : Prop :=
  ∀ s, (∃ fault, fault.isLimit = true ∧ (x s).1 = .error fault) ∨ y s = x s

namespace UnlessLimited
variable {σ α β : Type} {x y : Stateful σ α}

theorem same : UnlessLimited x x := fun _ => .inr rfl

theorem of_limit {fault : Fault} (h : fault.isLimit = true) : UnlessLimited (throw fault) y :=
  fun _ => .inl ⟨fault, h, rfl⟩

theorem bind {f g : α → Stateful σ β} (h : UnlessLimited x y) (hf : ∀ a, UnlessLimited (f a) (g a)) :
    UnlessLimited (x >>= f) (y >>= g) := by
  intro s
  rw [Stateful.bind_apply, Stateful.bind_apply]
  rcases h s with ⟨fault, hlimit, hfault⟩ | hsame
  · refine .inl ⟨fault, hlimit, ?_⟩
    rcases hx : x s with ⟨fault' | a, s'⟩ <;> rw [hx] at hfault <;> cases hfault
    rfl
  · rw [hsame]
    rcases x s with ⟨fault | a, s'⟩
    · exact .inr rfl
    · exact hf a s'

end UnlessLimited

section widening
variable {σ : Type} [BitSource σ] {s : Setting σ} {options wider : ReadOptions}

/-! ## Arrays of scalars -/

section scalars
variable {α : Type} {read : Stateful σ α}

omit [BitSource σ] in
theorem readExactly_wider (htolerant : wider.tolerant = options.tolerant) (n : Nat) (acc : List α) :
    readExactly wider read n acc = readExactly options read n acc := by
  induction n generalizing acc with
  | zero => rfl
  | succ n ih =>
    funext t
    simp only [readExactly, ih, htolerant]

theorem readUntilEnd_wider (hwide : options.WidenTo wider) (size : Nat) (acc : List α) :
    UnlessLimited (readUntilEnd options read size acc) (readUntilEnd wider read size acc) := by
  intro t
  induction hn : BitSource.left t using Nat.strongRecOn generalizing size acc t with
  | _ n ih =>
    rw [readUntilEnd, readUntilEnd]
    by_cases hend : BitSource.left t = 0
    · rw [if_pos hend, if_pos hend]
      exact .inr rfl
    rw [if_neg hend, if_neg hend]
    by_cases hmax : options.maxElements ≤ size
    · rw [if_pos hmax]
      exact .inl ⟨_, rfl, rfl⟩
    rw [if_neg hmax]
    by_cases hwider : wider.maxElements ≤ size
    · exact absurd (Nat.le_trans hwide.maxElements hwider) hmax
    rw [if_neg hwider, hwide.tolerant]
    rcases read t with ⟨fault | v, t'⟩
    · exact .inr rfl
    dsimp only
    by_cases hless : BitSource.left t' < BitSource.left t
    · rw [if_pos hless, if_pos hless]
      exact ih _ (hn ▸ hless) _ _ t' rfl
    · rw [if_neg hless, if_neg hless]
      exact .inr rfl

theorem readScalars_wider (hwide : options.WidenTo wider) (type : ScalarType) (count : ElementCount)
    (read : Stateful σ type.Carrier) :
    UnlessLimited (readScalars options type count read) (readScalars wider type count read) := by
  cases count with
  | one => exact .same
  | exactly n =>
    simp only [readScalars, readArray, readExactly_wider hwide.tolerant]
    exact .same
  | untilEnd => exact (readUntilEnd_wider hwide 0 []).bind fun _ => .same

end scalars

/-! ## Declarations -/

namespace Head
variable (h : Head)

theorem request_wider (hwide : s.options.WidenTo wider) : UnlessLimited (h.request s) (h.request (s.under wider)) := by
  have hamount : ∀ a, (s.under wider).amount a = s.amount a := by
    intro a
    cases a <;> rfl
  have hcount : h.elementCount (s.under wider) = h.elementCount s := by
    unfold elementCount
    cases h.extent with
    | one | known | untilEnd => rfl
    | computed source => simp only [hamount]
  have hcheck : ∀ count, UnlessLimited (s.checkCount count) ((s.under wider).checkCount count) := by
    intro count
    cases count with
    | one | untilEnd => exact .same
    | exactly n =>
      unfold Setting.checkCount
      by_cases hmax : s.options.maxElements < n
      · simp only [if_pos hmax]
        exact .of_limit rfl
      · have hwider : ¬ (s.under wider).options.maxElements < n := by
          have := hwide.maxElements
          simp only [Setting.under]
          omega
        simp only [if_neg hmax, if_neg hwider]
        exact .same
  unfold request
  rw [hamount, hcount]
  exact UnlessLimited.same.bind fun _ => UnlessLimited.same.bind fun count => (hcheck count).bind fun _ => .same

theorem enter_wider (hwide : s.options.WidenTo wider) : UnlessLimited (h.enter s) (h.enter (s.under wider)) := by
  have hstops : ∀ count run, (s.under wider).stopsBefore h.kind count run = s.stopsBefore h.kind count run := by
    intro count run
    simp only [Setting.stopsBefore, Setting.under, hwide.tolerant]
  unfold enter
  simp only [hstops]
  exact (h.request_wider hwide).bind fun _ => .same

theorem readValue_wider (hwide : s.options.WidenTo wider) (q : Request) (readings : Readings) :
    UnlessLimited (h.readValue s q readings) (h.readValue (s.under wider) q readings) := by
  unfold readValue
  cases h.kind with
  | opening | closing | align | skip | restart | var | custom => exact .same
  | whole type => exact readScalars_wider hwide _ _ _
  | bit =>
    dsimp only
    split
    · exact readScalars_wider hwide _ _ _
    · exact .same

/-- A limit is not the end of the input, so no tolerance makes good for it. -/
theorem tryValue_wider (hwide : s.options.WidenTo wider) (q : Request) :
    UnlessLimited (h.tryValue s q) (h.tryValue (s.under wider) q) := by
  intro run
  unfold tryValue onSource
  rcases h.readValue_wider hwide q run.readings run.source with ⟨fault, hlimit, hfault⟩ | hsame
  · have hend : fault.isEndOfInput = false := by
      unfold Fault.isLimit at hlimit
      split at hlimit <;> first | rfl | cases hlimit
    rcases hx : h.readValue s q run.readings run.source with ⟨fault' | reply, t⟩ <;> rw [hx] at hfault <;> cases hfault
    exact .inl ⟨fault, hlimit, by simp only [hend, Bool.false_and, Bool.false_eq_true, if_false]⟩
  · rw [hsame]
    exact .inr (by simp only [Setting.under, hwide.tolerant])

theorem readSingle_wider (hwide : s.options.WidenTo wider) (q : Request) :
    UnlessLimited (h.readSingle s q) (h.readSingle (s.under wider) q) :=
  (h.tryValue_wider hwide q).bind fun _ => .same

end Head

namespace Declaration
variable {body body' : Stateful (Run σ) Yield}

omit [BitSource σ] in
theorem readTimes_wider (hbody : UnlessLimited body body') (n : Nat) :
    UnlessLimited (readTimes body n) (readTimes body' n) := by
  induction n with
  | zero => exact .same
  | succ n ih =>
    refine hbody.bind fun y => ?_
    by_cases hhalted : y.halted
    · simp only [if_pos hhalted]
      exact .same
    · simp only [if_neg hhalted]
      exact ih.bind fun _ => .same

theorem readWhile_wider (hbody : UnlessLimited body body') (hwide : options.WidenTo wider) (size : Nat) :
    UnlessLimited (readWhile options body size) (readWhile wider body' size) := by
  intro run
  induction hn : BitSource.left run.source using Nat.strongRecOn generalizing size run with
  | _ n ih =>
    rw [readWhile, readWhile]
    by_cases hend : BitSource.left run.source = 0
    · rw [if_pos hend, if_pos hend]
      exact .inr rfl
    rw [if_neg hend, if_neg hend]
    by_cases hmax : options.maxElements ≤ size
    · rw [if_pos hmax]
      exact .inl ⟨_, rfl, rfl⟩
    rw [if_neg hmax]
    by_cases hwider : wider.maxElements ≤ size
    · exact absurd (Nat.le_trans hwide.maxElements hwider) hmax
    rw [if_neg hwider]
    rcases hbody run with ⟨fault, hlimit, hfault⟩ | hsame
    · rcases hy : body run with ⟨fault' | y, run'⟩ <;> rw [hy] at hfault <;> cases hfault
      exact .inl ⟨fault, hlimit, rfl⟩
    rw [hsame]
    rcases body run with ⟨fault | y, run'⟩
    · exact .inr rfl
    dsimp only
    by_cases hhalted : y.halted
    · rw [if_pos hhalted, if_pos hhalted]
      exact .inr rfl
    rw [if_neg hhalted, if_neg hhalted]
    by_cases hless : BitSource.left run'.source < BitSource.left run.source
    · rw [if_pos hless, if_pos hless]
      rcases ih _ (hn ▸ hless) (size + 1) run' rfl with ⟨fault, hlimit, hfault⟩ | hrest
      · rcases hx : readWhile options body (size + 1) run' with ⟨fault' | x, run''⟩ <;> rw [hx] at hfault <;> cases hfault
        exact .inl ⟨fault, hlimit, rfl⟩
      · rw [hrest]
        exact .inr rfl
    · rw [if_neg hless, if_neg hless]
      exact .inr rfl

theorem readElements_wider (hbody : UnlessLimited body body') (hwide : options.WidenTo wider) (count : ElementCount) :
    UnlessLimited (readElements options count body) (readElements wider count body') := by
  cases count with
  | one => exact hbody.bind fun _ => .same
  | exactly n => exact (readTimes_wider hbody n).bind fun _ => .same
  | untilEnd => exact (readWhile_wider hbody hwide 0).bind fun _ => .same

mutual

theorem read_wider (hwide : s.options.WidenTo wider) (depth : Nat) :
    (d : Declaration) → UnlessLimited (d.read s depth) (d.read (s.under wider) depth)
  | .single h => by
    unfold read
    refine (h.enter_wider hwide).bind fun q? => ?_
    cases q? with
    | none => exact .same
    | some q => exact h.readSingle_wider hwide q
  | .nested h members => by
    unfold read
    refine (h.enter_wider hwide).bind fun q? => ?_
    cases q? with
    | none => exact .same
    | some q =>
      by_cases hdeep : s.options.maxDepth < depth + 1
      · simp only [if_pos hdeep]
        exact .of_limit rfl
      · have hwider : ¬ (s.under wider).options.maxDepth < depth + 1 := by
          have := hwide.maxDepth
          simp only [Setting.under]
          omega
        simp only [if_neg hdeep, if_neg hwider]
        exact (readElements_wider (readAll_wider hwide (depth + 1) members) hwide q.count).bind fun _ => .same

/-- Under wider limits declarations are read as under narrower ones that they keep. -/
theorem readAll_wider (hwide : s.options.WidenTo wider) (depth : Nat) :
    (ds : List Declaration) → UnlessLimited (readAll s depth ds) (readAll (s.under wider) depth ds)
  | [] => .same
  | d :: ds => by
    unfold readAll
    refine (read_wider hwide depth d).bind fun first => ?_
    by_cases hhalted : first.halted
    · simp only [if_pos hhalted]
      exact .same
    · simp only [if_neg hhalted]
      exact (readAll_wider hwide depth ds).bind fun _ => .same

end

end Declaration
end widening

/-! ## Lengths of arrays -/

/-- Whether the value is no array of more elements than told. -/
def Value.atMost (limit : Nat) (v : Value) : Bool := v.length?.all (· ≤ limit)

/-- Whether the fields of a structure, or of each one among several, are as told. -/
def Value.allStructures (p : List Field → Bool) : Value → Bool
  | .record item => p item.fields
  | .records items => items.all fun item => p item.fields
  | .scalar .. | .array .. | .text _ => false

namespace Declaration

mutual

/-- Whether no array of scalars or of structures in the value of a declaration has more elements than told.
Values that others supply may have any number of them. -/
def within (limit : Nat) : Declaration → Value → Bool
  | .single h, v => !h.kind.isScalar || v.atMost limit
  | .nested _ members, v => v.atMost limit && v.allStructures fun fields => withinAll limit members fields

/-- The same for the fields of declarations, of which the last ones can be missing. -/
def withinAll (limit : Nat) : List Declaration → List Field → Bool
  | [], fields => fields.isEmpty
  | d :: ds, fields =>
    if d.isModifier then withinAll limit ds fields
    else
      match fields with
      | [] => true
      | f :: fields => within limit d f.value && withinAll limit ds fields

end

theorem withinAll_nil (limit : Nat) (ds : List Declaration) : withinAll limit ds [] = true := by
  induction ds with
  | nil => rfl
  | cons d ds ih => simp only [withinAll, ih, ite_self]

/-- What a declaration gives: a field with a value, none if it is a modifier or halts before it has one. -/
def Shows (limit : Nat) (d : Declaration) (y : Yield) : Prop :=
  if d.isModifier then y.fields = []
  else (y.halted = true ∧ y.fields = []) ∨ ∃ f, y.fields = [f] ∧ d.within limit f.value = true

theorem Shows.of_halted {limit : Nat} (d : Declaration) : d.Shows limit ⟨[], true⟩ := by
  unfold Shows
  split
  · rfl
  · exact .inl ⟨rfl, rfl⟩

theorem Shows.of_modifier {limit : Nat} {d : Declaration} (h : d.isModifier = true) (halted : Bool) :
    d.Shows limit ⟨[], halted⟩ := by
  unfold Shows
  rw [if_pos h]

theorem Shows.of_value {limit : Nat} {d : Declaration} {f : Field} (h : d.isModifier = false)
    (hf : d.within limit f.value = true) (halted : Bool) : d.Shows limit ⟨[f], halted⟩ := by
  unfold Shows
  rw [h, if_neg Bool.false_ne_true]
  exact .inr ⟨f, rfl, hf⟩

theorem Shows.withinAll {limit : Nat} {d : Declaration} {first : Yield} (h : d.Shows limit first) {ds : List Declaration}
    {fields : List Field} (hds : withinAll limit ds fields = true) (hhalted : first.halted = true → fields = []) :
    Declaration.withinAll limit (d :: ds) (first.fields ++ fields) = true := by
  unfold Shows at h
  unfold Declaration.withinAll
  by_cases hmodifier : d.isModifier
  · rw [if_pos hmodifier] at h ⊢
    rwa [h]
  rw [if_neg hmodifier] at h ⊢
  rcases h with ⟨hhalts, hnone⟩ | ⟨f, hone, hf⟩
  · rw [hnone, hhalted hhalts]
    rfl
  · rw [hone]
    exact Bool.and_eq_true_iff.mpr ⟨hf, hds⟩

end Declaration

/-- A reply with a value that is no longer than told. -/
def Reply.AtMost (limit : Nat) : Reply → Prop
  | .nothing => False
  | .value v | .cut v => v.atMost limit = true

/-- A reply to a request for a kind: a value, unless it is a modifier. -/
def Kind.Replies (limit : Nat) (kind : Kind) : Reply → Prop
  | .nothing => kind.isModifier = true
  | .value v | .cut v => kind.isModifier = false ∧ (kind.isScalar = true → v.atMost limit = true)

theorem Reply.AtMost.replies {limit : Nat} {kind : Kind} {reply : Reply} (h : reply.AtMost limit)
    (hkind : kind.isModifier = false) : kind.Replies limit reply := by
  cases reply with
  | nothing => cases h
  | value | cut => exact ⟨hkind, fun _ => h⟩

namespace Returns
variable {σ α : Type} {P Q : α → Prop} {x : Stateful σ α}

theorem imp (h : Returns P x) (hpq : ∀ a, P a → Q a) : Returns Q x := fun s a s' heq => hpq a (h s a s' heq)

theorem and (h : Returns P x) (h' : Returns Q x) : Returns (fun a => P a ∧ Q a) x :=
  fun s a s' heq => ⟨h s a s' heq, h' s a s' heq⟩

end Returns

/-- A count with no more elements than told. -/
def ElementCount.atMost (limit : Nat) : ElementCount → Prop
  | .exactly n => n ≤ limit
  | .one | .untilEnd => True

section lengths
variable {σ : Type} [BitSource σ]

section scalars
variable {α : Type} {options : ReadOptions} {read : Stateful σ α}

omit [BitSource σ] in
theorem returns_readExactly (n : Nat) (acc : List α) :
    Returns (fun p => p.1.length ≤ acc.length + n) (readExactly options read n acc) := by
  induction n generalizing acc with
  | zero => exact .of_pure (Nat.le_of_eq acc.length_reverse)
  | succ n ih =>
    intro t p t' hok
    simp only [readExactly] at hok
    rcases hread : read t with ⟨fault | v, t₁⟩ <;> simp only [hread] at hok
    · split at hok <;> cases hok
      simp only [List.length_reverse]
      omega
    · have hrest := ih (v :: acc) t₁ p t' hok
      simp only [List.length_cons] at hrest
      omega

theorem returns_readUntilEnd {size : Nat} {acc : List α} (hsize : acc.length = size) (hle : size ≤ options.maxElements) :
    Returns (fun p => p.1.length ≤ options.maxElements) (readUntilEnd options read size acc) := by
  intro t p t' hok
  induction hn : BitSource.left t using Nat.strongRecOn generalizing size acc t with
  | _ n ih =>
    rw [readUntilEnd] at hok
    split at hok
    · cases hok
      simpa only [List.length_reverse, hsize] using hle
    split at hok
    · cases hok
    rcases hread : read t with ⟨fault | v, t₁⟩ <;> simp only [hread] at hok
    · split at hok <;> cases hok
      simpa only [List.length_reverse, hsize] using hle
    · have hsize' : (v :: acc).length = size + 1 := by simp only [List.length_cons, hsize]
      have hle' : size + 1 ≤ options.maxElements := by omega
      split at hok
      · rename_i hless
        exact ih _ (hn ▸ hless) hsize' hle' t₁ hok rfl
      · cases hok
        simpa only [List.length_reverse, hsize'] using hle'

theorem returns_readScalars_atMost {count : ElementCount} (hcount : count.atMost options.maxElements) (type : ScalarType)
    (read : Stateful σ type.Carrier) :
    Returns (Reply.AtMost options.maxElements) (readScalars options type count read) := by
  have harray (p : List type.Carrier × Bool) (hp : p.1.length ≤ options.maxElements) :
      Returns (σ := σ) (Reply.AtMost options.maxElements)
        (pure (if p.2 then .cut (.array type p.1) else .value (.array type p.1))) := by
    refine .of_pure ?_
    split <;> exact decide_eq_true hp
  cases count with
  | one => exact .after fun _ => .of_pure rfl
  | exactly n =>
    refine (returns_readExactly n []).bind fun p hp => harray p ?_
    exact Nat.le_trans hp (Nat.le_trans (Nat.le_of_eq (Nat.zero_add n)) hcount)
  | untilEnd => exact (returns_readUntilEnd List.length_nil (Nat.zero_le _)).bind harray

end scalars

variable {s : Setting σ}

namespace Head
variable {h : Head} {q : Request}

theorem returns_request (h : Head) : Returns (fun q => q.count.atMost s.options.maxElements) (h.request s) := by
  have hcheck : ∀ count, Returns (fun _ => count.atMost s.options.maxElements) (s.checkCount count) := by
    intro count
    unfold Setting.checkCount
    split
    · split
      · exact .of_throw _
      · exact .of_pure (by simp only [ElementCount.atMost]; omega)
    · rename_i hcount
      cases count with
      | exactly n => exact absurd rfl (hcount n)
      | one | untilEnd => exact .of_pure trivial
  exact .after fun _ => .after fun count => (hcheck count).bind fun _ hcount => .of_pure hcount

theorem returns_enter (h : Head) :
    Returns (fun q? => ∀ q, q? = some q → q.count.atMost s.options.maxElements) (h.enter s) := by
  refine h.returns_request.bind fun q hq => .after fun run => .of_pure ?_
  split
  · exact fun _ hsome => by cases hsome
  · exact fun _ hsome => by cases hsome; exact hq

theorem returns_readValue_replies (hcount : q.count.atMost s.options.maxElements) (readings : Readings) :
    Returns (h.kind.Replies s.options.maxElements) (h.readValue s q readings) := by
  rw [readValue.eq_def]
  cases hk : h.kind with
  | align | skip => exact .after fun _ => .after fun _ => .of_pure rfl
  | restart => exact .after fun _ => .of_pure rfl
  | opening | closing => exact .of_throw _
  | whole type => exact (returns_readScalars_atMost hcount _ _).imp fun _ hreply => hreply.replies rfl
  | bit =>
    dsimp only
    split
    · exact (returns_readScalars_atMost hcount _ _).imp fun _ hreply => hreply.replies rfl
    · exact .of_throw _
  | var =>
    dsimp only
    split
    · exact .after fun v => .of_pure ⟨rfl, fun hscalar => by cases hscalar⟩
    · exact .of_throw _
  | custom =>
    dsimp only
    split
    · exact .of_throw _
    · split
      · exact .after fun v => .of_pure ⟨rfl, fun hscalar => by cases hscalar⟩
      · exact .of_throw _

theorem returns_readSingle_shows (hcount : q.count.atMost s.options.maxElements) :
    Returns ((Declaration.single h).Shows s.options.maxElements) (h.readSingle s q) := by
  intro run y run' hok
  rw [readSingle_eq] at hok
  rcases hv : h.readValue s q run.readings run.source with ⟨fault | reply, source⟩ <;> rw [hv] at hok
  · dsimp only at hok
    split at hok <;> cases hok
    exact .of_halted _
  have hreply := returns_readValue_replies hcount run.readings run.source reply source hv
  have hwithin (v : Value) (hlength : h.kind.isScalar = true → v.atMost s.options.maxElements = true) :
      (Declaration.single h).within s.options.maxElements v = true := by
    cases hscalar : h.kind.isScalar with
    | true => simp only [Declaration.within, hlength hscalar, Bool.or_true]
    | false => simp only [Declaration.within, hscalar, Bool.not_false, Bool.true_or]
  cases reply with
  | nothing =>
    cases hok
    exact .of_modifier (d := .single h) hreply false
  | cut v =>
    cases hok
    exact .of_value (d := .single h) hreply.1 (hwithin v hreply.2) true
  | value v =>
    cases hok
    exact .of_value (d := .single h) hreply.1 (hwithin v hreply.2) false

end Head

namespace Declaration
variable {body : Stateful (Run σ) Yield} {p : List Field → Bool} {options : ReadOptions}

omit [BitSource σ] in
theorem returns_readTimes_length (n : Nat) : Returns (fun x => x.1.length ≤ n) (readTimes body n) := by
  induction n with
  | zero => exact .of_pure (Nat.le_refl _)
  | succ n ih =>
    refine .after fun y => ?_
    dsimp only
    split
    · exact .of_pure (Nat.zero_le _)
    · exact ih.bind fun x hx => .of_pure (Nat.succ_le_succ hx)

theorem returns_readWhile_length {size : Nat} (hle : size ≤ options.maxElements) :
    Returns (fun x => size + x.1.length ≤ options.maxElements) (readWhile options body size) := by
  intro run x run' hok
  refine readWhile_induction
    (P := fun size _ items _ _ => size ≤ options.maxElements → size + items.length ≤ options.maxElements) ?_ ?_ ?_ ?_ hok hle
  · exact fun _ _ _ hle => hle
  · exact fun _ _ _ _ _ hle => hle
  · exact fun _ _ _ _ _ _ hle => hle
  · intro size _ _ _ items _ _ hless _ _ hlength _
    have hrest := hlength hless
    simp only [List.length_cons]
    omega

theorem returns_readElements_within (hbody : Returns (fun y => p y.fields = true) body) {count : ElementCount}
    (hcount : count.atMost options.maxElements) :
    Returns (fun x => (x.1.atMost options.maxElements && x.1.allStructures p) = true) (readElements options count body) := by
  have hitems (items : List Record) (hlength : items.length ≤ options.maxElements)
      (hall : ∀ item ∈ items, p item.fields = true) :
      ((Value.records items).atMost options.maxElements && (Value.records items).allStructures p) = true :=
    Bool.and_eq_true_iff.mpr ⟨decide_eq_true hlength, List.all_eq_true.mpr hall⟩
  cases count with
  | one => exact hbody.bind fun y hy => .of_pure hy
  | exactly n =>
    have hboth := (returns_readTimes (P := (p · = true)) hbody n).and (returns_readTimes_length n)
    exact hboth.bind fun x hx => .of_pure (hitems x.1 (Nat.le_trans hx.2 hcount) hx.1)
  | untilEnd =>
    have hboth := (returns_readWhile (P := (p · = true)) hbody options 0).and (returns_readWhile_length (Nat.zero_le _))
    exact hboth.bind fun x hx => .of_pure (hitems x.1 (by simpa using hx.2) hx.1)

mutual

theorem returns_read_shows (depth : Nat) : (d : Declaration) → Returns (d.Shows s.options.maxElements) (d.read s depth)
  | .single h => by
    unfold read
    refine h.returns_enter.bind fun q? hq => ?_
    cases q? with
    | none => exact .of_pure (.of_halted _)
    | some q => exact Head.returns_readSingle_shows (hq q rfl)
  | .nested h members => by
    unfold read
    refine h.returns_enter.bind fun q? hq => ?_
    cases q? with
    | none => exact .of_pure (.of_halted _)
    | some q =>
      dsimp only
      split
      · exact .of_throw _
      · refine (returns_readElements_within (returns_readAll_within (depth + 1) members) (hq q rfl)).bind fun x hx => ?_
        exact .of_pure (.inr ⟨_, rfl, hx⟩)

/-- Declarations are read with arrays that the options allow. -/
theorem returns_readAll_within (depth : Nat) :
    (ds : List Declaration) → Returns (fun y => withinAll s.options.maxElements ds y.fields = true) (readAll s depth ds)
  | [] => .of_pure rfl
  | d :: ds => by
    unfold readAll
    refine (returns_read_shows depth d).bind fun first hfirst => ?_
    by_cases hhalted : first.halted = true
    · simp only [if_pos hhalted]
      refine .of_pure ?_
      have hwithin := hfirst.withinAll (withinAll_nil _ ds) fun _ => rfl
      rwa [List.append_nil] at hwithin
    · simp only [if_neg hhalted]
      refine (returns_readAll_within depth ds).bind fun rest hrest => .of_pure ?_
      exact hfirst.withinAll hrest fun hhalts => absurd hhalts hhalted

end

end Declaration
end lengths

/-- What is read of a compiled script has no array of scalars and no array of structures with more elements than
the options allow. Under options with limits that are as wide or wider it is read again, with the same readings
and the same rest of the input. -/
theorem Layout.compileWith_limited {σ : Type} [BitSource σ] {custom : Option CustomTypes} {script : String}
    {layout : Layout} (h : compileWith custom script = .ok layout) :
    ∃ ds, Declaration.ofScript custom script = some ds ∧
      ∀ (options : ReadOptions) (collaborators : Collaborators σ) (source : σ) (record : Record) (run : Run σ),
        Setting.read ⟨layout, options, collaborators⟩ source = (.ok record, run) →
          Declaration.withinAll options.maxElements ds record.fields = true ∧
          ∀ wider, options.WidenTo wider →
            Setting.read ⟨layout, wider, collaborators⟩ source = (.ok record, run) := by
  obtain ⟨ts, d, ds, -, hds, htraced, hopened, rfl⟩ := compileWith_traced h
  refine ⟨ds, hds, ?_⟩
  intro options collaborators source record run hok
  obtain ⟨lines, hlines⟩ := Setting.read_lines hok
  have hof := htraced.isOf hopened (htraced.length_customs hlines) script
  rw [IsOf.read_eq _ hof] at hok
  obtain ⟨y, run₁, hy, hpure⟩ := Stateful.of_bind_ok hok
  cases hpure
  refine ⟨Declaration.returns_readAll_within 0 ds _ y run hy, ?_⟩
  intro wider hwide
  rw [IsOf.read_eq _ hof]
  rcases Declaration.readAll_wider (s := ⟨_, options, collaborators⟩) hwide 0 ds { source } with
    ⟨fault, -, hfault⟩ | hsame
  · rw [hy] at hfault
    cases hfault
  · exact Stateful.bind_ok (hsame.trans hy) _

/-- Arrays of as many elements as are allowed, in as many structures as are allowed. -/
theorem Layout.compileWith_limited_exactly :
    let script := "ubyte n; r[n] \x7b ubyte[2] a; bit:4[_] b; \x7d"
    let narrow : ReadOptions := { maxDepth := 1, maxElements := 2 }
    ∃ layout ds record run, compileWith none script = .ok layout ∧ Declaration.ofScript none script = some ds ∧
      narrow.WidenTo {} ∧
      Setting.read ⟨layout, narrow, {}⟩ (Reader.ofBytes [1, 2, 3, 4] .lsb0) = (.ok record, run) ∧
      Declaration.withinAll 2 ds record.fields = true ∧
      Setting.read ⟨layout, {}, {}⟩ (Reader.ofBytes [1, 2, 3, 4] .lsb0) = (.ok record, run) := by
  intro script narrow
  let source := Reader.ofBytes [1, 2, 3, 4] .lsb0
  have hcompiles : (compileWith none script).toOption.any (fun layout =>
      (Setting.read ⟨layout, narrow, {}⟩ source).1.toOption.isSome) = true := by decide +kernel
  obtain ⟨layout, hlayout, hread⟩ := of_any_ok hcompiles
  obtain ⟨ds, hds, hlimited⟩ := compileWith_limited (σ := Reader) hlayout
  have hwide : narrow.WidenTo {} := ⟨rfl, rfl, by decide, by decide⟩
  rcases hrun : Setting.read ⟨layout, narrow, {}⟩ source with ⟨fault | record, run⟩ <;> rw [hrun] at hread
  · cases hread
  obtain ⟨hwithin, hwider⟩ := hlimited narrow {} source record run hrun
  exact ⟨layout, ds, record, run, hlayout, hds, hwide, hrun, hwithin, hwider {} hwide⟩

end LayoutScript
