import LayoutScript.Proofs.Forward
import LayoutScript.Proofs.LastArray
import LayoutScript.Proofs.ReadScript
import LayoutScript.Proofs.UsedUp
import LayoutScript.Supply.Readers

/-! # Reading to the end of the input

An array of scalars up to the end of the input leaves no input, since each of its elements takes
some. Nothing that is read behind it brings input back, whichever structures it stands in.
-/
namespace LayoutScript

/-- The kinds of the scalars that the library reads by itself. -/
def Kind.isScalar : Kind → Bool
  | .bit | .whole _ => true
  | _ => false

/-- Whether the fields of a structure, or of one among several, are as told. -/
def Value.anyStructure (p : List Field → Bool) : Value → Bool
  | .record item => p item.fields
  | .records items => items.any fun item => p item.fields
  | .scalar .. | .array .. | .text _ => false

namespace Declaration

/-- Whether a declaration is read without a field. -/
def isModifier : Declaration → Bool
  | .single h => h.kind.isModifier
  | .nested .. => false

mutual

/-- Whether the value of a declaration is the array up to the end of the input or has it inside. -/
def holdsRest : Declaration → Value → Bool
  | .single h, _ => h.extent = .untilEnd
  | .nested _ members, v => v.anyStructure fun fields => holdsRestAll members fields

/-- Whether the array up to the end of the input is among the fields of declarations. -/
def holdsRestAll : List Declaration → List Field → Bool
  | [], _ => false
  | d :: ds, fields =>
    if d.isModifier then holdsRestAll ds fields
    else
      match fields with
      | [] => false
      | f :: fields => holdsRest d f.value || holdsRestAll ds fields

end

theorem holdsRestAll_modifier {d : Declaration} (h : d.isModifier = true) (ds : List Declaration) (fields : List Field) :
    holdsRestAll (d :: ds) fields = holdsRestAll ds fields := by
  rw [holdsRestAll.eq_def]
  exact if_pos h

theorem holdsRestAll_cons {d : Declaration} (h : d.isModifier = false) (ds : List Declaration) (f : Field)
    (fields : List Field) : holdsRestAll (d :: ds) (f :: fields) = (d.holdsRest f.value || holdsRestAll ds fields) := by
  rw [holdsRestAll, h, if_neg Bool.false_ne_true]

end Declaration

/-! ## Scalars take input -/

theorem Reader.Gives.left_lt {r r' : Reader} {front : List Bool} (h : Gives r front r') (hne : front ≠ []) :
    r'.left < r.left := by
  by_contra hnot
  exact hne (h.eq_nil (Nat.le_of_not_lt hnot))

/-- What is read takes input. -/
def Takes {α : Type} (read : Stateful Reader α) : Prop := ∀ r a r', read r = (.ok a, r') → r'.left < r.left

theorem Takes.bind_pure {α β : Type} {read : Stateful Reader α} (h : Takes read) (f : α → β) :
    Takes (do return f (← read)) := by
  intro r b r' hok
  obtain ⟨a, r₁, hread, hok⟩ := Stateful.of_bind_ok hok
  cases hok
  exact h r a _ hread

section scalars

theorem takes_readByte : Takes (BitSource.readByte (σ := Reader)) := by
  intro r b r' hok
  have hlength := r.order.length_ofByte b
  exact (Reader.gives_readByte hok).left_lt (List.ne_nil_of_length_pos (by omega))

theorem takes_takeBits (count : Nat) (lenient : Bool) : Takes (Reader.takeBits count lenient) := by
  rintro r ⟨v, k⟩ r' hok
  obtain ⟨hgives, hpos, -⟩ := Reader.gives_takeBits hok
  have hlength := r.order.length_bits k v.toNat
  exact hgives.left_lt (List.ne_nil_of_length_pos (by omega))

theorem takes_readBits (width : Nat) (count : ElementCount) :
    Takes (match count with
      | .untilEnd => do return (← BitSource.readBitsUpTo (σ := Reader) width).1
      | _ => BitSource.readBits width) := by
  cases count with
  | one | exactly n => exact (takes_takeBits width false).bind_pure _
  | untilEnd => exact (takes_takeBits width true).bind_pure _

theorem takes_readWhole (order : ByteOrder) (type : WholeType) : Takes (readWhole (σ := Reader) order type) := by
  by_cases hbool : type = .bool
  · rw [hbool]
    exact takes_readByte.bind_pure _
  · intro r v r' hok
    have hlength : ((order.bytes type.size (type.pattern v)).flatMap r.order.ofByte).length = 8 * type.size := by
      rw [BitOrder.length_flatMap_ofByte]
      cases order <;> simp [ByteOrder.bytes]
    have hsize : 0 < type.size := by cases type <;> decide
    exact (Reader.gives_readWhole hbool hok).left_lt (List.ne_nil_of_length_pos (by omega))

variable {options : ReadOptions} {α : Type} {read : Stateful Reader α}

theorem Takes.readExactly (h : Takes read) (hstrict : options.tolerant = false) {n : Nat} {acc vs : List α} {cut : Bool}
    {r r' : Reader} (hok : readExactly options read n acc r = (.ok (vs, cut), r')) : cut = false ∧ r'.left ≤ r.left := by
  induction n generalizing acc r with
  | zero =>
    cases hok
    exact ⟨rfl, Nat.le_refl _⟩
  | succ n ih =>
    rw [LayoutScript.readExactly] at hok
    rcases hread : read r with ⟨fault | v, r₁⟩
    · simp only [hread, hstrict, Bool.and_false, Bool.false_eq_true, if_false] at hok
      cases hok
    · simp only [hread] at hok
      obtain ⟨hcut, hle⟩ := ih hok
      exact ⟨hcut, Nat.le_trans hle (Nat.le_of_lt (h r v r₁ hread))⟩

theorem Takes.readUntilEnd (h : Takes read) (hstrict : options.tolerant = false) {size : Nat} {acc vs : List α} {cut : Bool}
    {r r' : Reader} (hok : readUntilEnd options read size acc r = (.ok (vs, cut), r')) : cut = false ∧ r'.left = 0 := by
  induction hn : BitSource.left r using Nat.strongRecOn generalizing size acc r with
  | _ n ih =>
    rw [LayoutScript.readUntilEnd] at hok
    split at hok
    · rename_i hend
      cases hok
      exact ⟨rfl, hend⟩
    split at hok
    · cases hok
    rcases hread : read r with ⟨fault | v, r₁⟩
    · simp only [hread, hstrict, Bool.and_false, Bool.false_eq_true, if_false] at hok
      cases hok
    · have hless : BitSource.left r₁ < BitSource.left r := h r v r₁ hread
      simp only [hread, if_pos hless] at hok
      exact ih _ (hn ▸ hless) hok rfl

/-- Scalars give no input back, a single one takes some, and an array of them up to the end uses it up. -/
theorem Takes.readScalars {type : ScalarType} {read : Stateful Reader type.Carrier} (h : Takes read)
    (hstrict : options.tolerant = false) {count : ElementCount} {reply : Reply} {r r' : Reader}
    (hok : readScalars options type count read r = (.ok reply, r')) :
    ∃ v, reply = .value v ∧ r'.left ≤ r.left ∧ (v.number?.isSome → r'.left < r.left) ∧
      (count = .untilEnd → r'.left = 0) := by
  cases count with
  | one =>
    obtain ⟨v, r₁, hread, hok⟩ := Stateful.of_bind_ok hok
    cases hok
    have hless := h r v r' hread
    exact ⟨_, rfl, Nat.le_of_lt hless, fun _ => hless, fun huntil => by cases huntil⟩
  | exactly n =>
    obtain ⟨⟨vs, cut⟩, r₁, hread, hok⟩ := Stateful.of_bind_ok hok
    obtain ⟨rfl, hle⟩ := h.readExactly hstrict hread
    cases hok
    exact ⟨_, rfl, hle, fun hsome => (by cases hsome), fun huntil => by cases huntil⟩
  | untilEnd =>
    obtain ⟨⟨vs, cut⟩, r₁, hread, hok⟩ := Stateful.of_bind_ok hok
    obtain ⟨rfl, hend⟩ := h.readUntilEnd hstrict hread
    cases hok
    exact ⟨_, rfl, hend ▸ Nat.zero_le _, fun hsome => (by cases hsome), fun _ => hend⟩

end scalars

/-! ## No input comes back -/

/-- What is read gives no input back. -/
def Spends {α : Type} (read : Stateful Reader α) : Prop := ∀ r a r', read r = (.ok a, r') → r'.left ≤ r.left

theorem Forward.spends {α : Type} {read : Stateful Reader α} (h : Forward read) : Spends read := by
  intro r a r' hok
  have hpasses := h r
  rw [hok] at hpasses
  exact hpasses.left_le

/-! ## Used-up inputs stay used up -/

/-- What succeeds on a used-up input leaves it used up. -/
def KeepsEnd {α : Type} (x : Stateful Reader α) : Prop := ∀ r a r', r.left = 0 → x r = (.ok a, r') → r'.left = 0

/-- No reader of values brings input back. -/
structure Collaborators.KeepEnd (c : Collaborators Reader) : Prop where
  var : ∀ read, c.readVar = some read → ∀ q readings, KeepsEnd (read q readings)
  custom : ∀ read, c.readCustom = some read → ∀ type q readings, KeepsEnd (read type q readings)

/-- The arrays up to the end of the input are those of scalars. -/
def Head.EndsScalar (h : Head) : Prop := h.extent = .untilEnd → h.kind.isScalar = true

section reading
variable {s : Setting Reader}

namespace Head
variable {h : Head} {q : Request} {readings : Readings} {r r' : Reader} {reply : Reply}

theorem spends_readValue (hkind : h.kind.isModifier = true) : Spends (h.readValue s q readings) := by
  have hextra : ∀ extra, Forward (h.nonNegative (σ := Reader) extra) := by
    intro extra
    unfold nonNegative
    split
    · exact .of_throw _
    · exact .of_pure _
  apply Forward.spends
  rw [readValue.eq_def]
  cases hk : h.kind with
  | align => exact (hextra _).bind fun _ => (Forward.alignTo _).bind fun _ => .of_pure _
  | skip => exact (hextra _).bind fun _ => (Forward.skipBytes _).bind fun _ => .of_pure _
  | restart => exact (Forward.of_modify Reader.passes_restart).bind fun _ => .of_pure _
  | bit | whole | var | custom | opening | closing =>
    rw [hk] at hkind
    cases hkind

theorem readValue_modifier (hkind : h.kind.isModifier = true) (hok : h.readValue s q readings r = (.ok reply, r')) :
    reply = .nothing ∧ r'.left ≤ r.left := by
  refine ⟨?_, spends_readValue hkind r reply r' hok⟩
  rw [readValue.eq_def] at hok
  cases hk : h.kind with
  | bit | whole | opening | closing | var | custom =>
    rw [hk] at hkind
    cases hkind
  | align | skip =>
    rw [hk] at hok
    obtain ⟨n, r₁, -, hok⟩ := Stateful.of_bind_ok hok
    obtain ⟨_, r₂, -, hok⟩ := Stateful.of_bind_ok hok
    cases hok
    rfl
  | restart =>
    rw [hk] at hok
    cases hok
    rfl

theorem readValue_takes (hstrict : s.options.tolerant = false) (hkind : h.kind.isScalar = true)
    (hok : h.readValue s q readings r = (.ok reply, r')) :
    ∃ v, reply = .value v ∧ r'.left ≤ r.left ∧ (v.number?.isSome → r'.left < r.left) ∧
      (q.count = .untilEnd → r'.left = 0) := by
  rw [readValue.eq_def] at hok
  cases hk : h.kind with
  | align | skip | restart | opening | closing | var | custom =>
    rw [hk] at hkind
    cases hkind
  | whole type =>
    simp only [hk] at hok
    exact (takes_readWhole q.order type).readScalars hstrict hok
  | bit =>
    simp only [hk] at hok
    split at hok
    · exact (takes_readBits _ q.count).readScalars hstrict hok
    · cases hok

theorem readValue_supplied (hkeep : s.collaborators.KeepEnd) (hkind : h.kind = .var ∨ h.kind = .custom)
    (hok : h.readValue s q readings r = (.ok reply, r')) :
    (∃ v, reply = .value v) ∧ (r.left = 0 → r'.left = 0) := by
  rw [readValue.eq_def] at hok
  rcases hkind with hk | hk
  · simp only [hk] at hok
    cases hread : s.collaborators.readVar with
    | none =>
      rw [hread] at hok
      cases hok
    | some read =>
      rw [hread] at hok
      obtain ⟨v, r₁, hv, hok⟩ := Stateful.of_bind_ok hok
      cases hok
      exact ⟨⟨v, rfl⟩, fun hleft => hkeep.var read hread q readings r v _ hleft hv⟩
  · simp only [hk] at hok
    cases hcustom : h.custom with
    | none =>
      rw [hcustom] at hok
      cases hok
    | some p =>
      cases hread : s.collaborators.readCustom with
      | none =>
        rw [hcustom, hread] at hok
        cases hok
      | some read =>
        rw [hcustom, hread] at hok
        obtain ⟨v, r₁, hv, hok⟩ := Stateful.of_bind_ok hok
        cases hok
        exact ⟨⟨v, rfl⟩, fun hleft => hkeep.custom read hread p.2 q readings r v _ hleft hv⟩

theorem readValue_ended (hstrict : s.options.tolerant = false) (hkeep : s.collaborators.KeepEnd)
    (hh : h.EndsScalar) (hq : h.Requests q) (hok : h.readValue s q readings r = (.ok reply, r')) :
    (if h.kind.isModifier then reply = .nothing else ∃ v, reply = .value v) ∧
      (r.left = 0 ∨ h.kind.isModifier = false ∧ h.extent = .untilEnd → r'.left = 0) := by
  cases hk : h.kind with
  | opening | closing =>
    rw [readValue.eq_def, hk] at hok
    cases hok
  | align | skip | restart =>
    obtain ⟨hnothing, hle⟩ := readValue_modifier (by rw [hk]; rfl) hok
    exact ⟨hnothing, fun hend => Nat.le_zero.mp (hend.resolve_right nofun ▸ hle)⟩
  | bit | whole type =>
    obtain ⟨v, rfl, hle, -, hrest⟩ := readValue_takes hstrict (by rw [hk]; rfl) hok
    refine ⟨⟨v, rfl⟩, fun hend => ?_⟩
    rcases hend with hleft | ⟨-, huntil⟩
    · exact Nat.le_zero.mp (hleft ▸ hle)
    · exact hrest (hq.untilEnd.mpr huntil)
  | var | custom =>
    obtain ⟨hvalue, hends⟩ := readValue_supplied hkeep (by simp [hk]) hok
    refine ⟨hvalue, fun hend => hends (hend.resolve_right fun huntil => ?_)⟩
    have hscalar := hh huntil.2
    rw [hk] at hscalar
    cases hscalar

end Head

/-- Reading fields goes on to the end. A used-up input stays so, and fields of which `shown` is
true use it up. -/
def EndsBody (body : Stateful (Run Reader) Yield) (shown : List Field → Bool) : Prop :=
  ∀ run y run', body run = (.ok y, run') →
    y.halted = false ∧ (run.source.left = 0 ∨ shown y.fields = true → run'.source.left = 0)

namespace Declaration

section structures
variable {body : Stateful (Run Reader) Yield} {shown : List Field → Bool} {run run' : Run Reader} {halted : Bool}

theorem readTimes_ended (hbody : EndsBody body shown) {n : Nat} {items : List Record}
    (hok : readTimes body n run = (.ok (items, halted), run')) :
    halted = false ∧ (run.source.left = 0 ∨ (items.any fun item => shown item.fields) = true → run'.source.left = 0) := by
  induction n generalizing run items with
  | zero =>
    cases hok
    exact ⟨rfl, fun hend => hend.resolve_right nofun⟩
  | succ n ih =>
    obtain ⟨y, run₁, hy, hcases⟩ := readTimes_succ_ok hok
    obtain ⟨hgoes, hends⟩ := hbody run y run₁ hy
    rcases hcases with ⟨hhalts, -⟩ | ⟨-, rest, hrest, rfl⟩
    · rw [hgoes] at hhalts
      cases hhalts
    · obtain ⟨hhalted, hends'⟩ := ih hrest
      refine ⟨hhalted, fun hend => hends' ?_⟩
      rw [List.any_cons, Bool.or_eq_true, ← or_assoc] at hend
      exact hend.imp_left hends

theorem readWhile_ended (hbody : EndsBody body shown) {options : ReadOptions} {size : Nat} {items : List Record}
    (hok : readWhile options body size run = (.ok (items, halted), run')) :
    halted = false ∧ (run.source.left = 0 ∨ (items.any fun item => shown item.fields) = true → run'.source.left = 0) := by
  refine readWhile_induction (P := fun _ run items halted run' => halted = false ∧
    (run.source.left = 0 ∨ (items.any fun item => shown item.fields) = true → run'.source.left = 0)) ?_ ?_ ?_ ?_ hok
  · exact fun _ run hleft => ⟨rfl, fun _ => hleft⟩
  · intro _ run fields run' hy
    cases (hbody run _ run' hy).1
  · intro _ run fields run' hy _
    exact ⟨rfl, fun hend => (hbody run _ run' hy).2 (.inl (hend.resolve_right Bool.false_ne_true))⟩
  · rintro _ run fields next items halted run' - hy - ⟨hhalted, hends'⟩
    refine ⟨hhalted, fun hend => hends' ?_⟩
    rw [List.any_cons, Bool.or_eq_true, ← or_assoc] at hend
    exact hend.imp_left (hbody run _ next hy).2

theorem readElements_ended (hbody : EndsBody body shown) {options : ReadOptions} {count : ElementCount} {value : Value}
    (hok : readElements options count body run = (.ok (value, halted), run')) :
    halted = false ∧ (run.source.left = 0 ∨ value.anyStructure shown = true → run'.source.left = 0) := by
  cases count with
  | one =>
    obtain ⟨y, run₁, hy, hok⟩ := Stateful.of_bind_ok hok
    cases hok
    exact hbody run y run' hy
  | exactly n =>
    obtain ⟨⟨items, _⟩, run₁, hitems, hok⟩ := Stateful.of_bind_ok hok
    cases hok
    exact readTimes_ended hbody hitems
  | untilEnd =>
    obtain ⟨⟨items, _⟩, run₁, hitems, hok⟩ := Stateful.of_bind_ok hok
    cases hok
    exact readWhile_ended hbody hitems

end structures

theorem readSingle_ended (hstrict : s.options.tolerant = false) (hkeep : s.collaborators.KeepEnd) {h : Head}
    (hh : h.EndsScalar) {q : Request} (hq : h.Requests q) {run run' : Run Reader} {y : Yield}
    (hok : h.readSingle s q run = (.ok y, run')) :
    (if h.kind.isModifier then y = ⟨[], false⟩ else ∃ f, y = ⟨[f], false⟩) ∧
      (run.source.left = 0 ∨ h.kind.isModifier = false ∧ h.extent = .untilEnd → run'.source.left = 0) := by
  rw [Head.readSingle_eq] at hok
  rcases hv : h.readValue s q run.readings run.source with ⟨fault | reply, r⟩
  · simp only [hv, hstrict, Bool.and_false, Bool.false_eq_true, if_false] at hok
    cases hok
  obtain ⟨hreply, hends⟩ := Head.readValue_ended hstrict hkeep hh hq hv
  rw [hv] at hok
  by_cases hmodifier : h.kind.isModifier
  · rw [if_pos hmodifier] at hreply ⊢
    subst hreply
    cases hok
    exact ⟨rfl, hends⟩
  · rw [if_neg hmodifier] at hreply ⊢
    obtain ⟨v, rfl⟩ := hreply
    cases hok
    rw [Setting.keepReading_source]
    exact ⟨⟨_, rfl⟩, hends⟩

mutual

/-- A declaration is read with one field, a modifier with none. -/
theorem read_ended (hstrict : s.options.tolerant = false) (hkeep : s.collaborators.KeepEnd) :
    (d : Declaration) → d.Formed Head.EndsScalar → ∀ (depth : Nat) (run run' : Run Reader) (y : Yield),
      d.read s depth run = (.ok y, run') →
        (if d.isModifier then y = ⟨[], false⟩ else ∃ f, y = ⟨[f], false⟩) ∧
          (run.source.left = 0 ∨ holdsRestAll [d] y.fields = true → run'.source.left = 0)
  | .single h, hf, depth, run, run', y, hok => by
    obtain ⟨q, hq, hok⟩ := read_single_ok hstrict hok
    obtain ⟨hfields, hends⟩ := readSingle_ended hstrict hkeep hf.1 (Head.request_ok hq) hok
    refine ⟨hfields, fun hend => hends (hend.imp_right fun hholds => ?_)⟩
    cases hmodifier : h.kind.isModifier with
    | true =>
      rw [holdsRestAll_modifier (d := .single h) hmodifier] at hholds
      cases hholds
    | false =>
      rw [hmodifier, if_neg Bool.false_ne_true] at hfields
      obtain ⟨f, rfl⟩ := hfields
      rw [holdsRestAll_cons (d := .single h) hmodifier, holdsRestAll, Bool.or_false, holdsRest] at hholds
      exact ⟨rfl, of_decide_eq_true hholds⟩
  | .nested h members, hf, depth, run, run', y, hok => by
    obtain ⟨q, value, halted, -, -, hx, rfl⟩ := read_nested_ok hstrict hok
    obtain ⟨rfl, hends⟩ := readElements_ended (readAll_ended hstrict hkeep members hf.2.2 (depth + 1)) hx
    refine ⟨⟨_, rfl⟩, fun hend => hends (hend.imp_right fun hholds => ?_)⟩
    rwa [holdsRestAll_cons rfl, holdsRestAll, Bool.or_false, holdsRest] at hholds

theorem readAll_ended (hstrict : s.options.tolerant = false) (hkeep : s.collaborators.KeepEnd) :
    (ds : List Declaration) → FormedAll Head.EndsScalar ds → ∀ depth : Nat, EndsBody (readAll s depth ds) (holdsRestAll ds)
  | [], _, _, run, y, run', hok => by
    cases hok
    exact ⟨rfl, fun hend => hend.resolve_right nofun⟩
  | d :: ds, hf, depth, run, y, run', hok => by
    obtain ⟨first, run₁, hd, hcases⟩ := readAll_cons_ok hok
    obtain ⟨hfields, hends⟩ := read_ended hstrict hkeep d hf.1 depth run run₁ first hd
    cases hmodifier : d.isModifier with
    | true =>
      rw [hmodifier, if_pos rfl] at hfields
      subst hfields
      rcases hcases with ⟨hhalts, -⟩ | ⟨-, rest, hrest, rfl⟩
      · cases hhalts
      obtain ⟨hhalted, hends'⟩ := readAll_ended hstrict hkeep ds hf.2 depth run₁ rest run' hrest
      refine ⟨hhalted, fun hend => hends' (hend.imp (fun hleft => hends (.inl hleft)) fun hholds => ?_)⟩
      rwa [List.nil_append, holdsRestAll_modifier hmodifier] at hholds
    | false =>
      rw [hmodifier, if_neg Bool.false_ne_true] at hfields
      obtain ⟨f, rfl⟩ := hfields
      rcases hcases with ⟨hhalts, -⟩ | ⟨-, rest, hrest, rfl⟩
      · cases hhalts
      obtain ⟨hhalted, hends'⟩ := readAll_ended hstrict hkeep ds hf.2 depth run₁ rest run' hrest
      refine ⟨hhalted, fun hend => hends' ?_⟩
      have hone : holdsRestAll [d] [f] = holdsRest d f.value := by
        rw [holdsRestAll_cons hmodifier, holdsRestAll, Bool.or_false]
      rw [List.singleton_append, holdsRestAll_cons hmodifier, Bool.or_eq_true, ← or_assoc, ← hone] at hend
      exact hend.imp_left hends

end

end Declaration
end reading

/-- Only a layout whose code can be listed is read. -/
theorem Setting.read_lines {σ : Type} [BitSource σ] {s : Setting σ} {source : σ} {record : Record} {run : Run σ}
    (hok : s.read source = (.ok record, run)) : ∃ lines, s.layout.lines = .ok lines := by
  cases hlines : s.layout.lines with
  | ok lines => exact ⟨lines, rfl⟩
  | error fault =>
    rw [read, hlines] at hok
    cases hok

theorem Layout.IsOf.endsScalar {layout : Layout} {ds : List Declaration} (h : layout.IsOf ds)
    (hscalar : ∀ lines, layout.lines = .ok lines → ∀ line ∈ lines,
      line.instruction.count = .wholeStream → line.kind.isScalar = true) :
    Declaration.FormedAll Head.EndsScalar ds := by
  refine .of_heads ds h.formed fun head hm hextent => ?_
  have hkind := hscalar _ h.lines _ (Declaration.line_memAll ds hm) (head.line_count.mpr hextent)
  rwa [Head.line_kind] at hkind

/-- The code of a compiled script has at most one array up to the end of the input, and nothing but ends
of structures behind it, or behind its own end if it is a structure. Where such an array of scalars is in
what is read without tolerance, no input is left. -/
theorem Layout.compileWith_toEnd {custom : Option CustomTypes} {script : String} {layout : Layout}
    (h : compileWith custom script = .ok layout) :
    (∀ lines, layout.lines = .ok lines →
      (lines.filter (·.instruction.count = .wholeStream)).length ≤ 1 ∧
      ∀ before line after, lines = before ++ line :: after → line.instruction.count = .wholeStream →
        (line.behind after).1 = none ∧ ∀ l ∈ (line.behind after).2, l.kind = .closing) ∧
    ∃ ds, Declaration.ofScript custom script = some ds ∧
      ((∀ lines, layout.lines = .ok lines → ∀ line ∈ lines,
          line.instruction.count = .wholeStream → line.kind.isScalar = true) →
        ∀ (options : ReadOptions) (collaborators : Collaborators Reader) (source : Reader) (record : Record)
          (run : Run Reader), options.tolerant = false → collaborators.KeepEnd →
          Setting.read ⟨layout, options, collaborators⟩ source = (.ok record, run) →
          Declaration.holdsRestAll ds record.fields = true → BitSource.hasMore run.source = false) := by
  have hstart : Draft.Ends {} {} := .without (List.forall_mem_nil _)
  obtain ⟨ts, d, ds, -, hds, htraced, hends, hopened, rfl⟩ :=
    compileWith_keeping h hstart fun hends hd ho => hends.add hd ho
  refine ⟨fun lines hlines => ?_, ds, hds, ?_⟩
  · have hof := htraced.isOf hopened (htraced.length_customs hlines) script
    rw [hof.lines] at hlines
    cases hlines
    rw [Draft.Ends, hopened] at hends
    exact ⟨hends.length_le, fun before line after hsplit hcount => hends.closing_behind hsplit hcount⟩
  · intro hscalar options collaborators source record run hstrict hkeep hok hholds
    obtain ⟨lines, hlines⟩ := Setting.read_lines hok
    have hof := htraced.isOf hopened (htraced.length_customs hlines) script
    rw [IsOf.read_eq _ hof] at hok
    obtain ⟨y, run₁, hy, hpure⟩ := Stateful.of_bind_ok hok
    cases hpure
    obtain ⟨-, hend⟩ := Declaration.readAll_ended hstrict hkeep ds (hof.endsScalar hscalar) 0 _ y run hy
    have hleft : BitSource.left run.source = 0 := hend (.inr hholds)
    rw [BitSource.hasMore, hleft]
    rfl

/-- The array of the first of two structures leaves nothing to that of the second one. -/
theorem Layout.compileWith_toEnd_inner :
    let script := "var x; ubyte n; align:2; r[n] \x7b bit:3[_] a; \x7d"
    let collaborators : Collaborators Reader := { readVar := some (FieldReader.probe "var") }
    ∃ layout lines ds record run, compileWith none script = .ok layout ∧ layout.lines = .ok lines ∧
      (lines.filter (·.instruction.count = .wholeStream)).length ≤ 1 ∧ collaborators.KeepEnd ∧
      Declaration.ofScript none script = some ds ∧
      Setting.read ⟨layout, {}, collaborators⟩ (Reader.ofBytes [2, 9, 0xa5, 0x3c] .lsb0) = (.ok record, run) ∧
      Declaration.holdsRestAll ds record.fields = true ∧ BitSource.hasMore run.source = false := by
  intro script collaborators
  let source := Reader.ofBytes [2, 9, 0xa5, 0x3c] .lsb0
  have hcompiles : (compileWith none script).toOption.any (fun layout =>
      layout.lines.toOption.any (·.all fun line =>
        line.instruction.count = .wholeStream → line.kind.isScalar = true) &&
      (Declaration.ofScript none script).any fun ds =>
        (Setting.read ⟨layout, {}, collaborators⟩ source).1.toOption.any fun record =>
          Declaration.holdsRestAll ds record.fields) = true := by decide +kernel
  obtain ⟨layout, hlayout, hchecks⟩ := of_any_ok hcompiles
  rw [Bool.and_eq_true] at hchecks
  obtain ⟨hlines, hread⟩ := hchecks
  have hscalar : ∀ lines, layout.lines = .ok lines → ∀ line ∈ lines,
      line.instruction.count = .wholeStream → line.kind.isScalar = true := fun lines heq line hm =>
    of_decide_eq_true (forall_mem_of_any_all hlines lines heq line hm)
  obtain ⟨lines, hcode, -⟩ := of_any_ok hlines
  have hkeep : collaborators.KeepEnd := by
    refine ⟨fun read heq q readings r v r' hleft hok => ?_, nofun⟩
    cases heq
    cases hok
    exact hleft
  obtain ⟨hlast, ds, hds, hend⟩ := compileWith_toEnd hlayout
  rw [hds] at hread
  rcases hrun : Setting.read ⟨layout, {}, collaborators⟩ source with ⟨outcome, run⟩
  rw [hrun] at hread
  obtain ⟨record, rfl, hholds⟩ := of_any_ok hread
  exact ⟨layout, lines, ds, record, run, hlayout, hcode, (hlast lines hcode).1, hkeep, hds, hrun, hholds,
    hend hscalar {} collaborators source record run rfl hkeep hrun hholds⟩

end LayoutScript
