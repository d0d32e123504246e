import LayoutScript.Proofs.BitStreams
import LayoutScript.Proofs.Tolerance

/-! # Tolerant reading of inputs that are cut off

An input that is read to the end of the script can be cut off anywhere. Tolerant reading of what
is left goes on in the same way up to the cut and ends there: at the end of a field, or inside of
an array or a structure, which then has the elements or the fields that were read in full.
-/
namespace LayoutScript

/-- Fields of which the last ones are missing, or are cut off inside the last one that is there. -/
inductive Field.Cut : List Field → List Field → Prop where
  | nil (whole : List Field) : Cut [] whole
  | cons (f : Field) {fs whole : List Field} (h : Cut fs whole) : Cut (f :: fs) (f :: whole)
  | record (info : Option NamedField) {fs whole : List Field} (h : Cut fs whole) (others : List Field) :
    Cut [⟨info, .record ⟨fs⟩⟩] (⟨info, .record ⟨whole⟩⟩ :: others)
  | array (info : Option NamedField) {type : ScalarType} {vs whole : List type.Carrier} (h : vs <+: whole)
    (others : List Field) : Cut [⟨info, .array type vs⟩] (⟨info, .array type whole⟩ :: others)
  | records (info : Option NamedField) {items whole : List Record} (h : items <+: whole) (others : List Field) :
    Cut [⟨info, .records items⟩] (⟨info, .records whole⟩ :: others)

namespace Field.Cut
variable {fs whole : List Field}

theorem append (h : Cut fs whole) (others : List Field) : Cut fs (whole ++ others) := by
  induction h with
  | nil whole => exact .nil _
  | cons f _ ih => exact .cons f ih
  | record info h others' => exact .record info h _
  | array info h others' => exact .array info h _
  | records info h others' => exact .records info h _

theorem behind (h : Cut fs whole) (first : List Field) : Cut (first ++ fs) (first ++ whole) := by
  induction first with
  | nil => exact h
  | cons f first ih => exact .cons f ih

theorem refl (fs : List Field) : Cut fs fs := by
  have h := (nil []).behind fs
  rwa [List.append_nil] at h

end Field.Cut

namespace Reader

/-- The same reader of an input that may end earlier. -/
structure Truncates (r' r : Reader) : Prop where
  order : r'.order = r.order
  pos : r'.pos = r.pos
  base : r'.base = r.base
  pending : r'.pending = r.pending
  data : r'.data.toList <+: r.data.toList
  pos_le : r'.pos ≤ r'.data.size

namespace Truncates
variable {r r' : Reader}

theorem counter (h : r'.Truncates r) : r'.counter = r.counter := by
  rw [Reader.counter, Reader.counter, h.pos, h.base]

theorem align (h : r'.Truncates r) : r'.align.Truncates r.align := ⟨h.order, h.pos, h.base, rfl, h.data, h.pos_le⟩

theorem restart (h : r'.Truncates r) : r'.restart.Truncates r.restart := ⟨h.order, h.pos, h.pos, rfl, h.data, h.pos_le⟩

theorem get (h : r'.Truncates r) {b : UInt8} (hb : r.data[r.pos]? = some b) :
    r'.data[r'.pos]? = some b ∧ r'.pos + 1 ≤ r'.data.size ∨ r'.data[r'.pos]? = none := by
  by_cases hlt : r'.pos < r'.data.size
  · obtain ⟨others, hothers⟩ := h.data
    have hlist : r'.pos < r'.data.toList.length := hlt
    have hsame : r.data[r.pos]? = r'.data[r'.pos]? := by
      rw [← Array.getElem?_toList, ← Array.getElem?_toList, ← hothers, ← h.pos, List.getElem?_append_left hlist]
    rw [← hsame]
    exact .inl ⟨hb, hlt⟩
  · exact .inr (Array.getElem?_eq_none (Nat.le_of_not_lt hlt))

end Truncates
end Reader

/-- On an input that is cut off an action does the same, or fails at its end. -/
def EndsEarly {α : Type} (action : Stateful Reader α) : Prop :=
  ∀ (r : Reader) (a : α) (r₁ r' : Reader), action r = (.ok a, r₁) → r'.Truncates r →
    (∃ r₁', action r' = (.ok a, r₁') ∧ r₁'.Truncates r₁) ∨
      ∃ fault r₁', action r' = (.error fault, r₁') ∧ fault.isEndOfInput = true

namespace EndsEarly
variable {α β : Type}

theorem of_pure (a : α) : EndsEarly (pure a) := by
  intro r a' r₁ r' hok ht
  cases hok
  exact .inl ⟨r', rfl, ht⟩

theorem bind {x : Stateful Reader α} {f : α → Stateful Reader β} (hx : EndsEarly x) (hf : ∀ a, EndsEarly (f a)) :
    EndsEarly (x >>= f) := by
  intro r b r₂ r' hok ht
  obtain ⟨a, r₁, hxa, hfa⟩ := Stateful.of_bind_ok hok
  rcases hx r a r₁ r' hxa ht with ⟨r₁', hxa', ht'⟩ | ⟨fault, r₁', hfault, hend⟩
  · rw [Stateful.bind_ok hxa']
    exact hf a r₁ b r₂ r₁' hfa ht'
  · exact .inr ⟨fault, r₁', Stateful.bind_error hfault f, hend⟩

theorem of_modify {f : Reader → Reader} (hf : ∀ r r' : Reader, r'.Truncates r → (f r').Truncates (f r)) :
    EndsEarly (modify f) := by
  intro r a r₁ r' hok ht
  cases hok
  exact .inl ⟨f r', rfl, hf r r' ht⟩

theorem repeatedly {action : Stateful Reader α} (h : EndsEarly action) (n : Nat) : EndsEarly (action.repeatedly n) := by
  induction n with
  | zero => exact of_pure _
  | succ n ih => exact h.bind fun _ => ih

theorem readBits (count : Nat) : EndsEarly (Reader.readBits count) := by
  refine bind ?_ fun _ => of_pure _
  intro r a r₁ r' hok ht
  unfold Reader.takeBits at hok ⊢
  rw [ht.pending, ht.order]
  split at hok
  · cases hok
  rename_i hcount
  rw [if_neg hcount]
  split at hok
  · rename_i hpending
    cases hok
    rw [if_pos hpending]
    exact .inl ⟨_, rfl, ⟨rfl, ht.pos, ht.base, rfl, ht.data, ht.pos_le⟩⟩
  rename_i hpending
  rw [if_neg hpending]
  split at hok
  · rename_i b hb
    cases hok
    rcases ht.get hb with ⟨hb', hpos⟩ | hnone
    · rw [hb']
      exact .inl ⟨_, rfl, ⟨rfl, congrArg (· + 1) ht.pos, ht.base, rfl, ht.data, hpos⟩⟩
    · rw [hnone]
      exact .inr ⟨_, _, rfl, rfl⟩
  · cases hok

theorem readByte : EndsEarly (BitSource.readByte (σ := Reader)) := by
  intro r a r₁ r' hok ht
  change Reader.readByte r = _ at hok
  change (∃ r₁', Reader.readByte r' = _ ∧ _) ∨ ∃ fault r₁', Reader.readByte r' = _ ∧ _
  unfold Reader.readByte at hok ⊢
  rw [ht.pending]
  split at hok
  · rename_i hempty
    rw [if_pos hempty]
    split at hok
    · rename_i b hb
      cases hok
      rcases ht.get hb with ⟨hb', hpos⟩ | hnone
      · rw [hb']
        exact .inl ⟨_, rfl, ⟨ht.order, congrArg (· + 1) ht.pos, ht.base, rfl, ht.data, hpos⟩⟩
      · rw [hnone]
        exact .inr ⟨_, _, rfl, rfl⟩
    · cases hok
  · rename_i hempty
    rw [if_neg hempty]
    exact readBits 8 r a r₁ r' hok ht

theorem skipBytes (count : Nat) : EndsEarly (BitSource.skipBytes (σ := Reader) count) := by
  intro r a r₁ r' hok ht
  change Reader.skipBytes count r = _ at hok
  change (∃ r₁', Reader.skipBytes count r' = _ ∧ _) ∨ ∃ fault r₁', Reader.skipBytes count r' = _ ∧ _
  unfold Reader.skipBytes at hok ⊢
  rw [ht.pending]
  split at hok
  · rename_i hempty
    rw [if_pos hempty]
    split at hok
    · cases hok
    · cases hok
      have hpos := ht.pos
      have hle := ht.pos_le
      by_cases hshort : r'.remaining < count
      · rw [if_pos hshort]
        exact .inr ⟨_, _, rfl, rfl⟩
      · rw [if_neg hshort]
        rw [Reader.remaining] at hshort
        refine .inl ⟨_, rfl, ⟨ht.order, congrArg (· + count) hpos, ht.base, rfl, ht.data, ?_⟩⟩
        change r'.pos + count ≤ r'.data.size
        omega
  · rename_i hempty
    rw [if_neg hempty]
    exact readByte.repeatedly count r a r₁ r' hok ht

theorem alignTo (size : Nat) : EndsEarly (BitSource.alignTo (σ := Reader) size) := by
  refine bind (of_modify fun _ _ => Reader.Truncates.align) fun _ => ?_
  by_cases hsize : 1 < size
  · rw [if_pos hsize]
    intro r a r₁ r' hok ht
    rw [Stateful.bind_ok (Stateful.get_apply r)] at hok
    rw [Stateful.bind_ok (Stateful.get_apply r')]
    have hcounter : BitSource.counter r' = BitSource.counter r := ht.counter
    rw [hcounter]
    exact readByte.repeatedly _ r a r₁ r' hok ht
  · rw [if_neg hsize]
    exact of_pure _

theorem readBytes (count : Nat) : EndsEarly (BitSource.readBytes (σ := Reader) count) := by
  induction count with
  | zero => exact of_pure _
  | succ count ih =>
    rw [BitSource.readBytes_succ]
    exact readByte.bind fun _ => ih.bind fun _ => of_pure _

theorem readWhole (order : ByteOrder) (t : WholeType) : EndsEarly (LayoutScript.readWhole (σ := Reader) order t) := by
  have hnumber : ∀ count, EndsEarly (BitSource.readNumber (σ := Reader) count order) :=
    fun count => (readBytes count).bind fun _ => of_pure _
  cases t with
  | bool | byte => exact readByte.bind fun _ => of_pure _
  | ubyte => exact readByte
  | ushort => exact (hnumber 2).bind fun _ => of_pure _
  | short => exact ((hnumber 2).bind fun _ => of_pure _).bind fun _ => of_pure _
  | int => exact ((hnumber 4).bind fun _ => of_pure _).bind fun _ => of_pure _
  | long => exact ((hnumber 8).bind fun _ => of_pure _).bind fun _ => of_pure _

end EndsEarly

/-! ## Values -/

theorem reverse_isPrefix_of_readExactly {σ α : Type} {options : ReadOptions} {read : Stateful σ α} {n : Nat}
    {acc vs : List α} {cut : Bool} {s s' : σ} (hok : readExactly options read n acc s = (.ok (vs, cut), s')) :
    acc.reverse <+: vs := by
  induction n generalizing acc s with
  | zero =>
    cases hok
    exact List.prefix_rfl
  | succ n ih =>
    rw [readExactly] at hok
    rcases hread : read s with ⟨fault | v, s₁⟩
    · simp only [hread] at hok
      split at hok <;> cases hok
      exact List.prefix_rfl
    · simp only [hread] at hok
      have hmore := ih hok
      rw [List.reverse_cons] at hmore
      exact (List.prefix_append _ _).trans hmore

section values
variable {options : ReadOptions} {r r₁ r' : Reader}

theorem EndsEarly.readExactly {α : Type} {read : Stateful Reader α} (h : EndsEarly read) {n : Nat} {acc vs : List α}
    {cut : Bool} (hok : readExactly options read n acc r = (.ok (vs, cut), r₁)) (hstrict : options.tolerant = false)
    (ht : r'.Truncates r) :
    (∃ r₁', LayoutScript.readExactly options.tolerating read n acc r' = (.ok (vs, cut), r₁') ∧ r₁'.Truncates r₁) ∨
      ∃ vs' r₁', LayoutScript.readExactly options.tolerating read n acc r' = (.ok (vs', true), r₁') ∧ vs' <+: vs := by
  induction n generalizing acc r r' with
  | zero =>
    cases hok
    exact .inl ⟨r', rfl, ht⟩
  | succ n ih =>
    have hall := reverse_isPrefix_of_readExactly hok
    rw [LayoutScript.readExactly] at hok ⊢
    rcases hread : read r with ⟨fault | v, r₂⟩
    · simp only [hread, hstrict, Bool.and_false, Bool.false_eq_true, if_false] at hok
      cases hok
    simp only [hread] at hok
    rcases h r v r₂ r' hread ht with ⟨r₂', hread', ht'⟩ | ⟨fault, r₂', hfault, hend⟩
    · simp only [hread']
      exact ih hok ht'
    · have htolerated : (fault.isEndOfInput && options.tolerating.tolerant) = true := by rw [hend]; rfl
      simp only [hfault, if_pos htolerated]
      exact .inr ⟨_, _, rfl, hall⟩

/-- The outcomes of a reply on an input that is cut off. -/
inductive EarlyReply (reply : Reply) (r₁ : Reader) : Except Fault Reply × Reader → Prop where
  | same {r₁' : Reader} (ht : r₁'.Truncates r₁) : EarlyReply reply r₁ (.ok reply, r₁')
  | array {type : ScalarType} {vs whole : List type.Carrier} (hreply : reply = .value (.array type whole))
    (h : vs <+: whole) (r₁' : Reader) : EarlyReply reply r₁ (.ok (.cut (.array type vs)), r₁')
  | ends {fault : Fault} (h : fault.isEndOfInput = true) (r₁' : Reader) : EarlyReply reply r₁ (.error fault, r₁')

theorem EarlyReply.of_endsEarly {action : Stateful Reader Reply} (h : EndsEarly action) {reply : Reply}
    (hok : action r = (.ok reply, r₁)) (ht : r'.Truncates r) : EarlyReply reply r₁ (action r') := by
  rcases h r reply r₁ r' hok ht with ⟨r₁', hsame, ht'⟩ | ⟨fault, r₁', hfault, hend⟩
  · rw [hsame]
    exact .same ht'
  · rw [hfault]
    exact .ends hend r₁'

theorem EndsEarly.readScalars {type : ScalarType} {read : Stateful Reader type.Carrier} (h : EndsEarly read)
    {count : ElementCount} (hcount : count ≠ .untilEnd) {reply : Reply}
    (hok : readScalars options type count read r = (.ok reply, r₁)) (hstrict : options.tolerant = false)
    (ht : r'.Truncates r) : EarlyReply reply r₁ (LayoutScript.readScalars options.tolerating type count read r') := by
  cases count with
  | one => exact .of_endsEarly (h.bind fun _ => .of_pure _) hok ht
  | untilEnd => exact absurd rfl hcount
  | exactly n =>
    obtain ⟨⟨vs, cut⟩, r₂, hread, hrest⟩ := Stateful.of_bind_ok hok
    obtain rfl : cut = false := (readExactly_tolerating hstrict hread).1
    cases hrest
    rw [LayoutScript.readScalars, LayoutScript.readArray]
    · rcases h.readExactly hread hstrict ht with ⟨r₂', hsame, ht'⟩ | ⟨vs', r₂', hcut, hvs⟩
      · rw [Stateful.bind_ok hsame]
        exact .same ht'
      · rw [Stateful.bind_ok hcut]
        exact .array rfl hvs r₂'
    · exact fun h => by cases h

theorem Head.readValue_early {s : Setting Reader} (hstrict : s.options.tolerant = false) {h : Head} (hp : h.Plain)
    {q : Request} (hcount : q.count ≠ .untilEnd) {readings : Readings} {reply : Reply}
    (hok : h.readValue s q readings r = (.ok reply, r₁)) (ht : r'.Truncates r) :
    EarlyReply reply r₁ (h.readValue s.tolerating q readings r') := by
  have hextra : EndsEarly (h.nonNegative q.extra) := by
    rw [nonNegative]
    split
    · intro r a r₁ r' hok ht
      cases hok
    · exact .of_pure _
  rw [readValue] at hok ⊢
  cases hk : h.kind with
  | var => exact absurd hk hp.1
  | custom => exact absurd hk hp.2
  | opening | closing =>
    rw [hk] at hok
    cases hok
  | restart =>
    rw [hk] at hok
    exact .of_endsEarly ((EndsEarly.of_modify fun _ _ => Reader.Truncates.restart).bind fun _ => .of_pure _) hok ht
  | align =>
    rw [hk] at hok
    exact .of_endsEarly (hextra.bind fun n => (EndsEarly.alignTo _).bind fun _ => .of_pure _) hok ht
  | skip =>
    rw [hk] at hok
    exact .of_endsEarly (hextra.bind fun n => (EndsEarly.skipBytes n).bind fun _ => .of_pure _) hok ht
  | whole type =>
    rw [hk] at hok
    exact (EndsEarly.readWhole q.order type).readScalars hcount hok hstrict ht
  | bit =>
    rw [hk] at hok
    dsimp only at hok ⊢
    split at hok
    · rename_i hwidth
      rw [if_pos hwidth]
      refine EndsEarly.readScalars ?_ hcount hok hstrict ht
      cases hq : q.count with
      | untilEnd => exact absurd hq hcount
      | one | exactly n => exact EndsEarly.readBits _
    · cases hok

end values

/-! ## Declarations -/

/-- The same run on an input that may end earlier. -/
structure Run.Truncates (run' run : Run Reader) : Prop where
  source : run'.source.Truncates run.source
  readings : run'.readings = run.readings

namespace Run.Truncates
variable {run run' : Run Reader}

theorem keepReading (h : run'.Truncates run) (info : Option NamedField) (v : Value) :
    (Setting.keepReading info v run').Truncates (Setting.keepReading info v run) := by
  rw [Setting.keepReading.eq_def, Setting.keepReading.eq_def]
  split
  · exact ⟨h.source, congrArg (fun readings : Readings => readings.put _ _) h.readings⟩
  · exact h

theorem sizeContext (h : run'.Truncates run) (s : Setting Reader) : s.sizeContext run' = s.sizeContext run := by
  have hposition : BitSource.counter run'.source = BitSource.counter run.source := h.source.counter
  rw [Setting.sizeContext, Setting.sizeContext, h.readings, hposition]

end Run.Truncates

/-- The outcomes of declarations on an input that is cut off. -/
inductive EarlyYield (y : Yield) (run₁ : Run Reader) : Except Fault Yield × Run Reader → Prop where
  | same {run₁' : Run Reader} (ht : run₁'.Truncates run₁) : EarlyYield y run₁ (.ok y, run₁')
  | halted {fs : List Field} (h : Field.Cut fs y.fields) (run₁' : Run Reader) : EarlyYield y run₁ (.ok ⟨fs, true⟩, run₁')

/-- `body` goes on to the end, and `body'` on an input that is cut off up to there. -/
def EarlyBody (body body' : Stateful (Run Reader) Yield) : Prop :=
  ∀ run y run₁, body run = (.ok y, run₁) →
    y.halted = false ∧ ∀ run' : Run Reader, run'.Truncates run → EarlyYield y run₁ (body' run')

namespace Declaration
variable {s : Setting Reader} {run run₁ run' : Run Reader}

section structures
variable {body body' : Stateful (Run Reader) Yield} {items : List Record} {halted : Bool}

theorem readTimes_early (hbody : EarlyBody body body') {n : Nat} (hok : readTimes body n run = (.ok (items, halted), run₁)) :
    halted = false ∧ ∀ run' : Run Reader, run'.Truncates run →
      (∃ run₁', readTimes body' n run' = (.ok (items, false), run₁') ∧ run₁'.Truncates run₁) ∨
        ∃ items' run₁', readTimes body' n run' = (.ok (items', true), run₁') ∧ items' <+: items := by
  induction n generalizing run items with
  | zero =>
    cases hok
    exact ⟨rfl, fun run' ht => .inl ⟨run', rfl, ht⟩⟩
  | succ n ih =>
    obtain ⟨y, run₂, hy, hcases⟩ := readTimes_succ_ok hok
    obtain ⟨hgoes, hearly⟩ := hbody run y run₂ hy
    rcases hcases with ⟨hhalts, -⟩ | ⟨-, rest, hrest, rfl⟩
    · rw [hgoes] at hhalts
      cases hhalts
    obtain ⟨hhalted, hothers⟩ := ih hrest
    refine ⟨hhalted, fun run' ht => ?_⟩
    have hfirst := hearly run' ht
    rw [readTimes_succ]
    generalize body' run' = outcome at hfirst ⊢
    cases hfirst with
    | halted hcut run₂' =>
      -- An element that is cut off is dropped, whatever there is of it.
      exact .inr ⟨[], run₂', rfl, List.nil_prefix⟩
    | same ht' =>
      simp only [hgoes, Bool.false_eq_true, if_false]
      rcases hothers _ ht' with ⟨run₁', hsame, ht''⟩ | ⟨items', run₁', hcut, hitems⟩
      · rw [hsame]
        exact .inl ⟨run₁', rfl, ht''⟩
      · rw [hcut]
        exact .inr ⟨_, run₁', rfl, List.cons_prefix_cons.mpr ⟨rfl, hitems⟩⟩

theorem readElements_early (hbody : EarlyBody body body') {options : ReadOptions} (options' : ReadOptions) {count : ElementCount}
    (hcount : count ≠ .untilEnd) {value : Value} (info : Option NamedField)
    (hok : readElements options count body run = (.ok (value, halted), run₁)) :
    halted = false ∧ ∀ run' : Run Reader, run'.Truncates run →
      EarlyYield ⟨[⟨info, value⟩], halted⟩ run₁ (Yield.ofValue info (readElements options' count body' run')) := by
  cases count with
  | untilEnd => exact absurd rfl hcount
  | one =>
    obtain ⟨y, run₂, hy, hok⟩ := Stateful.of_bind_ok hok
    cases hok
    obtain ⟨hgoes, hearly⟩ := hbody run y run₁ hy
    refine ⟨hgoes, fun run' ht => ?_⟩
    have hfirst := hearly run' ht
    rw [readElements_one]
    generalize body' run' = outcome at hfirst ⊢
    cases hfirst with
    | same ht' => exact .same ht'
    | halted hcut run₁' => exact .halted (.record info hcut []) run₁'
  | exactly n =>
    obtain ⟨⟨items, halted'⟩, run₂, hitems, hok⟩ := Stateful.of_bind_ok hok
    cases hok
    obtain ⟨rfl, hearly⟩ := readTimes_early hbody hitems
    refine ⟨rfl, fun run' ht => ?_⟩
    rw [readElements_exactly]
    rcases hearly run' ht with ⟨run₁', hsame, ht'⟩ | ⟨items', run₁', hcut, hfront⟩
    · rw [hsame]
      exact .same ht'
    · rw [hcut]
      exact .halted (.records info hfront []) run₁'

end structures

theorem readSingle_early (hstrict : s.options.tolerant = false) {h : Head} (hp : h.Plain) {q : Request}
    (hcount : q.count ≠ .untilEnd) {y : Yield} (hok : h.readSingle s q run = (.ok y, run₁)) :
    y.halted = false ∧ ∀ run' : Run Reader, run'.Truncates run → EarlyYield y run₁ (h.readSingle s.tolerating q run') := by
  have hgoes := (Head.readSingle_tolerating hstrict hp hok).1
  refine ⟨hgoes, fun run' ht => ?_⟩
  rw [Head.readSingle_eq] at hok ⊢
  rcases hv : h.readValue s q run.readings run.source with ⟨fault | reply, r₁⟩
  · simp only [hv, hstrict, Bool.and_false, Bool.false_eq_true, if_false] at hok
    cases hok
  have hearly := Head.readValue_early hstrict hp hcount hv ht.source
  rw [hv] at hok
  rw [ht.readings]
  generalize h.readValue s.tolerating q run.readings run'.source = outcome at hearly ⊢
  cases hearly with
  | @ends fault hend r₁' =>
    have htolerated : (fault.isEndOfInput && s.tolerating.options.tolerant) = true := by rw [hend]; rfl
    simp only [if_pos htolerated]
    exact .halted (.nil _) _
  | array hreply hvs r₁' =>
    cases hreply
    cases hok
    exact .halted (.array _ hvs []) _
  | @same r₁' ht' =>
    have hrun : Run.Truncates { run with source := r₁' } { run with source := r₁ } := ⟨ht', rfl⟩
    cases reply with
    | nothing =>
      cases hok
      exact .same hrun
    | cut v =>
      cases hok
      cases hgoes
    | value v =>
      cases hok
      exact .same (hrun.keepReading h.info v)

mutual

theorem read_early (hstrict : s.options.tolerant = false) : (d : Declaration) →
    d.Formed (fun h => h.Plain ∧ h.extent ≠ .untilEnd) → ∀ depth : Nat, EarlyBody (d.read s depth) (d.read s.tolerating depth)
  | .single h, hf, depth, run, y, run₁, hok => by
    obtain ⟨q, hq, hok⟩ := read_single_ok hstrict hok
    have hcount : q.count ≠ .untilEnd := mt (Head.request_ok hq).untilEnd.mp hf.1.2
    obtain ⟨hgoes, hearly⟩ := readSingle_early hstrict hf.1.1 hcount hok
    refine ⟨hgoes, fun run' ht => ?_⟩
    rw [read_single, Head.request_tolerating, h.request_outcome (ht.sizeContext s), hq]
    dsimp only
    split
    · exact .halted (.nil _) run'
    · exact hearly run' ht
  | .nested h members, hf, depth, run, y, run₁, hok => by
    obtain ⟨q, value, halted, hq, hdepth, hx, rfl⟩ := read_nested_ok hstrict hok
    have hcount : q.count ≠ .untilEnd := mt (Head.request_ok hq).untilEnd.mp hf.1.2
    obtain ⟨hgoes, hearly⟩ := readElements_early (readAll_early hstrict members hf.2.2 (depth + 1)) s.tolerating.options
      hcount h.info hx
    refine ⟨hgoes, fun run' ht => ?_⟩
    rw [read_nested, Head.request_tolerating, h.request_outcome (ht.sizeContext s), hq]
    dsimp only
    split
    · exact .halted (.nil _) run'
    · rw [if_neg (show ¬s.tolerating.options.maxDepth < depth + 1 from Nat.not_lt.mpr hdepth)]
      exact hearly run' ht

theorem readAll_early (hstrict : s.options.tolerant = false) : (ds : List Declaration) →
    FormedAll (fun h => h.Plain ∧ h.extent ≠ .untilEnd) ds → ∀ depth : Nat,
      EarlyBody (readAll s depth ds) (readAll s.tolerating depth ds)
  | [], _, _, run, y, run₁, hok => by
    cases hok
    exact ⟨rfl, fun run' ht => .same ht⟩
  | d :: ds, hf, depth, run, y, run₁, hok => by
    obtain ⟨first, run₂, hd, hcases⟩ := readAll_cons_ok hok
    obtain ⟨hgoes, hearly⟩ := read_early hstrict d hf.1 depth run first run₂ hd
    rcases hcases with ⟨hhalts, -⟩ | ⟨-, rest, hrest, rfl⟩
    · rw [hgoes] at hhalts
      cases hhalts
    obtain ⟨hgoes', hothers⟩ := readAll_early hstrict ds hf.2 depth run₂ rest run₁ hrest
    refine ⟨hgoes', fun run' ht => ?_⟩
    have hfirst := hearly run' ht
    rw [readAll_cons]
    generalize d.read s.tolerating depth run' = outcome at hfirst ⊢
    cases hfirst with
    | halted hcut run₂' => exact .halted (hcut.append rest.fields) run₂'
    | same ht' =>
      have hsecond := hothers _ ht'
      simp only [hgoes, Bool.false_eq_true, if_false]
      generalize readAll s.tolerating depth ds _ = outcome at hsecond ⊢
      cases hsecond with
      | same ht'' => exact .same ht''
      | halted hcut run₁' => exact .halted (hcut.behind first.fields) run₁'

end

/-- Tolerant reading of an input that is cut off gives what there is of a reading of the whole one. -/
theorem readScript_cut (hstrict : s.options.tolerant = false) {ds : List Declaration}
    (hf : FormedAll (fun h => h.Plain ∧ h.extent ≠ .untilEnd) ds) {r r' : Reader} {record : Record}
    (hok : readScript s ds r = (.ok record, run)) (ht : r'.Truncates r) :
    ∃ record' run', readScript s.tolerating ds r' = (.ok record', run') ∧ Field.Cut record'.fields record.fields := by
  obtain ⟨y, run₁, hy, hok⟩ := Stateful.of_bind_ok hok
  cases hok
  obtain ⟨-, hearly⟩ := readAll_early hstrict ds hf 0 _ y run hy
  have hyield := hearly { source := r' } ⟨ht, rfl⟩
  cases hx : readAll s.tolerating 0 ds { source := r' } with
  | mk outcome run' =>
    rw [hx] at hyield
    cases hyield with
    | same ht' => exact ⟨_, run', Stateful.bind_ok hx _, .refl _⟩
    | halted hcut => exact ⟨_, run', Stateful.bind_ok hx _, hcut⟩

end Declaration

/-- Without arrays up to the end of the input every extent is known or computed. -/
theorem Layout.IsOf.counted {layout : Layout} {ds : List Declaration} (h : layout.IsOf ds) (hcustom : layout.customTypes = [])
    (hlines : ∀ lines, layout.lines = .ok lines → ∀ line ∈ lines,
      line.kind ≠ .var ∧ line.instruction.count ≠ .wholeStream) :
    Declaration.FormedAll (fun h => h.Plain ∧ h.extent ≠ .untilEnd) ds := by
  have hplain := h.plain hcustom fun lines hl line hm => (hlines lines hl line hm).1
  refine .of_heads ds hplain fun head hm => ⟨Declaration.FormedAll.heads ds hplain head hm, ?_⟩
  intro hextent
  apply (hlines _ h.lines _ (Declaration.line_memAll ds hm)).2
  rw [Head.line_instruction, Head.instruction, hextent]
  rfl

/-- What a compiled script reads of an input is read of every beginning of the input up to where it
is cut off. -/
theorem Layout.readBytes_cut {custom : Option CustomTypes} {script : String} {layout : Layout}
    (h : compileWith custom script = .ok layout) (hcustom : layout.customTypes = [])
    (hlines : ∀ lines, layout.lines = .ok lines → ∀ line ∈ lines,
      line.kind ≠ .var ∧ line.instruction.count ≠ .wholeStream)
    (options : ReadOptions) (collaborators : Collaborators Reader) (bytes bytes' : List UInt8) (record : Record)
    (run : Run Reader) (hstrict : options.tolerant = false)
    (hok : layout.readBytes bytes options collaborators = (.ok record, run)) (hbytes : bytes' <+: bytes) :
    ∃ record' run', layout.readBytes bytes' options.tolerating collaborators = (.ok record', run') ∧
      Field.Cut record'.fields record.fields := by
  obtain ⟨ts, d, ds, -, -, htraced, hopened, rfl⟩ := compileWith_traced h
  have hof := htraced.isOf hopened (by rw [show d.customTypes = [] from hcustom]; exact Nat.zero_le _) script
  have ht : (Reader.ofBytes bytes' options.bitOrder).Truncates (.ofBytes bytes options.bitOrder) :=
    ⟨rfl, rfl, rfl, rfl, hbytes, Nat.zero_le _⟩
  rw [readBytes, IsOf.read_eq _ hof] at hok ⊢
  exact Declaration.readScript_cut hstrict (hof.counted hcustom hlines) hok ht

/-- An input that ends inside of the second structure of an array. -/
theorem Layout.readBytes_cut_inside :
    let script := "ubyte n; rec[n] \x7b ushort a; bit:3 b; \x7d ubyte c;"
    let bytes : List UInt8 := [2, 0, 1, 0x62, 0, 3, 4]
    let bytes' : List UInt8 := [2, 0, 1, 0x62]
    ∃ layout record run record' run', compileWith none script = .ok layout ∧
      layout.readBytes bytes {} {} = (.ok record, run) ∧ bytes' <+: bytes ∧
      layout.readBytes bytes' .lenient {} = (.ok record', run') ∧ Field.Cut record'.fields record.fields := by
  intro script bytes bytes'
  have hcompiles : (compileWith none script).toOption.any (fun layout => layout.customTypes.isEmpty &&
      layout.lines.toOption.any (·.all fun line => line.kind ≠ .var && line.instruction.count ≠ .wholeStream) &&
      (layout.readBytes bytes {} {}).1.toOption.isSome) = true := by decide +kernel
  obtain ⟨layout, hlayout, hchecks⟩ := of_any_ok hcompiles
  simp only [Bool.and_eq_true] at hchecks
  obtain ⟨⟨hcustom, hlines⟩, hread⟩ := hchecks
  have hlines : ∀ lines, layout.lines = .ok lines → ∀ line ∈ lines,
      line.kind ≠ .var ∧ line.instruction.count ≠ .wholeStream := by
    intro lines heq line hm
    simpa using forall_mem_of_any_all hlines lines heq line hm
  rcases hrun : layout.readBytes bytes {} {} with ⟨fault | record, run⟩
  · rw [hrun] at hread
    cases hread
  have hbytes : bytes' <+: bytes := ⟨[0, 3, 4], rfl⟩
  obtain ⟨record', run', hcut⟩ := readBytes_cut hlayout (List.isEmpty_iff.mp hcustom) hlines {} {} bytes bytes' record run
    rfl hrun hbytes
  exact ⟨layout, record, run, record', run', hlayout, hrun, hbytes, hcut⟩

end LayoutScript
