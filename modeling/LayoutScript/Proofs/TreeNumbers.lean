import Mathlib.Data.List.Find
import Mathlib.Data.List.Induction
import Mathlib.Data.List.Nodup
import LayoutScript.Proofs.Exhaustion
import LayoutScript.Proofs.Freshness
import LayoutScript.Proofs.ReadMembers
import LayoutScript.Proofs.ReadingHistory
import LayoutScript.Value.Lookup

/-! # Readings and trees

The number of a named scalar is kept as soon as it is read, its place in the tree comes with the
structures around it. Both tell the same: what has no field keeps no number, and the last element
of an array up to the end of the input, which is dropped where it takes no input, has no scalar
inside. So the readings have an entry for every named scalar of the tree, in the order in which
these come first in it, and the number with which they come last.
-/
namespace LayoutScript

/-- The number of a named scalar. -/
def Field.reading? (f : Field) : Option Reading :=
  match f.info, f.value.number? with
  | some field, some value => some ⟨field, value⟩
  | _, _ => none

theorem Field.reading?_eq_some {info : Option NamedField} {v : Value} {n : Reading} :
    reading? ⟨info, v⟩ = some n ↔ info = some n.field ∧ v.number? = some n.value := by
  obtain ⟨field, value⟩ := n
  cases info <;> cases hn : v.number? <;> simp [reading?, hn]

/-- The numbers of the named scalars of a tree, in reading order. -/
def Record.numbers (r : Record) : List Reading := r.allFields.filterMap Field.reading?

def Value.numbers (v : Value) : List Reading := v.allFields.filterMap Field.reading?

theorem allFieldsOf_cons (f : Field) (fields : List Field) :
    allFieldsOf (f :: fields) = f :: (f.value.allFields ++ allFieldsOf fields) := by
  cases f
  rw [allFieldsOf]

theorem allFieldsOf_append (fields more : List Field) :
    allFieldsOf (fields ++ more) = allFieldsOf fields ++ allFieldsOf more := by
  induction fields with
  | nil => rfl
  | cons f fields ih => simp only [List.cons_append, allFieldsOf_cons, ih, List.append_assoc]

theorem Record.numbers_append (fields more : List Field) :
    numbers ⟨fields ++ more⟩ = numbers ⟨fields⟩ ++ numbers ⟨more⟩ := by
  simp only [numbers, allFields, allFieldsOf_append, List.filterMap_append]

theorem Record.numbers_singleton (f : Field) : numbers ⟨[f]⟩ = f.reading?.toList ++ f.value.numbers := by
  rw [numbers, allFields, allFieldsOf_cons, allFieldsOf, List.append_nil, List.filterMap_cons]
  cases f.reading? <;> rfl

theorem Value.numbers_records (items : List Record) : (records items).numbers = items.flatMap Record.numbers := by
  induction items with
  | nil => rfl
  | cons item items ih =>
    simp only [Value.numbers, allFields] at ih
    simp only [Value.numbers, allFields, allFieldsOfItems, List.filterMap_append, ih, List.flatMap_cons, Record.numbers]

theorem Value.Flat.numbers {v : Value} (h : v.Flat) : v.numbers = [] := by
  cases v with
  | scalar | array | text => rfl
  | record | records => exact h.elim

/-! ## Numbers kept in turn -/

namespace Readings

/-- The readings have one entry for each field with a number, in the order of the first numbers, and it
has the last number. -/
structure Summarises (r : Readings) (numbers : List Reading) : Prop where
  distinct : r.offsets.Nodup
  fields : r.entries.map (·.field) = (numbers.map (·.field)).eraseDups
  latest : ∀ e ∈ r.entries, numbers.reverse.find? (·.field == e.field) = some e

/-- Where fields are known by their offsets, each field is the first of its offset. -/
theorem firstFields_eq_eraseDups {numbers : List Reading}
    (hinj : ∀ e ∈ numbers, ∀ e' ∈ numbers, e.field.offset = e'.field.offset → e.field = e'.field) :
    firstFields numbers = (numbers.map (·.field)).eraseDups := by
  induction numbers using List.reverseRecOn with
  | nil => rfl
  | append_singleton numbers n ih =>
    have hknown : n.field.offset ∈ numbers.map (·.field.offset) ↔ n.field ∈ numbers.map (·.field) := by
      simp only [List.mem_map]
      constructor
      · rintro ⟨e, hm, hsame⟩
        exact ⟨e, hm, hinj e (by simp [hm]) n (by simp) hsame⟩
      · rintro ⟨e, hm, hsame⟩
        exact ⟨e, hm, congrArg _ hsame⟩
    have hfirst := ih fun e hm e' hm' => hinj e (by simp [hm]) e' (by simp [hm'])
    rw [firstFields_concat, List.map_append, List.map_singleton, eraseDups_concat, hfirst]
    simp only [hknown]

/-- Numbers kept in turn are summarised, if their fields are known by their offsets. -/
theorem summarises_keep {numbers : List Reading}
    (hinj : ∀ e ∈ numbers, ∀ e' ∈ numbers, e.field.offset = e'.field.offset → e.field = e'.field) :
    (keep {} numbers).Summarises numbers := by
  have hfields := (fields_keep numbers).trans (firstFields_eq_eraseDups hinj)
  refine ⟨nodup_offsets _, hfields, fun e hm => ?_⟩
  have hmem : e.field ∈ numbers.map (·.field) := by
    rw [← List.mem_eraseDups, ← hfields]
    exact List.mem_map_of_mem hm
  obtain ⟨e', hm', hfield⟩ := List.mem_map.mp hmem
  -- Among these numbers an offset and its field are found at the same places.
  have hsame : ∀ n ∈ numbers.reverse, (n.field == e.field) = (n.field.offset == e.field.offset) := by
    intro n hn
    rw [← hfield, Bool.eq_iff_iff, beq_iff_eq, beq_iff_eq]
    exact ⟨congrArg _, hinj n (List.mem_reverse.mp hn) e' hm'⟩
  have hlatest : latest numbers e.field.offset = some e.value := (get?_keep numbers e.field).symm.trans (get?_of_mem hm)
  obtain ⟨n, hn, hvalue⟩ := Option.map_eq_some_iff.mp hlatest
  rw [← List.find?_congr hsame] at hn
  have hown : n.field = e.field := by simpa using List.find?_some hn
  obtain rfl : n = e := by cases n; cases e; simp_all
  exact hn

end Readings

theorem keepReading_readings {σ : Type} (info : Option NamedField) (v : Value) (run : Run σ) :
    (Setting.keepReading info v run).readings = run.readings.keep (Field.reading? ⟨info, v⟩).toList := by
  rw [Setting.keepReading.eq_def]
  cases info with
  | none => rfl
  | some field => cases hn : v.number? <;> simp [Field.reading?, hn, Readings.keep]

/-! ## What is read keeps its numbers -/

/-- A declaration that is no structure reads nothing or a value, and a scalar takes input. -/
theorem Head.readValue_plain {s : Setting Reader} (hstrict : s.options.tolerant = false) {h : Head} (hp : h.Plain)
    {q : Request} {readings : Readings} {r r' : Reader} {reply : Reply}
    (hok : h.readValue s q readings r = (.ok reply, r')) :
    r'.left ≤ r.left ∧ (reply = .nothing ∨ ∃ v, reply = .value v ∧ v.Flat ∧ (v.number?.isSome → r'.left < r.left)) := by
  cases hk : h.kind with
  | var => exact absurd hk hp.1
  | custom => exact absurd hk hp.2
  | opening | closing =>
    rw [readValue.eq_def, hk] at hok
    cases hok
  | align | skip | restart =>
    obtain ⟨hnothing, hle⟩ := readValue_modifier (by rw [hk]; rfl) hok
    exact ⟨hle, .inl hnothing⟩
  | bit | whole type =>
    have hflat := returns_readValue hp q readings r reply r' hok
    obtain ⟨v, rfl, hle, htakes, -⟩ := readValue_takes hstrict (by rw [hk]; rfl) hok
    exact ⟨hle, .inr ⟨v, rfl, hflat, htakes⟩⟩

/-- Between two points of a run some numbers are kept, for fields of a table. They take input. -/
structure Run.Keeps (table : List NamedField) (run run' : Run Reader) (numbers : List Reading) : Prop where
  readings : run'.readings = run.readings.keep numbers
  fields : ∀ n ∈ numbers, n.field ∈ table
  left_le : run'.source.left ≤ run.source.left
  takes : numbers ≠ [] → run'.source.left < run.source.left

namespace Run.Keeps
variable {table : List NamedField} {run run₁ run' : Run Reader} {numbers more : List Reading}

theorem refl (run : Run Reader) : run.Keeps table run [] :=
  ⟨rfl, List.forall_mem_nil _, Nat.le_refl _, fun hne => absurd rfl hne⟩

theorem trans (h : run.Keeps table run₁ numbers) (h' : run₁.Keeps table run' more) :
    run.Keeps table run' (numbers ++ more) where
  readings := by rw [Readings.keep_append, ← h.readings, h'.readings]
  fields n hm := (List.mem_append.mp hm).elim (h.fields n) (h'.fields n)
  left_le := Nat.le_trans h'.left_le h.left_le
  takes hne := by
    rw [ne_eq, List.append_eq_nil_iff, not_and_or] at hne
    rcases hne with hne | hne
    · exact Nat.lt_of_le_of_lt h'.left_le (h.takes hne)
    · exact Nat.lt_of_lt_of_le (h'.takes hne) h.left_le

/-- Where no input is taken, no number is kept. -/
theorem idle (h : run.Keeps table run' numbers) (hleft : ¬run'.source.left < run.source.left) : run.Keeps table run' [] := by
  have hnil : numbers = [] := Decidable.byContradiction fun hne => hleft (h.takes hne)
  rwa [hnil] at h

end Run.Keeps

/-- Fields are read to the last one, and the numbers that are kept are those of the fields. -/
def Tells (table : List NamedField) (body : Stateful (Run Reader) Yield) : Prop :=
  ∀ run y run', body run = (.ok y, run') → y.halted = false ∧ run.Keeps table run' (Record.numbers ⟨y.fields⟩)

/-- The declaration is not read by a collaborator, and its name is in the table. -/
def Head.Listed (table : List NamedField) (h : Head) : Prop := h.Plain ∧ ∀ field, h.info = some field → field ∈ table

namespace Declaration
variable {table : List NamedField} {body : Stateful (Run Reader) Yield} {run run' : Run Reader} {halted : Bool}

theorem readTimes_tells (hbody : Tells table body) {n : Nat} {items : List Record}
    (hok : readTimes body n run = (.ok (items, halted), run')) :
    halted = false ∧ run.Keeps table run' (items.flatMap Record.numbers) := by
  induction n generalizing run items with
  | zero =>
    cases hok
    exact ⟨rfl, .refl _⟩
  | succ n ih =>
    obtain ⟨y, run₁, hy, hcases⟩ := readTimes_succ_ok hok
    obtain ⟨hgoes, hkeeps⟩ := hbody run y run₁ hy
    rcases hcases with ⟨hhalts, -⟩ | ⟨-, rest, hrest, rfl⟩
    · rw [hgoes] at hhalts
      cases hhalts
    · obtain ⟨hhalted, hkeeps'⟩ := ih hrest
      exact ⟨hhalted, hkeeps.trans hkeeps'⟩

theorem readWhile_tells (hbody : Tells table body) {options : ReadOptions} {size : Nat} {items : List Record}
    (hok : readWhile options body size run = (.ok (items, halted), run')) :
    halted = false ∧ run.Keeps table run' (items.flatMap Record.numbers) := by
  refine readWhile_induction
    (P := fun _ run items halted run' => halted = false ∧ run.Keeps table run' (items.flatMap Record.numbers)) ?_ ?_ ?_ ?_ hok
  · exact fun _ run _ => ⟨rfl, .refl _⟩
  · intro _ run fields run' hy
    cases (hbody run _ run' hy).1
  · -- The element that takes no input is dropped, and it has no number to drop.
    intro _ run fields run' hy hless
    exact ⟨rfl, (hbody run _ run' hy).2.idle hless⟩
  · rintro _ run fields next items halted run' - hy - ⟨hhalted, hkeeps⟩
    exact ⟨hhalted, (hbody run _ next hy).2.trans hkeeps⟩

theorem readElements_tells (hbody : Tells table body) {options : ReadOptions} {count : ElementCount} {value : Value}
    (hok : readElements options count body run = (.ok (value, halted), run')) :
    halted = false ∧ value.number? = none ∧ run.Keeps table run' value.numbers := by
  cases count with
  | one =>
    obtain ⟨y, run₁, hy, hok⟩ := Stateful.of_bind_ok hok
    cases hok
    obtain ⟨hgoes, hkeeps⟩ := hbody run y run' hy
    exact ⟨hgoes, rfl, hkeeps⟩
  | exactly n =>
    obtain ⟨⟨items, _⟩, run₁, hitems, hok⟩ := Stateful.of_bind_ok hok
    cases hok
    obtain ⟨hhalted, hkeeps⟩ := readTimes_tells hbody hitems
    rw [← Value.numbers_records] at hkeeps
    exact ⟨hhalted, rfl, hkeeps⟩
  | untilEnd =>
    obtain ⟨⟨items, _⟩, run₁, hitems, hok⟩ := Stateful.of_bind_ok hok
    cases hok
    obtain ⟨hhalted, hkeeps⟩ := readWhile_tells hbody hitems
    rw [← Value.numbers_records] at hkeeps
    exact ⟨hhalted, rfl, hkeeps⟩

variable {s : Setting Reader}

theorem readSingle_tells (hstrict : s.options.tolerant = false) {h : Head} (hh : h.Listed table) (q : Request) :
    Tells table (h.readSingle s q) := by
  intro run y run' hok
  rw [Head.readSingle_eq] at hok
  rcases hv : h.readValue s q run.readings run.source with ⟨fault | reply, r⟩
  · simp only [hv, hstrict, Bool.and_false, Bool.false_eq_true, if_false] at hok
    cases hok
  obtain ⟨hle, hreply⟩ := Head.readValue_plain hstrict hh.1 hv
  rw [hv] at hok
  rcases hreply with rfl | ⟨v, rfl, hflat, htakes⟩
  · cases hok
    exact ⟨rfl, rfl, List.forall_mem_nil _, hle, fun hne => absurd rfl hne⟩
  · cases hok
    refine ⟨rfl, ?_⟩
    rw [Record.numbers_singleton, hflat.numbers, List.append_nil]
    refine ⟨keepReading_readings _ _ _, fun n hm => ?_, ?_, fun hne => ?_⟩
    · obtain ⟨hfield, -⟩ := Field.reading?_eq_some.mp (Option.mem_toList.mp hm)
      exact hh.2 _ hfield
    · rw [Setting.keepReading_source]
      exact hle
    · obtain ⟨n, hm⟩ := List.exists_mem_of_ne_nil _ hne
      obtain ⟨-, hnumber⟩ := Field.reading?_eq_some.mp (Option.mem_toList.mp hm)
      rw [Setting.keepReading_source]
      exact htakes (Option.isSome_of_eq_some hnumber)

mutual

/-- A declaration is read to its end, and the numbers it keeps are those of its field. -/
theorem read_tells (hstrict : s.options.tolerant = false) : (d : Declaration) → d.Formed (Head.Listed table) →
    ∀ depth : Nat, Tells table (d.read s depth)
  | .single h, hf, depth, run, y, run', hok => by
    obtain ⟨q, -, hok⟩ := read_single_ok hstrict hok
    exact readSingle_tells hstrict hf.1 q run y run' hok
  | .nested h members, hf, depth, run, y, run', hok => by
    obtain ⟨q, value, halted, -, -, hx, rfl⟩ := read_nested_ok hstrict hok
    obtain ⟨hhalted, hnone, hkeeps⟩ := readElements_tells (readAll_tells hstrict members hf.2.2 (depth + 1)) hx
    refine ⟨hhalted, ?_⟩
    have hnumbers : Field.reading? ⟨h.info, value⟩ = none := by
      cases h.info <;> simp [Field.reading?, hnone]
    rwa [Record.numbers_singleton, hnumbers]

theorem readAll_tells (hstrict : s.options.tolerant = false) : (ds : List Declaration) → FormedAll (Head.Listed table) ds →
    ∀ depth : Nat, Tells table (readAll s depth ds)
  | [], _, _, run, y, run', hok => by
    cases hok
    exact ⟨rfl, .refl run⟩
  | d :: ds, hf, depth, run, y, run', hok => by
    obtain ⟨first, run₁, hd, hcases⟩ := readAll_cons_ok hok
    obtain ⟨hgoes, hkeeps⟩ := read_tells hstrict d hf.1 depth run first run₁ hd
    rcases hcases with ⟨hhalts, -⟩ | ⟨-, rest, hrest, rfl⟩
    · rw [hgoes] at hhalts
      cases hhalts
    · obtain ⟨hhalted, hkeeps'⟩ := readAll_tells hstrict ds hf.2 depth run₁ rest run' hrest
      refine ⟨hhalted, ?_⟩
      rw [Record.numbers_append]
      exact hkeeps.trans hkeeps'

end

end Declaration

/-- The readings of a reading that succeeds summarise its tree. -/
theorem Layout.read_summarises {custom : Option CustomTypes} {script : String} {layout : Layout}
    (h : compileWith custom script = .ok layout) (hcustom : layout.customTypes = [])
    (hvar : ∀ lines, layout.lines = .ok lines → ∀ line ∈ lines, line.kind ≠ .var) {options : ReadOptions}
    (hstrict : options.tolerant = false) {collaborators : Collaborators Reader} {source : Reader} {record : Record}
    {run : Run Reader} (hok : Setting.read ⟨layout, options, collaborators⟩ source = (.ok record, run)) :
    run.readings.Summarises record.numbers := by
  obtain ⟨ts, d, ds, -, hds, htraced, hopened, rfl⟩ := compileWith_traced h
  have hof := htraced.isOf hopened (by rw [show d.customTypes = [] from hcustom]; exact Nat.zero_le _) script
  have hplain := hof.plain hcustom hvar
  have hlisted : Declaration.FormedAll (Head.Listed (Declaration.namedAll ds)) ds := by
    refine .of_heads ds hplain fun head hm => ⟨Declaration.FormedAll.heads ds hplain head hm, fun field hfield => ?_⟩
    exact List.mem_filterMap.mpr ⟨head, hm, hfield⟩
  have hoffsets : ((Declaration.namedAll ds).map (·.offset)).Nodup :=
    List.pairwise_map.mpr (htraced.infos_increase.imp Nat.ne_of_lt)
  rw [IsOf.read_eq _ hof] at hok
  obtain ⟨y, run', hy, hpure⟩ := Stateful.of_bind_ok hok
  cases hpure
  obtain ⟨-, hkeeps⟩ := Declaration.readAll_tells hstrict ds hlisted 0 _ y run hy
  rw [hkeeps.readings]
  apply Readings.summarises_keep
  intro n hm n' hm' hsame
  exact List.inj_on_of_nodup_map hoffsets (hkeeps.fields n hm) (hkeeps.fields n' hm') hsame

/-- The elements of an array share an entry, which has the number of the last one. -/
theorem Layout.read_summarises_elements :
    let script := "ubyte n; rec[n] \x7b ubyte a; \x7d"
    let source := Reader.ofBytes [2, 7, 9] .lsb0
    ∃ layout record run, compileWith none script = .ok layout ∧ layout.customTypes = [] ∧
      (∀ lines, layout.lines = .ok lines → ∀ line ∈ lines, line.kind ≠ .var) ∧
      Setting.read ⟨layout, {}, {}⟩ source = (.ok record, run) ∧ record.numbers.map (·.value) = [2, 7, 9] ∧
      run.readings.entries.map (·.value) = [2, 9] ∧ run.readings.Summarises record.numbers := by
  intro script source
  have hcompiles : (compileWith none script).toOption.any (fun layout => layout.customTypes.isEmpty &&
      layout.lines.toOption.any (·.all (·.kind ≠ .var)) &&
      (Setting.read ⟨layout, {}, {}⟩ source).1.toOption.any (·.numbers.map (·.value) == [2, 7, 9]) &&
      (Setting.read ⟨layout, {}, {}⟩ source).2.readings.entries.map (·.value) == [2, 9]) = true := by decide +kernel
  obtain ⟨layout, hlayout, hchecks⟩ := of_any_ok hcompiles
  simp only [Bool.and_eq_true] at hchecks
  obtain ⟨⟨⟨hcustom, hlines⟩, hread⟩, hentries⟩ := hchecks
  have hnone : layout.customTypes = [] := List.isEmpty_iff.mp hcustom
  have hvar : ∀ lines, layout.lines = .ok lines → ∀ line ∈ lines, line.kind ≠ .var := fun lines heq line hm =>
    of_decide_eq_true (forall_mem_of_any_all hlines lines heq line hm)
  obtain ⟨record, hrecord, hnumbers⟩ := of_any_ok hread
  have hok : Setting.read ⟨layout, {}, {}⟩ source = (.ok record, (Setting.read ⟨layout, {}, {}⟩ source).2) :=
    Prod.ext hrecord rfl
  have hsummary := read_summarises hlayout hnone hvar rfl hok
  exact ⟨layout, record, _, hlayout, hnone, hvar, hok, beq_iff_eq.mp hnumbers, beq_iff_eq.mp hentries, hsummary⟩

end LayoutScript
