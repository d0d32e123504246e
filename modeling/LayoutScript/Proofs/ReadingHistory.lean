import LayoutScript.Proofs.ReadingIndex
import Mathlib.Data.Finset.Card
import Mathlib.Data.List.DropRight

/-! # The history of readings

Readings change when a number is kept and when all are forgotten, and several fields can have one
offset or one path. What they hold is told by the numbers since the last time all were forgotten: an
entry for each offset, in the order of the first numbers, with the field of the first and the number
of the last.
-/
namespace LayoutScript

/-- Of elements with the same key the first is kept, so one more is kept if its key is new. -/
theorem eraseDupsBy_concat {α β : Type} [BEq β] [LawfulBEq β] (key : α → β) (as : List α) (a : α) :
    (as ++ [a]).eraseDupsBy (fun b c => key b == key c) =
      as.eraseDupsBy (fun b c => key b == key c) ++ if key a ∈ as.map key then [] else [a] := by
  -- What stands behind the first element is filtered before it is looked at, so the length is what falls.
  induction hn : as.length using Nat.strongRecOn generalizing as with
  | ind n ih =>
    cases as with
    | nil => simp [List.eraseDupsBy_cons]
    | cons b bs =>
      rw [List.cons_append, List.eraseDupsBy_cons, List.eraseDupsBy_cons, List.filter_append, List.cons_append]
      by_cases hsame : key a = key b
      · simp [hsame]
      · have hshorter : (bs.filter fun c => decide ((key c == key b) = false)).length < n := by
          have hle := List.length_filter_le (fun c => decide ((key c == key b) = false)) bs
          rw [List.length_cons] at hn
          omega
        have hmem : key a ∈ (bs.filter fun c => decide ((key c == key b) = false)).map key ↔ key a ∈ (b :: bs).map key := by
          simp only [List.mem_map, List.mem_filter, List.mem_cons, decide_eq_true_eq, beq_eq_false_iff_ne]
          constructor
          · rintro ⟨c, ⟨hc, -⟩, heq⟩
            exact ⟨c, .inr hc, heq⟩
          · rintro ⟨c, rfl | hc, heq⟩
            · exact absurd heq.symm hsame
            · exact ⟨c, ⟨hc, heq ▸ hsame⟩, heq⟩
        have hkept : [a].filter (fun c => decide ((key c == key b) = false)) = [a] := by simp [hsame]
        rw [hkept, ih _ hshorter _ rfl]
        simp only [hmem]

theorem eraseDups_concat {α : Type} [BEq α] [LawfulBEq α] (as : List α) (a : α) :
    (as ++ [a]).eraseDups = as.eraseDups ++ if a ∈ as then [] else [a] := by
  simpa [List.eraseDups] using eraseDupsBy_concat id as a

namespace Readings

/-! ## Numbers kept in turn -/

/-- The fields of some numbers. Of fields with the same offset it is the first. -/
def firstFields (puts : List Reading) : List NamedField :=
  (puts.map (·.field)).eraseDupsBy fun field field' => field.offset == field'.offset

/-- The last of some numbers for an offset. -/
def latest (puts : List Reading) (offset : Nat) : Option Int64 :=
  (puts.reverse.find? (·.field.offset == offset)).map (·.value)

theorem firstFields_concat (puts : List Reading) (n : Reading) :
    firstFields (puts ++ [n]) = firstFields puts ++ if n.field.offset ∈ puts.map (·.field.offset) then [] else [n.field] := by
  rw [firstFields, List.map_append, List.map_singleton, eraseDupsBy_concat, List.map_map]
  rfl

theorem latest_concat (puts : List Reading) (n : Reading) (offset : Nat) :
    latest (puts ++ [n]) offset = if offset = n.field.offset then some n.value else latest puts offset := by
  rw [latest, List.reverse_concat, List.find?_cons]
  by_cases hsame : offset = n.field.offset
  · simp [hsame]
  · have hother : (n.field.offset == offset) = false := by simpa using Ne.symm hsame
    simp [hsame, hother, latest]

/-- The readings after more numbers have been kept. -/
def keep (r : Readings) (puts : List Reading) : Readings := puts.foldl (fun r n => r.put n.field n.value) r

theorem keep_append (r : Readings) (puts more : List Reading) : r.keep (puts ++ more) = (r.keep puts).keep more :=
  List.foldl_append

theorem keep_concat (r : Readings) (puts : List Reading) (n : Reading) :
    r.keep (puts ++ [n]) = (r.keep puts).put n.field n.value :=
  keep_append r puts [n]

theorem get?_keep (puts : List Reading) (field : NamedField) : (keep {} puts).get? field = latest puts field.offset := by
  induction puts using List.reverseRecOn with
  | nil => rfl
  | append_singleton puts n ih => rw [keep_concat, get?_put, latest_concat, ih]

theorem mem_offsets_keep {puts : List Reading} {offset : Nat} :
    offset ∈ (keep {} puts).offsets ↔ offset ∈ puts.map (·.field.offset) := by
  induction puts using List.reverseRecOn with
  | nil => rfl
  | append_singleton puts n ih =>
    rw [keep_concat, mem_offsets_put, ih, List.map_append, List.mem_append, List.map_singleton, List.mem_singleton]

theorem fields_keep (puts : List Reading) : (keep {} puts).entries.map (·.field) = firstFields puts := by
  induction puts using List.reverseRecOn with
  | nil => rfl
  | append_singleton puts n ih =>
    rw [keep_concat, fields_put, firstFields_concat, ih]
    simp only [mem_offsets_keep]

/-- Each slot is that of an entry with its offset. -/
def Slotted (r : Readings) : Prop :=
  ∀ offset slot, (offset, slot) ∈ r.slots → ∃ e, r.entries[slot]? = some e ∧ e.field.offset = offset

theorem Slotted.put {r : Readings} (h : r.Slotted) (field : NamedField) (value : Int64) : (r.put field value).Slotted := by
  intro offset slot hm
  rcases r.put_cases field value with ⟨known, -, hslots, hentries⟩ | ⟨-, hslots, hentries⟩
  · rw [hslots] at hm
    obtain ⟨e, he, hoffset⟩ := h offset slot hm
    by_cases hsame : known = slot <;> simp [hentries, he, hsame, hoffset]
  · rw [hslots, List.mem_cons] at hm
    rcases hm with heq | hm
    · cases heq
      simp [hentries]
    · obtain ⟨e, he, hoffset⟩ := h offset slot hm
      have hlt : slot < r.entries.length := (List.getElem?_eq_some_iff.mp he).1
      exact ⟨e, by rw [hentries, List.getElem?_append_left hlt, he], hoffset⟩

theorem slotted_keep (puts : List Reading) : (keep {} puts).Slotted := by
  induction puts using List.reverseRecOn with
  | nil => simp [Slotted, keep]
  | append_singleton puts n ih =>
    rw [keep_concat]
    exact ih.put n.field n.value

/-! ## Changes -/

/-- A change of readings. -/
inductive Change where
  | put (field : NamedField) (value : Int64)
  | clear
deriving DecidableEq

/-- The number that a change keeps. -/
def Change.reading? : Change → Option Reading
  | put field value => some ⟨field, value⟩
  | clear => none

def Change.apply (r : Readings) : Change → Readings
  | put field value => r.put field value
  | clear => r.clear

/-- The readings after a series of changes, from none. -/
def after (changes : List Change) : Readings := changes.foldl Change.apply {}

/-- The numbers kept since the last time all were forgotten. -/
def sinceClear (changes : List Change) : List Reading :=
  (changes.rtakeWhile (·.reading?.isSome)).filterMap Change.reading?

/-- Nothing is left of what was kept before all was forgotten. -/
theorem after_eq_keep (changes : List Change) : after changes = keep {} (sinceClear changes) := by
  induction changes using List.reverseRecOn with
  | nil => rfl
  | append_singleton changes change ih =>
    have hstep : after (changes ++ [change]) = change.apply (after changes) := by simp [after]
    cases change with
    | clear => simp [hstep, sinceClear, Change.reading?, Change.apply, clear, keep]
    | put field value =>
      have hsince : sinceClear (changes ++ [.put field value]) = sinceClear changes ++ [⟨field, value⟩] := by
        simp [sinceClear, Change.reading?]
      rw [hstep, hsince, keep_concat, ← ih]
      rfl

/-- What the readings hold is told by the numbers. -/
structure Recounts (r : Readings) (puts : List Reading) : Prop where
  /-- A field is known by its offset. -/
  get? : ∀ field, r.get? field = latest puts field.offset
  /-- An entry has the first field of its offset, and the last number. -/
  entries : r.entries.map (fun e => (e.field, some e.value)) =
    (firstFields puts).map fun field => (field, latest puts field.offset)
  nodup : r.offsets.Nodup
  mem : ∀ offset, offset ∈ r.offsets ↔ offset ∈ puts.map (·.field.offset)
  size : r.size = (puts.map (·.field.offset)).toFinset.card
  slots : r.Slotted
  getPath? : ∀ path, r.getPath? path =
    ((firstFields puts).find? (sameName path ·.path)).bind fun field => latest puts field.offset

theorem entries_eq (r : Readings) :
    r.entries.map (fun e => (e.field, some e.value)) = (r.entries.map (·.field)).map fun field => (field, r.get? field) := by
  rw [List.map_map]
  exact List.map_congr_left fun e hm => by simp [get?_of_mem hm]

theorem size_eq_card (r : Readings) : r.size = r.offsets.toFinset.card := by
  rw [List.toFinset_card_of_nodup r.nodup_offsets]
  simp [size, offsets]

/-- After any changes the readings are those of the numbers since the last time all were forgotten. -/
theorem recounts_after (changes : List Change) : (after changes).Recounts (sinceClear changes) := by
  rw [after_eq_keep]
  refine ⟨get?_keep _, ?_, nodup_offsets _, fun _ => mem_offsets_keep, ?_, slotted_keep _, fun path => ?_⟩
  · simp only [entries_eq, fields_keep, get?_keep]
  · rw [size_eq_card]
    congr 1
    ext offset
    simp only [List.mem_toFinset, mem_offsets_keep]
  · rw [getPath?_eq, fields_keep]
    congr 1
    exact funext (get?_keep _)

/-- The entry of an offset keeps the first field, also when the next one has another path. -/
example : (after [.put ⟨"a", "a", 0⟩ 1, .clear, .put ⟨"b", "b", 2⟩ 2, .put ⟨"a", "a", 0⟩ 4, .put ⟨"A", "A", 2⟩ 3]).entries =
    [⟨⟨"b", "b", 2⟩, 3⟩, ⟨⟨"a", "a", 0⟩, 4⟩] := by
  decide

end Readings
end LayoutScript
