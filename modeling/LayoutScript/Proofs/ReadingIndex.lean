import LayoutScript.Readings
import Mathlib.Data.List.Nodup

/-! # Entries and slots of readings

Each field with an entry has a slot, which tells where the entry stands, and no field has two. So a
number is found again under the offset of its field, and keeping a number changes that of its own
field and no other.
-/
namespace LayoutScript
namespace Readings
variable {r : Readings} {offset slot : Nat}

/-- The offsets of the fields for which a number was kept. -/
def offsets (r : Readings) : List Nat := r.entries.map (·.field.offset)

theorem entry_of_slot (h : r.slots.lookup offset = some slot) :
    ∃ e, r.entries[slot]? = some e ∧ e.field.offset = offset := by
  simpa using (r.coherent offset slot).mp h

theorem slot_of_entry {e : Reading} (h : r.entries[slot]? = some e) : r.slots.lookup e.field.offset = some slot :=
  (r.coherent _ _).mpr (by simp [h])

theorem lookup_eq_none_iff : r.slots.lookup offset = none ↔ offset ∉ r.offsets := by
  constructor
  · intro h hm
    obtain ⟨e, he, rfl⟩ := List.mem_map.mp hm
    obtain ⟨k, hk⟩ := List.mem_iff_getElem?.mp he
    simp [slot_of_entry hk] at h
  · intro h
    rw [Option.eq_none_iff_forall_ne_some]
    intro k hk
    obtain ⟨e, he, rfl⟩ := entry_of_slot hk
    exact h (List.mem_map_of_mem (List.mem_of_getElem? he))

theorem nodup_offsets (r : Readings) : r.offsets.Nodup := by
  rw [List.Nodup, List.pairwise_iff_getElem]
  intro i j hi hj hij heq
  have hslot : ∀ k (hk : k < r.offsets.length), r.slots.lookup r.offsets[k] = some k := by
    intro k hk
    simp only [offsets, List.getElem_map]
    exact slot_of_entry (List.getElem?_eq_getElem _)
  have hsame := hslot j hj
  rw [← heq, hslot i hi, Option.some.injEq] at hsame
  omega

/-- The number of a field is that of the entry with its offset. -/
theorem get?_eq_some_iff {field : NamedField} {value : Int64} :
    r.get? field = some value ↔ ∃ e ∈ r.entries, e.field.offset = field.offset ∧ e.value = value := by
  simp only [get?, Option.bind_eq_some_iff, Option.map_eq_some_iff]
  constructor
  · rintro ⟨k, hk, e, he, hvalue⟩
    obtain ⟨e', he', hoffset⟩ := entry_of_slot hk
    obtain rfl : e = e' := by simpa [he] using he'
    exact ⟨e, List.mem_of_getElem? he, hoffset, hvalue⟩
  · rintro ⟨e, he, hoffset, hvalue⟩
    obtain ⟨k, hk⟩ := List.mem_iff_getElem?.mp he
    exact ⟨k, hoffset ▸ slot_of_entry hk, e, hk, hvalue⟩

theorem get?_of_mem {e : Reading} (h : e ∈ r.entries) : r.get? e.field = some e.value :=
  get?_eq_some_iff.mpr ⟨e, h, rfl, rfl⟩

theorem get?_isSome {field : NamedField} (h : field.offset ∈ r.offsets) : (r.get? field).isSome := by
  obtain ⟨e, he, hoffset⟩ := List.mem_map.mp h
  exact Option.isSome_iff_exists.mpr ⟨e.value, get?_eq_some_iff.mpr ⟨e, he, hoffset, rfl⟩⟩

/-- The number under a path is that of the first field with the path, told by its offset. -/
theorem getPath?_eq (r : Readings) (path : String) :
    r.getPath? path = ((r.entries.map (·.field)).find? (sameName path ·.path)).bind r.get? := by
  rw [getPath?, List.find?_map, Function.comp_def]
  cases hfound : r.entries.find? (sameName path ·.field.path) with
  | none => rfl
  | some e => simp [get?_of_mem (List.mem_of_find?_eq_some hfound)]

/-! ## Keeping a number -/

/-- A number for a field that has an entry takes the place of the number there. -/
theorem put_known {field : NamedField} (hknown : field.offset ∈ r.offsets) (value : Int64) :
    (r.put field value).entries = r.entries.map fun e => if e.field.offset = field.offset then { e with value } else e := by
  rcases r.put_cases field value with ⟨slot, hslot, -, hentries⟩ | ⟨hnone, -⟩
  · rw [hentries]
    refine List.ext_getElem? fun k => ?_
    rw [List.getElem?_modify, List.getElem?_map]
    cases hk : r.entries[k]? with
    | none => rfl
    | some e =>
      have hiff : e.field.offset = field.offset ↔ slot = k := by
        constructor
        · intro hoffset
          have hown := slot_of_entry hk
          rw [hoffset, hslot, Option.some.injEq] at hown
          exact hown
        · rintro rfl
          obtain ⟨e', he', hoffset⟩ := entry_of_slot hslot
          obtain rfl : e = e' := by simpa [hk] using he'
          exact hoffset
      by_cases hown : slot = k <;> simp [hiff, hown]
  · exact absurd hknown (lookup_eq_none_iff.mp hnone)

/-- A number for a field without an entry gets one behind the others. -/
theorem put_new {field : NamedField} (hnew : field.offset ∉ r.offsets) (value : Int64) :
    (r.put field value).entries = r.entries ++ [⟨field, value⟩] := by
  rcases r.put_cases field value with ⟨slot, hslot, -⟩ | ⟨-, -, hentries⟩
  · rw [lookup_eq_none_iff.mpr hnew] at hslot
    cases hslot
  · exact hentries

/-- Each entry keeps its field, and a field whose offset is new comes last. -/
theorem fields_put (r : Readings) (field : NamedField) (value : Int64) :
    (r.put field value).entries.map (·.field) =
      r.entries.map (·.field) ++ if field.offset ∈ r.offsets then [] else [field] := by
  split
  · rename_i hknown
    rw [put_known hknown, List.map_map, List.append_nil]
    exact List.map_congr_left fun e _ => by dsimp only [Function.comp_apply]; split <;> rfl
  · rename_i hnew
    simp [put_new hnew]

theorem mem_offsets_put {field : NamedField} {value : Int64} :
    offset ∈ (r.put field value).offsets ↔ offset ∈ r.offsets ∨ offset = field.offset := by
  have hfields : ∀ r : Readings, r.offsets = (r.entries.map (·.field)).map (·.offset) := fun r => by simp [offsets]
  rw [hfields, fields_put, List.map_append, List.mem_append, ← hfields]
  by_cases hknown : field.offset ∈ r.offsets
  · have hsame : offset = field.offset → offset ∈ r.offsets := fun heq => heq ▸ hknown
    simp [hknown, or_iff_left_of_imp hsame]
  · simp [hknown]

theorem offsets_subset_put (r : Readings) (field : NamedField) (value : Int64) : r.offsets ⊆ (r.put field value).offsets :=
  fun _ hm => mem_offsets_put.mpr (.inl hm)

theorem offset_mem_put (r : Readings) (field : NamedField) (value : Int64) : field.offset ∈ (r.put field value).offsets :=
  mem_offsets_put.mpr (.inr rfl)

/-- Keeping a number changes the number of its own field and no other. -/
theorem get?_put (r : Readings) (field field' : NamedField) (value : Int64) :
    (r.put field value).get? field' = if field'.offset = field.offset then some value else r.get? field' := by
  rw [get?, get?]
  rcases r.put_cases field value with ⟨slot, hslot, hslots, hentries⟩ | ⟨hnone, hslots, hentries⟩
  · rw [hslots, hentries]
    by_cases hsame : field'.offset = field.offset
    · obtain ⟨e, he, -⟩ := entry_of_slot hslot
      simp [hsame, hslot, he]
    · rw [if_neg hsame]
      cases hk : r.slots.lookup field'.offset with
      | none => rfl
      | some k =>
        have hother : slot ≠ k := by
          rintro rfl
          obtain ⟨e, he, hoffset⟩ := entry_of_slot hslot
          obtain ⟨e', he', hoffset'⟩ := entry_of_slot hk
          obtain rfl : e = e' := by simpa [he] using he'
          exact hsame (hoffset'.symm.trans hoffset)
        simp [List.getElem?_modify, hother, Function.comp_def]
  · rw [hslots, hentries, List.lookup_cons]
    by_cases hsame : field'.offset = field.offset
    · simp [hsame]
    · have hother : (field'.offset == field.offset) = false := by simpa using hsame
      rw [if_neg hsame, hother]
      cases hk : r.slots.lookup field'.offset with
      | none => rfl
      | some k =>
        obtain ⟨e, he, -⟩ := entry_of_slot hk
        have hlt : k < r.entries.length := (List.getElem?_eq_some_iff.mp he).1
        simp [List.getElem?_append_left hlt]

end Readings
end LayoutScript
