import LayoutScript.Text.Quoted
import LayoutScript.Text.Ascii

/-! # Readings of named fields

While an input is read, the last number read for each named field is kept. A field is known
by the offset of its instruction; its entry keeps the place of its first reading, and a later
reading replaces the number alone.
-/
namespace LayoutScript

structure NamedField where
  /-- Names of the enclosing structures and its own, joined by dots. -/
  path : String
  name : String
  /-- Offset of the instruction. -/
  offset : Nat
deriving DecidableEq

namespace NamedField

def lastName (path : String) : String :=
  String.ofList (path.toList.reverse.takeWhile (· != '.')).reverse

def ofPath (path : String) (offset : Nat) : NamedField := ⟨path, lastName path, offset⟩

/-- The declaration as a member of the structure `owner`. -/
def within (owner : String) (f : NamedField) : NamedField :=
  { f with path := owner ++ "." ++ f.path }

end NamedField

structure Reading where
  field : NamedField
  value : Int64
deriving DecidableEq

/-- The slots tell where the entry of an offset stands, for all offsets that have one. -/
def Coherent (entries : List Reading) (slots : List (Nat × Nat)) : Prop :=
  ∀ offset slot, slots.lookup offset = some slot ↔ entries[slot]?.map (·.field.offset) = some offset

namespace Coherent
variable {entries : List Reading} {slots : List (Nat × Nat)}

theorem nil : Coherent [] [] := by simp [Coherent]

/-- An offset with a slot keeps it when its number changes. -/
theorem modify (h : Coherent entries slots) (slot : Nat) (value : Int64) :
    Coherent (entries.modify slot fun e => { e with value }) slots := by
  intro offset k
  rw [h offset k, List.getElem?_modify]
  by_cases hk : slot = k <;> cases entries[k]? <;> simp [hk]

/-- An offset without a slot gets the one behind the last entry. -/
theorem append (h : Coherent entries slots) {field : NamedField} (hnew : slots.lookup field.offset = none) (value : Int64) :
    Coherent (entries ++ [⟨field, value⟩]) ((field.offset, entries.length) :: slots) := by
  intro offset k
  have hold := h offset k
  rw [List.lookup_cons, List.getElem?_append]
  by_cases hoffset : offset = field.offset
  · -- No entry before the new one has this offset, since none has a slot.
    rw [hoffset, hnew] at hold
    rcases Nat.lt_trichotomy k entries.length with hk | rfl | hk
    · simp_all [Nat.ne_of_gt hk]
    · simp [hoffset]
    · have hbehind : k - entries.length ≠ 0 := by omega
      simp [hoffset, Nat.not_lt_of_lt hk, Nat.ne_of_lt hk, hbehind]
  · have hother : (offset == field.offset) = false := by simpa using hoffset
    rw [hother, hold]
    split
    · rfl
    · rename_i hk
      rw [List.getElem?_eq_none (by omega)]
      cases k - entries.length <;> simp [Ne.symm hoffset]

end Coherent

/-- The readings so far, in the order of the first reading of each field, with an index to them. -/
structure Readings where
  entries : List Reading := []
  /-- Offsets of fields with the places of their entries. -/
  slots : List (Nat × Nat) := []
  coherent : Coherent entries slots := by exact .nil
deriving DecidableEq

namespace Readings

def put (r : Readings) (field : NamedField) (value : Int64) : Readings :=
  match h : r.slots.lookup field.offset with
  | some slot => ⟨r.entries.modify slot fun e => { e with value }, r.slots, r.coherent.modify slot value⟩
  | none => ⟨r.entries ++ [⟨field, value⟩], (field.offset, r.entries.length) :: r.slots, r.coherent.append h value⟩

/-- A field with a slot gets another number, any other field an entry of its own. -/
theorem put_cases (r : Readings) (field : NamedField) (value : Int64) :
    (∃ slot, r.slots.lookup field.offset = some slot ∧ (r.put field value).slots = r.slots ∧
      (r.put field value).entries = r.entries.modify slot fun e => { e with value }) ∨
    (r.slots.lookup field.offset = none ∧ (r.put field value).slots = (field.offset, r.entries.length) :: r.slots ∧
      (r.put field value).entries = r.entries ++ [⟨field, value⟩]) := by
  unfold put
  split
  · rename_i slot h
    exact .inl ⟨slot, h, rfl, rfl⟩
  · rename_i h
    exact .inr ⟨h, rfl, rfl⟩

def get? (r : Readings) (field : NamedField) : Option Int64 :=
  (r.slots.lookup field.offset).bind fun slot => r.entries[slot]?.map (·.value)

/-- The last number read for the first field with the given path, in any case. -/
def getPath? (r : Readings) (path : String) : Option Int64 :=
  (r.entries.find? (sameName path ·.field.path)).map (·.value)

def clear (_ : Readings) : Readings := {}

def size (r : Readings) : Nat := r.entries.length

def render (r : Readings) : String :=
  "\x7b" ++ ", ".intercalate (r.entries.map fun e => quoted e.field.path ++ ": " ++ toString e.value.toInt)
    ++ "\x7d"

end Readings
end LayoutScript
