import Mathlib.Data.List.Induction
import LayoutScript.Value.Json
import LayoutScript.Proofs.DraftSteps

/-! # The members of objects

The members of an object have different keys, so of two fields with one key the earlier one is
lost. Anonymous structures are merged into the structure around them, and positions start anew
in each of them: a field without a name may be overwritten by one at the same position of another
structure, and a named field by one of an anonymous structure behind it.
-/
namespace LayoutScript
namespace Json

/-- No key stands twice, and keys ascend. -/
def Ascending (members : List (String × Json)) : Prop := members.Pairwise (·.1 < ·.1)

variable {key : String} {value : Json} {members : List (String × Json)}

/-- The value of a key replaces the one that it had. -/
theorem mem_insertMember (h : Ascending members) (k : String) (v : Json) :
    (k, v) ∈ insertMember key value members ↔ k = key ∧ v = value ∨ k ≠ key ∧ (k, v) ∈ members := by
  induction members with
  | nil => simp [insertMember]
  | cons member members ih =>
    obtain ⟨key', value'⟩ := member
    obtain ⟨hfirst, hrest⟩ := List.pairwise_cons.mp h
    rw [insertMember]
    split
    · rename_i hlt
      have hbelow : ∀ m ∈ (key', value') :: members, m.1 ≠ key := by
        refine List.forall_mem_cons.mpr ⟨fun heq => String.lt_irrefl _ (heq ▸ hlt), fun m hm heq => ?_⟩
        have hless := String.lt_trans hlt (hfirst m hm)
        rw [heq] at hless
        exact String.lt_irrefl _ hless
      rw [List.mem_cons, Prod.mk.injEq]
      exact or_congr_right ⟨fun hm => ⟨hbelow _ hm, hm⟩, fun hm => hm.2⟩
    · split
      · rename_i heq
        subst heq
        have hbelow : ∀ m ∈ members, m.1 ≠ key := fun m hm heq => String.lt_irrefl key (heq ▸ hfirst m hm)
        rw [List.mem_cons, List.mem_cons, Prod.mk.injEq, Prod.mk.injEq]
        refine or_congr_right ⟨fun hm => ⟨hbelow _ hm, .inr hm⟩, ?_⟩
        rintro ⟨hne, ⟨heq, -⟩ | hm⟩
        · exact absurd heq hne
        · exact hm
      · rename_i hne
        rw [List.mem_cons, List.mem_cons, ih hrest, Prod.mk.injEq]
        constructor
        · rintro (⟨rfl, rfl⟩ | h | ⟨hk, hm⟩)
          · exact .inr ⟨fun heq => hne heq.symm, .inl ⟨rfl, rfl⟩⟩
          · exact .inl h
          · exact .inr ⟨hk, .inr hm⟩
        · rintro (h | ⟨hk, h | hm⟩)
          · exact .inr (.inl h)
          · exact .inl h
          · exact .inr (.inr ⟨hk, hm⟩)

theorem ascending_insertMember (h : Ascending members) : Ascending (insertMember key value members) := by
  induction members with
  | nil => exact List.pairwise_singleton _ _
  | cons member members ih =>
    obtain ⟨key', value'⟩ := member
    obtain ⟨hfirst, hrest⟩ := List.pairwise_cons.mp h
    rw [insertMember]
    split
    · rename_i hlt
      refine List.pairwise_cons.mpr ⟨List.forall_mem_cons.mpr ⟨hlt, fun m hm => ?_⟩, h⟩
      exact String.lt_trans hlt (hfirst m hm)
    · rename_i hnot
      split
      · rename_i heq
        exact List.pairwise_cons.mpr ⟨fun m hm => heq ▸ hfirst m hm, hrest⟩
      · rename_i hne
        have hlt : key' < key := by
          by_contra hnot'
          exact hne (String.le_antisymm (String.not_lt.mp hnot') (String.not_lt.mp hnot))
        refine List.pairwise_cons.mpr ⟨fun m hm => ?_, ih hrest⟩
        obtain ⟨k, v⟩ := m
        rcases (mem_insertMember hrest k v).mp hm with ⟨rfl, -⟩ | ⟨-, hm⟩
        · exact hlt
        · exact hfirst _ hm

theorem length_insertMember (h : Ascending members) :
    (insertMember key value members).length = members.length + if key ∈ members.map (·.1) then 0 else 1 := by
  induction members with
  | nil => rfl
  | cons member members ih =>
    obtain ⟨key', value'⟩ := member
    obtain ⟨hfirst, hrest⟩ := List.pairwise_cons.mp h
    rw [insertMember]
    split
    · rename_i hlt
      have hnew : key ∉ ((key', value') :: members).map (·.1) := by
        intro hmem
        obtain ⟨m, hm, rfl⟩ := List.mem_map.mp hmem
        rcases List.mem_cons.mp hm with rfl | hm
        · exact String.lt_irrefl _ hlt
        · exact String.lt_irrefl _ (String.lt_trans hlt (hfirst m hm))
      rw [if_neg hnew]
      rfl
    · split
      · rename_i heq
        rw [if_pos (heq ▸ List.mem_cons_self ..)]
        rfl
      · rename_i hne
        rw [List.length_cons, ih hrest, List.map_cons, List.length_cons, Nat.add_right_comm]
        congr 1
        simp only [List.mem_cons, hne, false_or]

/-- The members of an object by ascending key. -/
def sorted (members : List (String × Json)) : List (String × Json) :=
  members.foldl (fun sorted (key, value) => insertMember key value sorted) []

theorem sorted_concat (members : List (String × Json)) (key : String) (value : Json) :
    sorted (members ++ [(key, value)]) = insertMember key value (sorted members) := by
  rw [sorted, List.foldl_append]
  rfl

theorem ascending_sorted (members : List (String × Json)) : Ascending (sorted members) := by
  induction members using List.reverseRecOn with
  | nil => exact .nil
  | append_singleton members member ih => exact sorted_concat _ _ _ ▸ ascending_insertMember ih

/-- Of several members with one key the last counts. -/
theorem mem_sorted (members : List (String × Json)) (k : String) (v : Json) :
    (k, v) ∈ sorted members ↔
      ∃ before after, members = before ++ (k, v) :: after ∧ ∀ m ∈ after, m.1 ≠ k := by
  induction members using List.reverseRecOn with
  | nil =>
    constructor
    · nofun
    · rintro ⟨before, after, heq, -⟩
      exact absurd heq.symm (List.append_ne_nil_of_right_ne_nil _ (List.cons_ne_nil _ _))
  | append_singleton members member ih =>
    obtain ⟨key, value⟩ := member
    rw [sorted_concat, mem_insertMember (ascending_sorted members), ih]
    constructor
    · rintro (⟨rfl, rfl⟩ | ⟨hk, before, after, rfl, hafter⟩)
      · exact ⟨members, [], rfl, List.forall_mem_nil _⟩
      · refine ⟨before, after ++ [(key, value)], List.append_assoc _ _ _, ?_⟩
        exact List.forall_mem_append.mpr ⟨hafter, List.forall_mem_singleton.mpr fun heq => hk heq.symm⟩
    · rintro ⟨before, after, heq, hafter⟩
      cases after using List.reverseRecOn with
      | nil =>
        obtain ⟨-, hlast⟩ := List.append_inj' heq rfl
        cases hlast
        exact .inl ⟨rfl, rfl⟩
      | append_singleton after last =>
        rw [← List.cons_append, ← List.append_assoc] at heq
        obtain ⟨hfront, hlast⟩ := List.append_inj' heq rfl
        cases hlast
        obtain ⟨hafter, hlast⟩ := List.forall_mem_append.mp hafter
        exact .inr ⟨fun heq => hlast _ (List.mem_singleton_self _) heq.symm, before, after, hfront, hafter⟩

/-- No key is lost. -/
theorem mem_keys_sorted (members : List (String × Json)) (k : String) :
    k ∈ (sorted members).map (·.1) ↔ k ∈ members.map (·.1) := by
  induction members using List.reverseRecOn with
  | nil => exact Iff.rfl
  | append_singleton members member ih =>
    obtain ⟨key, value⟩ := member
    have hmem (ms : List (String × Json)) : k ∈ ms.map (·.1) ↔ ∃ v, (k, v) ∈ ms := by
      simp only [List.mem_map, Prod.exists, exists_and_right, exists_eq_right]
    rw [hmem] at ih
    rw [List.map_append, List.mem_append, ← ih, hmem, sorted_concat]
    simp only [mem_insertMember (ascending_sorted members)]
    by_cases hk : k = key
    · subst hk
      exact ⟨fun _ => .inr (List.mem_singleton_self _), fun _ => ⟨value, .inl ⟨rfl, rfl⟩⟩⟩
    · simp [hk]

/-- No member is lost where all keys are different, and one is lost wherever two are the same. -/
theorem length_sorted (members : List (String × Json)) :
    (sorted members).length ≤ members.length ∧
      ((sorted members).length = members.length ↔ (members.map (·.1)).Nodup) := by
  induction members using List.reverseRecOn with
  | nil => exact ⟨Nat.le_refl _, fun _ => .nil, fun _ => rfl⟩
  | append_singleton members member ih =>
    obtain ⟨key, value⟩ := member
    obtain ⟨hle, hsame⟩ := ih
    have hlength : (sorted (members ++ [(key, value)])).length =
        (sorted members).length + if key ∈ members.map (·.1) then 0 else 1 := by
      rw [sorted_concat, length_insertMember (ascending_sorted members)]
      simp only [mem_keys_sorted]
    rw [hlength, List.length_append, List.length_singleton, List.map_append, List.map_singleton]
    by_cases hkey : key ∈ members.map (·.1)
    · rw [if_pos hkey]
      refine ⟨by omega, fun heq => absurd heq (by omega), fun hnodup => ?_⟩
      exact absurd (List.mem_singleton_self key) ((List.nodup_append.mp hnodup).2.2 key hkey key · rfl)
    · rw [if_neg hkey]
      refine ⟨by omega, fun heq => ?_, fun hnodup => ?_⟩
      · refine List.nodup_append.mpr ⟨hsame.mp (by omega), List.pairwise_singleton _ _, ?_⟩
        rintro k hk k' hk' rfl
        rw [List.mem_singleton.mp hk'] at hk
        exact hkey hk
      · have hbefore := hsame.mpr (List.nodup_append.mp hnodup).1
        omega

end Json

/-- A field of a structure after the anonymous structures in it have been merged. -/
structure MergedField where
  /-- The positions of the anonymous structures around the field, the outermost first. -/
  around : List Nat
  /-- The position in the structure in which the field was read. -/
  position : Nat
  info : Option NamedField
  value : Value

namespace MergedField

/-- The key of a field in the object of its structure. -/
def key (f : MergedField) : String :=
  match f.info with
  | some info => info.name
  | none => "_" ++ toString f.position

def member (f : MergedField) : String × Json := (f.key, f.value.toJson)

end MergedField

mutual

/-- The fields of a structure inside anonymous structures. -/
def Record.mergedIn (around : List Nat) : Record → List MergedField
  | ⟨fields⟩ => mergedFrom around 0 fields

def Field.mergedIn (around : List Nat) (position : Nat) : Field → List MergedField
  | ⟨none, .record r⟩ => r.mergedIn (around ++ [position])
  | ⟨info, value⟩ => [⟨around, position, info, value⟩]

/-- The fields from a position on. -/
def mergedFrom (around : List Nat) (position : Nat) : List Field → List MergedField
  | [] => []
  | f :: rest => f.mergedIn around position ++ mergedFrom around (position + 1) rest

end

/-- The fields of a structure, with those of anonymous structures in their place. -/
def Record.merged (r : Record) : List MergedField := r.mergedIn []

mutual

theorem Record.members_eq (around : List Nat) : (r : Record) →
    r.members = (r.mergedIn around).map (·.member)
  | ⟨fields⟩ => by
    rw [Record.members, Record.mergedIn]
    exact membersFrom_eq around 0 fields

theorem membersFrom_eq (around : List Nat) (position : Nat) : (fields : List Field) →
    membersFrom position fields = (mergedFrom around position fields).map (·.member)
  | [] => rfl
  | ⟨some info, value⟩ :: rest => by
    rw [membersFrom, mergedFrom, List.map_append, membersFrom_eq around (position + 1) rest]
    rfl
  | ⟨none, .record r⟩ :: rest => by
    rw [membersFrom, mergedFrom, List.map_append, Record.members_eq (around ++ [position]) r,
      membersFrom_eq around (position + 1) rest]
    rfl
  | ⟨none, .scalar type value⟩ :: rest | ⟨none, .array type values⟩ :: rest | ⟨none, .text text⟩ :: rest
  | ⟨none, .records items⟩ :: rest => by
    rw [membersFrom, mergedFrom, List.map_append, membersFrom_eq around (position + 1) rest]
    · rfl
    · nofun

end

/-! ## Where merged fields stand -/

mutual

theorem Record.around_prefix {around : List Nat} {g : MergedField} :
    (r : Record) → g ∈ r.mergedIn around → around <+: g.around
  | ⟨fields⟩, hg => around_prefix_mergedFrom fields hg

theorem Field.around_prefix {around : List Nat} {position : Nat} {g : MergedField} :
    (f : Field) → g ∈ f.mergedIn around position → around <+: g.around
  | ⟨some _, _⟩, hg | ⟨none, .scalar _ _⟩, hg | ⟨none, .array _ _⟩, hg | ⟨none, .text _⟩, hg
  | ⟨none, .records _⟩, hg => by
    obtain rfl := List.mem_singleton.mp hg
    exact List.prefix_refl _
  | ⟨none, .record r⟩, hg => (List.prefix_append around [position]).trans (Record.around_prefix r hg)

theorem around_prefix_mergedFrom {around : List Nat} {position : Nat} {g : MergedField} :
    (fields : List Field) → g ∈ mergedFrom around position fields → around <+: g.around
  | [], hg => by cases hg
  | f :: rest, hg => by
    rcases List.mem_append.mp hg with hg | hg
    · exact Field.around_prefix f hg
    · exact around_prefix_mergedFrom rest hg

end

/-- A merged field is that field itself, or it is in an anonymous structure there. -/
theorem Field.place {around : List Nat} {position : Nat} {g : MergedField} (f : Field)
    (hg : g ∈ f.mergedIn around position) :
    g.around = around ∧ g.position = position ∧ g.info = f.info ∨ around ++ [position] <+: g.around := by
  obtain ⟨_ | info, value⟩ := f
  · cases value with
    | record r => exact .inr (r.around_prefix hg)
    | scalar | array | text | records =>
      obtain rfl := List.mem_singleton.mp hg
      exact .inl ⟨rfl, rfl, rfl⟩
  · obtain rfl := List.mem_singleton.mp hg
    exact .inl ⟨rfl, rfl, rfl⟩

theorem place_mergedFrom {around : List Nat} {position : Nat} {g : MergedField} {fields : List Field}
    (hg : g ∈ mergedFrom around position fields) :
    ∃ p, position ≤ p ∧ (g.around = around ∧ g.position = p ∨ around ++ [p] <+: g.around) := by
  induction fields generalizing position with
  | nil => cases hg
  | cons f rest ih =>
    rcases List.mem_append.mp hg with hg | hg
    · rcases f.place hg with ⟨haround, hposition, -⟩ | hinside
      · exact ⟨position, Nat.le_refl _, .inl ⟨haround, hposition⟩⟩
      · exact ⟨position, Nat.le_refl _, .inr hinside⟩
    · obtain ⟨p, hp, hplace⟩ := ih hg
      exact ⟨p, by omega, hplace⟩

theorem not_inside_self {around : List Nat} {p : Nat} : ¬ around ++ [p] <+: around := by
  intro h
  have hlength := h.length_le
  rw [List.length_append, List.length_singleton] at hlength
  omega

/-- What is inside different structures of one list is at different places. -/
theorem not_inside_both {around inner : List Nat} {p q : Nat} (hp : around ++ [p] <+: inner)
    (hq : around ++ [q] <+: inner) : p = q := by
  obtain ⟨more, rfl⟩ := hp
  rw [List.append_assoc, List.prefix_append_right_inj] at hq
  exact (List.cons_prefix_cons.mp hq).1.symm

/-! ## Names that differ -/

mutual

/-- The names that a structure lends to the one around it if it has none itself. -/
def Record.lent : Record → List String
  | ⟨fields⟩ => lentFields fields

def Field.lent : Field → List String
  | ⟨some info, _⟩ => [info.name]
  | ⟨none, .record r⟩ => r.lent
  | ⟨none, .scalar _ _⟩ | ⟨none, .array _ _⟩ | ⟨none, .text _⟩ | ⟨none, .records _⟩ => []

def lentFields : List Field → List String
  | [] => []
  | f :: rest => f.lent ++ lentFields rest

end

mutual

def Value.Distinct : Value → Prop
  | .record r => r.Distinct
  | .records items => DistinctItems items
  | .scalar _ _ | .array _ _ | .text _ => True

/-- In the structure and all structures in it, a name differs from all that stand before it, also
in anonymous structures. -/
def Record.Distinct : Record → Prop
  | ⟨fields⟩ => DistinctFrom [] fields

def Field.Distinct (before : List String) : Field → Prop
  | ⟨info, value⟩ => (∀ f, info = some f → f.name ∉ before) ∧ value.Distinct

/-- The names of the fields differ from all names before them. -/
def DistinctFrom (before : List String) : List Field → Prop
  | [] => True
  | f :: rest => f.Distinct before ∧ DistinctFrom (before ++ f.lent) rest

def DistinctItems : List Record → Prop
  | [] => True
  | item :: items => item.Distinct ∧ DistinctItems items

end

theorem Record.distinct_iff {r : Record} : r.Distinct ↔ DistinctFrom [] r.fields := by
  cases r
  exact Iff.rfl

theorem Field.distinct_iff {before : List String} {f : Field} :
    f.Distinct before ↔ (∀ info, f.info = some info → info.name ∉ before) ∧ f.value.Distinct := by
  cases f
  exact Iff.rfl

mutual

theorem Record.mem_lent {around : List Nat} {g : MergedField} {info : NamedField} (hinfo : g.info = some info) :
    (r : Record) → g ∈ r.mergedIn around → info.name ∈ r.lent
  | ⟨fields⟩, hg => mem_lentFields hinfo fields hg

theorem Field.mem_lent {around : List Nat} {position : Nat} {g : MergedField} {info : NamedField}
    (hinfo : g.info = some info) : (f : Field) → g ∈ f.mergedIn around position → info.name ∈ f.lent
  | ⟨some _, _⟩, hg => by
    obtain rfl := List.mem_singleton.mp hg
    cases hinfo
    exact List.mem_singleton_self _
  | ⟨none, .scalar _ _⟩, hg | ⟨none, .array _ _⟩, hg | ⟨none, .text _⟩, hg | ⟨none, .records _⟩, hg => by
    obtain rfl := List.mem_singleton.mp hg
    cases hinfo
  | ⟨none, .record r⟩, hg => Record.mem_lent hinfo r hg

theorem mem_lentFields {around : List Nat} {position : Nat} {g : MergedField} {info : NamedField}
    (hinfo : g.info = some info) : (fields : List Field) → g ∈ mergedFrom around position fields →
      info.name ∈ lentFields fields
  | [], hg => by cases hg
  | f :: rest, hg => by
    rcases List.mem_append.mp hg with hg | hg
    · exact List.mem_append_left _ (Field.mem_lent hinfo f hg)
    · exact List.mem_append_right _ (mem_lentFields hinfo rest hg)

end

/-- The names of a structure itself differ from those before its fields. -/
theorem DistinctFrom.not_mem {before : List String} {around : List Nat} {position : Nat} {g : MergedField}
    {info : NamedField} {fields : List Field} (h : DistinctFrom before fields)
    (hg : g ∈ mergedFrom around position fields) (haround : g.around = around) (hinfo : g.info = some info) :
    info.name ∉ before := by
  induction fields generalizing before position with
  | nil => cases hg
  | cons f rest ih =>
    obtain ⟨hf, hrest⟩ := h
    rcases List.mem_append.mp hg with hg | hg
    · rcases f.place hg with ⟨-, -, hsame⟩ | hinside
      · exact (Field.distinct_iff.mp hf).1 info (hsame ▸ hinfo)
      · exact absurd (haround ▸ hinside) not_inside_self
    · exact fun hbefore => ih hrest hg (List.mem_append_left _ hbefore)

namespace MergedField

/-- The field takes the key of the field `f` before it. -/
def Overwrites (g f : MergedField) : Prop :=
  match g.info, f.info with
  | some info, some info' => info.name = info'.name ∧ ¬ g.around <+: f.around
  | some info, none => info.name = "_" ++ toString f.position
  | none, some info' => info'.name = "_" ++ toString g.position
  | none, none => g.position = f.position ∧ g.around ≠ f.around

/-- The fields are at different places, and a name does not stand twice in one structure, even where
the structure is merged into another. -/
structure Apart (f g : MergedField) : Prop where
  place : g.around = f.around → g.position ≠ f.position
  name : ∀ info info', g.info = some info → f.info = some info' → info.name = info'.name → ¬ g.around <+: f.around

end MergedField

theorem toString_inj {m n : Nat} : toString m = toString n ↔ m = n := by
  refine ⟨fun h => ?_, congrArg _⟩
  have hdigits := congrArg String.toList h
  rw [Nat.toString_eq_ofList_toDigits, Nat.toString_eq_ofList_toDigits, String.toList_ofList, String.toList_ofList] at hdigits
  rw [← Nat.ofDigitChars_ten_toDigits (n := m), hdigits, Nat.ofDigitChars_ten_toDigits]

/-- A field is overwritten by those behind it that have its key. -/
theorem MergedField.Apart.overwrites_iff {f g : MergedField} (h : Apart f g) : g.Overwrites f ↔ g.key = f.key := by
  rw [Overwrites, key, key]
  cases hg : g.info with
  | some info =>
    cases hf : f.info with
    | some info' => exact and_iff_left_of_imp (h.name info info' hg hf)
    | none => exact Iff.rfl
  | none =>
    cases hf : f.info with
    | some info' => exact eq_comm
    | none =>
      dsimp only
      rw [String.append_right_inj, toString_inj]
      exact and_iff_left_of_imp fun hposition haround => h.place haround hposition

mutual

theorem Record.pairwise_mergedIn (around : List Nat) : (r : Record) → r.Distinct →
    (r.mergedIn around).Pairwise MergedField.Apart
  | ⟨fields⟩, h => pairwise_mergedFrom around 0 fields h

theorem Field.pairwise_mergedIn (around : List Nat) (position : Nat) {before : List String} :
    (f : Field) → f.Distinct before → (f.mergedIn around position).Pairwise MergedField.Apart
  | ⟨some _, _⟩, _ | ⟨none, .scalar _ _⟩, _ | ⟨none, .array _ _⟩, _ | ⟨none, .text _⟩, _ | ⟨none, .records _⟩, _ =>
    List.pairwise_singleton _ _
  | ⟨none, .record r⟩, h => Record.pairwise_mergedIn (around ++ [position]) r h.2

theorem pairwise_mergedFrom (around : List Nat) (position : Nat) {before : List String} :
    (fields : List Field) → DistinctFrom before fields →
      (mergedFrom around position fields).Pairwise MergedField.Apart
  | [], _ => .nil
  | f :: rest, h => by
    obtain ⟨hf, hrest⟩ := h
    refine List.pairwise_append.mpr ⟨Field.pairwise_mergedIn around position f hf,
      pairwise_mergedFrom around (position + 1) rest hrest, fun a ha b hb => ?_⟩
    obtain ⟨p, hp, hplace⟩ := place_mergedFrom hb
    have hfirst := f.place ha
    have hinside (hb : around ++ [p] <+: b.around) : ¬ b.around <+: a.around := by
      intro hprefix
      have ha := hb.trans hprefix
      rcases hfirst with ⟨haround, -⟩ | ha'
      · exact not_inside_self (haround ▸ ha)
      · have hsame := not_inside_both ha ha'
        omega
    constructor
    · intro haround hposition
      rcases hplace with ⟨hown, rfl⟩ | hb
      · rcases hfirst with ⟨-, hfirst, -⟩ | ha
        · omega
        · exact not_inside_self (haround.symm.trans hown ▸ ha)
      · exact hinside hb (haround ▸ List.prefix_refl _)
    · intro info info' hinfo hinfo' hname hprefix
      rcases hplace with ⟨hown, -⟩ | hb'
      · have hnew := hrest.not_mem hb hown hinfo
        rw [hname] at hnew
        exact hnew (List.mem_append_right _ (f.mem_lent hinfo' ha))
      · exact hinside hb' hprefix

end

/-- The object of a structure has the fields that are not overwritten by those behind them, and it
has all of them if none is. -/
theorem Record.toJson_members {r : Record} (h : r.Distinct) :
    ∃ members, r.toJson = .object members ∧ members.Pairwise (·.1 < ·.1) ∧
      (∀ key value, (key, value) ∈ members ↔ ∃ before f after, r.merged = before ++ f :: after ∧
        f.key = key ∧ f.value.toJson = value ∧ ∀ g ∈ after, ¬ g.Overwrites f) ∧
      (members.length = r.merged.length ↔ r.merged.Pairwise fun f g => ¬ g.Overwrites f) := by
  have hpairwise : r.merged.Pairwise MergedField.Apart := Record.pairwise_mergedIn [] r h
  have hmembers : r.members = r.merged.map (·.member) := Record.members_eq [] r
  have hbehind {before after : List MergedField} {f : MergedField} (heq : r.merged = before ++ f :: after) :
      (∀ g ∈ after, ¬ g.Overwrites f) ↔ ∀ m ∈ after.map (·.member), m.1 ≠ f.key := by
    rw [heq] at hpairwise
    have hafter := (List.pairwise_cons.mp (List.pairwise_append.mp hpairwise).2.1).1
    rw [List.forall_mem_map]
    exact forall₂_congr fun g hg => not_congr (hafter g hg).overwrites_iff
  refine ⟨Json.sorted r.members, rfl, Json.ascending_sorted _, fun key value => ?_, ?_⟩
  · rw [Json.mem_sorted, hmembers]
    constructor
    · rintro ⟨before, after, heq, hafter⟩
      obtain ⟨front, back, hmerged, rfl, hback⟩ := List.map_eq_append_iff.mp heq
      obtain ⟨f, back, rfl, hf, rfl⟩ := List.map_eq_cons_iff.mp hback
      obtain ⟨rfl, rfl⟩ := Prod.mk.inj hf
      exact ⟨front, f, back, hmerged, rfl, rfl, (hbehind hmerged).mpr hafter⟩
    · rintro ⟨before, f, after, heq, rfl, rfl, hafter⟩
      refine ⟨before.map (·.member), after.map (·.member), ?_, (hbehind heq).mp hafter⟩
      rw [heq, List.map_append, List.map_cons]
      rfl
  · have hlength := (Json.length_sorted r.members).2
    rw [hmembers, List.length_map, List.map_map] at hlength
    rw [hmembers, hlength, List.Nodup, List.pairwise_map]
    constructor
    · intro hnodup
      exact (hpairwise.and hnodup).imp fun h hover => h.2 (h.1.overwrites_iff.mp hover).symm
    · intro hkept
      exact (hpairwise.and hkept).imp fun h hkey => h.2 (h.1.overwrites_iff.mpr hkey.symm)

end LayoutScript
