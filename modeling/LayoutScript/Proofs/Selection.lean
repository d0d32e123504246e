import LayoutScript.Proofs.Limits
import LayoutScript.Proofs.NamedPaths
import LayoutScript.Proofs.PathText
import LayoutScript.Value.Lookup

/-! # Selecting what was read

A value that is reached from the root of a field tree through names alone has a path: the names on
the way there, with the indices of elements behind the names of their arrays. Selecting takes the
first member of a name, and that is the one on the way because the names of a structure differ.
-/
namespace LayoutScript

/-! ## Names of fields -/

/-- A name as declarations keep it. -/
structure IsFieldName (name : String) : Prop where
  folded : foldCase name = name
  nonempty : name.toList ≠ []
  chars : ∀ c ∈ name.toList, isNameChar c = true

theorem isFieldName_foldCase {customTypes : List String} {name : String}
    (h : brokenNameRule customTypes name.toList = none) : IsFieldName (foldCase name) where
  folded := foldCase_foldCase name
  nonempty := by
    rw [toList_foldCase]
    exact mt List.map_eq_nil_iff.mp (Token.isIdentifier_spec (Token.isIdentifier_of_brokenNameRule h)).1
  chars := isNameChar_foldCase h

/-- Tokens that can be written declare names in lower case. -/
theorem Traced.fieldNames {custom : Option CustomTypes} {ts : List Token} {d : Draft} {o : Outline}
    {customTypes : List String} (h : Traced custom ts d o) (hwritten : ∀ t ∈ ts, t.declared.Written customTypes) :
    ∀ head ∈ o.heads, ∀ info ∈ head.info, IsFieldName info.name := by
  have hdeclared {head : Head} {owners : List String} {name : Option String}
      (hinfo : head.info = name.map (.inside owners · head.offset))
      (hname : ∀ n ∈ name, brokenNameRule customTypes n.toList = none) : ∀ info ∈ head.info, IsFieldName info.name := by
    intro info hsome
    rw [hinfo] at hsome
    obtain ⟨n, hn, rfl⟩ := Option.map_eq_some_iff.mp hsome
    exact isFieldName_foldCase (hname n hn)
  induction h with
  | start => exact List.forall_mem_nil _
  | comment _ _ ih => exact ih (List.forall_mem_append.mp hwritten).1
  | field _ ht hh ih =>
    obtain ⟨hbefore, hlast⟩ := List.forall_mem_append.mp hwritten
    have hparts := List.forall_mem_singleton.mp hlast
    rw [ht] at hparts
    rw [Outline.heads_put]
    refine List.forall_mem_append.mpr ⟨ih hbefore, List.forall_mem_singleton.mpr ?_⟩
    exact hdeclared (Draft.fieldHead_info hh) hparts.2.2
  | opening _ ht hh ih =>
    obtain ⟨hbefore, hlast⟩ := List.forall_mem_append.mp hwritten
    have hparts := List.forall_mem_singleton.mp hlast
    rw [ht] at hparts
    rw [Outline.heads_enter]
    refine List.forall_mem_append.mpr ⟨ih hbefore, List.forall_mem_singleton.mpr ?_⟩
    exact hdeclared (Draft.structureHead_info hh) hparts.2
  | closing _ _ _ ih =>
    rw [Outline.heads_leave]
    exact ih (List.forall_mem_append.mp hwritten).1

/-! ## All fields of a tree -/

theorem mem_allFieldsOf {g : Field} {fields : List Field} :
    g ∈ allFieldsOf fields ↔ ∃ f ∈ fields, g = f ∨ g ∈ f.value.allFields := by
  induction fields with
  | nil => simp [allFieldsOf]
  | cons f fields ih =>
    obtain ⟨info, value⟩ := f
    rw [allFieldsOf, List.mem_cons, List.mem_append, ih, List.exists_mem_cons_iff, or_assoc]

theorem mem_allFieldsOfItems {g : Field} {items : List Record} :
    g ∈ allFieldsOfItems items ↔ ∃ item ∈ items, g ∈ allFieldsOf item.fields := by
  induction items with
  | nil => simp [allFieldsOfItems]
  | cons item items ih =>
    obtain ⟨fields⟩ := item
    simp only [allFieldsOfItems, Record.allFields, List.mem_append, ih, List.exists_mem_cons_iff]

theorem Value.Flat.allFields {v : Value} (h : v.Flat) : v.allFields = [] := by
  cases v with
  | scalar | array | text => rfl
  | record | records => exact h.elim

theorem Record.Holds.allFields_subset {tree r : Record} (h : tree.Holds r) : allFieldsOf r.fields ⊆ allFieldsOf tree.fields := by
  induction h with
  | self => exact List.Subset.refl _
  | @member r inner info _ hf ih =>
    refine List.Subset.trans (fun g hg => ?_) ih
    obtain ⟨fields⟩ := inner
    exact mem_allFieldsOf.mpr ⟨_, hf, .inr hg⟩
  | @element r inner info items _ hf hi ih =>
    refine List.Subset.trans (fun g hg => ?_) ih
    exact mem_allFieldsOf.mpr ⟨_, hf, .inr (mem_allFieldsOfItems.mpr ⟨inner, hi, hg⟩)⟩

section reading
variable {σ : Type} [BitSource σ] {s : Setting σ} {Q : Field → Prop}

open Declaration

/-- Declarations whose fields satisfy `Q`, as long as their values are no arrays of too many elements. -/
structure Head.Gives (Q : Field → Prop) (limit : Nat) (h : Head) : Prop where
  plain : h.Plain
  field : ∀ v : Value, v.atMost limit = true → Q ⟨h.info, v⟩

theorem Head.Gives.returns_readSingle {h : Head} (hh : h.Gives Q s.options.maxElements)
    (hformed : h.kind ≠ .opening ∧ h.kind ≠ .closing) {q : Request} (hcount : q.count.atMost s.options.maxElements) :
    Returns (fun y => ∀ g ∈ allFieldsOf y.fields, Q g) (h.readSingle s q) := by
  refine ((Head.returns_readSingle hh.plain q).and (Head.returns_readSingle_shows hcount)).imp ?_
  rintro ⟨_, halted⟩ ⟨rfl | ⟨v, hflat, rfl⟩, hshows⟩ g hg
  · cases hg
  obtain ⟨f, hf, hg⟩ := mem_allFieldsOf.mp hg
  obtain rfl := List.mem_singleton.mp hf
  rw [hflat.allFields] at hg
  obtain rfl := hg.resolve_right List.not_mem_nil
  apply hh.field
  rw [Declaration.Shows, Declaration.isModifier] at hshows
  split at hshows
  · cases hshows
  rename_i hmodifier
  rcases hshows with ⟨-, hnone⟩ | ⟨f, hone, hwithin⟩
  · cases hnone
  cases hone
  rw [Declaration.within] at hwithin
  have hscalar : h.kind.isScalar = true := by
    cases hk : h.kind with
    | bit | whole => rfl
    | align | skip | restart => exact absurd (hk ▸ rfl) hmodifier
    | opening => exact absurd hk hformed.1
    | closing => exact absurd hk hformed.2
    | var => exact absurd hk hh.plain.1
    | custom => exact absurd hk hh.plain.2
  rw [hscalar] at hwithin
  exact hwithin

mutual

theorem returns_read_fields : (d : Declaration) → d.Formed (Head.Gives Q s.options.maxElements) → ∀ depth : Nat,
    Returns (fun y => ∀ g ∈ allFieldsOf y.fields, Q g) (d.read s depth)
  | .single h, hf, depth => by
    rw [Declaration.read]
    refine h.returns_enter.bind fun q? hq => ?_
    cases q? with
    | none => exact .of_pure (List.forall_mem_nil _)
    | some q => exact hf.1.returns_readSingle hf.2 (hq q rfl)
  | .nested h members, hf, depth => by
    rw [Declaration.read]
    refine h.returns_enter.bind fun q? hq => ?_
    cases q? with
    | none => exact .of_pure (List.forall_mem_nil _)
    | some q =>
      dsimp only
      split
      · exact .of_throw _
      have hmembers := returns_readAll_fields members hf.2.2 (depth + 1)
      have hshape := returns_readElements (P := fun fields => ∀ g ∈ allFieldsOf fields, Q g) hmembers s.options q.count
      have hlength := returns_readElements_within (p := fun _ => true) (hmembers.imp fun _ _ => rfl) (hq q rfl)
      refine (hshape.and hlength).bind fun x hx => .of_pure fun g hg => ?_
      obtain ⟨f, hf', hg⟩ := mem_allFieldsOf.mp hg
      obtain rfl := List.mem_singleton.mp hf'
      obtain ⟨hshape, hatMost⟩ := hx
      rcases hg with rfl | hg
      · exact hf.1.field _ (Bool.and_eq_true_iff.mp hatMost).1
      rcases hshape with ⟨fields, hfields, hx⟩ | ⟨items, hitems, hx⟩
      · rw [hx] at hg
        exact hfields g hg
      · rw [hx] at hg
        obtain ⟨item, hitem, hg⟩ := mem_allFieldsOfItems.mp hg
        exact hitems item hitem g hg

theorem returns_readAll_fields : (ds : List Declaration) → FormedAll (Head.Gives Q s.options.maxElements) ds → ∀ depth : Nat,
    Returns (fun y => ∀ g ∈ allFieldsOf y.fields, Q g) (readAll s depth ds)
  | [], _, _ => by
    rw [readAll]
    exact .of_pure (List.forall_mem_nil _)
  | d :: ds, hf, depth => by
    rw [readAll]
    refine (returns_read_fields d hf.1 depth).bind fun first hfirst => ?_
    split
    · exact .of_pure hfirst
    refine (returns_readAll_fields ds hf.2 depth).bind fun rest hrest => .of_pure fun g hg => ?_
    obtain ⟨f, hf', hg⟩ := mem_allFieldsOf.mp hg
    rcases List.mem_append.mp hf' with hf' | hf'
    · exact hfirst g (mem_allFieldsOf.mpr ⟨f, hf', hg⟩)
    · exact hrest g (mem_allFieldsOf.mpr ⟨f, hf', hg⟩)

end

end reading

/-! ## Ways through a tree -/

/-- The values of a tree that are reached from its root through named fields, with the texts of the ways
there: names joined by dots, and the indices of elements in brackets. -/
inductive Record.Reaches (tree : Record) : String → Value → Prop where
  | member {f : Field} {info : NamedField} (hf : f ∈ tree.fields) (hinfo : f.info = some info) :
    Reaches tree info.name f.value
  | inside {text : String} {inner : Record} {f : Field} {info : NamedField} (h : Reaches tree text (.record inner))
    (hf : f ∈ inner.fields) (hinfo : f.info = some info) : Reaches tree (text ++ "." ++ info.name) f.value
  | element {text : String} {v w : Value} {i : Nat} (h : Reaches tree text v) (hw : v.element? i = some w) :
    Reaches tree (text ++ "[" ++ toString i ++ "]") w

/-- What a member is selected by is its name, up to case. -/
theorem Value.step?_field {v w : Value} {name : String} (h : v.step? (.field name) = some w) :
    ∃ r f info, v = .record r ∧ f ∈ r.fields ∧ f.info = some info ∧ foldCase info.name = foldCase name ∧ f.value = w := by
  cases v with
  | record r =>
    obtain ⟨f, hf, rfl⟩ := Option.map_eq_some_iff.mp h
    have hname := List.find?_some hf
    obtain ⟨_ | info, value⟩ := f
    · cases hname
    · exact ⟨r, _, info, rfl, List.mem_of_find?_eq_some hf, rfl, (sameName_iff.mp hname).symm, rfl⟩
  | scalar | array | text | records => cases h

/-- What is selected from a value that is reached is reached as well. -/
theorem Record.Reaches.selected {tree : Record} {steps : List PathStep} {text : String} {v w : Value}
    (h : tree.Reaches text v) (hw : steps.foldlM Value.step? v = some w) :
    ∃ text', tree.Reaches text' w ∧
      foldCase text' = foldCase (text ++ String.join (steps.map FieldPath.renderStep)) := by
  induction steps generalizing text v with
  | nil =>
    cases hw
    exact ⟨text, h, by rw [List.map_nil, String.join_nil, String.append_empty]⟩
  | cons step steps ih =>
    rw [List.map_cons, String.join_cons, ← String.append_assoc, foldCase_append]
    obtain ⟨next, hnext, hrest⟩ := Option.bind_eq_some_iff.mp hw
    cases step with
    | field name =>
      obtain ⟨r, f, info, rfl, hf, hinfo, hname, rfl⟩ := Value.step?_field hnext
      obtain ⟨text', hreaches, hsame⟩ := ih (.inside h hf hinfo) hrest
      refine ⟨text', hreaches, ?_⟩
      rw [hsame, FieldPath.renderStep]
      simp only [foldCase_append, hname, String.append_assoc]
    | index i =>
      obtain ⟨text', hreaches, hsame⟩ := ih (.element h hnext) hrest
      refine ⟨text', hreaches, ?_⟩
      rw [hsame, FieldPath.renderStep]
      simp only [foldCase_append, String.append_assoc]

/-- Nothing but what is reached can be selected. -/
theorem Record.reaches_of_select {tree : Record} {name : String} {steps : List PathStep} {v : Value}
    (h : tree.select ⟨.field name :: steps⟩ = .ok v) :
    ∃ text, tree.Reaches text v ∧ foldCase text = foldCase (FieldPath.render ⟨.field name :: steps⟩) := by
  rw [Record.select] at h
  split at h
  · rename_i w hw
    cases h
    obtain ⟨first, hfirst, hw⟩ := Option.bind_eq_some_iff.mp hw
    obtain ⟨r, f, info, heq, hf, hinfo, hname, rfl⟩ := Value.step?_field hfirst
    cases heq
    obtain ⟨text, hreaches, hsame⟩ := Record.Reaches.selected (.member hf hinfo) hw
    refine ⟨text, hreaches, ?_⟩
    rw [hsame, FieldPath.render, foldCase_append, foldCase_append, hname]
  · cases h

/-- A tree in which names differ as they do in scripts, and in which the elements of arrays can be counted in
64 bits. -/
structure Record.Navigable (tree : Record) : Prop where
  distinct : tree.Distinct
  names : ∀ f ∈ tree.allFields, ∀ info ∈ f.info, IsFieldName info.name
  lengths : ∀ f ∈ tree.allFields, f.value.atMost (2 ^ 64 - 1) = true

theorem DistinctFrom.new {before : List String} {fields : List Field} {f : Field} {info : NamedField}
    (h : DistinctFrom before fields) (hf : f ∈ fields) (hinfo : f.info = some info) : info.name ∉ before := by
  induction fields generalizing before with
  | nil => cases hf
  | cons first rest ih =>
    rcases List.mem_cons.mp hf with rfl | hf
    · exact (Field.distinct_iff.mp h.1).1 info hinfo
    · exact fun hmem => ih h.2 hf (List.mem_append_left _ hmem)

/-- The first field of a name is the only one where names are different and in lower case. -/
theorem DistinctFrom.find?_eq {before : List String} {fields : List Field} {f : Field} {info : NamedField}
    (h : DistinctFrom before fields) (hnames : ∀ g ∈ fields, ∀ info ∈ g.info, IsFieldName info.name) (hf : f ∈ fields)
    (hinfo : f.info = some info) : fields.find? (Field.hasName info.name) = some f := by
  induction fields generalizing before with
  | nil => cases hf
  | cons first rest ih =>
    obtain ⟨hfirst, hrest⟩ := List.forall_mem_cons.mp hnames
    rcases List.mem_cons.mp hf with rfl | hmem
    · rw [List.find?_cons_of_pos]
      rw [Field.hasName, Field.name?, hinfo]
      exact sameName_iff.mpr rfl
    · rw [List.find?_cons_of_neg]
      · exact ih h.2 hrest hmem
      -- a name that is taken for the other one would be lent by the field before it
      intro hsame
      obtain ⟨_ | info', value⟩ := first
      · cases hsame
      have hsame := sameName_iff.mp hsame
      rw [(hrest f hmem info hinfo).folded, (hfirst info' rfl).folded] at hsame
      apply h.2.new hmem hinfo
      rw [hsame]
      exact List.mem_append_right _ (List.mem_singleton_self _)

theorem IsFieldName.writes {name : String} (h : IsFieldName name) : FieldPath.Writes name.toList [.field name] := by
  have hwrites := FieldPath.Writes.intro h.nonempty h.chars .done
  rwa [List.append_nil, String.ofList_toList, h.folded] at hwrites

theorem IsFieldName.continues {name : String} (h : IsFieldName name) :
    FieldPath.Continues ("." ++ name).toList [.field name] := by
  have hcontinues := FieldPath.Continues.field h.nonempty h.chars .done
  rw [List.append_nil, String.ofList_toList, h.folded] at hcontinues
  rw [String.toList_append]
  exact hcontinues

/-- The value is from inside a tree: its structures are structures of the tree. -/
structure Value.Within (tree : Record) (v : Value) : Prop where
  record : ∀ inner, v = .record inner → tree.Holds inner
  records : ∀ items, v = .records items → ∀ item ∈ items, tree.Holds item
  length : v.atMost (2 ^ 64 - 1) = true

theorem Value.atMost_mono {v : Value} {limit limit' : Nat} (h : v.atMost limit = true) (hle : limit ≤ limit') :
    v.atMost limit' = true := by
  rw [atMost] at h ⊢
  cases hn : v.length? with
  | none => rfl
  | some n =>
    rw [hn] at h
    exact decide_eq_true (Nat.le_trans (of_decide_eq_true h) hle)

theorem Value.element?_lt {v w : Value} {i : Nat} (h : v.element? i = some w) : ∃ n, v.length? = some n ∧ i < n := by
  cases v with
  | array type vs =>
    obtain ⟨_, hi, -⟩ := Option.map_eq_some_iff.mp h
    exact ⟨_, rfl, (List.getElem?_eq_some_iff.mp hi).1⟩
  | records items =>
    obtain ⟨_, hi, -⟩ := Option.map_eq_some_iff.mp h
    exact ⟨_, rfl, (List.getElem?_eq_some_iff.mp hi).1⟩
  | scalar | text | record => cases h

theorem Value.element?_none {v : Value} {n i : Nat} (hn : v.length? = some n) (hi : n ≤ i) : v.element? i = none := by
  cases helement : v.element? i with
  | none => rfl
  | some w =>
    obtain ⟨m, hm, hless⟩ := Value.element?_lt helement
    rw [hn] at hm
    cases hm
    exact absurd hless (Nat.not_lt.mpr hi)

theorem Value.Within.element {tree : Record} {v w : Value} {i : Nat} (h : v.Within tree) (hw : v.element? i = some w) :
    w.Within tree ∧ i < 2 ^ 64 := by
  obtain ⟨n, hn, hi⟩ := Value.element?_lt hw
  have hlength := h.length
  rw [Value.atMost, hn, Option.all_some, decide_eq_true_eq] at hlength
  refine ⟨?_, by omega⟩
  cases v with
  | array type vs =>
    obtain ⟨_, -, rfl⟩ := Option.map_eq_some_iff.mp hw
    exact ⟨fun _ heq => (by cases heq), fun _ heq => (by cases heq), rfl⟩
  | records items =>
    obtain ⟨item, hitem, rfl⟩ := Option.map_eq_some_iff.mp hw
    have hholds := h.records items rfl item (List.mem_of_getElem? hitem)
    exact ⟨fun _ heq => (by cases heq; exact hholds), fun _ heq => (by cases heq), rfl⟩
  | scalar | text | record => cases hw

theorem foldlM_step?_concat {steps : List PathStep} {root v : Value} (h : steps.foldlM Value.step? root = some v)
    (step : PathStep) : (steps ++ [step]).foldlM Value.step? root = v.step? step := by
  simp [List.foldlM_append, h]

namespace Record.Navigable
variable {tree : Record} (h : tree.Navigable)
include h

theorem field_mem {r : Record} (hr : tree.Holds r) {f : Field} (hf : f ∈ r.fields) : f ∈ tree.allFields := by
  obtain ⟨fields⟩ := tree
  exact hr.allFields_subset (mem_allFieldsOf.mpr ⟨f, hf, .inl rfl⟩)

theorem field?_eq {r : Record} (hr : tree.Holds r) {f : Field} {info : NamedField} (hf : f ∈ r.fields)
    (hinfo : f.info = some info) : r.field? info.name = some f :=
  (Record.distinct_iff.mp (hr.distinct h.distinct)).find?_eq (fun g hg => h.names g (h.field_mem hr hg)) hf hinfo

theorem select_member {steps : List PathStep} {root : Value} {r : Record}
    (hselect : steps.foldlM Value.step? root = some (.record r)) (hr : tree.Holds r) {f : Field} {info : NamedField}
    (hf : f ∈ r.fields) (hinfo : f.info = some info) :
    (steps ++ [PathStep.field info.name]).foldlM Value.step? root = some f.value := by
  rw [foldlM_step?_concat hselect, Value.step?, h.field?_eq hr hf hinfo]
  rfl

theorem within_member {r : Record} (hr : tree.Holds r) {f : Field} (hf : f ∈ r.fields) : f.value.Within tree := by
  have hlength := h.lengths f (h.field_mem hr hf)
  obtain ⟨info, value⟩ := f
  refine ⟨?_, ?_, hlength⟩
  · rintro inner rfl
    exact .member hr hf
  · rintro items rfl item hitem
    exact .element hr hf hitem

/-- The value at the end of a way is what its path selects. -/
theorem select_reached {text : String} {v : Value} (hreach : tree.Reaches text v) :
    v.Within tree ∧ ∃ steps, FieldPath.Writes text.toList steps ∧ steps.foldlM Value.step? (.record tree) = some v := by
  induction hreach with
  | @member f info hf hinfo =>
    have hname := h.names f (h.field_mem .self hf) info hinfo
    have hroot : ([] : List PathStep).foldlM Value.step? (.record tree) = some (.record tree) := rfl
    exact ⟨h.within_member .self hf, [.field info.name], hname.writes, h.select_member hroot .self hf hinfo⟩
  | @inside text inner f info _ hf hinfo ih =>
    obtain ⟨hwithin, steps, hwrites, hselect⟩ := ih
    have hinner := hwithin.record inner rfl
    have hname := h.names f (h.field_mem hinner hf) info hinfo
    refine ⟨h.within_member hinner hf, steps ++ [.field info.name], ?_, ?_⟩
    · rw [String.append_assoc, String.toList_append]
      exact hwrites.append hname.continues
    · exact h.select_member hselect hinner hf hinfo
  | @element text v w i _ hw ih =>
    obtain ⟨hwithin, steps, hwrites, hselect⟩ := ih
    obtain ⟨hwithin', hi⟩ := hwithin.element hw
    refine ⟨hwithin', steps ++ [.index i], ?_, ?_⟩
    · have htext : text ++ "[" ++ toString i ++ "]" = text ++ ("[" ++ toString i ++ "]") := by simp only [String.append_assoc]
      rw [htext, String.toList_append]
      exact hwrites.append (FieldPath.continues_index hi)
    · rw [foldlM_step?_concat hselect, Value.step?, hw]

end Record.Navigable

/-- What is read of declarations with different names can be navigated. -/
theorem Declaration.navigable_readScript {σ : Type} [BitSource σ] {s : Setting σ} {ds : List Declaration}
    (hplain : FormedAll Head.Plain ds) (hdistinct : DistinctAll [] ds)
    (hnames : ∀ head ∈ headsAll ds, ∀ info ∈ head.info, IsFieldName info.name)
    (hlimit : s.options.maxElements < 2 ^ 64) {source : σ} {tree : Record} {run : Run σ}
    (hok : readScript s ds source = (.ok tree, run)) : tree.Navigable := by
  obtain ⟨y, run₁, hy, hok⟩ := Stateful.of_bind_ok hok
  cases hok
  have hlending := readAll_lending ds hplain hdistinct 0 _ y run hy
  have hgives : FormedAll (Head.Gives (fun f => (∀ info ∈ f.info, IsFieldName info.name) ∧
      f.value.atMost (2 ^ 64 - 1) = true) s.options.maxElements) ds :=
    .of_heads ds hplain fun head hm => ⟨FormedAll.heads ds hplain head hm, fun v hv =>
      ⟨hnames head hm, Value.atMost_mono hv (Nat.le_sub_one_of_lt hlimit)⟩⟩
  have hfields := returns_readAll_fields ds hgives 0 _ y run hy
  exact ⟨hlending.1, fun f hf => (hfields f hf).1, fun f hf => (hfields f hf).2⟩

/-- Every value that a compiled script reads and that is reached through names is what the text of the way
there selects, in any case of its letters. An index that is not less than the length of an array selects
nothing, and neither does what stands behind it. -/
theorem Layout.select_read {custom : Option CustomTypes} {script : String} {layout : Layout}
    (h : compileWith custom script = .ok layout) (hcustom : layout.customTypes = [])
    (hvar : ∀ lines, layout.lines = .ok lines → ∀ line ∈ lines, line.kind ≠ .var) {σ : Type} [BitSource σ]
    {options : ReadOptions} (hlimit : options.maxElements < 2 ^ 64) {collaborators : Collaborators σ} {source : σ}
    {tree : Record} {run : Run σ} (hok : Setting.read ⟨layout, options, collaborators⟩ source = (.ok tree, run))
    {text : String} {v : Value} (hreach : tree.Reaches text v) {text' : String} (hcase : foldCase text' = foldCase text) :
    ∃ path, FieldPath.parse text' = .ok path ∧ tree.select path = .ok v ∧
      ∀ n, v.length? = some n → ∀ i, n ≤ i →
        (i < 2 ^ 64 → FieldPath.parse (text' ++ "[" ++ toString i ++ "]") = .ok ⟨path.steps ++ [.index i]⟩) ∧
        ∀ more, tree.select ⟨path.steps ++ .index i :: more⟩ =
          .error (.lookup (.notFound (FieldPath.render ⟨path.steps ++ .index i :: more⟩))) := by
  obtain ⟨ts, d, ds, hscan, hds, htraced, hopened, rfl⟩ := compileWith_traced h
  have hof := htraced.isOf hopened (by rw [show d.customTypes = [] from hcustom]; exact Nat.zero_le _) script
  rw [IsOf.read_eq _ hof] at hok
  have hnavigable := Declaration.navigable_readScript (hof.plain hcustom hvar) (Declaration.distinct_ofScript h hds)
    (htraced.fieldNames (Token.scanFrom_written hscan)) hlimit hok
  obtain ⟨-, steps, hwrites, hselect⟩ := hnavigable.select_reached hreach
  have hsame : text'.toList.map Char.toLower = text.toList.map Char.toLower := by
    rw [← toList_foldCase, ← toList_foldCase, hcase]
  have hrecased := hwrites.recased hsame
  refine ⟨⟨steps⟩, hrecased.parse, ?_, fun n hn i hi => ⟨fun hfits => ?_, fun more => ?_⟩⟩
  · rw [Record.select, hselect]
  · apply FieldPath.Writes.parse
    have htext : text' ++ "[" ++ toString i ++ "]" = text' ++ ("[" ++ toString i ++ "]") := by simp only [String.append_assoc]
    rw [htext, String.toList_append]
    exact hrecased.append (FieldPath.continues_index hfits)
  · have hnone : (steps ++ .index i :: more).foldlM Value.step? (.record tree) = none := by
      simp [List.foldlM_append, hselect, Value.step?, Value.element?_none hn hi]
    rw [Record.select, hnone]

/-- An array in the second structure of an array, and an index behind its end. -/
theorem Layout.select_read_nested :
    let script := "ubyte N; Rec[n] \x7b ubyte Kind; <ushort[2] Vals; \x7d bit:3 rest;"
    let bytes : List UInt8 := [2, 7, 1, 0, 2, 0, 8, 3, 0, 4, 0, 5]
    ∃ layout tree run text v path, compileWith none script = .ok layout ∧ layout.readBytes bytes {} {} = (.ok tree, run) ∧
      tree.Reaches text v ∧ v.length? = some 2 ∧ FieldPath.parse "REC[1].Vals" = .ok path ∧ tree.select path = .ok v ∧
      tree.select ⟨path.steps ++ [.index 2]⟩ =
        .error (.lookup (.notFound (FieldPath.render ⟨path.steps ++ [.index 2]⟩))) := by
  intro script bytes
  have hcompiles : (compileWith none script).toOption.any (fun layout => layout.customTypes.isEmpty &&
      layout.lines.toOption.any (·.all (·.kind != .var)) &&
      (layout.readBytes bytes {} {}).1.toOption.any fun tree =>
        (tree.select ⟨[.field "rec", .index 1, .field "vals"]⟩).toOption.any (·.length? = some 2)) = true := by
    decide +kernel
  obtain ⟨layout, hlayout, hchecks⟩ := of_any_ok hcompiles
  simp only [Bool.and_eq_true] at hchecks
  obtain ⟨⟨hcustom, hlines⟩, hread⟩ := hchecks
  have hvar : ∀ lines, layout.lines = .ok lines → ∀ line ∈ lines, line.kind ≠ .var := fun lines heq line hm =>
    bne_iff_ne.mp (forall_mem_of_any_all hlines lines heq line hm)
  rcases hrun : layout.readBytes bytes {} {} with ⟨outcome, run⟩
  rw [hrun] at hread
  obtain ⟨tree, rfl, htree⟩ := of_any_ok hread
  obtain ⟨v, hv, hlength⟩ := of_any_ok htree
  have htwo : v.length? = some 2 := of_decide_eq_true hlength
  obtain ⟨text, hreaches, htext⟩ := Record.reaches_of_select hv
  have hcase : foldCase "REC[1].Vals" = foldCase text := htext.symm ▸ by decide +kernel
  obtain ⟨path, hparse, hselect, hbehind⟩ := select_read hlayout (List.isEmpty_iff.mp hcustom) hvar (by decide) hrun hreaches hcase
  exact ⟨layout, tree, run, text, v, path, hlayout, hrun, hreaches, htwo, hparse, hselect,
    (hbehind 2 htwo 2 (Nat.le_refl 2)).2 []⟩

end LayoutScript
