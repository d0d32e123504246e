import LayoutScript.Proofs.CodeTables
import LayoutScript.Proofs.LentNames
import LayoutScript.Proofs.NameScope
import LayoutScript.Proofs.TokenParts

/-! # Paths of named declarations

A path puts the names of the structures around a declaration before its own, so one path stands for
one list of names. A structure without a name puts nothing there: its members may have the paths of
declarations before it, and then the paths find those and not the members.
-/
namespace LayoutScript

/-- A named declaration and the structures around it, the outermost first. -/
structure NamedPlace where
  around : List Head
  field : NamedField

/-- The names of those heads that have one. -/
def Head.namesOf (heads : List Head) : List String := heads.filterMap (·.info.map (·.name))

def Head.place (around : List Head) (h : Head) : Option NamedPlace := h.info.map (⟨around, ·⟩)

namespace NamedPlace

/-- The names of the structures around a declaration, and its own. -/
def names (p : NamedPlace) : List String := Head.namesOf p.around ++ [p.field.name]

/-- A structure without a name is around `q` and not around `p`. -/
def Beside (q p : NamedPlace) : Prop := ∃ e ∈ q.around, e.info = none ∧ e ∉ p.around

/-- The path of a declaration is made of names without dots. -/
structure Told (p : NamedPlace) : Prop where
  path : p.field.path = ".".intercalate p.names
  undotted : ∀ name ∈ p.names, '.' ∉ name.toList

/-- Splitting a path at its dots gives the names back. -/
theorem Told.names_eq {p q : NamedPlace} (hp : p.Told) (hq : q.Told) (h : p.field.path = q.field.path) :
    p.names = q.names := by
  have hsplit {p : NamedPlace} (hp : p.Told) : p.field.path.toList.splitOn '.' = p.names.map String.toList := by
    rw [hp.path, String.toList_intercalate]
    refine List.splitOn_intercalate '.' ?_ (by simp [names])
    intro chars hmem
    obtain ⟨name, hname, rfl⟩ := List.mem_map.mp hmem
    exact hp.undotted name hname
  have hmap := hsplit hq
  rw [← h, hsplit hp] at hmap
  exact List.map_injective_iff.mpr (fun _ _ => String.toList_inj.mp) hmap

theorem told_inside {around : List Head} (haround : ∀ name ∈ Head.namesOf around, '.' ∉ name.toList) {name : String}
    (hname : '.' ∉ (foldCase name).toList) (offset : Nat) :
    Told ⟨around, .inside (Head.namesOf around) name offset⟩ where
  path := rfl
  undotted := List.forall_mem_append.mpr ⟨haround, List.forall_mem_singleton.mpr hname⟩

end NamedPlace

namespace Declaration

mutual

/-- The named declarations in a declaration with these structures around it. -/
def namedPlaces (around : List Head) : Declaration → List NamedPlace
  | .single h => (h.place around).toList
  | .nested h members => (h.place around).toList ++ namedPlacesAll (around ++ [h]) members

def namedPlacesAll (around : List Head) : List Declaration → List NamedPlace
  | [] => []
  | d :: ds => d.namedPlaces around ++ namedPlacesAll around ds

end

theorem namedPlacesAll_append (around : List Head) (ds ds' : List Declaration) :
    namedPlacesAll around (ds ++ ds') = namedPlacesAll around ds ++ namedPlacesAll around ds' := by
  induction ds with
  | nil => rfl
  | cons d ds ih => rw [List.cons_append, namedPlacesAll, namedPlacesAll, ih, List.append_assoc]

theorem map_field_place (around : List Head) (h : Head) : (h.place around).toList.map (·.field) = h.info.toList := by
  rw [Head.place]
  cases h.info <;> rfl

mutual

theorem map_field_namedPlaces : (d : Declaration) → ∀ around : List Head,
    (d.namedPlaces around).map (·.field) = d.heads.filterMap (·.info)
  | .single h, around => by
    rw [namedPlaces, map_field_place, heads, List.filterMap_eq_flatMap_toList, List.flatMap_singleton]
  | .nested h members, around => by
    rw [namedPlaces, List.map_append, map_field_place, map_field_namedPlacesAll members, namedAll, heads,
      List.filterMap_eq_flatMap_toList, List.filterMap_eq_flatMap_toList, List.flatMap_cons]

/-- The declarations with names, without the structures around them. -/
theorem map_field_namedPlacesAll : (ds : List Declaration) → ∀ around : List Head,
    (namedPlacesAll around ds).map (·.field) = namedAll ds
  | [], _ => rfl
  | d :: ds, around => by
    rw [namedPlacesAll, List.map_append, map_field_namedPlaces d, map_field_namedPlacesAll ds, namedAll, namedAll,
      headsAll, List.filterMap_append]

end

end Declaration

/-! ## Paths are made of names -/

namespace Outline

/-- The heads of open structures, the outermost first. -/
def around (opened : List (Head × List Declaration)) : List Head := (opened.map (·.1)).reverse

theorem owners_eq (o : Outline) : o.owners = Head.namesOf (around o.opened) := by
  rw [owners, Head.namesOf, around, List.filterMap_reverse, List.filterMap_map]
  rfl

/-- The named declarations before the members of the innermost of some open structures. -/
def placesBefore : List (Head × List Declaration) → List NamedPlace
  | [] => []
  | (h, before) :: outer =>
    placesBefore outer ++ (Declaration.namedPlacesAll (around outer) before ++ (h.place (around outer)).toList)

def places (o : Outline) : List NamedPlace :=
  placesBefore o.opened ++ Declaration.namedPlacesAll (around o.opened) o.members

@[simp] theorem places_put (o : Outline) (h : Head) :
    (o.put h).places = o.places ++ (h.place (around o.opened)).toList := by
  simp only [places, put, Declaration.namedPlacesAll_append, Declaration.namedPlacesAll, Declaration.namedPlaces,
    List.append_assoc, List.append_nil]

@[simp] theorem places_enter (o : Outline) (h : Head) :
    (o.enter h).places = o.places ++ (h.place (around o.opened)).toList := by
  simp only [places, enter, placesBefore, Declaration.namedPlacesAll, List.append_assoc, List.append_nil]

@[simp] theorem places_leave (h : Head) (before : List Declaration) (outer : List (Head × List Declaration))
    (members : List Declaration) :
    (leave h before outer members).places = places ⟨(h, before) :: outer, members⟩ := by
  have haround : around ((h, before) :: outer) = around outer ++ [h] := List.reverse_cons
  simp only [places, leave, placesBefore, haround, Declaration.namedPlacesAll_append, Declaration.namedPlacesAll,
    Declaration.namedPlaces, List.append_assoc, List.append_nil]

@[simp] theorem owners_enter (o : Outline) (h : Head) :
    (o.enter h).owners = o.owners ++ (h.info.map (·.name)).toList := by
  cases hinfo : h.info <;> simp [owners, enter, hinfo]

/-- The paths before a place are made of names, and so will be those of what is declared there. -/
structure Told (o : Outline) : Prop where
  places : ∀ p ∈ o.places, p.Told
  owners : ∀ name ∈ o.owners, '.' ∉ name.toList

namespace Told
variable {o : Outline} {head : Head} {name : Option String}

theorem place (h : o.Told) (hinfo : head.info = name.map (.inside o.owners · head.offset))
    (hname : ∀ n ∈ name, '.' ∉ (foldCase n).toList) :
    ∀ p ∈ o.places ++ (head.place (around o.opened)).toList, p.Told := by
  refine List.forall_mem_append.mpr ⟨h.places, ?_⟩
  have howners := h.owners
  rw [Head.place, hinfo]
  rw [o.owners_eq] at howners ⊢
  cases name with
  | none => exact List.forall_mem_nil _
  | some n => exact List.forall_mem_singleton.mpr (NamedPlace.told_inside howners (hname n rfl) _)

theorem put (h : o.Told) (hinfo : head.info = name.map (.inside o.owners · head.offset))
    (hname : ∀ n ∈ name, '.' ∉ (foldCase n).toList) : (o.put head).Told where
  places := by
    rw [places_put]
    exact h.place hinfo hname
  owners := h.owners

theorem enter (h : o.Told) (hinfo : head.info = name.map (.inside o.owners · head.offset))
    (hname : ∀ n ∈ name, '.' ∉ (foldCase n).toList) : (o.enter head).Told where
  places := by
    rw [places_enter]
    exact h.place hinfo hname
  owners := by
    rw [owners_enter, hinfo]
    refine List.forall_mem_append.mpr ⟨h.owners, ?_⟩
    cases name with
    | none => exact List.forall_mem_nil _
    | some n => exact List.forall_mem_singleton.mpr (hname n rfl)

theorem leave {before members : List Declaration} {outer : List (Head × List Declaration)}
    (h : Told ⟨(head, before) :: outer, members⟩) : (Outline.leave head before outer members).Told where
  places := by
    rw [places_leave]
    exact h.places
  owners := by
    have howners : Outline.owners ⟨(head, before) :: outer, members⟩ =
        (Outline.leave head before outer members).owners ++ _ := owners_enter ⟨outer, before⟩ head
    exact fun name hname => h.owners name (howners ▸ List.mem_append_left _ hname)

end Told
end Outline

theorem isNameChar_foldCase {customTypes : List String} {name : String}
    (h : brokenNameRule customTypes name.toList = none) : ∀ c ∈ (foldCase name).toList, isNameChar c = true := by
  have hchars := (Token.isIdentifier_spec (Token.isIdentifier_of_brokenNameRule h)).2
  rw [toList_foldCase]
  intro c hmem
  obtain ⟨c', hc, rfl⟩ := List.mem_map.mp hmem
  rw [CaseBlind.isNameChar]
  exact hchars c' hc

/-- A name that can be written has no dot. -/
theorem undotted_of_brokenNameRule {customTypes : List String} {name : String}
    (h : brokenNameRule customTypes name.toList = none) : '.' ∉ (foldCase name).toList := by
  intro hmem
  exact absurd (isNameChar_foldCase h _ hmem) (by decide)

/-- Tokens that can be written declare paths made of names. -/
theorem Traced.told {custom : Option CustomTypes} {ts : List Token} {d : Draft} {o : Outline} {customTypes : List String}
    (h : Traced custom ts d o) (hwritten : ∀ t ∈ ts, t.declared.Written customTypes) : o.Told := by
  induction h with
  | start => exact ⟨List.forall_mem_nil _, List.forall_mem_nil _⟩
  | comment _ _ ih => exact ih (List.forall_mem_append.mp hwritten).1
  | field _ ht hh ih =>
    obtain ⟨hbefore, hlast⟩ := List.forall_mem_append.mp hwritten
    have hparts := List.forall_mem_singleton.mp hlast
    rw [ht] at hparts
    exact (ih hbefore).put (Draft.fieldHead_info hh) fun n hn => undotted_of_brokenNameRule (hparts.2.2 n hn)
  | opening _ ht hh ih =>
    obtain ⟨hbefore, hlast⟩ := List.forall_mem_append.mp hwritten
    have hparts := List.forall_mem_singleton.mp hlast
    rw [ht] at hparts
    exact (ih hbefore).enter (Draft.structureHead_info hh) fun n hn => undotted_of_brokenNameRule (hparts.2 n hn)
  | closing _ _ _ ih => exact (ih (List.forall_mem_append.mp hwritten).1).leave

/-! ## The table of names -/

theorem Site.pathFrom_nil (s : Site) : s.pathFrom [] = s.pathIn s.around := by
  have hall : s.around.takeWhile (!·.among []) = s.around :=
    List.takeWhile_eq_self_iff.mpr fun e _ => by simp [Enclosure.among]
  rw [pathFrom, hall]

/-- The table entry of a declaration: its own name, behind those of the structures around it in the
path, and all of them in the lower case. -/
structure NamedField.Names (f : NamedField) (site : Site) : Prop where
  name : f.name = foldCase site.name
  path : f.path = ".".intercalate ((site.around.filterMap (·.name)).reverse.map foldCase ++ [f.name])

namespace Traced
variable {custom : Option CustomTypes} {ts : List Token} {d : Draft} {o : Outline}

theorem names_declare {s : Scoping} {head : Head} {name : Option String} (isStructure isArray : Bool)
    (hinfo : head.info = name.map (.inside o.owners · head.offset))
    (hsites : (o.heads.filterMap (·.info)).map (·.name) = s.sites.map fun site => foldCase site.name) :
    ((o.heads ++ [head]).filterMap (·.info)).map (·.name) =
      (s.declare name isStructure isArray).sites.map fun site => foldCase site.name := by
  rw [Scoping.declare, List.filterMap_append, List.map_append, List.map_append, hsites]
  cases name <;> simp [hinfo, NamedField.inside]

/-- The heads with a name are the sites of the tokens. -/
theorem names_sites (h : Traced custom ts d o) :
    (o.heads.filterMap (·.info)).map (·.name) = (Scoping.of ts).sites.map fun site => foldCase site.name := by
  induction h with
  | start => rfl
  | comment _ ht ih =>
    rw [Scoping.of_concat, ht]
    exact ih
  | field _ ht hh ih =>
    rw [Scoping.of_concat, ht, Outline.heads_put]
    exact names_declare _ _ (Draft.fieldHead_info hh) ih
  | opening _ ht hh ih =>
    rw [Scoping.of_concat, ht, Outline.heads_enter]
    exact names_declare _ _ (Draft.structureHead_info hh) ih
  | closing _ ht _ ih =>
    rw [Scoping.of_concat, ht, Outline.heads_leave]
    exact ih

end Traced

namespace Layout
variable {layout : Layout}

/-- The table of a compiled script has an entry for each named declaration, in their order: its name
behind those of the structures around it. -/
theorem compileWith_named {custom : Option CustomTypes} {script : String} (h : compileWith custom script = .ok layout) :
    ∃ ts, Token.scan ((custom.map (·.names)).getD []) script = ts.map .ok ∧
      List.Forall₂ NamedField.Names layout.named (Scoping.of ts).sites ∧
      layout.named.Pairwise (·.offset < ·.offset) := by
  obtain ⟨ts, d, ds, hscan, -, htraced, hopened, hlayout⟩ := compileWith_traced h
  have hpaths := compileWith_paths hscan h
  have hnamed : layout.named = (Declaration.headsAll ds).filterMap (·.info) := by
    have hentries := htraced.named.2
    rw [hopened] at hentries
    rw [hlayout]
    exact hentries
  have hnames : layout.named.map (·.name) = (Scoping.of ts).sites.map fun site => foldCase site.name := by
    rw [hnamed]
    exact htraced.names_sites
  have hforall {γ : Type} {f : NamedField → γ} {g : Site → γ} (heq : layout.named.map f = (Scoping.of ts).sites.map g) :
      List.Forall₂ (fun field site => f field = g site) layout.named (Scoping.of ts).sites := by
    rwa [← List.forall₂_eq_eq_eq, List.forall₂_map_left_iff, List.forall₂_map_right_iff] at heq
  refine ⟨ts, hscan, (hforall hnames).mp ?_ (hforall hpaths), ?_⟩
  · intro field site hname hpath
    refine ⟨hname, ?_⟩
    rw [hpath, Site.pathFrom_nil, Site.pathIn, foldCase_intercalate, List.map_append, hname]
    rfl
  · rw [hnamed]
    exact htraced.infos_increase

/-- Structures without a name leave no trace in the paths of their members. -/
theorem compileWith_named_nested :
    let script := "ubyte N; Outer[2] \x7b \x7b Inner \x7b ubyte N; \x7d \x7d \x7d"
    ∃ layout, compileWith none script = .ok layout ∧
      layout.named.map (·.path) = ["n", "outer", "outer.inner", "outer.inner.n"] ∧
      ∃ ts, Token.scan [] script = ts.map .ok ∧ List.Forall₂ NamedField.Names layout.named (Scoping.of ts).sites ∧
        layout.named.Pairwise (·.offset < ·.offset) := by
  intro script
  have hcompiles : (compileWith none script).toOption.any
      (fun layout => layout.named.map (·.path) == ["n", "outer", "outer.inner", "outer.inner.n"]) = true := by
    decide +kernel
  obtain ⟨layout, hlayout, hpaths⟩ := of_any_ok hcompiles
  exact ⟨layout, hlayout, beq_iff_eq.mp hpaths, compileWith_named hlayout⟩

end Layout

/-! ## Which declarations have the same path -/

namespace Declaration

theorem mem_place {around : List Head} {h : Head} {p : NamedPlace} (hp : p ∈ (h.place around).toList) :
    ∃ info, h.info = some info ∧ p = ⟨around, info⟩ := by
  obtain ⟨info, hinfo, rfl⟩ := Option.map_eq_some_iff.mp (Option.mem_toList.mp hp)
  exact ⟨info, hinfo, rfl⟩

theorem pairwise_place {R : NamedPlace → NamedPlace → Prop} (around : List Head) (h : Head) :
    (h.place around).toList.Pairwise R := by
  rw [Head.place]
  cases h.info with
  | none => exact .nil
  | some info => exact List.pairwise_singleton _ _

/-- A named declaration stands behind these structures, inside some of these heads, and the first of
its names behind theirs is lent. -/
structure Holds (around heads : List Head) (lent : List String) (p : NamedPlace) : Prop where
  around_eq : ∃ inner, p.around = around ++ inner ∧ inner ⊆ heads
  names_eq : ∃ first more, p.names = Head.namesOf around ++ first :: more ∧ first ∈ lent

namespace Holds
variable {around heads heads' : List Head} {lent lent' : List String} {p : NamedPlace}

theorem mono (h : Holds around heads lent p) (hheads : heads ⊆ heads') (hlent : lent ⊆ lent') :
    Holds around heads' lent' p := by
  obtain ⟨⟨inner, haround, hinner⟩, first, more, hnames, hfirst⟩ := h
  exact ⟨⟨inner, haround, List.Subset.trans hinner hheads⟩, first, more, hnames, hlent hfirst⟩

theorem place {h : Head} (hp : p ∈ (h.place around).toList) (hlent : ∀ info, h.info = some info → info.name ∈ lent) :
    Holds around heads lent p := by
  obtain ⟨info, hinfo, rfl⟩ := mem_place hp
  exact ⟨⟨[], (List.append_nil _).symm, List.nil_subset _⟩, info.name, [], rfl, hlent info hinfo⟩

/-- A structure lends its own name, or the names that its members lend if it has none. -/
theorem member {h : Head} {members : List Declaration} (hp : Holds (around ++ [h]) heads (lentAll members) p) :
    Holds around (h :: heads) (Declaration.lent (.nested h members)) p := by
  obtain ⟨⟨inner, haround, hinner⟩, first, more, hnames, hfirst⟩ := hp
  refine ⟨⟨h :: inner, by rw [haround, List.append_assoc, List.singleton_append], List.cons_subset_cons h hinner⟩, ?_⟩
  rw [Head.namesOf, List.filterMap_append, List.append_assoc] at hnames
  rw [Declaration.lent]
  cases hinfo : h.info with
  | some info =>
    rw [List.filterMap_cons_some (by rw [hinfo]; rfl)] at hnames
    exact ⟨info.name, _, hnames, List.mem_singleton_self _⟩
  | none =>
    rw [List.filterMap_cons_none (by rw [hinfo]; rfl)] at hnames
    exact ⟨first, more, hnames, hfirst⟩

end Holds

mutual

theorem holds_namedPlaces : (d : Declaration) → ∀ {around : List Head} {p : NamedPlace}, p ∈ d.namedPlaces around →
    Holds around d.heads d.lent p
  | .single h, around, p, hp => by
    refine .place hp fun info hinfo => ?_
    rw [lent, hinfo]
    exact List.mem_singleton_self _
  | .nested h members, around, p, hp => by
    rcases List.mem_append.mp hp with hp | hp
    · refine .place hp fun info hinfo => ?_
      rw [lent, hinfo]
      exact List.mem_singleton_self _
    · exact (holds_namedPlacesAll members hp).member

theorem holds_namedPlacesAll : (ds : List Declaration) → ∀ {around : List Head} {p : NamedPlace},
    p ∈ namedPlacesAll around ds → Holds around (headsAll ds) (lentAll ds) p
  | [], _, _, hp => by cases hp
  | d :: ds, around, p, hp => by
    rcases List.mem_append.mp hp with hp | hp
    · exact (holds_namedPlaces d hp).mono (List.subset_append_left _ _) (List.subset_append_left _ _)
    · exact (holds_namedPlacesAll ds hp).mono (List.subset_append_right _ _) (List.subset_append_right _ _)

end

/-- The first name behind those of the structures around a declaration is not one of those before
it, unless the declaration is a structure without a name. -/
theorem first_new {around : List Head} {before : List String} {q : NamedPlace} {first : String} {more : List String} :
    (d : Declaration) → d.Distinct before → q ∈ d.namedPlaces around → q.names = Head.namesOf around ++ first :: more →
    first ∈ before → ∃ e ∈ q.around, e ∈ d.heads ∧ e.info = none
  | .single h, hd, hq, hnames, hfirst => by
    obtain ⟨info, hinfo, rfl⟩ := mem_place hq
    cases List.append_cancel_left hnames
    exact absurd hfirst (hd info hinfo)
  | .nested h members, hd, hq, hnames, hfirst => by
    cases hinfo : h.info with
    | some info =>
      obtain ⟨_, first', more', hnames', hfirst'⟩ := holds_namedPlaces (.nested h members) hq
      rw [lent, hinfo] at hfirst'
      cases List.append_cancel_left (hnames.symm.trans hnames')
      rw [List.mem_singleton.mp hfirst'] at hfirst
      exact absurd hfirst (hd.1 info hinfo)
    | none =>
      rcases List.mem_append.mp hq with hq | hq
      · obtain ⟨info, hsome, -⟩ := mem_place hq
        rw [hinfo] at hsome
        cases hsome
      · obtain ⟨⟨inner, haround, -⟩, -⟩ := holds_namedPlacesAll members hq
        refine ⟨h, ?_, List.mem_cons_self .., hinfo⟩
        rw [haround]
        exact List.mem_append_left _ (List.mem_append_right _ (List.mem_singleton_self h))

theorem first_newAll {around : List Head} {before : List String} {q : NamedPlace} {first : String} {more : List String}
    {ds : List Declaration} (hds : DistinctAll before ds) (hq : q ∈ namedPlacesAll around ds)
    (hnames : q.names = Head.namesOf around ++ first :: more) (hfirst : first ∈ before) :
    ∃ e ∈ q.around, e ∈ headsAll ds ∧ e.info = none := by
  induction ds generalizing before with
  | nil => cases hq
  | cons d ds ih =>
    rcases List.mem_append.mp hq with hq | hq
    · obtain ⟨e, he, hmem, hnone⟩ := first_new d hds.1 hq hnames hfirst
      exact ⟨e, he, List.mem_append_left _ hmem, hnone⟩
    · obtain ⟨e, he, hmem, hnone⟩ := ih hds.2 hq (List.mem_append_left _ hfirst)
      exact ⟨e, he, List.mem_append_right _ hmem, hnone⟩

mutual

theorem beside_namedPlaces : (d : Declaration) → ∀ {around : List Head} {before : List String}, d.Distinct before →
    (around ++ d.heads).Nodup → (d.namedPlaces around).Pairwise fun p q => p.names = q.names → q.Beside p
  | .single h, around, _, _, _ => pairwise_place around h
  | .nested h members, around, _, hd, hnodup => by
    rw [heads, ← List.singleton_append, ← List.append_assoc] at hnodup
    refine List.pairwise_append.mpr ⟨pairwise_place around h, beside_namedPlacesAll members hd.2 hnodup, ?_⟩
    -- the name of a structure stands before those of its members, so these have more names
    intro p hp q hq heq
    obtain ⟨info, hinfo, rfl⟩ := mem_place hp
    obtain ⟨-, first, more, hnames, -⟩ := holds_namedPlacesAll members hq
    have hlength := congrArg List.length (heq.trans hnames)
    simp [NamedPlace.names, Head.namesOf, hinfo] at hlength

/-- Of two declarations with the same names, the later one is in a structure without a name that the
earlier one is not in. -/
theorem beside_namedPlacesAll : (ds : List Declaration) → ∀ {around : List Head} {before : List String},
    DistinctAll before ds → (around ++ headsAll ds).Nodup →
    (namedPlacesAll around ds).Pairwise fun p q => p.names = q.names → q.Beside p
  | [], _, _, _, _ => .nil
  | d :: ds, around, before, hds, hnodup => by
    rw [headsAll, ← List.append_assoc] at hnodup
    obtain ⟨hfirst, -, hdisjoint⟩ := List.nodup_append.mp hnodup
    have hrest : (around ++ headsAll ds).Nodup :=
      hnodup.sublist (List.Sublist.append_right (List.sublist_append_left _ _) _)
    refine List.pairwise_append.mpr ⟨beside_namedPlaces d hds.1 hfirst, beside_namedPlacesAll ds hds.2 hrest, ?_⟩
    intro p hp q hq heq
    obtain ⟨⟨inner, haround, hinner⟩, first, more, hnames, hlent⟩ := holds_namedPlaces d hp
    obtain ⟨e, he, hmem, hnone⟩ :=
      first_newAll hds.2 hq (heq.symm.trans hnames) (List.mem_append_right _ hlent)
    have hbefore : p.around ⊆ around ++ d.heads := by
      rw [haround]
      exact List.append_subset.mpr ⟨List.subset_append_left _ _, List.subset_append_of_subset_right _ hinner⟩
    exact ⟨e, he, hnone, fun hin => hdisjoint e (hbefore hin) e hmem rfl⟩

end

end Declaration

namespace Layout
variable {layout : Layout}

/-- What a path finds is the first declaration with it. -/
theorem findPath?_eq_some (hlower : ∀ f ∈ layout.named, foldCase f.path = f.path) {path : String} {index : Nat}
    {field : NamedField} : layout.findPath? path = some (index, field) ↔
      layout.named[index]? = some field ∧ field.path = foldCase path ∧
        ∀ f ∈ layout.named.take index, f.path ≠ foldCase path := by
  have hsame {f : NamedField} (hf : f ∈ layout.named) : sameName path f.path = true ↔ f.path = foldCase path := by
    rw [sameName_iff, hlower f hf, eq_comm]
  have hfind : layout.named.findIdx? (sameName path ·.path) = some index ↔
      ∃ f, layout.named[index]? = some f ∧ f.path = foldCase path ∧
        ∀ f ∈ layout.named.take index, f.path ≠ foldCase path := by
    rw [List.findIdx?_eq_some_iff_getElem]
    constructor
    · rintro ⟨hindex, hpath, hbefore⟩
      refine ⟨_, List.getElem?_eq_getElem hindex, (hsame (List.getElem_mem _)).mp hpath, ?_⟩
      intro f hf heq
      obtain ⟨k, hk, rfl⟩ := List.mem_take_iff_getElem.mp hf
      exact hbefore k (by omega) ((hsame (List.getElem_mem _)).mpr heq)
    · rintro ⟨f, hf, hpath, hbefore⟩
      obtain ⟨hindex, rfl⟩ := List.getElem?_eq_some_iff.mp hf
      refine ⟨hindex, (hsame (List.getElem_mem _)).mpr hpath, fun k hk heq => ?_⟩
      exact hbefore _ (List.mem_take_iff_getElem.mpr ⟨k, by omega, rfl⟩) ((hsame (List.getElem_mem _)).mp heq)
  constructor
  · intro h
    obtain ⟨i, hi, h⟩ := Option.bind_eq_some_iff.mp h
    obtain ⟨f, hf, h⟩ := Option.bind_eq_some_iff.mp h
    cases h
    obtain ⟨f', hf', hpath, hbefore⟩ := hfind.mp hi
    rw [hf] at hf'
    cases hf'
    exact ⟨hf, hpath, hbefore⟩
  · rintro ⟨hf, hpath, hbefore⟩
    rw [findPath?, hfind.mpr ⟨field, hf, hpath, hbefore⟩]
    simp [hf]

/-- The paths of a compiled script are in the lower case. -/
theorem foldCase_path {custom : Option CustomTypes} {script : String} (h : compileWith custom script = .ok layout)
    {f : NamedField} (hf : f ∈ layout.named) : foldCase f.path = f.path := by
  obtain ⟨ts, -, -, hscan, -⟩ := compileWith_traced h
  have hmem := List.mem_map_of_mem (f := (·.path)) hf
  rw [compileWith_paths hscan h] at hmem
  obtain ⟨site, -, hsite⟩ := List.mem_map.mp hmem
  rw [← hsite, foldCase_foldCase]

/-- A path finds the declaration that has it, unless an earlier one has the same path. Then the later
one is in a structure without a name that the earlier one is not in. -/
theorem findPath?_named {custom : Option CustomTypes} {script : String} (h : compileWith custom script = .ok layout) :
    ∃ ds places, Declaration.ofScript custom script = some ds ∧ places = Declaration.namedPlacesAll [] ds ∧
      places.map (·.field) = layout.named ∧
      (∀ index place, places[index]? = some place → (layout.findPath? place.field.path = some (index, place.field) ↔
        ∀ other ∈ places.take index, other.field.path ≠ place.field.path)) ∧
      places.Pairwise fun p q => p.field.path = q.field.path → q.Beside p := by
  obtain ⟨ts, d, ds, hscan, hds, htraced, hopened, hlayout⟩ := compileWith_traced h
  have htold := htraced.told (Token.scanFrom_written hscan)
  have hnamed : (Declaration.namedPlacesAll [] ds).map (·.field) = layout.named := by
    have hentries := htraced.named.2
    rw [hopened] at hentries
    rw [Declaration.map_field_namedPlacesAll, hlayout]
    exact hentries.symm
  refine ⟨ds, _, hds, rfl, hnamed, ?_, ?_⟩
  · intro index place hplace
    have hfield : layout.named[index]? = some place.field := by
      rw [← hnamed, List.getElem?_map, hplace]
      rfl
    rw [findPath?_eq_some (fun f => foldCase_path h), foldCase_path h (List.mem_of_getElem? hfield)]
    have hbefore : (∀ f ∈ layout.named.take index, f.path ≠ place.field.path) ↔
        ∀ other ∈ (Declaration.namedPlacesAll [] ds).take index, other.field.path ≠ place.field.path := by
      rw [← hnamed, ← List.map_take, List.forall_mem_map]
    rw [hbefore]
    exact ⟨fun hfirst => hfirst.2.2, fun hfirst => ⟨hfield, rfl, hfirst⟩⟩
  · have hnodup : ([] ++ Declaration.headsAll ds).Nodup :=
      htraced.offsets_increase.imp fun hlt heq => Nat.ne_of_lt hlt (congrArg Head.offset heq)
    have hbeside := Declaration.beside_namedPlacesAll ds (Declaration.distinct_ofScript h hds) hnodup
    refine hbeside.imp_of_mem fun hp hq hpq hpath => hpq ?_
    exact (htold.places _ hp).names_eq (htold.places _ hq) hpath

/-- A member of a structure without a name that has the path of a declaration before it is not found. -/
theorem findPath?_repeated :
    let script := "ubyte a; \x7b ubyte a; \x7d"
    ∃ layout ds first second, compileWith none script = .ok layout ∧ Declaration.ofScript none script = some ds ∧
      Declaration.namedPlacesAll [] ds = [first, second] ∧ layout.named = [first.field, second.field] ∧
      first.field.path = second.field.path ∧ layout.findPath? second.field.path ≠ some (1, second.field) ∧
      second.Beside first := by
  intro script
  have hcompiles : (compileWith none script).toOption.any fun layout => layout.named.map (·.path) == ["a", "a"] := by
    decide +kernel
  obtain ⟨layout, hlayout, hpaths⟩ := of_any_ok hcompiles
  obtain ⟨ds, places, hds, hplaces, hnamed, hfind, hbeside⟩ := findPath?_named hlayout
  rw [beq_iff_eq, ← hnamed] at hpaths
  have hlength : places.length = 2 := by simpa using congrArg List.length hpaths
  obtain ⟨first, second, rfl⟩ := List.length_eq_two.mp hlength
  have hsame : first.field.path = second.field.path := by
    simp only [List.map_cons, List.map_nil, List.cons.injEq] at hpaths
    rw [hpaths.1, hpaths.2.1]
  refine ⟨layout, ds, first, second, hlayout, hds, hplaces.symm, hnamed.symm, hsame, ?_, ?_⟩
  · exact fun hfound => (hfind 1 second rfl).mp hfound first (List.mem_singleton_self first) hsame
  · exact List.rel_of_pairwise_cons hbeside (List.mem_singleton_self second) hsame

end Layout
end LayoutScript
