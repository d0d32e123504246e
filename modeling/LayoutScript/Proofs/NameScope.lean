import Mathlib.Data.List.Induction
import LayoutScript.Proofs.LetterCase
import LayoutScript.Proofs.ScriptCode
import LayoutScript.Proofs.Scope

/-! # Where names are looked up

What a name stands for is told by the tokens before it alone: each named declaration is a site
among the structures around it, and its path at some place of the script starts behind the
innermost structure that is around both. A draft, whose paths grow as structures close, resolves
names in just this way.
-/
namespace LayoutScript

/-- A structure as it stands around others. -/
structure Enclosure where
  /-- The number of structures before it in the script. -/
  number : Nat
  name : Option String
  isArray : Bool
deriving DecidableEq

/-- A named declaration and the structures around it, the innermost first. -/
structure Site where
  around : List Enclosure
  name : String
  isStructure : Bool
  isArray : Bool
deriving DecidableEq

/-- The named declarations up to some place of a script. -/
structure Scoping where
  structures : Nat := 0
  /-- The structures around the place, the innermost first. -/
  opened : List Enclosure := []
  sites : List Site := []

def Enclosure.among (e : Enclosure) (opened : List Enclosure) : Bool := opened.any (·.number == e.number)

namespace Site

/-- The name behind those of structures, which are given from the innermost on. -/
def pathIn (inside : List Enclosure) (s : Site) : String :=
  ".".intercalate ((inside.filterMap (·.name)).reverse ++ [s.name])

/-- The path of a declaration at a place with these structures around it: it starts behind the
innermost of them that is around the declaration, too. -/
def pathFrom (opened : List Enclosure) (s : Site) : String := s.pathIn (s.around.takeWhile (!·.among opened))

/-- The declaration is in a structure array that is not around the place. -/
def inClosedArray (opened : List Enclosure) (s : Site) : Bool := s.around.any fun e => e.isArray && !e.among opened

end Site

namespace Scoping

def declare (s : Scoping) (name : Option String) (isStructure isArray : Bool) : Scoping :=
  { s with sites := s.sites ++ (name.map fun name => ⟨s.opened, name, isStructure, isArray⟩).toList }

def add (s : Scoping) : Declared → Scoping
  | .comment _ => s
  | .field _ size name => s.declare name false size.isSome
  | .opening size name =>
    { s.declare name true size.isSome with
      structures := s.structures + 1
      opened := ⟨s.structures, name, size.isSome⟩ :: s.opened }
  | .closing => { s with opened := s.opened.tail }

def of (ts : List Token) : Scoping := ts.foldl (fun s t => s.add t.declared) {}

/-- The last declaration that a name stands for, and its index among the named declarations. -/
def find? (s : Scoping) (name : String) : Option (Site × Nat) :=
  (s.sites.zipIdx.filter fun p => sameName name (p.1.pathFrom s.opened)).getLast?

/-- The index that a name stands for at a token. -/
def resolve (s : Scoping) (position : Nat) (token : String) : Resolver := fun name =>
  match s.find? name with
  | none => .ok none
  | some (site, index) =>
    let path := foldCase (site.pathFrom s.opened)
    if site.isStructure then .error (.script position token (.nonNumericSizeSource path))
    else if site.isArray || site.inClosedArray s.opened then
      .error (.script position token (.arraySizeSource path))
    else .ok (some index)

theorem of_concat (ts : List Token) (t : Token) : of (ts ++ [t]) = (of ts).add t.declared := by
  rw [of, of, List.foldl_append]
  rfl

/-- Structures that are open have different numbers, and all numbers are below that of the next
structure. -/
structure Numbered (s : Scoping) : Prop where
  distinct : (s.opened.map (·.number)).Nodup
  opened_lt : ∀ e ∈ s.opened, e.number < s.structures
  around_lt : ∀ site ∈ s.sites, ∀ e ∈ site.around, e.number < s.structures

theorem Numbered.declare {s : Scoping} (h : s.Numbered) (name : Option String) (isStructure isArray : Bool) :
    (s.declare name isStructure isArray).Numbered where
  distinct := h.distinct
  opened_lt := h.opened_lt
  around_lt := by
    intro site hsite e he
    rcases List.mem_append.mp hsite with hsite | hsite
    · exact h.around_lt site hsite e he
    · obtain ⟨_, -, rfl⟩ := Option.map_eq_some_iff.mp (Option.mem_toList.mp hsite)
      exact h.opened_lt e he

theorem Numbered.add {s : Scoping} (h : s.Numbered) (d : Declared) : (s.add d).Numbered := by
  cases d with
  | comment => exact h
  | field type size name => exact h.declare name false size.isSome
  | opening size name =>
    have hd := h.declare name true size.isSome
    refine ⟨List.nodup_cons.mpr ⟨?_, h.distinct⟩, ?_, ?_⟩
    · intro hmem
      obtain ⟨e, he, heq⟩ := List.mem_map.mp hmem
      exact absurd (h.opened_lt e he) (heq ▸ Nat.lt_irrefl _)
    · exact List.forall_mem_cons.mpr ⟨Nat.lt_succ_self _, fun e he => Nat.lt_succ_of_lt (h.opened_lt e he)⟩
    · exact fun site hsite e he => Nat.lt_succ_of_lt (hd.around_lt site hsite e he)
  | closing =>
    exact ⟨(List.tail_sublist s.opened).map _ |>.nodup h.distinct,
      fun e he => h.opened_lt e (List.mem_of_mem_tail he), h.around_lt⟩

theorem numbered_of (ts : List Token) : (of ts).Numbered := by
  induction ts using List.reverseRecOn with
  | nil => exact ⟨.nil, List.forall_mem_nil _, List.forall_mem_nil _⟩
  | append_singleton ts t ih =>
    rw [of_concat]
    exact ih.add t.declared

end Scoping

theorem foldCase_intercalate (names : List String) :
    foldCase (".".intercalate names) = ".".intercalate (names.map foldCase) := by
  induction names with
  | nil => rfl
  | cons name names ih =>
    cases names with
    | nil => rw [List.map_singleton, String.intercalate_singleton, String.intercalate_singleton]
    | cons next names =>
      rw [List.map_cons, List.map_cons, String.intercalate_cons_cons, String.intercalate_cons_cons, foldCase_append,
        foldCase_append, ih, List.map_cons]
      rfl

/-- A path behind the name of a structure, if it has one. -/
theorem foldCase_prefixed (owner : Option String) (path : String) :
    ".".intercalate ((owner.map foldCase).toList ++ [foldCase path]) =
      foldCase (".".intercalate (owner.toList ++ [path])) := by
  rw [foldCase_intercalate, List.map_append]
  cases owner <;> rfl

/-- A declaration keeps everything but its path when a structure around it closes. -/
theorem OpenStructure.owning_same (o : OpenStructure) (e : DraftEntry) :
    (o.owning e).numeric = e.numeric ∧ (o.owning e).isArray = e.isArray ∧ (o.owning e).arrayScopes = e.arrayScopes := by
  rw [owning]
  cases o.name <;> exact ⟨rfl, rfl, rfl⟩

namespace Enclosure

theorem among_iff {e : Enclosure} {opened : List Enclosure} :
    e.among opened = true ↔ e.number ∈ opened.map (·.number) := by
  simp only [among, List.any_eq_true, beq_iff_eq, List.mem_map]

theorem among_eq_false_iff {e : Enclosure} {opened : List Enclosure} :
    e.among opened = false ↔ e.number ∉ opened.map (·.number) := by
  rw [← among_iff, Bool.not_eq_true]

end Enclosure

namespace Site
variable {s : Site} {inside : List Enclosure}

/-- A structure around all others puts its name in front. -/
theorem pathIn_concat (e : Enclosure) :
    s.pathIn (inside ++ [e]) = ".".intercalate (e.name.toList ++ [s.pathIn inside]) := by
  rw [pathIn, pathIn, List.filterMap_append, List.reverse_append]
  cases hn : e.name with
  | none =>
    rw [List.filterMap_cons_none hn, Option.toList_none, List.nil_append, String.intercalate_singleton]
    rfl
  | some owner =>
    have hne : (inside.filterMap (·.name)).reverse ++ [s.name] ≠ [] := List.append_ne_nil_of_right_ne_nil _ (List.cons_ne_nil _ _)
    rw [List.filterMap_cons_some hn, Option.toList_some, List.filterMap_nil, List.reverse_singleton, List.append_assoc,
      String.intercalate_append_of_ne_nil (List.cons_ne_nil _ _) hne, List.singleton_append,
      String.intercalate_cons_cons, String.intercalate_singleton, String.intercalate_singleton]

/-- Where the structures around a declaration are some that are closed and then open ones, its
path starts behind the closed ones. -/
theorem pathFrom_eq {opened outer : List Enclosure} (hsite : s.around = inside ++ outer)
    (hclosed : ∀ e ∈ inside, e.among opened = false) (hopen : ∀ e ∈ outer, e ∈ opened) :
    s.pathFrom opened = s.pathIn inside := by
  have hinside : ∀ e ∈ inside, (!e.among opened) = true := fun e he => by rw [hclosed e he]; rfl
  rw [pathFrom, hsite, List.takeWhile_append_of_pos hinside]
  cases outer with
  | nil => rw [List.takeWhile_nil, List.append_nil]
  | cons e outer =>
    have hamong : e.among opened = true :=
      Enclosure.among_iff.mpr (List.mem_map_of_mem (hopen e (List.mem_cons_self ..)))
    rw [List.takeWhile_cons, hamong]
    simp

theorem inClosedArray_eq {opened outer : List Enclosure} (hsite : s.around = inside ++ outer)
    (hclosed : ∀ e ∈ inside, e.among opened = false) (hopen : ∀ e ∈ outer, e ∈ opened) :
    s.inClosedArray opened = inside.any (·.isArray) := by
  have houter : outer.any (fun e => e.isArray && !e.among opened) = false := by
    rw [List.any_eq_false]
    intro e he
    have hamong : e.among opened = true := Enclosure.among_iff.mpr (List.mem_map_of_mem (hopen e he))
    rw [hamong]
    simp
  rw [inClosedArray, hsite, List.any_append, houter, Bool.or_false, Bool.eq_iff_iff, List.any_eq_true, List.any_eq_true]
  constructor
  · rintro ⟨e, he, harray⟩
    rw [hclosed e he, Bool.not_false, Bool.and_true] at harray
    exact ⟨e, he, harray⟩
  · rintro ⟨e, he, harray⟩
    refine ⟨e, he, ?_⟩
    rw [hclosed e he, Bool.not_false, Bool.and_true]
    exact harray

end Site

theorem forall₂_imp_mem {α β : Type} {R S : α → β → Prop} {as : List α} {bs : List β} (h : List.Forall₂ R as bs)
    (hS : ∀ a ∈ as, ∀ b ∈ bs, R a b → S a b) : List.Forall₂ S as bs := by
  induction h with
  | nil => exact .nil
  | cons h _ ih =>
    rw [List.forall_mem_cons] at hS
    refine .cons (hS.1 _ (List.mem_cons_self ..) h) (ih fun a ha b hb => hS.2 a ha b (List.mem_cons_of_mem _ hb))

/-- A declaration of a draft as a site. The structures `es` around it are open and are `os` in
the draft, those inside them have closed. -/
structure DraftEntry.Lies (opened : List OpenStructure) (enclosing : List Enclosure) (os : List OpenStructure)
    (es inside : List Enclosure) (scopes : List Nat) (e : DraftEntry) (s : Site) : Prop where
  around : s.around = inside ++ es
  arrayScopes : e.arrayScopes = scopes ++ os.filterMap (·.arrayScope)
  path : e.field.path = foldCase (s.pathIn inside)
  numeric : e.numeric = !s.isStructure
  isArray : e.isArray = s.isArray
  closed : ∀ x ∈ inside, x.among enclosing = false
  shut : ∀ scope ∈ scopes, scope ∉ opened.filterMap (·.arrayScope)
  arrays : inside.any (·.isArray) = !scopes.isEmpty

/-- Declarations of a draft as sites, those before the members of each open structure and those
behind. -/
inductive Draft.Laid (R : List OpenStructure → List Enclosure → DraftEntry → Site → Prop) :
    List OpenStructure → List Enclosure → List DraftEntry → List Site → Prop where
  | outside {entries sites} (h : List.Forall₂ (R [] []) entries sites) : Laid R [] [] entries sites
  | inside {os es entries sites entries' sites'} {o : OpenStructure} {e : Enclosure} (h : Laid R os es entries sites)
    (hname : o.name = e.name.map foldCase) (harray : o.arrayScope.isSome = e.isArray)
    (hfirst : o.firstMember = entries.length) (hmembers : List.Forall₂ (R (o :: os) (e :: es)) entries' sites') :
    Laid R (o :: os) (e :: es) (entries ++ entries') (sites ++ sites')

namespace Draft.Laid
variable {R R' : List OpenStructure → List Enclosure → DraftEntry → Site → Prop} {os : List OpenStructure}
  {es : List Enclosure} {entries : List DraftEntry} {sites : List Site}

theorem mono (h : Laid R os es entries sites)
    (hR : ∀ os es, ∀ a ∈ entries, ∀ s ∈ sites, R os es a s → R' os es a s) : Laid R' os es entries sites := by
  induction h with
  | outside h => exact .outside (forall₂_imp_mem h (hR _ _))
  | inside _ hname harray hfirst hmembers ih =>
    refine .inside (ih ?_) hname harray hfirst (forall₂_imp_mem hmembers ?_)
    · exact fun os es a ha s hs => hR os es a (List.mem_append_left _ ha) s (List.mem_append_left _ hs)
    · exact fun a ha s hs => hR _ _ a (List.mem_append_right _ ha) s (List.mem_append_right _ hs)

/-- Declarations behind all others are members of the innermost open structure. -/
theorem append (h : Laid R os es entries sites) {entries' : List DraftEntry} {sites' : List Site}
    (h' : List.Forall₂ (R os es) entries' sites') : Laid R os es (entries ++ entries') (sites ++ sites') := by
  cases h with
  | outside h => exact .outside (List.rel_append h h')
  | inside h hname harray hfirst hmembers =>
    rw [List.append_assoc, List.append_assoc]
    exact .inside h hname harray hfirst (List.rel_append hmembers h')

theorem leave {o : OpenStructure} {e : Enclosure} (h : Laid R (o :: os) (e :: es) entries sites)
    (hR : ∀ a s, o.name = e.name.map foldCase → o.arrayScope.isSome = e.isArray →
      R (o :: os) (e :: es) a s → R os es (o.owning a) s) :
    Laid R os es (entries.take o.firstMember ++ (entries.drop o.firstMember).map o.owning) sites := by
  cases h with
  | inside h hname harray hfirst hmembers =>
    rw [hfirst, List.take_left, List.drop_left]
    refine h.append ?_
    rw [List.forall₂_map_left_iff]
    exact hmembers.imp fun a s => hR a s hname harray

/-- Each declaration is a member of the open structures from some place on. -/
theorem places (h : Laid R os es entries sites) :
    List.Forall₂ (fun a s => ∃ n, R (os.drop n) (es.drop n) a s) entries sites := by
  induction h with
  | outside h => exact h.imp fun a s h => ⟨0, h⟩
  | inside _ _ _ _ hmembers ih =>
    refine List.rel_append (ih.imp ?_) (hmembers.imp fun a s h => ⟨0, h⟩)
    rintro a s ⟨n, h⟩
    exact ⟨n + 1, h⟩

end Draft.Laid

/-- The declarations of a draft are the sites of a scoping, under the same open structures. -/
def Draft.Follows (d : Draft) (s : Scoping) : Prop :=
  Laid (fun os es e site => ∃ inside scopes, e.Lies d.opened s.opened os es inside scopes site)
    d.opened s.opened d.entries s.sites

namespace Draft.Follows
variable {d : Draft} {s : Scoping}

theorem declare (h : d.Follows s) {head : Head} {owners : List String} {name : Option String} {isStructure isArray : Bool}
    (hinfo : head.info = name.map (.inside owners · head.offset))
    (hnumeric : name.isSome = true → head.kind.isNumeric = !isStructure) (harray : decide (head.extent ≠ .one) = isArray) :
    (d.declare head).Follows (s.declare name isStructure isArray) := by
  refine Laid.append h ?_
  rw [hinfo]
  cases name with
  | none => exact .nil
  | some name =>
    refine .cons ⟨[], [], ?_⟩ .nil
    refine ⟨rfl, rfl, ?_, hnumeric rfl, harray, List.forall_mem_nil _, List.forall_mem_nil _, rfl⟩
    rw [Site.pathIn, List.filterMap_nil, List.reverse_nil, List.nil_append, String.intercalate_singleton]
    rfl

theorem enter (h : d.Follows s) (hopened : ∀ scope ∈ d.opened.filterMap (·.arrayScope), scope ≤ d.arrayScopes)
    (hscopes : ∀ e ∈ d.entries, ∀ scope ∈ e.arrayScopes, scope ≤ d.arrayScopes) (hnumbered : s.Numbered) (t : Token)
    {head : Head} {owners : List String} {size name : Option String}
    (hinfo : head.info = name.map (.inside owners · head.offset)) (hkind : head.kind = .opening)
    (harray : decide (head.extent ≠ .one) = size.isSome) : (d.enter t head).Follows (s.add (.opening size name)) := by
  have hnumeric : name.isSome = true → head.kind.isNumeric = !true := fun _ => by rw [hkind]; rfl
  have hdeclare := h.declare hinfo hnumeric harray
  have hname : (head.info.map (·.name)) = name.map foldCase := by
    rw [hinfo, Option.map_map]
    rfl
  have hscope : (if head.extent = .one then none else some (d.arrayScopes + 1)).isSome = size.isSome := by
    rw [← harray]
    by_cases hone : head.extent = .one <;> simp [hone]
  rw [Follows, ← List.append_nil (d.enter t head).entries, ← List.append_nil (s.add _).sites]
  refine .inside (hdeclare.mono ?_) hname hscope rfl .nil
  -- The number of the new structure, and that of the new array, are above all others.
  rintro os es e he site hsite ⟨inside, scopes, hlies⟩
  refine ⟨inside, scopes, { hlies with closed := ?_, shut := ?_ }⟩
  · intro x hx
    have hlt : x.number < s.structures := by
      refine (hnumbered.declare name true size.isSome).around_lt site hsite x ?_
      rw [hlies.around]
      exact List.mem_append_left _ hx
    rw [Enclosure.among_eq_false_iff]
    exact List.not_mem_cons_of_ne_of_not_mem (Nat.ne_of_lt hlt) (Enclosure.among_eq_false_iff.mp (hlies.closed x hx))
  · intro scope hs
    have hle : scope ≤ d.arrayScopes := by
      have hmem : scope ∈ e.arrayScopes := by
        rw [hlies.arrayScopes]
        exact List.mem_append_left _ hs
      rcases mem_declare he with he | ⟨-, -, -, -, heq⟩
      · exact hscopes e he scope hmem
      · exact hopened scope (heq ▸ hmem)
    have hshut := hlies.shut scope hs
    by_cases hone : head.extent = .one
    · simp only [Draft.enter, if_pos hone]
      exact hshut
    · simp only [Draft.enter, if_neg hone]
      refine List.not_mem_cons_of_ne_of_not_mem ?_ hshut
      rintro rfl
      exact Nat.not_succ_le_self _ hle

theorem leave (h : d.Follows s) (hnodup : (d.opened.filterMap (·.arrayScope)).Nodup) (hnumbered : s.Numbered)
    {inner : OpenStructure} {rest : List OpenStructure} (ho : d.opened = inner :: rest) :
    (d.leave inner rest).Follows (s.add .closing) := by
  rw [Follows, ho] at h
  rw [ho] at hnodup
  generalize hs : s.opened = around at h
  cases around with
  | nil => cases h
  | cons x outer =>
    have hclosing : (s.add .closing).opened = outer := by rw [Scoping.add, hs]; rfl
    rw [Follows, hclosing]
    have hdistinct := hnumbered.distinct
    rw [hs, List.map_cons, List.nodup_cons] at hdistinct
    have hrest : List.Sublist (rest.filterMap (·.arrayScope)) ((inner :: rest).filterMap (·.arrayScope)) :=
      (List.sublist_cons_self inner rest).filterMap _
    -- What has closed before stays closed among the structures that are left.
    have hless : Laid (fun os es e site => ∃ inside scopes, e.Lies rest outer os es inside scopes site)
        (inner :: rest) (x :: outer) d.entries s.sites := by
      refine h.mono ?_
      rintro os es e - site - ⟨inside, scopes, hlies⟩
      refine ⟨inside, scopes, { hlies with closed := ?_, shut := ?_ }⟩
      · intro y hy
        have hbefore := Enclosure.among_eq_false_iff.mp (hlies.closed y hy)
        exact Enclosure.among_eq_false_iff.mpr fun hmem => hbefore (List.mem_cons_of_mem _ hmem)
      · exact fun scope hscope hmem => hlies.shut scope hscope (hrest.subset hmem)
    refine hless.leave ?_
    rintro e site hname harray ⟨inside, scopes, hlies⟩
    obtain ⟨hnumeric, hisArray, hentryScopes⟩ := inner.owning_same e
    refine ⟨inside ++ [x], scopes ++ inner.arrayScope.toList, ?_, ?_, ?_, hnumeric.trans hlies.numeric,
      hisArray.trans hlies.isArray, ?_, ?_, ?_⟩
    · rw [hlies.around, List.append_assoc, List.singleton_append]
    · rw [hentryScopes, hlies.arrayScopes, List.append_assoc]
      cases hscope : inner.arrayScope with
      | none => rw [List.filterMap_cons_none hscope, Option.toList_none, List.nil_append]
      | some scope => rw [List.filterMap_cons_some hscope, Option.toList_some, List.singleton_append]
    · rw [OpenStructure.owning_field, hlies.path, Site.pathIn_concat, hname, foldCase_prefixed]
    · refine List.forall_mem_append.mpr ⟨hlies.closed, List.forall_mem_singleton.mpr ?_⟩
      exact Enclosure.among_eq_false_iff.mpr hdistinct.1
    · refine List.forall_mem_append.mpr ⟨hlies.shut, fun scope hscope => ?_⟩
      rw [List.filterMap_cons_some (Option.mem_toList.mp hscope)] at hnodup
      exact (List.nodup_cons.mp hnodup).1
    · rw [List.any_append, hlies.arrays, List.any_cons, List.any_nil, Bool.or_false, ← harray]
      cases inner.arrayScope <;> cases scopes <;> rfl

/-- A declaration and its site are found by the same names, and are in the same closed arrays. -/
theorem alike (h : d.Follows s) :
    List.Forall₂ (fun e site => e.field.path = foldCase (site.pathFrom s.opened) ∧ e.numeric = !site.isStructure ∧
      e.isArray = site.isArray ∧
      (!e.arrayScopes.all fun scope => d.opened.any (·.arrayScope == some scope)) = site.inClosedArray s.opened)
      d.entries s.sites := by
  refine h.places.imp ?_
  rintro e site ⟨n, inside, scopes, hlies⟩
  have hopen : ∀ x ∈ s.opened.drop n, x ∈ s.opened := fun x hx => List.mem_of_mem_drop hx
  refine ⟨?_, hlies.numeric, hlies.isArray, ?_⟩
  · rw [hlies.path, Site.pathFrom_eq hlies.around hlies.closed hopen]
  · have hos : ((d.opened.drop n).filterMap (·.arrayScope)).all (fun scope => d.opened.any (·.arrayScope == some scope)) =
        true := by
      rw [List.all_eq_true]
      intro scope hscope
      obtain ⟨o, ho, heq⟩ := List.mem_filterMap.mp hscope
      exact List.any_eq_true.mpr ⟨o, List.mem_of_mem_drop ho, beq_iff_eq.mpr heq⟩
    rw [Site.inClosedArray_eq hlies.around hlies.closed hopen, hlies.arrays, hlies.arrayScopes, List.all_append, hos,
      Bool.and_true]
    congr 1
    -- None of the arrays that have closed is open.
    cases hscopes : scopes with
    | nil => rfl
    | cons scope scopes =>
      have hshut := hlies.shut scope (hscopes ▸ List.mem_cons_self ..)
      have hnone : d.opened.any (·.arrayScope == some scope) = false := by
        rw [List.any_eq_false]
        exact fun o ho heq => hshut (List.mem_filterMap.mpr ⟨o, ho, beq_iff_eq.mp heq⟩)
      rw [List.all_cons, hnone]
      rfl

end Draft.Follows

namespace Draft
variable {custom : Option CustomTypes} {d : Draft} {owners : List String} {t : Token} {size name : Option String}
  {h : Head}

theorem fieldHead_numeric {type : TypeSpec} (hh : d.fieldHead custom owners t type size name = .ok h)
    (hname : name.isSome = true) : h.kind.isNumeric = true := by
  obtain ⟨kind, _, _, hkind, hform, -, -, rfl⟩ := fieldHead_ok hh
  obtain ⟨hopening, hclosing⟩ := kindOf_field hkind
  have hmodifier : kind.isModifier = false := by
    by_contra hm
    rw [checkForm, if_pos (Bool.not_eq_false _ ▸ hm), if_pos hname] at hform
    cases hform
  change kind.isNumeric = true
  cases kind with
  | opening => exact absurd rfl hopening
  | closing => exact absurd rfl hclosing
  | align | skip | restart => cases hmodifier
  | bit | whole | var | custom => rfl

theorem arraySpec_isArray {count : Option SizeSpec} {d' : Draft} (h : d.arraySpec t size = .ok (count, d')) :
    decide (Extent.ofSpec count ≠ .one) = size.isSome := by
  obtain ⟨-, ⟨rfl, rfl⟩ | ⟨text, x, rfl, rfl, -⟩⟩ := arraySpec_cases h
  · rfl
  · simp [Extent.ofSpec_eq_one_iff]

theorem fieldHead_isArray {type : TypeSpec} (hh : d.fieldHead custom owners t type size name = .ok h) :
    decide (h.extent ≠ .one) = size.isSome := by
  obtain ⟨_, _, count, -, -, -, hcount, rfl⟩ := fieldHead_ok hh
  exact arraySpec_isArray hcount

theorem structureHead_isArray (hh : d.structureHead owners t size name = .ok h) :
    decide (h.extent ≠ .one) = size.isSome := by
  obtain ⟨count, hcount, rfl⟩ := structureHead_ok hh
  exact arraySpec_isArray hcount

end Draft

namespace Traced
variable {custom : Option CustomTypes} {ts : List Token} {d : Draft} {o : Outline}

/-- The declarations of a draft are the sites of its tokens. -/
theorem follows (h : Traced custom ts d o) : d.Follows (.of ts) := by
  induction h with
  | start => exact .outside .nil
  | comment _ ht ih =>
    rw [Scoping.of_concat, ht]
    exact ih
  | field _ ht hh ih =>
    rw [Scoping.of_concat, ht]
    exact ih.declare (Draft.fieldHead_info hh) (Draft.fieldHead_numeric hh) (Draft.fieldHead_isArray hh)
  | opening h ht hh ih =>
    rw [Scoping.of_concat, ht]
    obtain ⟨-, hopened, hscopes⟩ := h.scopes
    exact ih.enter hopened hscopes (Scoping.numbered_of _) _ (Draft.structureHead_info hh)
      (Draft.structureHead_regular hh).2 (Draft.structureHead_isArray hh)
  | closing h ht ho ih =>
    rw [Scoping.of_concat, ht]
    exact ih.leave h.scopes.1 (Scoping.numbered_of _) ho

end Traced

/-- Searching from the end finds the last element that satisfies `p`. -/
theorem getLast?_filter_zipIdx {α : Type} (p : α → Bool) (as : List α) :
    (as.zipIdx.filter fun x => p x.1).getLast? =
      (as.reverse.findIdx? p).bind fun fromEnd =>
        (as[as.length - 1 - fromEnd]?).map fun a => (a, as.length - 1 - fromEnd) := by
  induction as using List.reverseRecOn with
  | nil => rfl
  | append_singleton as a ih =>
    rw [List.zipIdx_append, List.filter_append, List.reverse_append, List.reverse_singleton, List.singleton_append,
      List.findIdx?_cons, List.length_append, List.length_singleton]
    by_cases ha : p a
    · simp [ha]
    · rw [if_neg ha]
      have hnone : ([a].zipIdx (0 + as.length)).filter (fun x => p x.1) = [] := by simp [ha]
      rw [hnone, List.append_nil, ih]
      cases hfind : as.reverse.findIdx? p with
      | none => rfl
      | some fromEnd =>
        have hlt : fromEnd < as.length := by
          have hlength := (List.findIdx?_eq_some_iff_findIdx_eq.mp hfind).1
          rwa [List.length_reverse] at hlength
        have hindex : as.length + 1 - 1 - (fromEnd + 1) = as.length - 1 - fromEnd := by omega
        rw [Option.map_some, Option.bind_some, Option.bind_some, hindex, List.getElem?_append_left (by omega)]

theorem findIdx?_forall₂ {α β : Type} {p : α → Bool} {q : β → Bool} {as : List α} {bs : List β}
    (h : List.Forall₂ (fun a b => p a = q b) as bs) : as.findIdx? p = bs.findIdx? q := by
  induction h with
  | nil => rfl
  | cons h _ ih => rw [List.findIdx?_cons, List.findIdx?_cons, h, ih]

/-- A draft resolves names by the sites of its tokens. -/
theorem Draft.Follows.resolve_eq {d : Draft} {s : Scoping} (h : d.Follows s) (position : Nat) (token : String) :
    d.resolve position token = s.resolve position token := by
  funext name
  have halike := h.alike
  have hsame : List.Forall₂ (fun e site => (e.field.path == foldCase name) = sameName name (site.pathFrom s.opened))
      d.entries.reverse s.sites.reverse := by
    refine List.forall₂_reverse_iff.mpr (halike.imp fun e site hs => ?_)
    rw [hs.1, sameName, Bool.beq_comm]
  rw [resolve, Scoping.resolve, Scoping.find?,
    getLast?_filter_zipIdx (fun site : Site => sameName name (site.pathFrom s.opened)), findIdx?_forall₂ hsame]
  cases hfind : s.sites.reverse.findIdx? fun site => sameName name (site.pathFrom s.opened) with
  | none => rfl
  | some fromEnd =>
    have hlength := halike.length_eq
    have hlt : s.sites.length - 1 - fromEnd < s.sites.length := by
      have hless := (List.findIdx?_eq_some_iff_findIdx_eq.mp hfind).1
      rw [List.length_reverse] at hless
      omega
    have hat := halike.get (hlength ▸ hlt) hlt
    rw [Option.bind_some, List.getElem?_eq_getElem hlt, Option.map_some]
    rw [hlength]
    dsimp only
    rw [List.getElem?_eq_getElem (hlength ▸ hlt)]
    obtain ⟨hpath, hnumeric, hisArray, hclosed⟩ := hat
    rw [List.get_eq_getElem] at hpath hnumeric hisArray hclosed
    rw [List.get_eq_getElem] at hpath hnumeric hisArray hclosed
    dsimp only
    rw [hpath, hnumeric, hisArray, hclosed, Bool.not_not]

/-- Behind tokens that can be added, names are resolved by the sites of the tokens. -/
theorem Draft.resolve_of_addAll {custom : Option CustomTypes} {ts : List Token} {d : Draft}
    (hd : Draft.addAll custom {} (ts.map .ok) = .ok d) (position : Nat) (token : String) :
    d.resolve position token = (Scoping.of ts).resolve position token := by
  obtain ⟨ts', o, hts, -, htraced⟩ := Traced.addAll .start hd
  obtain rfl : ts = ts' := List.map_injective_iff.mpr (fun _ _ => Except.ok.inj) hts
  exact htraced.follows.resolve_eq position token

namespace Scoping

theorem sites_add (s : Scoping) (d : Declared) : s.sites <+: (s.add d).sites := by
  cases d with
  | comment | closing => exact List.prefix_refl _
  | field | opening => exact List.prefix_append _ _

theorem sites_of_append (ts ts' : List Token) : (of ts).sites <+: (of (ts ++ ts')).sites := by
  induction ts' using List.reverseRecOn with
  | nil => exact (List.append_nil ts).symm ▸ List.prefix_refl _
  | append_singleton ts' t ih =>
    rw [← List.append_assoc, of_concat]
    exact ih.trans (sites_add _ _)

theorem find?_getElem? {s : Scoping} {name : String} {site : Site} {index : Nat} (h : s.find? name = some (site, index)) :
    s.sites[index]? = some site := by
  have hmem := List.mem_of_mem_filter (List.mem_of_getLast? h)
  exact List.mem_zipIdx_iff_getElem?.mp hmem

end Scoping

/-- The declarations of a compiled script have the paths of the sites of its tokens. -/
theorem Layout.compileWith_paths {custom : Option CustomTypes} {script : String} {layout : Layout} {ts : List Token}
    (hscan : Token.scan ((custom.map (·.names)).getD []) script = ts.map .ok)
    (h : compileWith custom script = .ok layout) :
    layout.named.map (·.path) = (Scoping.of ts).sites.map fun site => foldCase (site.pathFrom []) := by
  obtain ⟨ts', d, ds, hscan', -, htraced, hopened, rfl⟩ := compileWith_traced h
  obtain rfl : ts = ts' := by
    rw [hscan] at hscan'
    exact List.map_injective_iff.mpr (fun _ _ => Except.ok.inj) hscan'
  have hfollows := htraced.follows
  have houter : (Scoping.of ts).opened = [] := by
    have hlaid : Draft.Laid _ d.opened (Scoping.of ts).opened _ _ := hfollows
    rw [hopened] at hlaid
    generalize (Scoping.of ts).opened = es at hlaid
    cases hlaid
    rfl
  have halike := hfollows.alike
  rw [houter] at halike
  change (d.entries.map (·.field)).map (·.path) = _
  rw [List.map_map]
  generalize d.entries = entries, (Scoping.of ts).sites = sites at halike
  induction halike with
  | nil => rfl
  | cons hsame _ ih => rw [List.map_cons, List.map_cons, ih, Function.comp_apply, hsame.1]

end LayoutScript
