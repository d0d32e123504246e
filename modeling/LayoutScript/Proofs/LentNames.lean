import LayoutScript.Proofs.ScriptCode

/-! # Names in one structure

A script declares no name that stands before it in the same structure, or in an anonymous
structure there. Names before an anonymous structure may stand in it again.
-/
namespace LayoutScript

/-- The name of a declaration differs from those before it. -/
def Head.New (before : List String) (h : Head) : Prop := ∀ info, h.info = some info → info.name ∉ before

namespace Declaration

mutual

/-- The names that a declaration lends to the structure around it. -/
def lent : Declaration → List String
  | .single h => (h.info.map (·.name)).toList
  | .nested h members =>
    match h.info with
    | some info => [info.name]
    | none => lentAll members

def lentAll : List Declaration → List String
  | [] => []
  | d :: ds => d.lent ++ lentAll ds

end

mutual

/-- The name of a declaration differs from those before it, and so do those of all its members. -/
def Distinct (before : List String) : Declaration → Prop
  | .single h => h.New before
  | .nested h members => h.New before ∧ DistinctAll [] members

def DistinctAll (before : List String) : List Declaration → Prop
  | [] => True
  | d :: ds => d.Distinct before ∧ DistinctAll (before ++ d.lent) ds

end

theorem lentAll_append (ds ds' : List Declaration) : lentAll (ds ++ ds') = lentAll ds ++ lentAll ds' := by
  induction ds with
  | nil => rfl
  | cons d ds ih => rw [List.cons_append, lentAll, lentAll, ih, List.append_assoc]

theorem distinctAll_concat {before : List String} {ds : List Declaration} {d : Declaration} :
    DistinctAll before (ds ++ [d]) ↔ DistinctAll before ds ∧ d.Distinct (before ++ lentAll ds) := by
  induction ds generalizing before with
  | nil =>
    rw [List.nil_append, DistinctAll, DistinctAll, DistinctAll, lentAll, List.append_nil, and_true, true_and]
  | cons d' ds ih => rw [List.cons_append, DistinctAll, DistinctAll, ih, lentAll, List.append_assoc, and_assoc]

/-- The declarations have different names, and all of them are among some paths. -/
structure Listed (ds : List Declaration) (paths : List String) : Prop where
  distinct : DistinctAll [] ds
  lent : lentAll ds ⊆ paths

namespace Listed
variable {ds : List Declaration} {paths : List String}

/-- A declaration with a name that is not among the paths puts it there. -/
theorem concat (h : Listed ds paths) {d : Declaration} (hd : d.Distinct paths) {more : List String} (hmore : d.lent ⊆ more) :
    Listed (ds ++ [d]) (paths ++ more) where
  distinct := by
    refine distinctAll_concat.mpr ⟨h.distinct, ?_⟩
    rw [List.nil_append]
    cases d with
    | single => exact fun info hinfo hmem => hd info hinfo (h.lent hmem)
    | nested => exact ⟨fun info hinfo hmem => hd.1 info hinfo (h.lent hmem), hd.2⟩
  lent := by
    rw [lentAll_append, lentAll, lentAll, List.append_nil]
    exact List.append_subset.mpr ⟨List.subset_append_of_subset_left _ h.lent, List.subset_append_of_subset_right _ hmore⟩

/-- A structure gets its members. A structure without a name lends their names. -/
theorem fill {head : Head} (h : Listed (ds ++ [.nested head []]) paths) {members : List Declaration} {paths' : List String}
    (hmembers : Listed members paths') {more : List String} (hmore : head.info = none → more = paths') :
    Listed (ds ++ [.nested head members]) (paths ++ more) := by
  obtain ⟨hdistinct, hlent⟩ := h
  obtain ⟨hbefore, hhead⟩ := distinctAll_concat.mp hdistinct
  rw [lentAll_append, lentAll, lentAll, List.append_nil] at hlent
  refine ⟨distinctAll_concat.mpr ⟨hbefore, hhead.1, hmembers.distinct⟩, ?_⟩
  rw [lentAll_append, lentAll, lentAll, List.append_nil]
  refine List.append_subset.mpr ⟨?_, ?_⟩
  · exact List.Subset.trans (List.append_subset.mp hlent).1 (List.subset_append_left _ _)
  · have hname := (List.append_subset.mp hlent).2
    rw [Declaration.lent] at hname ⊢
    cases hinfo : head.info with
    | some info =>
      rw [hinfo] at hname
      exact List.Subset.trans hname (List.subset_append_left _ _)
    | none =>
      rw [hmore hinfo]
      exact List.Subset.trans hmembers.lent (List.subset_append_right _ _)

end Listed

end Declaration

/-- The declarations in each open structure have different names, which are among the paths of the
named declarations behind its beginning. -/
inductive Outline.Listed : List OpenStructure → Outline → List String → Prop where
  | outside {members paths} (h : Declaration.Listed members paths) : Listed [] ⟨[], members⟩ paths
  | inside {os head before outer members paths paths'} {o : OpenStructure}
    (h : Listed os ⟨outer, before ++ [.nested head []]⟩ paths) (hname : o.name = head.info.map (·.name))
    (hfirst : o.firstMember = paths.length) (hmembers : Declaration.Listed members paths') :
    Listed (o :: os) ⟨(head, before) :: outer, members⟩ (paths ++ paths')

/-- What stands in the innermost open structure may change with the paths behind it. -/
theorem Outline.Listed.change {os : List OpenStructure} {opened : List (Head × List Declaration)}
    {members members' : List Declaration} {paths more : List String} (h : Listed os ⟨opened, members⟩ paths)
    (hmembers : ∀ inner, inner = paths.drop ((os.head?.map (·.firstMember)).getD 0) →
      Declaration.Listed members inner → Declaration.Listed members' (inner ++ more)) :
    Listed os ⟨opened, members'⟩ (paths ++ more) := by
  cases h with
  | outside h => exact .outside (hmembers _ rfl h)
  | inside h hname hfirst hinner =>
    rw [List.append_assoc]
    refine .inside h hname hfirst (hmembers _ ?_ hinner)
    rw [List.head?_cons, Option.map_some, Option.getD_some, hfirst, List.drop_left]

namespace Draft

def paths (d : Draft) : List String := d.entries.map (·.field.path)

/-- The paths from which a new name has to differ. -/
def memberPaths (d : Draft) : List String := d.paths.drop d.firstMember

/-- The declarations of an outline have different names as the draft tells. -/
def Lists (d : Draft) (o : Outline) : Prop := Outline.Listed d.opened o d.paths

variable {custom : Option CustomTypes} {d d' : Draft} {o : Outline} {t : Token} {size name : Option String}

theorem registerNamed_new {numeric isArray : Bool} (h : d.registerNamed t name numeric isArray = .ok d') :
    ∀ n, name = some n → foldCase n ∉ d.memberPaths := by
  rintro n rfl hmem
  rw [registerNamed, register] at h
  split at h
  · cases h
  · rename_i hnone
    rw [memberPaths, paths, ← List.map_drop] at hmem
    obtain ⟨e, he, heq⟩ := List.mem_map.mp hmem
    exact hnone (List.any_eq_true.mpr ⟨e, he, beq_iff_eq.mpr heq⟩)

theorem addField_new {type : TypeSpec} (h : d.addField custom t type size name = .ok d') :
    ∀ n, name = some n → foldCase n ∉ d.memberPaths := by
  rw [addField_def] at h
  obtain ⟨kind, -, h⟩ := of_bind_ok h
  obtain ⟨_, -, h⟩ := of_bind_ok h
  obtain ⟨extra, -, h⟩ := of_bind_ok h
  rw [addKind] at h
  obtain ⟨⟨count, d₁⟩, hcount, h⟩ := of_bind_ok h
  obtain ⟨rfl, -⟩ := arraySpec_cases hcount
  dsimp only at h
  split at h
  · cases h
  obtain ⟨d₂, hd₂, -⟩ := of_bind_ok h
  have hnew := registerNamed_new hd₂
  exact hnew

theorem openStructure_new (h : d.openStructure t size name = .ok d') :
    ∀ n, name = some n → foldCase n ∉ d.memberPaths := by
  rw [openStructure] at h
  obtain ⟨⟨count, d₁⟩, hcount, h⟩ := of_bind_ok h
  obtain ⟨rfl, -⟩ := arraySpec_cases hcount
  obtain ⟨d₂, hd₂, -⟩ := of_bind_ok h
  have hnew := registerNamed_new hd₂
  exact hnew

theorem head_new {h : Head} {owners : List String} (hinfo : h.info = name.map (.inside owners · h.offset))
    (hnew : ∀ n, name = some n → foldCase n ∉ d.memberPaths) : h.New d.memberPaths := by
  intro info hsome
  rw [hinfo] at hsome
  obtain ⟨n, hn, rfl⟩ := Option.map_eq_some_iff.mp hsome
  exact hnew n hn

theorem paths_declare (d : Draft) (h : Head) : (d.declare h).paths = d.paths ++ (h.info.map (·.name)).toList := by
  rw [paths, declare, List.map_append]
  cases h.info <;> rfl

namespace Lists

theorem put (h : d.Lists o) {head : Head} (hnew : head.New d.memberPaths) : (d.declare head).Lists (o.put head) := by
  rw [Lists, paths_declare]
  refine Outline.Listed.change h fun inner hinner hmembers => ?_
  exact hmembers.concat (d := .single head) (hinner ▸ hnew) (List.Subset.refl _)

theorem enter (h : d.Lists o) {head : Head} (hnew : head.New d.memberPaths) (t : Token) :
    (d.enter t head).Lists (o.enter head) := by
  have hlent : Declaration.lent (.nested head []) ⊆ (head.info.map (·.name)).toList := by
    rw [Declaration.lent]
    cases head.info <;> exact List.Subset.refl _
  have hdeclared : Outline.Listed d.opened ⟨o.opened, o.members ++ [.nested head []]⟩ (d.declare head).paths := by
    rw [paths_declare]
    refine Outline.Listed.change h fun inner hinner hmembers => ?_
    exact hmembers.concat (d := .nested head []) ⟨hinner ▸ hnew, trivial⟩ hlent
  have hlength : (d.declare head).paths.length = (d.declare head).entries.length := List.length_map _
  have hnone : Declaration.Listed [] [] := ⟨trivial, List.nil_subset _⟩
  have hinside := hdeclared.inside (o := (d.enter t head).opened.head (List.cons_ne_nil _ _)) rfl hlength.symm hnone
  rw [List.append_nil] at hinside
  exact hinside

theorem leave {head : Head} {before members : List Declaration} {outer : List (Head × List Declaration)}
    {inner : OpenStructure} {rest : List OpenStructure} (h : d.Lists ⟨(head, before) :: outer, members⟩)
    (ho : d.opened = inner :: rest) : (d.leave inner rest).Lists (.leave head before outer members) := by
  rw [Lists, ho] at h
  generalize hpaths : d.paths = paths at h
  cases h with
  | @inside _ _ _ _ _ paths paths' _ h hname hfirst hmembers =>
    change d.entries.map (·.field.path) = paths ++ paths' at hpaths
    have hfront : (d.entries.take inner.firstMember).map (·.field.path) = paths := by
      rw [List.map_take, hpaths, hfirst, List.take_left]
    have hback : (d.entries.drop inner.firstMember).map (·.field.path) = paths' := by
      rw [List.map_drop, hpaths, hfirst, List.drop_left]
    rw [Lists, Draft.paths, Draft.leave, List.map_append, hfront]
    refine h.change fun _ _ hbefore => hbefore.fill hmembers fun hinfo => ?_
    have howning : inner.owning = id := by
      funext e
      rw [hinfo] at hname
      rw [OpenStructure.owning, hname]
      rfl
    rw [howning, List.map_id, hback]

/-- Adding a token keeps names different. -/
theorem add (h : d.Lists o) {o' : Outline} (hd : d.add custom t = .ok d') (ho : o.add custom d t = some o') :
    d'.Lists o' := by
  rw [Outline.add.eq_def] at ho
  rcases Draft.add_cases o.owners hd with ⟨text, ht, rfl⟩ | ⟨type, size, name, head, ht, hhead, rfl⟩ |
      ⟨size, name, head, ht, hhead, rfl⟩ | ⟨inner, rest, ht, hopened, rfl⟩
  · rw [ht] at ho
    cases ho
    exact h
  · rw [ht] at ho
    dsimp only at ho
    rw [hhead] at ho
    cases ho
    refine h.put (head_new (fieldHead_info hhead) ?_)
    rw [Draft.add.eq_def, ht] at hd
    dsimp only at hd
    split at hd
    · cases hd
    · exact addField_new hd
  · rw [ht] at ho
    dsimp only at ho
    rw [hhead] at ho
    cases ho
    refine h.enter (head_new (structureHead_info hhead) ?_) t
    rw [Draft.add.eq_def, ht] at hd
    dsimp only at hd
    split at hd
    · cases hd
    · exact openStructure_new hd
  · rw [ht] at ho
    obtain ⟨opened, members⟩ := o
    cases opened with
    | nil => cases ho
    | cons frame outer =>
      cases ho
      exact h.leave hopened

end Lists
end Draft

/-- In a compiled script names in one structure differ. -/
theorem Declaration.distinct_ofScript {custom : Option CustomTypes} {script : String} {layout : Layout} {ds : List Declaration}
    (h : Layout.compileWith custom script = .ok layout) (hds : ofScript custom script = some ds) : DistinctAll [] ds := by
  have hstart : Draft.Lists {} {} := .outside ⟨trivial, List.nil_subset _⟩
  obtain ⟨_, d, ds', -, hds', -, hlists, -, -⟩ :=
    Layout.compileWith_keeping h hstart fun hlists hd ho => hlists.add hd ho
  rw [hds] at hds'
  cases hds'
  rw [Draft.Lists] at hlists
  generalize d.opened = os, d.paths = paths at hlists
  cases hlists with
  | outside h => exact h.distinct

end LayoutScript
