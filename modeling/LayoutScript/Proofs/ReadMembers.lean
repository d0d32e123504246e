import LayoutScript.Proofs.Checked
import LayoutScript.Proofs.JsonMembers
import LayoutScript.Proofs.LentNames
import LayoutScript.Proofs.ReadScript

/-! # The objects of field trees that are read

Reading leaves declarations out and repeats them in arrays, but it adds no names: what is read
of a script has different names where the script has. So the object of a structure is told by
its fields alone.
-/
namespace LayoutScript

/-- The value is no structure and no array of structures. -/
def Value.Flat : Value → Prop
  | .scalar _ _ | .array _ _ | .text _ => True
  | .record _ | .records _ => False

def Reply.Flat : Reply → Prop
  | .nothing => True
  | .value v | .cut v => v.Flat

section reading
variable {σ : Type} [BitSource σ]

theorem returns_readScalars (options : ReadOptions) (type : ScalarType) (count : ElementCount)
    (read : Stateful σ type.Carrier) : Returns Reply.Flat (readScalars options type count read) := by
  have harray (p : List type.Carrier × Bool) :
      Returns (σ := σ) Reply.Flat (pure (if p.2 then .cut (.array type p.1) else .value (.array type p.1))) := by
    refine .of_pure ?_
    cases p.2 <;> trivial
  cases count with
  | one => exact .after fun _ => .of_pure trivial
  | exactly | untilEnd => exact .after harray

theorem Head.returns_readValue {s : Setting σ} {h : Head} (hp : h.Plain) (r : Request) (readings : Readings) :
    Returns Reply.Flat (h.readValue s r readings) := by
  rw [readValue.eq_def]
  cases hk : h.kind with
  | var => exact absurd hk hp.1
  | custom => exact absurd hk hp.2
  | align | skip => exact .after fun _ => .after fun _ => .of_pure trivial
  | restart => exact .after fun _ => .of_pure trivial
  | whole type => exact returns_readScalars _ _ _ _
  | opening | closing => exact .of_throw _
  | bit =>
    dsimp only
    split
    · exact returns_readScalars _ _ _ _
    · exact .of_throw _

/-- A declaration that is no structure gives no field, or one with its name. -/
theorem Head.returns_readSingle {s : Setting σ} {h : Head} (hp : h.Plain) (r : Request) :
    Returns (fun y => y.fields = [] ∨ ∃ v : Value, v.Flat ∧ y.fields = [⟨h.info, v⟩]) (h.readSingle s r) := by
  have htry : Returns (fun reply? => ∀ reply, reply? = some reply → reply.Flat) (h.tryValue s r) := by
    intro run reply? run' heq reply hsome
    subst hsome
    rw [tryValue, onSource] at heq
    rcases hx : h.readValue s r run.readings run.source with ⟨fault | reply', source'⟩
    · rw [hx] at heq
      dsimp only at heq
      split at heq <;> cases heq
    · rw [hx] at heq
      cases heq
      exact returns_readValue hp r run.readings _ _ _ hx
  refine htry.bind fun reply? hflat => ?_
  cases reply? with
  | none => exact .of_pure (.inl rfl)
  | some reply =>
    have hflat := hflat reply rfl
    cases reply with
    | nothing => exact .of_pure (.inl rfl)
    | cut v => exact .of_pure (.inr ⟨v, hflat, rfl⟩)
    | value v => exact .after fun _ => .of_pure (.inr ⟨v, hflat, rfl⟩)

namespace Declaration
variable {P : List Field → Prop} {body : Stateful (Run σ) Yield}

omit [BitSource σ] in
theorem returns_readTimes (hbody : Returns (fun y => P y.fields) body) (n : Nat) :
    Returns (fun p => ∀ item ∈ p.1, P item.fields) (readTimes body n) := by
  induction n with
  | zero => exact .of_pure (List.forall_mem_nil _)
  | succ n ih =>
    refine hbody.bind fun y hy => ?_
    dsimp only
    split
    · exact .of_pure (List.forall_mem_nil _)
    · exact ih.bind fun p hp => .of_pure (List.forall_mem_cons.mpr ⟨hy, hp⟩)

theorem returns_readWhile (hbody : Returns (fun y => P y.fields) body) (options : ReadOptions) (size : Nat) :
    Returns (fun p => ∀ item ∈ p.1, P item.fields) (readWhile options body size) := by
  intro run p run' hok
  refine readWhile_induction (P := fun _ _ items _ _ => ∀ item ∈ items, P item.fields) ?_ ?_ ?_ ?_ hok
  · exact fun _ _ _ => List.forall_mem_nil _
  · exact fun _ _ _ _ _ => List.forall_mem_nil _
  · exact fun _ _ _ _ _ _ => List.forall_mem_nil _
  · intro _ run fields next items _ _ _ hy _ hitems
    exact List.forall_mem_cons.mpr ⟨hbody run _ next hy, hitems⟩

theorem returns_readElements (hbody : Returns (fun y => P y.fields) body) (options : ReadOptions) (count : ElementCount) :
    Returns (fun p => (∃ fields, P fields ∧ p.1 = .record ⟨fields⟩) ∨
      ∃ items : List Record, (∀ item ∈ items, P item.fields) ∧ p.1 = .records items)
      (readElements options count body) := by
  cases count with
  | one => exact hbody.bind fun y hy => .of_pure (.inl ⟨y.fields, hy, rfl⟩)
  | exactly n => exact (returns_readTimes hbody n).bind fun p hp => .of_pure (.inr ⟨p.1, hp, rfl⟩)
  | untilEnd => exact (returns_readWhile hbody options 0).bind fun p hp => .of_pure (.inr ⟨p.1, hp, rfl⟩)

end Declaration
end reading

theorem DistinctFrom.mono {before before' : List String} {fields : List Field} (h : DistinctFrom before fields)
    (hsub : before' ⊆ before) : DistinctFrom before' fields := by
  induction fields generalizing before before' with
  | nil => trivial
  | cons f rest ih =>
    obtain ⟨hf, hrest⟩ := h
    obtain ⟨hname, hvalue⟩ := Field.distinct_iff.mp hf
    refine ⟨Field.distinct_iff.mpr ⟨fun info hinfo hmem => hname info hinfo (hsub hmem), hvalue⟩, ih hrest ?_⟩
    exact List.append_subset.mpr ⟨List.subset_append_of_subset_left _ hsub, List.subset_append_right _ _⟩

theorem lentFields_append (fields fields' : List Field) : lentFields (fields ++ fields') = lentFields fields ++ lentFields fields' := by
  induction fields with
  | nil => rfl
  | cons f rest ih => rw [List.cons_append, lentFields, lentFields, ih, List.append_assoc]

theorem distinctFrom_append {before : List String} {fields fields' : List Field} (h : DistinctFrom before fields)
    (h' : DistinctFrom (before ++ lentFields fields) fields') : DistinctFrom before (fields ++ fields') := by
  induction fields generalizing before with
  | nil =>
    rw [lentFields, List.append_nil] at h'
    exact h'
  | cons f rest ih =>
    rw [lentFields, ← List.append_assoc] at h'
    exact ⟨h.1, ih h.2 h'⟩

theorem distinctItems_of_forall {items : List Record} (h : ∀ item ∈ items, item.Distinct) : DistinctItems items := by
  induction items with
  | nil => trivial
  | cons item items ih =>
    obtain ⟨hitem, hitems⟩ := List.forall_mem_cons.mp h
    exact ⟨hitem, ih hitems⟩

/-- The fields have different names, and lend none but those in `lent`. -/
def Lending (before lent : List String) (fields : List Field) : Prop :=
  DistinctFrom before fields ∧ lentFields fields ⊆ lent

theorem lending_nil (before lent : List String) : Lending before lent [] := ⟨trivial, List.nil_subset _⟩

theorem lending_singleton {h : Head} {v : Value} {before lent : List String} (hnew : h.New before) (hv : v.Distinct)
    (hlent : Field.lent ⟨h.info, v⟩ ⊆ lent) : Lending before lent [⟨h.info, v⟩] := by
  refine ⟨⟨⟨hnew, hv⟩, trivial⟩, ?_⟩
  rw [lentFields, lentFields, List.append_nil]
  exact hlent

theorem Value.Flat.distinct {v : Value} (h : v.Flat) : v.Distinct := by
  cases v with
  | scalar | array | text => trivial
  | record | records => exact h.elim

theorem Field.lent_eq {info : Option NamedField} {v : Value} (hv : ∀ r, v ≠ .record r) :
    Field.lent ⟨info, v⟩ = (info.map (·.name)).toList := by
  cases info with
  | some => rfl
  | none =>
    cases v with
    | record r => exact absurd rfl (hv r)
    | scalar | array | text | records => rfl

namespace Declaration
variable {σ : Type} [BitSource σ] {s : Setting σ}

mutual

/-- What is read of a declaration has the names that it declares. -/
theorem read_lending {before : List String} : (d : Declaration) → d.Formed Head.Plain → d.Distinct before →
    ∀ depth : Nat, Returns (fun y => Lending before d.lent y.fields) (d.read s depth)
  | .single h, hf, hnew, depth => by
    rw [Declaration.read]
    refine .after fun r? => ?_
    cases r? with
    | none => exact .of_pure (lending_nil _ _)
    | some r =>
      intro run y run' hok
      rcases Head.returns_readSingle hf.1 r run y run' hok with hnone | ⟨v, hflat, hone⟩
      · rw [hnone]
        exact lending_nil _ _
      · have hrecord : ∀ r, v ≠ .record r := by
          rintro r rfl
          exact hflat
        rw [hone]
        exact lending_singleton hnew hflat.distinct (Field.lent_eq hrecord ▸ List.Subset.refl _)
  | .nested h members, hf, hnew, depth => by
    rw [Declaration.read]
    refine .after fun r? => ?_
    cases r? with
    | none => exact .of_pure (lending_nil _ _)
    | some r =>
      dsimp only
      split
      · exact .of_throw _
      refine (returns_readElements (readAll_lending members hf.2.2 hnew.2 (depth + 1)) _ _).bind fun p hp =>
        .of_pure ?_
      dsimp only
      rcases hp with ⟨fields, ⟨hdistinct, hlent⟩, hp⟩ | ⟨items, hitems, hp⟩
      · rw [hp]
        refine lending_singleton hnew.1 hdistinct ?_
        rw [Declaration.lent]
        cases h.info with
        | some => exact List.Subset.refl _
        | none => exact hlent
      · rw [hp]
        have hdistinct : DistinctItems items :=
          distinctItems_of_forall fun item hitem => Record.distinct_iff.mpr (hitems item hitem).1
        have hrecord : ∀ r, Value.records items ≠ .record r := fun r heq => by cases heq
        refine lending_singleton hnew.1 hdistinct ?_
        rw [Field.lent_eq hrecord, Declaration.lent]
        cases h.info with
        | some => exact List.Subset.refl _
        | none => exact List.nil_subset _

theorem readAll_lending {before : List String} : (ds : List Declaration) → FormedAll Head.Plain ds → DistinctAll before ds →
    ∀ depth : Nat, Returns (fun y => Lending before (lentAll ds) y.fields) (readAll s depth ds)
  | [], _, _, _ => by
    rw [readAll]
    exact .of_pure (lending_nil _ _)
  | d :: ds, hf, hnew, depth => by
    rw [readAll]
    refine (read_lending d hf.1 hnew.1 depth).bind fun first hfirst => ?_
    obtain ⟨hdistinct, hlent⟩ := hfirst
    split
    · exact .of_pure ⟨hdistinct, List.subset_append_of_subset_left _ hlent⟩
    refine (readAll_lending ds hf.2 hnew.2 depth).bind fun rest hrest => .of_pure ?_
    obtain ⟨hdistinct', hlent'⟩ := hrest
    have hsub : before ++ lentFields first.fields ⊆ before ++ d.lent :=
      List.append_subset.mpr ⟨List.subset_append_left _ _, List.subset_append_of_subset_right _ hlent⟩
    refine ⟨distinctFrom_append hdistinct (hdistinct'.mono hsub), ?_⟩
    rw [lentFields_append]
    exact List.append_subset.mpr ⟨List.subset_append_of_subset_left _ hlent, List.subset_append_of_subset_right _ hlent'⟩

end

end Declaration

/-- The structures of a field tree. -/
inductive Record.Holds (tree : Record) : Record → Prop where
  | self : Holds tree tree
  | member {r inner : Record} {info : Option NamedField} (h : Holds tree r) (hf : ⟨info, .record inner⟩ ∈ r.fields) :
    Holds tree inner
  | element {r inner : Record} {info : Option NamedField} {items : List Record} (h : Holds tree r)
    (hf : ⟨info, .records items⟩ ∈ r.fields) (hi : inner ∈ items) : Holds tree inner

theorem DistinctFrom.value {before : List String} {fields : List Field} {f : Field} (h : DistinctFrom before fields)
    (hf : f ∈ fields) : f.value.Distinct := by
  induction fields generalizing before with
  | nil => cases hf
  | cons first rest ih =>
    rcases List.mem_cons.mp hf with rfl | hf
    · exact (Field.distinct_iff.mp h.1).2
    · exact ih h.2 hf

theorem DistinctItems.item {items : List Record} {item : Record} (h : DistinctItems items) (hi : item ∈ items) :
    item.Distinct := by
  induction items with
  | nil => cases hi
  | cons first rest ih =>
    rcases List.mem_cons.mp hi with rfl | hi
    · exact h.1
    · exact ih h.2 hi

theorem Record.Holds.distinct {tree r : Record} (h : tree.Holds r) (htree : tree.Distinct) : r.Distinct := by
  induction h with
  | self => exact htree
  | @member r inner info _ hf ih =>
    have hinner : Value.Distinct (.record inner) := (Record.distinct_iff.mp ih).value hf
    exact hinner
  | @element r inner info items _ hf hi ih =>
    have hitems : Value.Distinct (.records items) := (Record.distinct_iff.mp ih).value hf
    exact DistinctItems.item hitems hi

/-- Each structure that a compiled script reads becomes an object of those of its fields that none
behind them overwrites. Names overwrite each other only where the later one stands in an anonymous
structure and the earlier one outside of it, positions only where they count in different
structures, and a name overwrites a position, or the other way round, where it reads like it. -/
theorem Layout.toJson_read {custom : Option CustomTypes} {script : String} {layout : Layout}
    (h : compileWith custom script = .ok layout) (hcustom : layout.customTypes = [])
    (hvar : ∀ lines, layout.lines = .ok lines → ∀ line ∈ lines, line.kind ≠ .var) {σ : Type} [BitSource σ]
    {options : ReadOptions} {collaborators : Collaborators σ} {source : σ} {tree : Record} {run : Run σ}
    (hok : Setting.read ⟨layout, options, collaborators⟩ source = (.ok tree, run)) {r : Record} (hr : tree.Holds r) :
    ∃ members, r.toJson = .object members ∧ members.Pairwise (·.1 < ·.1) ∧
      (∀ key value, (key, value) ∈ members ↔ ∃ before f after, r.merged = before ++ f :: after ∧
        f.key = key ∧ f.value.toJson = value ∧ ∀ g ∈ after, ¬ g.Overwrites f) ∧
      (members.length = r.merged.length ↔ r.merged.Pairwise fun f g => ¬ g.Overwrites f) := by
  obtain ⟨ts, d, ds, -, hds, htraced, hopened, rfl⟩ := compileWith_traced h
  have hof := htraced.isOf hopened (by rw [show d.customTypes = [] from hcustom]; exact Nat.zero_le _) script
  rw [IsOf.read_eq _ hof] at hok
  obtain ⟨y, run₁, hy, hok⟩ := Stateful.of_bind_ok hok
  cases hok
  have hdistinct := Declaration.distinct_ofScript h hds
  have hlending := Declaration.readAll_lending ds (hof.plain hcustom hvar) hdistinct 0 _ y run hy
  exact Record.toJson_members (hr.distinct hlending.1)

/-- An anonymous structure behind a field without a name overwrites it. -/
theorem Layout.toJson_read_overwritten :
    let script := "ubyte; \x7b ubyte; \x7d"
    ∃ layout tree run members, compileWith none script = .ok layout ∧ layout.customTypes = [] ∧
      (∀ lines, layout.lines = .ok lines → ∀ line ∈ lines, line.kind ≠ .var) ∧
      layout.readBytes [1, 2] {} {} = (.ok tree, run) ∧ tree.Holds tree ∧ tree.merged.length = 2 ∧
      tree.toJson = .object members ∧ members.length ≠ 2 ∧ tree.toJson.render .compact = "\x7b\"_0\":2\x7d" := by
  intro script
  have hcompiles : (compileWith none script).toOption.any (fun layout => layout.customTypes.isEmpty &&
      layout.lines.toOption.any (·.all (·.kind != .var)) &&
      (layout.readBytes [1, 2] {} {}).1.toOption.any fun tree =>
        tree.merged.map (fun f => (f.around, f.position, f.info.isSome)) = [([], 0, false), ([1], 0, false)] &&
        tree.toJson.render .compact = "\x7b\"_0\":2\x7d") = true := by decide +kernel
  obtain ⟨layout, hlayout, hchecks⟩ := of_any_ok hcompiles
  simp only [Bool.and_eq_true] at hchecks
  obtain ⟨⟨hcustom, hlines⟩, hread⟩ := hchecks
  have hvar : ∀ lines, layout.lines = .ok lines → ∀ line ∈ lines, line.kind ≠ .var := fun lines heq line hm =>
    bne_iff_ne.mp (forall_mem_of_any_all hlines lines heq line hm)
  rcases hrun : layout.readBytes [1, 2] {} {} with ⟨outcome, run⟩
  rw [hrun] at hread
  obtain ⟨tree, rfl, htree⟩ := of_any_ok hread
  simp only [Bool.and_eq_true, decide_eq_true_eq] at htree
  obtain ⟨hmerged, htext⟩ := htree
  obtain ⟨members, hobject, -, -, hlength⟩ :=
    toJson_read hlayout (List.isEmpty_iff.mp hcustom) hvar hrun (.self : tree.Holds tree)
  have htwo : tree.merged.length = 2 := by
    have hcount := congrArg List.length hmerged
    rwa [List.length_map] at hcount
  refine ⟨layout, tree, run, members, hlayout, List.isEmpty_iff.mp hcustom, hvar, hrun, .self, htwo, hobject, ?_, htext⟩
  intro hall
  rw [htwo] at hlength
  have hkept := hlength.mp hall
  obtain ⟨f, rest, heq, hf, hrest⟩ := List.map_eq_cons_iff.mp hmerged
  obtain ⟨g, rest, rfl, hg, -⟩ := List.map_eq_cons_iff.mp hrest
  rw [heq] at hkept
  refine (List.pairwise_cons.mp hkept).1 g (List.mem_cons_self ..) ?_
  simp only [Prod.mk.injEq, Option.isSome_eq_false_iff, Option.isNone_iff_eq_none] at hf hg
  rw [MergedField.Overwrites, hf.2.2, hg.2.2]
  refine ⟨hg.2.1.trans hf.2.1.symm, ?_⟩
  rw [hf.1, hg.1]
  exact List.cons_ne_nil _ _

end LayoutScript
