import LayoutScript.Proofs.Outline
import LayoutScript.Proofs.SizeFaults

/-! # What sizes ask for

A size may name a declaration whose number is kept when it is read, as long as the structure
arrays around that declaration are still open. What is known at a place of a script is the
list of the offsets of such declarations: the members of a structure add to what is known
behind it, those of an array do not.
-/
namespace LayoutScript

namespace Head

/-- Whether the number of a declaration is kept when it is read. -/
def keeps (h : Head) : Bool := h.info.isSome && h.kind.isNumeric && decide (h.extent = .one)

/-- The sizes of a declaration ask for nothing but what is known; `table` has the offsets of
the named declarations. -/
def Asks (table known : List Nat) (h : Head) : Prop :=
  ∀ source ∈ h.sources, source.Over fun index => ∃ offset ∈ known, table[index]? = some offset

end Head

namespace Declaration

mutual

/-- What is known behind a declaration. -/
def after (known : List Nat) : Declaration → List Nat
  | .single h => if h.keeps then h.offset :: known else known
  | .nested h members => if h.extent = .one then afterAll known members else known

def afterAll (known : List Nat) : List Declaration → List Nat
  | [] => known
  | d :: ds => afterAll (d.after known) ds

end

mutual

/-- Every size inside a declaration asks for nothing but what is known at its place. -/
def Scoped (table known : List Nat) : Declaration → Prop
  | .single h => h.Asks table known
  | .nested h members => h.Asks table known ∧ ScopedAll table known members

def ScopedAll (table known : List Nat) : List Declaration → Prop
  | [] => True
  | d :: ds => d.Scoped table known ∧ ScopedAll table (d.after known) ds

end

theorem afterAll_append (known : List Nat) (ds ds' : List Declaration) :
    afterAll known (ds ++ ds') = afterAll (afterAll known ds) ds' := by
  induction ds generalizing known with
  | nil => rfl
  | cons d ds ih => rw [List.cons_append, afterAll, afterAll, ih]

theorem scopedAll_append {table known : List Nat} {ds ds' : List Declaration} (h : ScopedAll table known ds)
    (h' : ScopedAll table (afterAll known ds) ds') : ScopedAll table known (ds ++ ds') := by
  induction ds generalizing known with
  | nil => exact h'
  | cons d ds ih => exact ⟨h.1, ih h.2 h'⟩

end Declaration

namespace Outline
open Declaration

/-- What is known before the members of the innermost of some open structures. -/
def knownBefore : List (Head × List Declaration) → List Nat
  | [] => []
  | (_, before) :: outer => afterAll (knownBefore outer) before

def known (o : Outline) : List Nat := afterAll (knownBefore o.opened) o.members

/-- The sizes of open structures and of the declarations before them are scoped. -/
def ScopedBefore (table : List Nat) : List (Head × List Declaration) → Prop
  | [] => True
  | (h, before) :: outer =>
    h.Asks table (known ⟨outer, before⟩) ∧ ScopedAll table (knownBefore outer) before ∧ ScopedBefore table outer

def Scoped (table : List Nat) (o : Outline) : Prop :=
  ScopedAll table (knownBefore o.opened) o.members ∧ ScopedBefore table o.opened

/-- The outline with its `n` innermost structures closed. -/
def close : Nat → Outline → Outline
  | n + 1, ⟨(h, before) :: outer, members⟩ => close n (leave h before outer members)
  | _, o => o

theorem known_put (o : Outline) (h : Head) : (o.put h).known = if h.keeps then h.offset :: o.known else o.known := by
  rw [known, put, afterAll_append]
  rfl

theorem known_leave (h : Head) (before : List Declaration) (outer : List (Head × List Declaration))
    (members : List Declaration) :
    (leave h before outer members).known =
      if h.extent = .one then known ⟨(h, before) :: outer, members⟩ else known ⟨outer, before⟩ := by
  rw [known, leave, afterAll_append]
  rfl

theorem known_close_mono {opened : List (Head × List Declaration)} {members members' : List Declaration}
    (h : known ⟨opened, members⟩ ⊆ known ⟨opened, members'⟩) (n : Nat) :
    (close n ⟨opened, members⟩).known ⊆ (close n ⟨opened, members'⟩).known := by
  induction n generalizing opened members members' with
  | zero => exact h
  | succ n ih =>
    cases opened with
    | nil => exact h
    | cons p outer =>
      have hleave : known (leave p.1 p.2 outer members) ⊆ known (leave p.1 p.2 outer members') := by
        rw [known_leave, known_leave]
        by_cases hone : p.1.extent = .one
        · rw [if_pos hone, if_pos hone]
          exact h
        · rw [if_neg hone, if_neg hone]
          exact List.Subset.refl _
      exact ih hleave

theorem Scoped.put {table : List Nat} {o : Outline} (h : o.Scoped table) {head : Head}
    (hasks : head.Asks table o.known) : (o.put head).Scoped table :=
  ⟨scopedAll_append h.1 ⟨hasks, trivial⟩, h.2⟩

theorem Scoped.enter {table : List Nat} {o : Outline} (h : o.Scoped table) {head : Head}
    (hasks : head.Asks table o.known) : (o.enter head).Scoped table :=
  ⟨trivial, hasks, h⟩

theorem Scoped.leave {table : List Nat} {head : Head} {before : List Declaration}
    {outer : List (Head × List Declaration)} {members : List Declaration}
    (h : Scoped table ⟨(head, before) :: outer, members⟩) : (leave head before outer members).Scoped table := by
  obtain ⟨hmembers, hasks, hbefore, houter⟩ := h
  exact ⟨scopedAll_append hbefore ⟨⟨hasks, hmembers⟩, trivial⟩, houter⟩

end Outline

/-- A size may name the declaration while these structures are open. -/
structure DraftEntry.Usable (e : DraftEntry) (opened : List OpenStructure) : Prop where
  numeric : e.numeric = true
  single : e.isArray = false
  scopes : ∀ scope ∈ e.arrayScopes, ∃ s ∈ opened, s.arrayScope = some scope

/-- The declaration is known wherever a size may name it, now and when some of the open
structures have closed. -/
def DraftEntry.Seen (e : DraftEntry) (opened : List OpenStructure) (o : Outline) : Prop :=
  ∀ n, e.Usable (opened.drop n) → e.field.offset ∈ (o.close n).known

namespace DraftEntry.Seen
variable {e : DraftEntry} {opened : List OpenStructure} {o : Outline}

theorem put (h : e.Seen opened o) (head : Head) : e.Seen opened (o.put head) := by
  have hknown : o.known ⊆ (o.put head).known := by
    rw [Outline.known_put]
    split
    · exact List.subset_cons_self _ _
    · exact List.Subset.refl _
  exact fun n husable => Outline.known_close_mono hknown n (h n husable)

theorem enter (h : e.Seen opened o) (head : Head) {s : OpenStructure}
    (hfresh : ∀ scope ∈ e.arrayScopes, s.arrayScope ≠ some scope) : e.Seen (s :: opened) (o.enter head) := by
  intro n husable
  cases n with
  | zero =>
    refine h 0 ⟨husable.numeric, husable.single, fun scope hscope => ?_⟩
    obtain ⟨s', hs', heq⟩ := husable.scopes scope hscope
    rcases List.mem_cons.mp hs' with rfl | hs'
    · exact absurd heq (hfresh scope hscope)
    · exact ⟨s', hs', heq⟩
  | succ n =>
    have hknown : o.known ⊆ (Outline.leave head o.members o.opened []).known := by
      rw [Outline.known_leave]
      split <;> exact List.Subset.refl _
    exact Outline.known_close_mono hknown n (h n husable)

theorem leave {head : Head} {before : List Declaration} {outer : List (Head × List Declaration)}
    {members : List Declaration} {inner : OpenStructure} {rest : List OpenStructure}
    (h : e.Seen (inner :: rest) ⟨(head, before) :: outer, members⟩) :
    e.Seen rest (.leave head before outer members) :=
  fun n husable => h (n + 1) husable

/-- A declaration in all open arrays can be named no longer when one of them has closed. -/
theorem of_known {frames : List (Head × List Declaration)} {members : List Declaration}
    (hframes : List.Forall₂ OpenStructure.Is opened frames) (hnodup : (opened.filterMap (·.arrayScope)).Nodup)
    (hscopes : ∀ scope ∈ opened.filterMap (·.arrayScope), scope ∈ e.arrayScopes)
    (hknown : e.field.offset ∈ Outline.known ⟨frames, members⟩) : e.Seen opened ⟨frames, members⟩ := by
  intro n
  induction n generalizing opened frames members with
  | zero => exact fun _ => hknown
  | succ n ih =>
    intro husable
    cases hframes with
    | nil => exact hknown
    | @cons s p rest outer his hrest =>
      -- An array that closes takes its number out of the open ones, where it stands only once.
      have hone : p.1.extent = .one := by
        cases hs : s.arrayScope with
        | none =>
          have hscope := his.scope
          rw [hs] at hscope
          simpa using hscope
        | some scope =>
          rw [List.filterMap_cons_some hs] at hnodup hscopes
          obtain ⟨s', hs', heq⟩ := husable.scopes scope (hscopes scope (List.mem_cons_self ..))
          have hagain : scope ∈ rest.filterMap (·.arrayScope) :=
            List.mem_filterMap.mpr ⟨s', List.mem_of_mem_drop hs', heq⟩
          exact absurd hagain (List.nodup_cons.mp hnodup).1
      have hsub : List.Sublist (rest.filterMap (·.arrayScope)) ((s :: rest).filterMap (·.arrayScope)) :=
        (List.sublist_cons_self s rest).filterMap _
      refine ih hrest (hnodup.sublist hsub) (fun scope hscope => hscopes scope (hsub.subset hscope)) ?_ husable
      change _ ∈ (Outline.leave p.1 p.2 outer members).known
      rw [Outline.known_leave, if_pos hone]
      exact hknown

end DraftEntry.Seen

namespace Draft
variable {custom : Option CustomTypes} {d : Draft} {owners : List String} {t : Token} {size name : Option String}
  {h : Head}

/-- A size may name the declaration with this index. -/
def Offers (d : Draft) (index : Nat) : Prop := ∃ e, d.entries[index]? = some e ∧ e.Usable d.opened

theorem resolve_gives {position : Nat} {token : String} {index : Nat}
    (h : Resolver.Gives (d.resolve position token) index) : d.Offers index := by
  obtain ⟨name, h⟩ := h
  rw [resolve] at h
  split at h
  · cases h
  dsimp only at h
  split at h
  · cases h
  rename_i entry hentry
  split at h
  · cases h
  rename_i hnumeric
  split at h
  · cases h
  rename_i hopen
  cases h
  simp only [Bool.or_eq_true, not_or, Bool.not_eq_true, Bool.not_eq_false', List.all_eq_true, List.any_eq_true,
    beq_iff_eq] at hnumeric hopen
  exact ⟨entry, hentry, hnumeric, hopen.1, hopen.2⟩

theorem arraySpec_over {spec : Option SizeSpec} {d' : Draft} (h : d.arraySpec t size = .ok (spec, d')) :
    ∀ source ∈ (Extent.ofSpec spec).sources, source.Over d.Offers := by
  rw [Extent.sources_ofSpec]
  obtain ⟨-, ⟨-, rfl⟩ | ⟨text, x, -, rfl, hx⟩⟩ := arraySpec_cases h
  · exact List.forall_mem_nil _
  · intro source hsource
    rw [Option.toList_some, List.flatMap_singleton] at hsource
    exact (SizeScope.arraySize_over hx source hsource).mono fun _ => resolve_gives

theorem fieldExtra_over {kind : Kind} {type : TypeSpec} {extra : Option SizeSpec}
    (h : d.fieldExtra t kind type = .ok extra) :
    ∀ source ∈ (Amount.ofSpec (extra.getD (.fixed 0))).sources, source.Over d.Offers := by
  rw [← (fieldExtra_cases h).2.2]
  rw [fieldExtra] at h
  split at h
  · obtain ⟨spec, hspec, rfl⟩ := of_map_some_ok h
    rw [Option.toList_some, List.flatMap_singleton]
    rcases extraSpec_cases hspec with ⟨-, rfl⟩ | ⟨text, -, -, hspec⟩
    · exact List.forall_mem_nil _
    split at hspec
    · exact fun source hsource => (SizeScope.build_over hspec source hsource).mono fun _ => resolve_gives
    · obtain ⟨n, -, -, rfl⟩ := literalExtra_eq hspec
      exact List.forall_mem_nil _
  · cases h
    exact List.forall_mem_nil _

theorem fieldHead_over {type : TypeSpec} (hh : d.fieldHead custom owners t type size name = .ok h) :
    ∀ source ∈ h.sources, source.Over d.Offers := by
  obtain ⟨kind, extra, count, -, -, hextra, hcount, rfl⟩ := fieldHead_ok hh
  exact List.forall_mem_append.mpr ⟨fieldExtra_over hextra, arraySpec_over hcount⟩

theorem structureHead_over (hh : d.structureHead owners t size name = .ok h) :
    ∀ source ∈ h.sources, source.Over d.Offers := by
  obtain ⟨count, hcount, rfl⟩ := structureHead_ok hh
  exact List.forall_mem_append.mpr ⟨List.forall_mem_nil _, arraySpec_over hcount⟩

/-- The offsets of the named declarations. -/
def offsets (d : Draft) : List Nat := d.entries.map (·.field.offset)

theorem mem_declare {e : DraftEntry} (he : e ∈ (d.declare h).entries) :
    e ∈ d.entries ∨ h.info.isSome ∧ e.field.offset = h.offset ∧ e.numeric = h.kind.isNumeric ∧
      e.isArray = decide (h.extent ≠ .one) ∧ e.arrayScopes = d.opened.filterMap (·.arrayScope) := by
  rcases List.mem_append.mp he with he | he
  · exact .inl he
  · obtain ⟨f, hf, rfl⟩ := Option.map_eq_some_iff.mp (Option.mem_toList.mp he)
    rw [hf]
    exact .inr ⟨rfl, rfl, rfl, rfl, rfl⟩

theorem offsets_declare (d : Draft) (h : Head) : d.offsets <+: (d.declare h).offsets := by
  rw [offsets, offsets, declare, List.map_append]
  exact List.prefix_append _ _

/-- A declaration keeps everything but its path when a structure around it closes. -/
theorem mem_leave {inner : OpenStructure} {outer : List OpenStructure} {e : DraftEntry}
    (he : e ∈ (d.leave inner outer).entries) :
    ∃ e' ∈ d.entries, e.field.offset = e'.field.offset ∧ e.numeric = e'.numeric ∧ e.isArray = e'.isArray ∧
      e.arrayScopes = e'.arrayScopes := by
  rcases List.mem_append.mp he with he | he
  · exact ⟨e, List.mem_of_mem_take he, rfl, rfl, rfl, rfl⟩
  · obtain ⟨e', he', rfl⟩ := List.mem_map.mp he
    refine ⟨e', List.mem_of_mem_drop he', ?_⟩
    rw [OpenStructure.owning]
    cases inner.name <;> exact ⟨rfl, rfl, rfl, rfl⟩

theorem offsets_leave (d : Draft) (inner : OpenStructure) (outer : List OpenStructure) :
    (d.leave inner outer).offsets = d.offsets := by
  have howning : (fun e : DraftEntry => e.field.offset) ∘ inner.owning = fun e => e.field.offset := by
    funext e
    rw [Function.comp_apply, OpenStructure.owning]
    cases inner.name <;> rfl
  rw [offsets, offsets, leave, List.map_append, List.map_map, howning, ← List.map_append, List.take_append_drop]

end Draft

namespace Traced
variable {custom : Option CustomTypes} {ts : List Token} {d : Draft} {o : Outline}

/-- Open structure arrays have different numbers, which are not above that of the last array. -/
theorem scopes (h : Traced custom ts d o) :
    (d.opened.filterMap (·.arrayScope)).Nodup ∧
      (∀ scope ∈ d.opened.filterMap (·.arrayScope), scope ≤ d.arrayScopes) ∧
      ∀ e ∈ d.entries, ∀ scope ∈ e.arrayScopes, scope ≤ d.arrayScopes := by
  induction h with
  | start => exact ⟨.nil, List.forall_mem_nil _, List.forall_mem_nil _⟩
  | comment _ _ ih => exact ih
  | field _ _ _ ih =>
    refine ⟨ih.1, ih.2.1, fun e he => ?_⟩
    rcases Draft.mem_declare he with he | ⟨-, -, -, -, heq⟩
    · exact ih.2.2 e he
    · rw [heq]
      exact ih.2.1
  | @opening _ d _ t _ _ head _ _ _ ih =>
    obtain ⟨hnodup, hopened, hentries⟩ := ih
    have hnew : ∀ e ∈ (d.declare head).entries, ∀ scope ∈ e.arrayScopes, scope ≤ d.arrayScopes := by
      intro e he
      rcases Draft.mem_declare he with he | ⟨-, -, -, -, heq⟩
      · exact hentries e he
      · rw [heq]
        exact hopened
    by_cases hone : head.extent = .one
    · simp only [Draft.enter, if_pos hone]
      exact ⟨hnodup, hopened, hnew⟩
    · simp only [Draft.enter, if_neg hone]
      refine ⟨List.nodup_cons.mpr ⟨?_, hnodup⟩, ?_, ?_⟩
      · exact fun hmem => Nat.not_succ_le_self _ (hopened _ hmem)
      · exact List.forall_mem_cons.mpr ⟨Nat.le_refl _, fun scope hs => Nat.le_succ_of_le (hopened scope hs)⟩
      · exact fun e he scope hs => Nat.le_succ_of_le (hnew e he scope hs)
  | @closing _ d _ _ _ _ _ inner rest _ _ ho ih =>
    obtain ⟨hnodup, hopened, hentries⟩ := ih
    have hsub : List.Sublist (rest.filterMap (·.arrayScope)) (d.opened.filterMap (·.arrayScope)) := by
      rw [ho]
      exact (List.sublist_cons_self inner rest).filterMap _
    refine ⟨hnodup.sublist hsub, fun scope hs => hopened scope (hsub.subset hs), fun e he => ?_⟩
    obtain ⟨e', he', -, -, -, heq⟩ := Draft.mem_leave he
    rw [heq]
    exact hentries e' he'

/-- What a size may name is known. -/
theorem seen (h : Traced custom ts d o) : ∀ e ∈ d.entries, e.Seen d.opened o := by
  induction h with
  | start => exact List.forall_mem_nil _
  | comment _ _ ih => exact ih
  | @field _ d o _ _ _ _ head h _ _ ih =>
    intro e he
    rcases Draft.mem_declare he with he | ⟨hinfo, hoffset, hnumeric, harray, hscopes⟩
    · exact (ih e he).put head
    · -- What a size may name is exactly what reading keeps.
      intro n husable
      have hkeeps : head.keeps = true := by
        have hone : head.extent = .one := by simpa [harray] using husable.single
        rw [Head.keeps, hinfo, ← hnumeric, husable.numeric, hone]
        rfl
      have hknown : e.field.offset ∈ (o.put head).known := by
        rw [Outline.known_put, if_pos hkeeps, hoffset]
        exact List.mem_cons_self ..
      exact DraftEntry.Seen.of_known h.frames h.scopes.1 (fun scope hs => hscopes ▸ hs) hknown n husable
  | @opening _ d _ _ _ _ head h _ hh ih =>
    intro e he
    rcases Draft.mem_declare he with he | ⟨-, -, hnumeric, -, -⟩
    · -- The number of the new array is above those of all arrays so far.
      refine (ih e he).enter head fun scope hs => ?_
      have hle := h.scopes.2.2 e he scope hs
      by_cases hone : head.extent = .one
      · rw [if_pos hone]
        exact fun heq => by cases heq
      · rw [if_neg hone]
        intro heq
        cases heq
        exact Nat.not_succ_le_self _ hle
    · intro n husable
      obtain ⟨_, -, rfl⟩ := Draft.structureHead_ok hh
      rw [husable.numeric] at hnumeric
      cases hnumeric
  | closing _ _ ho ih =>
    intro e he n husable
    obtain ⟨e', he', hoffset, hnumeric, harray, hscopes⟩ := Draft.mem_leave he
    have hseen := ih e' he'
    rw [ho] at hseen
    rw [hoffset]
    exact hseen.leave n ⟨hnumeric ▸ husable.numeric, harray ▸ husable.single, hscopes ▸ husable.scopes⟩

theorem asks (h : Traced custom ts d o) {table : List Nat} (htable : d.offsets <+: table) {head : Head}
    (hover : ∀ source ∈ head.sources, source.Over d.Offers) : head.Asks table o.known := by
  refine fun source hsource => (hover source hsource).mono fun index hindex => ?_
  obtain ⟨e, he, husable⟩ := hindex
  refine ⟨e.field.offset, h.seen e (List.mem_of_getElem? he) 0 husable, ?_⟩
  obtain ⟨more, rfl⟩ := htable
  have hoffset : d.offsets[index]? = some e.field.offset := by rw [Draft.offsets, List.getElem?_map, he, Option.map_some]
  exact List.getElem?_append_left (List.getElem?_eq_some_iff.mp hoffset).1 ▸ hoffset

/-- Every size of an outline asks for nothing but what is known at its place, whatever is
declared behind it. -/
theorem outline_scoped (h : Traced custom ts d o) : ∀ table, d.offsets <+: table → o.Scoped table := by
  induction h with
  | start => exact fun _ _ => ⟨trivial, trivial⟩
  | comment _ _ ih => exact ih
  | @field _ d _ _ _ _ _ head h _ hh ih =>
    intro table htable
    have hbefore := (d.offsets_declare head).trans htable
    exact (ih table hbefore).put (h.asks hbefore (Draft.fieldHead_over hh))
  | @opening _ d _ _ _ _ head h _ hh ih =>
    intro table htable
    have hbefore := (d.offsets_declare head).trans htable
    exact (ih table hbefore).enter (h.asks hbefore (Draft.structureHead_over hh))
  | closing _ _ _ ih =>
    intro table htable
    rw [Draft.offsets_leave] at htable
    exact (ih table htable).leave

end Traced

/-- The sizes of a compiled script ask for nothing but what is known at their places. -/
theorem Traced.scopedAll {custom : Option CustomTypes} {ts : List Token} {d : Draft} {ds : List Declaration}
    (h : Traced custom ts d ⟨[], ds⟩) :
    Declaration.ScopedAll ((d.entries.map (·.field)).map (·.offset)) [] ds := by
  rw [List.map_map]
  exact (h.outline_scoped d.offsets (List.prefix_refl _)).1

end LayoutScript
