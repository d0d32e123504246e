import Mathlib.Data.List.Forall2
import LayoutScript.Proofs.DraftSteps

/-! # The outline of a script

While a script is compiled, its declarations are laid out as a tree at the side: the
structures that are open, each with what stands before it, and the members so far of the
innermost one. A draft and the outline of the same tokens are traced together, one token
after the other.
-/
namespace LayoutScript

/-- The declarations of a script up to some token. -/
structure Outline where
  /-- The open structures, the innermost first, each with the declarations before it. -/
  opened : List (Head × List Declaration) := []
  members : List Declaration := []

namespace Outline

/-- The names of the open structures, the outermost first. -/
def owners (o : Outline) : List String := (o.opened.filterMap fun p => p.1.info.map (·.name)).reverse

def put (o : Outline) (h : Head) : Outline := ⟨o.opened, o.members ++ [.single h]⟩

def enter (o : Outline) (h : Head) : Outline := ⟨(h, o.members) :: o.opened, []⟩

def leave (h : Head) (before : List Declaration) (outer : List (Head × List Declaration))
    (members : List Declaration) : Outline := ⟨outer, before ++ [.nested h members]⟩

/-- Lays out a token, with its sizes as the draft of the tokens before it classifies them. -/
def add (custom : Option CustomTypes) (d : Draft) (o : Outline) (t : Token) : Option Outline :=
  match t.declared with
  | .comment _ => some o
  | .field type size name => (d.fieldHead custom o.owners t type size name).toOption.map o.put
  | .opening size name => (d.structureHead o.owners t size name).toOption.map o.enter
  | .closing =>
    match o.opened with
    | [] => none
    | (h, before) :: outer => some (leave h before outer o.members)

/-- Lays out the tokens of a script. -/
def addAll (custom : Option CustomTypes) (d : Draft) (o : Outline) : List (Except Fault Token) → Option Outline
  | [] => some o
  | .error _ :: _ => none
  | .ok t :: ts => do
    let d' ← (d.add custom t).toOption
    addAll custom d' (← o.add custom d t) ts

/-- The lines of code before the members of the innermost of some open structures. -/
def linesBefore : List (Head × List Declaration) → List CodeLine
  | [] => []
  | (h, before) :: outer => linesBefore outer ++ (Declaration.linesAll before ++ [h.line])

def lines (o : Outline) : List CodeLine := linesBefore o.opened ++ Declaration.linesAll o.members

/-- The heads before the members of the innermost of some open structures. -/
def headsBefore : List (Head × List Declaration) → List Head
  | [] => []
  | (h, before) :: outer => headsBefore outer ++ (Declaration.headsAll before ++ [h])

def heads (o : Outline) : List Head := headsBefore o.opened ++ Declaration.headsAll o.members

@[simp] theorem heads_put (o : Outline) (h : Head) : (o.put h).heads = o.heads ++ [h] := by
  simp only [heads, put, Declaration.headsAll_append, Declaration.headsAll, Declaration.heads,
    List.append_assoc, List.append_nil]

@[simp] theorem heads_enter (o : Outline) (h : Head) : (o.enter h).heads = o.heads ++ [h] := by
  simp only [heads, enter, headsBefore, Declaration.headsAll, List.append_assoc, List.append_nil]

@[simp] theorem heads_leave (h : Head) (before : List Declaration) (outer : List (Head × List Declaration))
    (members : List Declaration) :
    (leave h before outer members).heads = heads ⟨(h, before) :: outer, members⟩ := by
  simp only [heads, leave, headsBefore, Declaration.headsAll_append, Declaration.headsAll, Declaration.heads,
    List.append_assoc, List.append_nil, List.cons_append, List.nil_append]

@[simp] theorem lines_put (o : Outline) (h : Head) : (o.put h).lines = o.lines ++ [h.line] := by
  simp only [lines, put, Declaration.linesAll_append, Declaration.linesAll, Declaration.lines,
    List.append_assoc, List.append_nil]

@[simp] theorem lines_enter (o : Outline) (h : Head) : (o.enter h).lines = o.lines ++ [h.line] := by
  simp only [lines, enter, linesBefore, Declaration.linesAll, List.append_assoc, List.append_nil]

@[simp] theorem lines_leave (h : Head) (before : List Declaration) (outer : List (Head × List Declaration))
    (members : List Declaration) :
    (leave h before outer members).lines =
      lines ⟨(h, before) :: outer, members⟩ ++ [h.closing (Declaration.linesAll members)] := by
  simp only [lines, leave, linesBefore, Declaration.linesAll_append, Declaration.linesAll, Declaration.lines,
    List.append_assoc, List.append_nil, List.cons_append, List.nil_append]

end Outline

/-- The declarations of a script, if its tokens can be laid out and every structure ends. -/
def Declaration.ofScript (custom : Option CustomTypes) (script : String) : Option (List Declaration) := do
  let names := (custom.map (·.names)).getD []
  match ← Outline.addAll custom {} {} (Token.scan names script) with
  | ⟨[], ds⟩ => some ds
  | _ => none

/-- The tokens `ts` give the draft `d` and the outline `o`. -/
inductive Traced (custom : Option CustomTypes) : (ts : List Token) → (d : Draft) → (o : Outline) → Prop where
  | start : Traced custom [] {} {}
  | comment {ts d o} {t : Token} {text : String} (h : Traced custom ts d o) (ht : t.declared = .comment text) :
    Traced custom (ts ++ [t]) d o
  | field {ts d o} {t : Token} {type : TypeSpec} {size name : Option String} {head : Head}
    (h : Traced custom ts d o) (ht : t.declared = .field type size name)
    (hh : d.fieldHead custom o.owners t type size name = .ok head) :
    Traced custom (ts ++ [t]) (d.declare head) (o.put head)
  | opening {ts d o} {t : Token} {size name : Option String} {head : Head} (h : Traced custom ts d o)
    (ht : t.declared = .opening size name) (hh : d.structureHead o.owners t size name = .ok head) :
    Traced custom (ts ++ [t]) (d.enter t head) (o.enter head)
  | closing {ts d head before outer members} {t : Token} {inner : OpenStructure} {rest : List OpenStructure}
    (h : Traced custom ts d ⟨(head, before) :: outer, members⟩) (ht : t.declared = .closing)
    (ho : d.opened = inner :: rest) :
    Traced custom (ts ++ [t]) (d.leave inner rest) (.leave head before outer members)

/-- An open structure of a draft is that of an outline. -/
structure OpenStructure.Is (s : OpenStructure) (p : Head × List Declaration) : Prop where
  start : s.start = p.1.offset
  name : s.name = p.1.info.map (·.name)
  scope : s.arrayScope.isSome = decide (p.1.extent ≠ .one)

namespace Traced
variable {custom : Option CustomTypes} {ts : List Token} {d : Draft} {o : Outline}

/-- A draft and its outline have the same structures open. -/
theorem frames (h : Traced custom ts d o) : List.Forall₂ OpenStructure.Is d.opened o.opened := by
  induction h with
  | start => exact .nil
  | comment _ _ ih => exact ih
  | field _ _ _ ih => exact ih
  | @opening _ _ _ _ _ _ head _ _ _ ih =>
    refine .cons ⟨rfl, rfl, ?_⟩ ih
    by_cases he : head.extent = .one <;> simp [he]
  | closing _ _ ho ih =>
    rw [ho] at ih
    cases ih with
    | cons _ ih => exact ih

/-- A token that is added to a draft is laid out in its outline. -/
theorem add (h : Traced custom ts d o) {t : Token} {d' : Draft} (hd : d.add custom t = .ok d') :
    ∃ o', o.add custom d t = some o' ∧ Traced custom (ts ++ [t]) d' o' := by
  rcases Draft.add_cases o.owners hd with ⟨text, ht, rfl⟩ | ⟨type, size, name, head, ht, hhead, rfl⟩ |
      ⟨size, name, head, ht, hhead, rfl⟩ | ⟨inner, rest, ht, hopened, rfl⟩
  · exact ⟨o, by rw [Outline.add.eq_def, ht], .comment h ht⟩
  · refine ⟨o.put head, ?_, .field h ht hhead⟩
    rw [Outline.add.eq_def, ht]
    dsimp only
    rw [hhead]
    rfl
  · refine ⟨o.enter head, ?_, .opening h ht hhead⟩
    rw [Outline.add.eq_def, ht]
    dsimp only
    rw [hhead]
    rfl
  · have hframes := h.frames
    rw [hopened] at hframes
    obtain ⟨opened, members⟩ := o
    cases hframes with
    | @cons _ p _ outer _ _ =>
      refine ⟨.leave p.1 p.2 outer members, ?_, .closing h ht hopened⟩
      rw [Outline.add.eq_def, ht]

/-- Tokens that are added to a draft are laid out in its outline, and what each of them keeps is
kept by all. -/
theorem addAll_keeping {P : Draft → Outline → Prop}
    (hkeep : ∀ {d d' o o' t}, P d o → d.add custom t = .ok d' → o.add custom d t = some o' → P d' o')
    {tokens : List (Except Fault Token)} (h : Traced custom ts d o) (hp : P d o) {d' : Draft}
    (hd : d.addAll custom tokens = .ok d') :
    ∃ ts' o', tokens = ts'.map .ok ∧ o.addAll custom d tokens = some o' ∧ Traced custom (ts ++ ts') d' o' ∧ P d' o' := by
  induction tokens generalizing ts d o with
  | nil =>
    cases hd
    exact ⟨[], o, rfl, rfl, by simpa using h, hp⟩
  | cons token tokens ih =>
    cases token with
    | error fault => cases hd
    | ok t =>
      obtain ⟨d₁, hd₁, hd⟩ := of_bind_ok hd
      obtain ⟨o₁, ho₁, h₁⟩ := h.add hd₁
      obtain ⟨ts', o', htokens, ho', h', hp'⟩ := ih h₁ (hkeep hp hd₁ ho₁) hd
      refine ⟨t :: ts', o', by rw [htokens, List.map_cons], ?_, by simpa using h', hp'⟩
      rw [Outline.addAll, hd₁, ho₁]
      exact ho'

theorem addAll {tokens : List (Except Fault Token)} (h : Traced custom ts d o) {d' : Draft}
    (hd : d.addAll custom tokens = .ok d') :
    ∃ ts' o', tokens = ts'.map .ok ∧ o.addAll custom d tokens = some o' ∧ Traced custom (ts ++ ts') d' o' := by
  obtain ⟨ts', o', htokens, ho', h', -⟩ := h.addAll_keeping (P := fun _ _ => True) (fun _ _ _ => trivial) trivial hd
  exact ⟨ts', o', htokens, ho', h'⟩

end Traced

/-- A script that compiles is traced to its end, where no structure is open, and what adding a token
keeps holds there. -/
theorem Layout.compileWith_keeping {P : Draft → Outline → Prop} {custom : Option CustomTypes} {script : String}
    {layout : Layout} (h : compileWith custom script = .ok layout) (hstart : P {} {})
    (hkeep : ∀ {d d' o o' t}, P d o → d.add custom t = .ok d' → o.add custom d t = some o' → P d' o') :
    ∃ ts d ds, Token.scan ((custom.map (·.names)).getD []) script = ts.map .ok ∧
      Declaration.ofScript custom script = some ds ∧ Traced custom ts d ⟨[], ds⟩ ∧ P d ⟨[], ds⟩ ∧ d.opened = [] ∧
      layout = ⟨script, d.code.toList, d.entries.map (·.field), d.sizes, d.customTypes⟩ := by
  obtain ⟨d, hd, h⟩ := of_bind_ok h
  obtain ⟨ts, ⟨opened, ds⟩, hscan, houtline, htraced, hp⟩ := Traced.addAll_keeping hkeep .start hstart hd
  rw [Draft.finish] at h
  split at h
  · cases h
  · rename_i hopened
    have hframes := htraced.frames
    rw [hopened] at hframes
    cases hframes
    cases h
    refine ⟨ts, d, ds, hscan, ?_, htraced, hp, hopened, rfl⟩
    rw [Declaration.ofScript, houtline]
    rfl

theorem Layout.compileWith_traced {custom : Option CustomTypes} {script : String} {layout : Layout}
    (h : compileWith custom script = .ok layout) :
    ∃ ts d ds, Token.scan ((custom.map (·.names)).getD []) script = ts.map .ok ∧
      Declaration.ofScript custom script = some ds ∧ Traced custom ts d ⟨[], ds⟩ ∧ d.opened = [] ∧
      layout = ⟨script, d.code.toList, d.entries.map (·.field), d.sizes, d.customTypes⟩ := by
  obtain ⟨ts, d, ds, hscan, hds, htraced, -, hopened, hlayout⟩ :=
    compileWith_keeping (P := fun _ _ => True) h trivial fun _ _ _ => trivial
  exact ⟨ts, d, ds, hscan, hds, htraced, hopened, hlayout⟩

end LayoutScript
