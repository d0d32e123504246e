import LayoutScript.Proofs.ScriptCode

/-! # The array up to the end of the input comes last

Code has at most one array that goes on to the end of the input, and nothing but ends of
structures behind it. A draft remembers how many structures were open around it and takes no
declaration while no more than these are open.
-/
namespace LayoutScript

namespace CodeLine

/-- Goes from inside a structure, with `inner` structures open inside it, over lines of code.
Gives the number of structures that are open inside it then, or none behind its end, and the
lines behind its end. -/
def leaving : (inner : Nat) → List CodeLine → Option Nat × List CodeLine
  | inner, [] => (some inner, [])
  | inner, line :: lines =>
    match line.kind, inner with
    | .closing, 0 => (none, lines)
    | .closing, inner + 1 => leaving inner lines
    | .opening, inner => leaving (inner + 1) lines
    | _, inner => leaving inner lines

/-- The lines behind a declaration, those of its members and its end apart, and what is open of it
behind them. -/
def behind (line : CodeLine) (lines : List CodeLine) : Option Nat × List CodeLine :=
  if line.kind = .opening then leaving 0 lines else (none, lines)

theorem leaving_append (inner : Nat) (lines lines' : List CodeLine) :
    leaving inner (lines ++ lines') =
      match leaving inner lines with
      | (some inner', _) => leaving inner' lines'
      | (none, rest) => (none, rest ++ lines') := by
  induction lines generalizing inner with
  | nil => rfl
  | cons line lines ih =>
    rw [List.cons_append, leaving.eq_def, leaving.eq_def inner (line :: lines)]
    dsimp only
    split
    · rfl
    all_goals exact ih _

theorem behind_concat (line next : CodeLine) (lines : List CodeLine) :
    line.behind (lines ++ [next]) =
      match line.behind lines with
      | (some inner, _) => leaving inner [next]
      | (none, rest) => (none, rest ++ [next]) := by
  rw [behind, behind]
  split
  · exact leaving_append 0 lines [next]
  · rfl

/-- The number of open structures behind one more declaration. -/
def deeper (line : CodeLine) (depth : Nat) : Nat := if line.kind = .opening then depth + 1 else depth

theorem leaving_declaration {line : CodeLine} (h : line.kind ≠ .closing) (inner : Nat) :
    leaving inner [line] = (some (line.deeper inner), []) := by
  cases hk : line.kind <;> first | exact absurd hk h | simp [leaving, deeper, hk]

theorem leaving_closing {line : CodeLine} (h : line.kind = .closing) (inner : Nat) :
    leaving inner [line] = (if inner = 0 then none else some (inner - 1), []) := by
  cases inner <;> simp [leaving, h]

/-- There is no array up to the end of the input, or one with `around` structures around it. Behind
that one nothing but structures end, once no more than `around` of the `depth` open ones are left. -/
inductive Trails : (around : Option Nat) → (depth : Nat) → List CodeLine → Prop
  | without {depth lines} (h : ∀ line ∈ lines, line.instruction.count ≠ .wholeStream) : Trails none depth lines
  | last {around depth before line after} (hline : line.instruction.count = .wholeStream)
    (hbefore : ∀ l ∈ before, l.instruction.count ≠ .wholeStream)
    (hafter : ∀ l ∈ after, l.instruction.count ≠ .wholeStream)
    (hopen : (line.behind after).1 = if around < depth then some (depth - (around + 1)) else none)
    (hclosing : ∀ l ∈ (line.behind after).2, l.kind = .closing) :
    Trails (some around) depth (before ++ line :: after)

namespace Trails
variable {around : Option Nat} {depth : Nat} {lines : List CodeLine} {line : CodeLine}

/-- A declaration comes behind the array only inside it. -/
theorem put (h : Trails around depth lines) (hinside : ∀ k, around = some k → k < depth)
    (hcount : line.instruction.count ≠ .wholeStream) (hkind : line.kind ≠ .closing) :
    Trails around (line.deeper depth) (lines ++ [line]) := by
  cases h with
  | without h => exact .without (List.forall_mem_append.mpr ⟨h, List.forall_mem_singleton.mpr hcount⟩)
  | @last k _ before whole after hwhole hbefore hafter hopen hclosing =>
    have hless := hinside k rfl
    rw [if_pos hless] at hopen
    rcases hplace : whole.behind after with ⟨inner?, rest⟩
    rw [hplace] at hopen
    obtain rfl : inner? = some (depth - (k + 1)) := hopen
    have hnext : whole.behind (after ++ [line]) = (some (line.deeper depth - (k + 1)), []) := by
      have hshift : line.deeper (depth - (k + 1)) = line.deeper depth - (k + 1) := by
        rw [deeper, deeper]
        split <;> omega
      rw [behind_concat, hplace, ← hshift]
      exact leaving_declaration hkind _
    have hdeeper : k < line.deeper depth := by
      rw [deeper]
      split <;> omega
    rw [List.append_assoc, List.cons_append]
    refine .last hwhole hbefore (List.forall_mem_append.mpr ⟨hafter, List.forall_mem_singleton.mpr hcount⟩) ?_ ?_
    · rw [hnext, if_pos hdeeper]
    · rw [hnext]
      exact List.forall_mem_nil _

/-- The array is declared once. -/
theorem start (h : Trails none depth lines) (hcount : line.instruction.count = .wholeStream) :
    Trails (some depth) (line.deeper depth) (lines ++ [line]) := by
  cases h with
  | without h =>
    refine .last hcount h (List.forall_mem_nil _) ?_ ?_
    · rw [behind, deeper]
      split
      · rw [if_pos (Nat.lt_succ_self depth), Nat.sub_self]
        rfl
      · rw [if_neg (Nat.lt_irrefl depth)]
    · rw [behind]
      split <;> exact List.forall_mem_nil _

theorem close (h : Trails around (depth + 1) lines) (hcount : line.instruction.count ≠ .wholeStream)
    (hkind : line.kind = .closing) : Trails around depth (lines ++ [line]) := by
  cases h with
  | without h => exact .without (List.forall_mem_append.mpr ⟨h, List.forall_mem_singleton.mpr hcount⟩)
  | @last k _ before whole after hwhole hbefore hafter hopen hclosing =>
    rw [List.append_assoc, List.cons_append]
    have hnext := behind_concat whole line after
    rcases hplace : whole.behind after with ⟨inner?, rest⟩
    rw [hplace] at hopen hclosing hnext
    obtain rfl : inner? = _ := hopen
    have hafter' := List.forall_mem_append.mpr ⟨hafter, List.forall_mem_singleton.mpr hcount⟩
    by_cases hinside : k < depth + 1
    · rw [if_pos hinside] at hnext
      dsimp only at hnext
      rw [leaving_closing hkind] at hnext
      refine .last hwhole hbefore hafter' ?_ (by rw [hnext]; exact List.forall_mem_nil _)
      rw [hnext]
      by_cases hends : k < depth
      · rw [if_pos hends, if_neg (by omega)]
        exact congrArg some (by omega)
      · rw [if_neg hends, if_pos (by omega)]
    · rw [if_neg hinside] at hnext
      refine .last hwhole hbefore hafter' ?_ ?_
      · rw [hnext, if_neg (by omega)]
      · rw [hnext]
        exact List.forall_mem_append.mpr ⟨hclosing, List.forall_mem_singleton.mpr hkind⟩

/-- There is one such array at most, and nothing but ends of structures behind it. -/
theorem length_le (h : Trails around depth lines) :
    (lines.filter (·.instruction.count = .wholeStream)).length ≤ 1 := by
  have hnone : ∀ {lines : List CodeLine}, (∀ l ∈ lines, l.instruction.count ≠ .wholeStream) →
      lines.filter (·.instruction.count = .wholeStream) = [] := fun h =>
    List.filter_eq_nil_iff.mpr fun l hl => by simpa using h l hl
  cases h with
  | without h =>
    rw [hnone h]
    exact Nat.zero_le 1
  | last hline hbefore hafter =>
    rw [List.filter_append, hnone hbefore, List.filter_cons_of_pos (by simpa using hline), hnone hafter]
    exact Nat.le_refl 1

theorem closing_behind (h : Trails around 0 lines) {before after : List CodeLine}
    (hlines : lines = before ++ line :: after) (hcount : line.instruction.count = .wholeStream) :
    (line.behind after).1 = none ∧ ∀ l ∈ (line.behind after).2, l.kind = .closing := by
  have hmem : line ∈ lines := by
    rw [hlines]
    exact List.mem_append_right _ (List.mem_cons_self ..)
  cases h with
  | without h => exact absurd hcount (h line hmem)
  | @last _ _ before' line' after' hline hbefore hafter hopen hclosing =>
    have hnotBefore : line ∉ before' := fun hm => hbefore line hm hcount
    have hnotAfter : line ∉ after' := fun hm => hafter line hm hcount
    obtain ⟨-, rfl, rfl⟩ := (List.append_cons_inj_of_notMem hnotBefore hnotAfter).mp hlines
    exact ⟨hopen.trans (if_neg (Nat.not_lt_zero _)), hclosing⟩

end Trails
end CodeLine

namespace Draft
variable {custom : Option CustomTypes} {d d' : Draft} {t : Token} {size name : Option String} {owners : List String}

theorem arraySpec_toEnd (h : d.arraySpec t size = .ok (some .wholeStream, d')) : d.wholeStreamDepth = none := by
  rw [arraySpec.eq_def] at h
  split at h
  · cases h
  · obtain ⟨spec, -, h⟩ := of_bind_ok h
    split at h
    · split at h
      · cases h
      · rename_i hnone
        exact Option.not_isSome_iff_eq_none.mp hnone
    · rename_i hne
      cases h
      exact absurd rfl hne

theorem fieldHead_toEnd {type : TypeSpec} {head : Head} (hh : d.fieldHead custom owners t type size name = .ok head)
    (hend : head.extent = .untilEnd) : d.wholeStreamDepth = none := by
  obtain ⟨_, _, count, -, -, -, hcount, rfl⟩ := fieldHead_ok hh
  rw [(Extent.ofSpec_eq_untilEnd_iff count).mp hend] at hcount
  exact arraySpec_toEnd hcount

theorem structureHead_toEnd {head : Head} (hh : d.structureHead owners t size name = .ok head)
    (hend : head.extent = .untilEnd) : d.wholeStreamDepth = none := by
  obtain ⟨count, hcount, rfl⟩ := structureHead_ok hh
  rw [(Extent.ofSpec_eq_untilEnd_iff count).mp hend] at hcount
  exact arraySpec_toEnd hcount

/-- Tokens that declare something come inside the array up to the end of the input or before it. -/
theorem add_inside (h : d.add custom t = .ok d') (hcomment : ∀ text, t.declared ≠ .comment text)
    (hclosing : t.declared ≠ .closing) : ∀ k, d.wholeStreamDepth = some k → k < d.opened.length := by
  intro k hk
  rw [add.eq_def] at h
  have hguard : ¬d.wholeStreamDepth.any (d.opened.length ≤ ·) = true := by
    intro hlate
    rw [hlate] at h
    cases ht : t.declared with
    | comment text => exact hcomment text ht
    | closing => exact hclosing ht
    | opening | field =>
      rw [ht] at h
      cases h
  simpa [hk] using hguard

end Draft

theorem Head.line_count (h : Head) : h.line.instruction.count = .wholeStream ↔ h.extent = .untilEnd := by
  rw [line_instruction, instruction]
  cases h.extent <;> simp [Extent.count]

/-- What a draft remembers of the array up to the end of the input is true of the code so far. -/
def Draft.Ends (d : Draft) (o : Outline) : Prop := CodeLine.Trails d.wholeStreamDepth d.opened.length o.lines

namespace Draft.Ends
variable {custom : Option CustomTypes} {d d' : Draft} {o o' : Outline} {t : Token}

theorem declare (h : d.Ends o) {head : Head} (hinside : ∀ k, d.wholeStreamDepth = some k → k < d.opened.length)
    (hend : head.extent = .untilEnd → d.wholeStreamDepth = none) (hkind : head.kind ≠ .closing) :
    CodeLine.Trails (d.declare head).wholeStreamDepth (head.line.deeper d.opened.length) (o.lines ++ [head.line]) := by
  have hline : head.line.kind ≠ .closing := by rwa [Head.line_kind]
  rw [Draft.declare]
  dsimp only
  by_cases hextent : head.extent = .untilEnd
  · rw [if_pos hextent]
    rw [Ends, hend hextent] at h
    exact h.start (head.line_count.mpr hextent)
  · rw [if_neg hextent]
    exact h.put hinside (mt head.line_count.mp hextent) hline

/-- Adding a token keeps true what the draft remembers. -/
theorem add (h : d.Ends o) (hd : d.add custom t = .ok d') (ho : o.add custom d t = some o') : d'.Ends o' := by
  have hinside := Draft.add_inside hd
  rw [Outline.add.eq_def] at ho
  rcases Draft.add_cases o.owners hd with ⟨text, ht, rfl⟩ | ⟨type, size, name, head, ht, hhead, rfl⟩ |
      ⟨size, name, head, ht, hhead, rfl⟩ | ⟨inner, rest, ht, hopened, rfl⟩ <;> rw [ht] at ho hinside
  · cases ho
    exact h
  · dsimp only at ho
    rw [hhead] at ho
    cases ho
    obtain ⟨-, hopening, hclosing⟩ := Draft.fieldHead_regular hhead
    have hdeclared := h.declare (hinside (by simp) (by simp)) (Draft.fieldHead_toEnd hhead) hclosing
    rw [CodeLine.deeper, if_neg (by rwa [Head.line_kind])] at hdeclared
    rw [Ends, Outline.lines_put]
    exact hdeclared
  · dsimp only at ho
    rw [hhead] at ho
    cases ho
    obtain ⟨-, hopening⟩ := Draft.structureHead_regular hhead
    have hdeclared := h.declare (hinside (by simp) (by simp)) (Draft.structureHead_toEnd hhead) (by simp [hopening])
    rw [CodeLine.deeper, if_pos (by rwa [Head.line_kind])] at hdeclared
    rw [Ends, Outline.lines_enter]
    exact hdeclared
  · obtain ⟨opened, members⟩ := o
    cases opened with
    | nil => cases ho
    | cons frame outer =>
      cases ho
      rw [Ends, hopened] at h
      rw [Ends, Outline.lines_leave]
      exact h.close (fun hcount => by cases hcount) (Head.closing_kind _ _)

end Draft.Ends
end LayoutScript
