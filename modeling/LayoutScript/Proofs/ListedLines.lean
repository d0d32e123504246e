import Mathlib.Data.List.Induction
import LayoutScript.Layout.Listing
import LayoutScript.Proofs.ExprValue
import LayoutScript.Proofs.NamedPaths
import LayoutScript.Proofs.TouredCode

/-! # What a listing shows

A listing shows the instructions of a layout in their order. What it takes from the tables for an
instruction is what reading takes there: the path of the entry with the offset of the instruction,
and its computed values. The texts of computed values are printed as they are written in the script.
They may have line feeds, nothing else in a listing has: so it has a line for each instruction, and one
more for each of these.
-/
namespace LayoutScript

/-- The line feeds of a text. -/
def feeds (s : String) : Nat := s.toList.count '\n'

@[simp] theorem feeds_append (s t : String) : feeds (s ++ t) = feeds s + feeds t := by
  rw [feeds, String.toList_append, List.count_append]
  rfl

theorem feeds_eq_zero {s : String} (h : ∀ c ∈ s.toList, c ≠ '\n') : feeds s = 0 :=
  List.count_eq_zero.mpr fun hmem => h _ hmem rfl

theorem feeds_join (texts : List String) : feeds (String.join texts) = (texts.map feeds).sum := by
  rw [feeds, String.toList_join, List.count_flatMap]
  rfl

theorem feeds_lines (texts : List String) :
    feeds (String.join (texts.map (· ++ "\n"))) = texts.length + (texts.map feeds).sum := by
  rw [feeds_join, List.map_map]
  induction texts with
  | nil => rfl
  | cons text texts ih =>
    have hfeed : feeds "\n" = 1 := rfl
    rw [List.map_cons, List.map_cons, List.sum_cons, List.sum_cons, ih, List.length_cons, Function.comp_apply,
      feeds_append, hfeed]
    omega

theorem feeds_intercalate_dot {names : List String} (h : ∀ name ∈ names, feeds name = 0) :
    feeds (".".intercalate names) = 0 := by
  induction names with
  | nil => rfl
  | cons name names ih =>
    obtain ⟨hname, hnames⟩ := List.forall_mem_cons.mp h
    cases names with
    | nil => rwa [String.intercalate_singleton]
    | cons next names =>
      rw [String.intercalate_cons_cons, feeds_append, feeds_append, hname, ih hnames]
      rfl

theorem feeds_ofList (cs : List Char) : feeds (String.ofList cs) = cs.count '\n' := by
  rw [feeds, String.toList_ofList]

theorem count_toDigits {base : Nat} (hbase : 1 < base) (n : Nat) : (Nat.toDigits base n).count '\n' = 0 := by
  induction n using Nat.strongRecOn with
  | _ n ih =>
    rw [Nat.toDigits_eq_if hbase]
    split
    · rw [List.count_singleton, if_neg (by simp)]
    · rename_i hlarge
      have hless : n / base < n := Nat.div_lt_self (by omega) hbase
      rw [List.count_append, ih _ hless, List.count_singleton, if_neg (by simp)]

theorem feeds_hexPadded (width n : Nat) : feeds (hexPadded width n) = 0 := by
  have hzeros (k : Nat) : (List.replicate k '0').count '\n' = 0 := by simp [List.count_replicate]
  rw [hexPadded, feeds_ofList, List.count_append, hzeros, count_toDigits (by decide)]

theorem feeds_toString_nat (n : Nat) : feeds (toString n) = 0 := by
  rw [Nat.toString_eq_ofList_toDigits, feeds_ofList, count_toDigits (by decide)]

theorem feeds_toString_int (n : Int) : feeds (toString n) = 0 := by
  cases n with
  | ofNat n => exact feeds_toString_nat n
  | negSucc n =>
    change feeds ("-" ++ toString (n + 1)) = 0
    rw [feeds_append, feeds_toString_nat]
    rfl

theorem feeds_label (kind : Kind) : feeds kind.label = 0 := by
  cases kind with
  | whole t => cases t <;> rfl
  | _ => rfl

theorem feeds_lineHead (offset depth : Nat) : feeds (Layout.lineHead offset depth) = 0 := by
  have hindent : feeds (String.join (List.replicate depth "  ")) = 0 := by
    rw [feeds_join, List.map_replicate]
    simp [feeds]
  rw [Layout.lineHead, feeds_append, feeds_append, feeds_hexPadded, hindent]
  rfl

/-! ## The line of an instruction -/

namespace Layout
open CodeLine
variable {layout : Layout} {lines : List CodeLine}

/-- How an extra is shown, with the source it is computed by if it is. -/
def shownExtra (source : Option SizeSource) : Option Packed → String
  | none => ""
  | some (.value n) => ":" ++ toString n.toInt
  | some .computed => ":(" ++ (source.elim "" (·.render)) ++ ")"

/-- How a length is shown, with the source it is computed by if it is. -/
def shownCount (source : Option SizeSource) : Count → String
  | .one => ""
  | .fixed length => " [" ++ toString length ++ "]"
  | .wholeStream => " [_]"
  | .computed => " [" ++ (source.elim "" (·.render)) ++ "]"

/-- The line of an instruction inside `depth` structures, with its entry in the table of names and the sources
of its computed values. The first source is that of its extra and the last one that of its length. -/
def lineText (layout : Layout) (depth : Nat) (line : CodeLine) (entry : Option NamedField) (sources : List SizeSource) :
    String :=
  match line.instruction.action with
  | .closing start => lineHead line.offset (depth - 1) ++ "end -> " ++ hexPadded 4 start.toInt64.toUInt64.toNat
  | action =>
    lineHead line.offset depth ++ (if line.instruction.little then "<" else "") ++ layout.typeText action ++
      shownExtra sources.head? action.extra? ++ shownCount sources.getLast? line.instruction.count ++
      entry.elim "" (" " ++ ·.path)

/-- How many computed values an extra takes. -/
def extraTaken (extra : Option Packed) : Nat := if extra = some .computed then 1 else 0

def countTaken (count : Count) : Nat := if count = .computed then 1 else 0

theorem extraText_eq (extra : Option Packed) (sizes : List SizeSource) :
    extraText extra sizes = (shownExtra sizes.head? extra, sizes.drop (extraTaken extra)) := by
  rcases extra with _ | _ | _
  · rfl
  · rfl
  · cases sizes <;> rfl

theorem countText_eq (count : Count) (sizes : List SizeSource) :
    countText count sizes = (shownCount sizes.head? count, sizes.drop (countTaken count)) := by
  cases count with
  | computed => cases sizes <;> rfl
  | one | fixed | wholeStream => rfl

theorem shownExtra_take (extra : Option Packed) (sizes : List SizeSource) (n : Nat) :
    shownExtra (sizes.take (extraTaken extra + n)).head? extra = shownExtra sizes.head? extra := by
  rcases extra with _ | _ | _
  · rfl
  · rfl
  · cases sizes <;> simp [extraTaken, Nat.add_comm 1 n]

/-- The last source of an instruction is the one behind that of its extra, if its length is computed. -/
theorem shownCount_take {n : Nat} {count : Count} {sizes : List SizeSource} (h : n + countTaken count ≤ sizes.length) :
    shownCount (sizes.take (n + countTaken count)).getLast? count = shownCount (sizes.drop n).head? count := by
  cases count with
  | computed =>
    have hless : n < sizes.length := h
    rw [show n + countTaken .computed = n + 1 from rfl, List.take_add_one, List.getElem?_eq_getElem hless, List.head?_drop,
      List.getElem?_eq_getElem hless, Option.toList_some, List.getLast?_concat]
  | one | fixed | wholeStream => rfl

theorem nameText_of_takeName {line : CodeLine} {named named' : List NamedField} {info : Option NamedField}
    (h : takeName line named = .ok (info, named')) :
    nameText line.instruction.named named = (info.elim "" (" " ++ ·.path), named') := by
  rw [takeName.eq_def] at h
  cases hn : line.instruction.named with
  | false =>
    rw [hn] at h
    cases h
    rfl
  | true =>
    rw [hn] at h
    cases named <;> cases h
    rfl

theorem kind_closing_iff (line : CodeLine) : line.kind = .closing ↔ ∃ start, line.instruction.action = .closing start := by
  rw [CodeLine.kind, Instruction.kind]
  cases line.instruction.action <;> simp [Action.kind]

/-- A listing takes from the tables what belongs to an instruction, and goes on with the rest. -/
theorem listingFrom_cons {line : CodeLine} (hclosing : line.kind = .closing →
      line.instruction.named = false ∧ line.instruction.computedCount = 0)
    {named named' : List NamedField} {info : Option NamedField} (hname : takeName line named = .ok (info, named'))
    (depth : Nat) (code : List CodeLine) {sizes : List SizeSource}
    (hsizes : line.instruction.computedCount ≤ sizes.length) :
    layout.listingFrom depth (line :: code) named sizes =
      layout.lineText depth line info (sizes.take line.instruction.computedCount) ::
        layout.listingFrom (depthBehind depth line) code named' (sizes.drop line.instruction.computedCount) := by
  by_cases hkind : line.kind = .closing
  · obtain ⟨start, haction⟩ := (kind_closing_iff line).mp hkind
    obtain ⟨hunnamed, hcomputed⟩ := hclosing hkind
    rw [takeName.eq_def, hunnamed] at hname
    cases hname
    rw [listingFrom, haction, lineText, haction, hcomputed, depthBehind_closing hkind]
    rfl
  · have haction : ∀ start, line.instruction.action ≠ .closing start :=
      fun start heq => hkind ((kind_closing_iff line).mpr ⟨start, heq⟩)
    have hcount : line.instruction.computedCount =
        extraTaken line.instruction.action.extra? + countTaken line.instruction.count := rfl
    rw [hcount] at hsizes ⊢
    rw [listingFrom, lineText]
    · simp only [extraText_eq, countText_eq, nameText_of_takeName hname, shownExtra_take, shownCount_take hsizes,
        List.drop_drop, depthBehind_of_ne hkind]

theorem length_listingFrom (depth : Nat) (code : List CodeLine) (named : List NamedField) (sizes : List SizeSource) :
    (layout.listingFrom depth code named sizes).length = code.length := by
  induction code generalizing depth named sizes with
  | nil => rfl
  | cons line code ih =>
    rw [listingFrom.eq_def]
    dsimp only
    split <;> rw [List.length_cons, List.length_cons, ih]

/-- A listing comes to every place of the code with the tables in step. -/
theorem listingFrom_behind (ht : layout.Tabled lines) {before after : List CodeLine} (hlines : lines = before ++ after) :
    ∃ texts : List String, texts.length = before.length ∧ layout.listingFrom 0 lines layout.named layout.sizes =
      texts ++ layout.listingFrom (nesting before) after (layout.named.drop (namesTaken before))
        (layout.sizes.drop (sizesTaken before)) := by
  induction before using List.reverseRecOn generalizing after with
  | nil =>
    refine ⟨[], rfl, ?_⟩
    rw [hlines]
    rfl
  | append_singleton before line ih =>
    rw [List.append_assoc, List.singleton_append] at hlines
    obtain ⟨texts, hlength, htexts⟩ := ih hlines
    have hstep : layout.InStep lines (nesting before) (layout.placeBehind before (line :: after)) :=
      ⟨before, hlines, rfl, rfl⟩
    obtain ⟨info, named', hname⟩ := hstep.takeName_ok ht
    rw [listingFrom_cons (ht.closing line hstep.mem) hname _ _ (hstep.computedCount_le ht), takeName_rest hname, List.drop_drop, List.drop_drop,
      ← namesTaken_concat, ← sizesTaken_concat, ← nesting_concat] at htexts
    exact ⟨texts ++ [_], by simp [hlength], by rw [htexts, List.append_assoc, List.singleton_append]⟩

/-- Each line shows the entry with the offset of its instruction and the computed values that belong to the
instruction. -/
theorem getElem?_listingFrom (ht : layout.Tabled lines) {before after : List CodeLine} {line : CodeLine}
    (hlines : lines = before ++ line :: after) :
    (layout.listingFrom 0 lines layout.named layout.sizes)[before.length]? =
      some (layout.lineText (nesting before) line (layout.named.find? (·.offset == line.offset))
        ((layout.placeBehind before (line :: after)).sizes.take line.instruction.computedCount)) := by
  have hstep : layout.InStep lines (nesting before) (layout.placeBehind before (line :: after)) :=
    ⟨before, hlines, rfl, rfl⟩
  obtain ⟨info, named', hname⟩ := hstep.takeName_ok ht
  obtain ⟨texts, hlength, htexts⟩ := listingFrom_behind ht hlines
  rw [htexts, listingFrom_cons (ht.closing line hstep.mem) hname _ _ (hstep.computedCount_le ht), hstep.entry ht hname, ← hlength,
    List.getElem?_append_right (Nat.le_refl _), Nat.sub_self]
  rfl

/-! ## Line feeds in a listing -/

/-- The line feeds in the texts of computed values. -/
def sizeFeeds (sizes : List SizeSource) : Nat := (sizes.map fun size => feeds size.render).sum

theorem sizeFeeds_take_drop (n : Nat) (sizes : List SizeSource) :
    sizeFeeds (sizes.take n) + sizeFeeds (sizes.drop n) = sizeFeeds sizes := by
  rw [sizeFeeds, sizeFeeds, ← List.sum_append, ← List.map_append, List.take_append_drop, sizeFeeds]

theorem feeds_shownExtra (extra : Option Packed) (sizes : List SizeSource) :
    feeds (shownExtra sizes.head? extra) = sizeFeeds (sizes.take (extraTaken extra)) := by
  rcases extra with _ | n | _
  · rfl
  · rw [shownExtra, feeds_append, feeds_toString_int]
    rfl
  · cases sizes with
    | nil => rfl
    | cons size sizes => simp [shownExtra, extraTaken, sizeFeeds, feeds]

theorem feeds_shownCount (count : Count) (sizes : List SizeSource) :
    feeds (shownCount sizes.head? count) = sizeFeeds (sizes.take (countTaken count)) := by
  cases count with
  | one => rfl
  | wholeStream =>
    change feeds " [_]" = 0
    decide
  | fixed length =>
    rw [shownCount, feeds_append, feeds_append, feeds_toString_nat]
    rfl
  | computed =>
    cases sizes with
    | nil => rfl
    | cons size sizes => simp [shownCount, countTaken, sizeFeeds, feeds]

/-- Names in the tables of a layout have no line feeds. -/
structure OneLined (layout : Layout) : Prop where
  paths : ∀ f ∈ layout.named, feeds f.path = 0
  types : ∀ type ∈ layout.customTypes, feeds type.name = 0

theorem feeds_typeText (h : layout.OneLined) (action : Action) : feeds (layout.typeText action) = 0 := by
  rw [typeText]
  split
  · rename_i type htype
    obtain ⟨index, -, hindex⟩ := Option.bind_eq_some_iff.mp htype
    exact h.types type (List.mem_of_getElem? hindex)
  · exact feeds_label _

theorem feeds_lineText (h : layout.OneLined) (depth : Nat) {line : CodeLine} {entry : Option NamedField}
    (hentry : ∀ f ∈ entry, f ∈ layout.named) (hclosing : line.kind = .closing → line.instruction.computedCount = 0)
    {sizes : List SizeSource} (hsizes : line.instruction.computedCount ≤ sizes.length) :
    feeds (layout.lineText depth line entry (sizes.take line.instruction.computedCount)) =
      sizeFeeds (sizes.take line.instruction.computedCount) := by
  by_cases hkind : line.kind = .closing
  · obtain ⟨start, haction⟩ := (kind_closing_iff line).mp hkind
    rw [lineText, haction, hclosing hkind]
    simp only [feeds_append, feeds_lineHead, feeds_hexPadded]
    rfl
  · have haction : ∀ start, line.instruction.action ≠ .closing start :=
      fun start heq => hkind ((kind_closing_iff line).mpr ⟨start, heq⟩)
    have hcount : line.instruction.computedCount =
        extraTaken line.instruction.action.extra? + countTaken line.instruction.count := rfl
    have hname : feeds (entry.elim "" (" " ++ ·.path)) = 0 := by
      cases entry with
      | none => rfl
      | some f =>
        change feeds (" " ++ f.path) = 0
        rw [feeds_append, h.paths f (hentry f rfl)]
        rfl
    have hlittle : feeds (if line.instruction.little then "<" else "") = 0 := by split <;> rfl
    rw [hcount] at hsizes ⊢
    rw [lineText]
    simp only [shownExtra_take, shownCount_take hsizes, feeds_append, feeds_lineHead, feeds_typeText h, hname, hlittle,
      feeds_shownExtra, feeds_shownCount]
    rw [List.take_add]
    simp [sizeFeeds]

/-- The line feeds in the lines of a listing are those of computed values. -/
theorem feeds_listingFrom (ht : layout.Tabled lines) (h : layout.OneLined) {depth : Nat} {place : Place}
    (hstep : layout.InStep lines depth place) :
    ((layout.listingFrom depth place.code place.named place.sizes).map feeds).sum = sizeFeeds place.sizes := by
  obtain ⟨code, named, sizes⟩ := place
  induction code generalizing depth named sizes with
  | nil =>
    obtain ⟨before, hlines, hplace, -⟩ := hstep
    injection hplace with _ _ hsizes
    have hlength := ht.sizes
    rw [hlines, List.append_nil] at hlength
    rw [hsizes, hlength, List.drop_length]
    rfl
  | cons line code ih =>
    obtain ⟨info, named', hname⟩ := hstep.takeName_ok ht
    have hclosing := ht.closing line hstep.mem
    have hentry : ∀ f ∈ info, f ∈ layout.named := by
      rintro f rfl
      exact List.mem_of_find?_eq_some (hstep.entry ht hname)
    have hsizes := hstep.computedCount_le ht
    rw [listingFrom_cons hclosing hname _ _ hsizes, List.map_cons, List.sum_cons, ih _ _ (hstep.next ht hname),
      feeds_lineText h depth hentry (fun hkind => (hclosing hkind).2) hsizes]
    exact sizeFeeds_take_drop _ _

end Layout
theorem feeds_foldCase {customTypes : List String} {name : String}
    (h : brokenNameRule customTypes name.toList = none) : feeds (foldCase name) = 0 := by
  refine feeds_eq_zero fun c hc heq => ?_
  have hname := isNameChar_foldCase h c hc
  rw [heq] at hname
  exact absurd hname (by decide)

theorem feeds_typeName {type : TypeSpec} (h : type.Written) : feeds type.name = 0 := by
  refine feeds_eq_zero fun c hc heq => ?_
  have hname := TypeSpec.isTypeName_all h.name c hc
  rw [heq] at hname
  exact absurd hname (by decide)

theorem Head.feeds_info {h : Head} {owners : List String} {name : Option String}
    (hinfo : h.info = name.map (.inside owners · h.offset)) (howners : ∀ name ∈ owners, feeds name = 0)
    (hname : ∀ n ∈ name, feeds (foldCase n) = 0) : ∀ f ∈ h.info, feeds f.path = 0 ∧ feeds f.name = 0 := by
  intro f hf
  rw [hinfo] at hf
  obtain ⟨n, hn, rfl⟩ := Option.map_eq_some_iff.mp hf
  refine ⟨feeds_intercalate_dot (List.forall_mem_append.mpr ⟨howners, ?_⟩), hname n hn⟩
  exact List.forall_mem_singleton.mpr (hname n hn)

namespace Traced
variable {custom : Option CustomTypes} {ts : List Token} {d : Draft} {o : Outline} {customTypes : List String}

/-- Tokens that can be written declare names of one line. -/
theorem oneLined (h : Traced custom ts d o) (hwritten : ∀ t ∈ ts, t.declared.Written customTypes) :
    (∀ name ∈ o.owners, feeds name = 0) ∧ (∀ head ∈ o.heads, ∀ f ∈ head.info, feeds f.path = 0) ∧
      ∀ type ∈ d.customTypes, feeds type.name = 0 := by
  induction h with
  | start => exact ⟨List.forall_mem_nil _, List.forall_mem_nil _, List.forall_mem_nil _⟩
  | comment _ _ ih => exact ih (List.forall_mem_append.mp hwritten).1
  | field _ ht hh ih =>
    obtain ⟨hbefore, hlast⟩ := List.forall_mem_append.mp hwritten
    obtain ⟨howners, hpaths, htypes⟩ := ih hbefore
    have hparts := List.forall_mem_singleton.mp hlast
    rw [ht] at hparts
    have hinfo := Head.feeds_info (Draft.fieldHead_info hh) howners fun n hn => feeds_foldCase (hparts.2.2 n hn)
    rw [Outline.heads_put]
    refine ⟨howners, List.forall_mem_append.mpr ⟨hpaths, List.forall_mem_singleton.mpr fun f hf => (hinfo f hf).1⟩, ?_⟩
    · obtain ⟨kind, _, _, -, -, -, -, rfl⟩ := Draft.fieldHead_ok hh
      refine List.forall_mem_append.mpr ⟨htypes, fun type htype => ?_⟩
      dsimp only at htype
      split at htype
      · rw [List.mem_singleton.mp htype]
        exact feeds_typeName hparts.1
      · cases htype
  | opening _ ht hh ih =>
    obtain ⟨hbefore, hlast⟩ := List.forall_mem_append.mp hwritten
    obtain ⟨howners, hpaths, htypes⟩ := ih hbefore
    have hparts := List.forall_mem_singleton.mp hlast
    rw [ht] at hparts
    have hinfo := Head.feeds_info (Draft.structureHead_info hh) howners fun n hn => feeds_foldCase (hparts.2 n hn)
    rw [Outline.heads_enter, Outline.owners_enter]
    refine ⟨List.forall_mem_append.mpr ⟨howners, fun name hname => ?_⟩,
      List.forall_mem_append.mpr ⟨hpaths, List.forall_mem_singleton.mpr fun f hf => (hinfo f hf).1⟩, ?_⟩
    · obtain ⟨f, hf, rfl⟩ := Option.map_eq_some_iff.mp (Option.mem_toList.mp hname)
      exact (hinfo f hf).2
    · obtain ⟨_, -, rfl⟩ := Draft.structureHead_ok hh
      exact List.forall_mem_append.mpr ⟨htypes, List.forall_mem_nil _⟩
  | @closing _ _ head before outer members _ _ _ _ _ _ ih =>
    obtain ⟨howners, hpaths, htypes⟩ := ih (List.forall_mem_append.mp hwritten).1
    have hleft : Outline.owners ⟨(head, before) :: outer, members⟩ =
        (Outline.leave head before outer members).owners ++ _ := Outline.owners_enter ⟨outer, before⟩ head
    rw [Outline.heads_leave]
    exact ⟨fun name hname => howners name (hleft ▸ List.mem_append_left _ hname), hpaths, htypes⟩

end Traced
/-! ## The three walks through the code -/

namespace Layout
open CodeLine
variable {layout : Layout} {lines : List CodeLine}

theorem Tabled.filter_before (ht : layout.Tabled lines) {before after : List CodeLine} {line : CodeLine}
    (hlines : lines = before ++ line :: after) : lines.filter (·.offset < line.offset) = before := by
  have hoffsets := ht.offsets
  rw [hlines] at hoffsets ⊢
  obtain ⟨-, hbehind, hbefore⟩ := List.pairwise_append.mp hoffsets
  have hfront : before.filter (·.offset < line.offset) = before := by
    refine List.filter_eq_self.mpr fun l hl => ?_
    exact decide_eq_true (hbefore l hl line (List.mem_cons_self ..))
  have hback : (line :: after).filter (·.offset < line.offset) = [] := by
    refine List.filter_eq_nil_iff.mpr (List.forall_mem_cons.mpr ⟨by simp, fun l hl => ?_⟩)
    have hlt := List.rel_of_pairwise_cons hbehind hl
    simp only [decide_eq_true_eq]
    omega
  rw [List.filter_append, hfront, hback, List.append_nil]

/-- Readings come to each instruction behind those with smaller offsets, all of which have taken what belongs to
them from the tables, whether it is to be read or passed. -/
def ReadsInStep (layout : Layout) (lines : List CodeLine) : Prop :=
  ∀ {σ : Type} [BitSource σ] (options : ReadOptions) (collaborators : Collaborators σ) (source : σ),
    let s : Setting σ := ⟨layout, options, collaborators⟩
    ((s.chronicle source).1, (s.chronicle source).2.run) = s.read source ∧
      ∀ v ∈ (s.chronicle source).2.visits, ∃ line after, lines = lines.filter (·.offset < line.offset) ++ line :: after ∧
        v.place = layout.placeBehind (lines.filter (·.offset < line.offset)) (line :: after)

/-- Passing the body of a structure ends where every walk of the body ends that is completed, behind the lines of
the body, which have taken what belongs to them. An empty array changes nothing else and has no fields. -/
def PassesInStep (layout : Layout) (lines : List CodeLine) : Prop :=
  ∀ before line after, lines = before ++ line :: after → line.kind = .opening →
    ∃ body behind, after = body ++ behind ∧
      let start := layout.placeBehind (before ++ [line]) after
      let next := layout.placeBehind (before ++ [line] ++ body) behind
      layout.skipBody 0 start.code start.named start.sizes = .ok next ∧
      ∀ {σ : Type} [BitSource σ] (options : ReadOptions) (collaborators : Collaborators σ) (depth : Nat) (run : Run σ),
        let s : Setting σ := ⟨layout, options, collaborators⟩
        s.readStructure (.exactly 0) start (s.walk (depth + 1) start) run = (.ok (.records [], some next), run) ∧
        ∀ fields next' run', s.walk (depth + 1) start run = (.ok (.done fields next'), run') → next' = next

/-- A listing has the line of each instruction, with the entry of its offset and the computed values that readings
take for it. It has a line feed behind each line, and those of the texts of computed values. -/
structure ListsInStep (layout : Layout) (lines : List CodeLine) (texts : List String) (listing : String) : Prop where
  joined : listing = String.join (texts.map (· ++ "\n"))
  length : texts.length = lines.length
  line : ∀ before line after, lines = before ++ line :: after →
    texts[before.length]? = some (layout.lineText (nesting before) line (layout.named.find? (·.offset == line.offset))
      ((layout.placeBehind before (line :: after)).sizes.take line.instruction.computedCount))
  feeds : feeds listing = lines.length + sizeFeeds layout.sizes

theorem readsInStep (hlines : layout.lines = .ok lines) (ht : layout.Tabled lines) : layout.ReadsInStep lines := by
  intro σ _ options collaborators source s
  refine ⟨s.chronicle_run source, fun v hv => ?_⟩
  have hfits := tour_fits (s := s) hlines ht hv
  obtain ⟨before, hsplit, hplace, -⟩ := hfits.step
  obtain ⟨line, after, hcode⟩ := List.exists_cons_of_ne_nil hfits.nonempty
  rw [hcode] at hsplit hplace
  refine ⟨line, after, ?_⟩
  rw [ht.filter_before hsplit]
  exact ⟨hsplit, hplace⟩

theorem passesInStep (ht : layout.Tabled lines) : layout.PassesInStep lines := by
  intro before line after hsplit hopening
  have hstep : layout.InStep lines (nesting before) (layout.placeBehind before (line :: after)) :=
    ⟨before, hsplit, rfl, rfl⟩
  have hlines : lines = before ++ [line] ++ after := by simpa using hsplit
  have hstart : layout.InStep lines (nesting before + 1 + 0) (layout.placeBehind (before ++ [line]) after) := by
    refine ⟨before ++ [line], hlines, rfl, ?_⟩
    rw [nesting_concat, depthBehind, if_pos hopening]
  obtain ⟨next, hnext, ⟨before', hbefore, hplace, -⟩, hlength⟩ := hstart.skipBody_ok ht
  obtain ⟨body, hbody⟩ : next.code <:+ after :=
    List.suffix_of_suffix_length_le ⟨before', hbefore.symm⟩ ⟨before ++ [line], hlines.symm⟩ (Nat.le_of_lt hlength)
  have hsame : before' = before ++ [line] ++ body := by
    rw [hlines, ← hbody, ← List.append_assoc] at hbefore
    exact (List.append_cancel_right hbefore).symm
  rw [hsame] at hplace
  refine ⟨body, next.code, hbody.symm, ?_⟩
  intro start next'
  have hpass : layout.skipBody 0 start.code start.named start.sizes = .ok next' :=
    hnext.trans (congrArg _ hplace)
  refine ⟨hpass, fun options collaborators depth run => ⟨?_, fun fields place run' hwalk => ?_⟩⟩
  · rw [Setting.readStructure, hpass]
    rfl
  · have hends := Setting.endsBehind_walk _ depth start run fields place run' hwalk
    rw [hpass] at hends
    exact (Except.ok.inj hends).symm

theorem listsInStep (hlines : layout.lines = .ok lines) (ht : layout.Tabled lines) (h : layout.OneLined) :
    ∃ texts listing, layout.listing = .ok listing ∧ layout.ListsInStep lines texts listing := by
  have hlength := layout.length_listingFrom 0 lines layout.named layout.sizes
  refine ⟨layout.listingFrom 0 lines layout.named layout.sizes, _, ?_, ⟨rfl, hlength, ?_, ?_⟩⟩
  · rw [listing, hlines]
    rfl
  · exact fun before line after hsplit => getElem?_listingFrom ht hsplit
  · have hsum := feeds_listingFrom ht h (layout.inStep_start lines)
    rw [feeds_lines, hlength]
    exact congrArg _ hsum

/-- Readings, what passes over empty arrays and listings all go through the code of a script with the tables in step. -/
theorem compileWith_inStep {custom : Option CustomTypes} {script : String} (h : compileWith custom script = .ok layout)
    (hcustoms : layout.customTypes.length ≤ 2 ^ 31) :
    ∃ lines texts listing, layout.lines = .ok lines ∧ namesTaken lines = layout.named.length ∧
      sizesTaken lines = layout.sizes.length ∧ layout.ReadsInStep lines ∧ layout.PassesInStep lines ∧
      layout.listing = .ok listing ∧ layout.ListsInStep lines texts listing := by
  obtain ⟨ts, d, ds, hscan, -, htraced, hopened, rfl⟩ := compileWith_traced h
  have hof := htraced.isOf hopened hcustoms script
  have ht := htraced.tabled hopened hcustoms script
  obtain ⟨-, hpaths, htypes⟩ := htraced.oneLined (Token.scanFrom_written hscan)
  have hone : OneLined ⟨script, d.code.toList, d.entries.map (·.field), d.sizes, d.customTypes⟩ := by
    refine ⟨fun f hf => ?_, htypes⟩
    rw [hof.named] at hf
    obtain ⟨head, hm, hinfo⟩ := List.mem_filterMap.mp hf
    exact hpaths head hm f hinfo
  obtain ⟨texts, listing, hlisting, hlists⟩ := listsInStep hof.lines ht hone
  exact ⟨_, texts, listing, hof.lines, ht.names, ht.sizes, readsInStep hof.lines ht, passesInStep ht, hlisting, hlists⟩

/-- A size with a line feed, an external value plus one. -/
def parted : ExprProgram := ⟨"$x\n+1", [.external "x", .literal 1, .binary .add]⟩

theorem arraySize_parted (scope : SizeScope) : scope.arraySize "$x\n+1" = .ok (.computed (.expression parted)) := by
  have hname : Phrase.Written 0 ['$', 'x'] (.name ['$', 'x']) := .name rfl (List.forall_mem_singleton.mpr rfl)
  have hone : Phrase.Written 0 ['1'] (.number ['1']) :=
    .number (List.cons_ne_nil _ _) (List.forall_mem_singleton.mpr rfl)
  have hfeed : isBlank '\n' = true := rfl
  have hplus : Phrase.Written 2 _ _ := .binary (c := '+') rfl rfl
    (.blankBehind hfeed hname.tighter.tighter) hone.tighter
  have hwritten : Phrase.Written 3 "$x\n+1".toList (.binary .add (.name ['$', 'x']) (.number ['1'])) :=
    .tighter hplus
  have hcompiled : ExprProgram.compile "$x\n+1" scope.resolve = .ok parted :=
    ExprProgram.compile_eq_ok_iff.mpr ⟨_, Expr.parse_eq_ok_iff.mpr ⟨_, hwritten, rfl⟩, rfl⟩
  have htrimmed : trimText "$x\n+1" = "$x\n+1" := by decide +kernel
  have hsome : "$x\n+1" ≠ "_" := by decide
  have hmany : isSingleReference "$x\n+1".toList = false := by decide +kernel
  simp only [SizeScope.arraySize, SizeScope.build, htrimmed, if_neg hsome, hmany, hcompiled]
  rfl

theorem compileWith_parted :
    ∃ layout, compileWith none "ubyte[$x\n+1] a;" = .ok layout ∧ layout.customTypes = [] ∧
      layout.sizes = [.expression parted] ∧ layout.code = [0x74] := by
  let t : Token := ⟨0, .field ⟨.big, "ubyte", none⟩ (some "$x\n+1") (some "a")⟩
  have hscan : Token.scan [] "ubyte[$x\n+1] a;" = [.ok t] := by decide +kernel
  have hkind : Draft.kindOf none t ⟨.big, "ubyte", none⟩ = .ok (.whole .ubyte) := by decide +kernel
  have hcount : Draft.arraySpec {} t (some "$x\n+1") = .ok (some (.computed (.expression parted)), {}) := by
    unfold Draft.arraySpec
    simp only [arraySize_parted]
    rfl
  unfold compileWith
  change ∃ layout, (Draft.addAll none {} (Token.scan [] _)).bind _ = .ok layout ∧ _
  rw [hscan]
  change ∃ layout, (Except.bind (Draft.addField none {} t _ _ _) _).bind _ = .ok layout ∧ _
  unfold Draft.addField
  rw [hkind, hcount]
  exact ⟨_, rfl, rfl, rfl, by decide +kernel⟩

/-- A line feed in a size splits the line of its instruction. -/
theorem compileWith_inStep_split :
    ∃ layout lines texts listing, compileWith none "ubyte[$x\n+1] a;" = .ok layout ∧
      layout.customTypes.length ≤ 2 ^ 31 ∧ layout.lines = .ok lines ∧ layout.listing = .ok listing ∧
      layout.ListsInStep lines texts listing ∧ lines.length = 1 ∧ feeds listing = 2 := by
  obtain ⟨layout, hlayout, hnone, hsizes, hbytes⟩ := compileWith_parted
  have hcustoms : layout.customTypes.length ≤ 2 ^ 31 := by simp [hnone]
  obtain ⟨lines, texts, listing, hlines, -, -, -, -, hlisting, hlists⟩ := compileWith_inStep hlayout hcustoms
  have hdecoded : (CodeLine.ofCode [0x74]).toOption.any (·.length == 1) = true := by decide +kernel
  obtain ⟨code, hcode, hlength⟩ := of_any_ok hdecoded
  obtain rfl : code = lines := by
    rw [← hbytes] at hcode
    exact Except.ok.inj (hcode.symm.trans hlines)
  have hone : code.length = 1 := beq_iff_eq.mp hlength
  have hfed : sizeFeeds layout.sizes = 1 := by
    rw [hsizes]
    decide +kernel
  have hfeeds := hlists.feeds
  rw [hone, hfed] at hfeeds
  exact ⟨layout, code, texts, listing, hlayout, hcustoms, hlines, hlisting, hlists, hone, hfeeds⟩

end Layout
end LayoutScript
