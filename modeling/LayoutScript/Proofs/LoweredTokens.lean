import LayoutScript.Proofs.LoweredExpr
import LayoutScript.Proofs.NameScope
import LayoutScript.Proofs.TokenText

/-! # Tokens in lower case

A script in lower case is scanned token for token like the script itself, at the same places. The
texts of sizes and extras are in lower case then, types are the same, and names differ in case
alone.
-/
namespace LayoutScript

section marks
open PlacedLexeme (isExprNameChar)
variable {c : Char} {cs ds : List Char}

/-- What no identifier goes on in is as it is outside identifiers. -/
theorem lowerFrom_apart (h : PlacedLexeme.Apart cs) (s : Spot) : lowerFrom s cs = lowerFrom .between cs := by
  cases cs with
  | nil => rfl
  | cons c cs =>
    have hc := h c rfl
    rw [lowerFrom, lowerFrom, Spot.next_between hc, Spot.next_between hc]

/-- A mark between identifiers stays. -/
theorem lowerFrom_mark (hc : isExprNameChar c = false) (s : Spot) (cs : List Char) :
    lowerFrom s (c :: cs) = c :: lowerFrom .between cs := by
  have hletter : c.isAlpha = false := by
    by_contra halpha
    rw [Bool.not_eq_false] at halpha
    rw [isExprNameChar, Char.isAlphanum, halpha] at hc
    cases hc
  rw [lowerFrom, Spot.next_between hc, eq_of_toLower_eq (toLower_toLower c) hletter, ite_self]

theorem of_lowerFrom_cons {s : Spot} (hc : c.isAlpha = false) (h : lowerFrom s cs = c :: ds) : ∃ rest, cs = c :: rest := by
  have hfold := map_toLower_lowerFrom s cs
  rw [h] at hfold
  obtain ⟨d, rest, rfl, hd, -⟩ := List.map_eq_cons_iff.mp hfold.symm
  exact ⟨rest, congrArg (· :: rest) (eq_of_toLower_eq hd hc)⟩

theorem lowerText_ofList (cs : List Char) : lowerText (String.ofList cs) = String.ofList (lowerFrom .between cs) := by
  rw [lowerText, String.toList_ofList]

end marks

/-! ## Types -/

namespace TypeSpec

/-- A type with the text of its extra in lower case. -/
def lowered (t : TypeSpec) : TypeSpec := { t with extra := t.extra.map lowerText }

theorem splitOrder_lowerFrom (cs : List Char) :
    splitOrder (lowerFrom .between cs) = ((splitOrder cs).1, lowerFrom .between (splitOrder cs).2) := by
  rw [splitOrder.eq_def cs]
  split
  · rw [lowerFrom_mark rfl]
    rfl
  · rw [lowerFrom_mark rfl]
    rfl
  · rename_i hlittle hbig
    rw [splitOrder.eq_def]
    split
    · rename_i h
      obtain ⟨rest, rfl⟩ := of_lowerFrom_cons rfl h
      exact absurd rfl (hlittle rest)
    · rename_i h
      obtain ⟨rest, rfl⟩ := of_lowerFrom_cons rfl h
      exact absurd rfl (hbig rest)
    · rfl

/-- An extra that starts with neither a bracket nor a minus is a numeral. -/
theorem isExtra_digits {c : Char} (hopen : c ≠ '(') (hminus : c ≠ '-') (cs : List Char) :
    isExtra (c :: cs) = (c :: cs).all Char.isDigit := by
  rw [isExtra.eq_def]
  split
  · rename_i h
    exact absurd (List.cons.inj h).1 hopen
  · rename_i h
    exact absurd (List.cons.inj h).1 hminus
  · rfl

theorem caseless_isExtra : Caseless isExtra := by
  intro cs
  cases cs with
  | nil => rfl
  | cons c cs =>
    by_cases hopen : c = '('
    · subst hopen
      have hlast : ((cs.map Char.toLower).getLast? == some ')') = (cs.getLast? == some ')') := by
        rw [List.getLast?_map]
        cases cs.getLast? with
        | none => rfl
        | some d => exact CaseBlind.eq (d := ')') rfl d
      change (decide (2 ≤ (cs.map Char.toLower).length) && (cs.map Char.toLower).getLast? == some ')') = _
      rw [List.length_map, hlast]
      rfl
    by_cases hminus : c = '-'
    · subst hminus
      change (!(cs.map Char.toLower).isEmpty && (cs.map Char.toLower).all Char.isDigit) = _
      rw [Caseless.isEmpty, CaseBlind.isDigit.all_map]
      rfl
    rw [List.map_cons, isExtra_digits (mt (CaseBlind.eq_iff rfl).mp hopen) (mt (CaseBlind.eq_iff rfl).mp hminus),
      isExtra_digits hopen hminus, ← List.map_cons, CaseBlind.isDigit.all_map]

theorem parse?_lowerFrom (text : List Char) : parse? (lowerFrom .between text) = (parse? text).map lowered := by
  have hcolon : CaseBlind (· != ':') := (CaseBlind.eq rfl).not
  rw [parse?, parse?, splitOrder_lowerFrom]
  generalize splitOrder text = split
  obtain ⟨order, body⟩ := split
  dsimp only
  rw [takeWhile_lowerFrom _ _ hcolon, dropWhile_lowerFrom _ _ hcolon, foldCase_ofList, map_toLower_lowerFrom, ← foldCase_ofList,
    caseless_isTypeName.eq (map_toLower_lowerFrom _ _)]
  split
  swap
  · rfl
  cases hdrop : body.dropWhile (· != ':') with
  | nil => rfl
  | cons c extra =>
    have hc : c = ':' := by
      have hhead := List.head?_dropWhile_not (· != ':') body
      rw [hdrop] at hhead
      simpa using hhead
    rw [hc, lowerFrom_mark rfl]
    dsimp only
    rw [caseless_isExtra.eq (map_toLower_lowerFrom _ _)]
    split
    · simp only [lowered, Option.map_some, lowerText_ofList]
    · rfl

theorem isComputed_lowered (t : TypeSpec) : t.lowered.isComputed = t.isComputed := by
  have hhead (cs : List Char) : (cs.head? == some '(') = cs.head?.any (· == '(') := by cases cs <;> rfl
  rw [isComputed, isComputed, lowered]
  cases t.extra with
  | none => rfl
  | some extra =>
    have hmark : CaseBlind (· == '(') := .eq rfl
    simp only [Option.map_some, hhead]
    exact hmark.head?_any.eq (toList_lowerText_map extra)

theorem foldCase_render_lowered (t : TypeSpec) : foldCase t.lowered.render = foldCase t.render := by
  simp only [render, lowered, foldCase_append]
  cases t.extra with
  | none => rfl
  | some extra =>
    simp only [Option.map_some, foldCase_append, foldCase_lowerText]
    rfl

end TypeSpec

/-! ## Declarations -/

namespace Declared

/-- Declarations that differ in case: the second one has its size and its extra in lower case. -/
inductive Recased : Declared → Declared → Prop where
  | field (type : TypeSpec) (size : Option String) {name name' : Option String} (h : name'.map foldCase = name.map foldCase) :
    Recased (.field type size name) (.field type.lowered (size.map lowerText) name')
  | opening (size : Option String) {name name' : Option String} (h : name'.map foldCase = name.map foldCase) :
    Recased (.opening size name) (.opening (size.map lowerText) name')
  | closing : Recased .closing .closing
  | comment {text text' : String} (h : foldCase text' = foldCase text) : Recased (.comment text) (.comment text')

theorem foldCase_renderSizeName {type type' : String} (htype : foldCase type' = foldCase type) (size : Option String)
    {name name' : Option String} (h : name'.map foldCase = name.map foldCase) :
    foldCase (renderSizeName type' (size.map lowerText) name') = foldCase (renderSizeName type size name) := by
  have hempty (s : String) : foldCase s = "" ↔ s = "" := by
    have hlist : (foldCase s).toList = [] ↔ s.toList = [] := by rw [toList_foldCase, List.map_eq_nil_iff]
    exact (String.toList_inj.symm.trans hlist).trans String.toList_inj
  have hnamed {head head' : String} (hhead : foldCase head' = foldCase head) {name name' : String}
      (h : foldCase name' = foldCase name) : foldCase (if head' = "" then name' else head' ++ " " ++ name') =
        foldCase (if head = "" then name else head ++ " " ++ name) := by
    have hiff : head' = "" ↔ head = "" := by rw [← hempty, hhead, hempty]
    by_cases hnone : head = ""
    · rwa [if_pos hnone, if_pos (hiff.mpr hnone)]
    · rw [if_neg hnone, if_neg (mt hiff.mp hnone)]
      simp only [foldCase_append, hhead, h]
  have hsized {size : String} : foldCase (type' ++ ("[" ++ lowerText size ++ "]")) = foldCase (type ++ ("[" ++ size ++ "]")) := by
    simp only [foldCase_append, foldCase_lowerText, htype]
  cases size with
  | none =>
    cases name with
    | none =>
      rw [Option.map_eq_none_iff.mp h]
      simpa only [renderSizeName, Option.map_none, String.append_empty] using htype
    | some name =>
      obtain ⟨name', rfl, hname⟩ := Option.map_eq_some_iff.mp h
      simpa only [renderSizeName, Option.map_none, String.append_empty] using hnamed htype hname
  | some size =>
    cases name with
    | none =>
      rw [Option.map_eq_none_iff.mp h]
      exact hsized
    | some name =>
      obtain ⟨name', rfl, hname⟩ := Option.map_eq_some_iff.mp h
      exact hnamed hsized hname

theorem Recased.foldCase_render {d d' : Declared} (h : d.Recased d') : foldCase d'.render = foldCase d.render := by
  cases h with
  | field type size h =>
    simp only [render, foldCase_append, foldCase_renderSizeName type.foldCase_render_lowered size h]
  | opening size h => simp only [render, foldCase_append, foldCase_renderSizeName rfl size h]
  | closing => rfl
  | comment h => simp only [render, foldCase_append, h]

end Declared

namespace Token

/-- Tokens at one place that differ in case. -/
structure Recased (t t' : Token) : Prop where
  position : t'.position = t.position
  declared : t.declared.Recased t'.declared

theorem Recased.foldCase_render {t t' : Token} (h : t.Recased t') : foldCase t'.render = foldCase t.render :=
  h.declared.foldCase_render

end Token

/-! ## Scanning -/

/-- The place in a text in lower case. -/
def TextCursor.lowered (s : Spot) (c : TextCursor) : TextCursor := ⟨c.pos, lowerFrom s c.rest⟩

namespace TextCursor
variable {p : Char → Bool} (s s' : Spot) (c start stop : TextCursor)

theorem dropWhile_lowered (hp : CaseBlind p) :
    (c.lowered s).dropWhile p = (c.dropWhile p).lowered (s.behind (c.rest.takeWhile p)) := by
  rw [dropWhile, dropWhile, lowered, lowered]
  dsimp only
  rw [takeWhile_lowerFrom _ _ hp, byteLength_lowerFrom, dropWhile_lowerFrom _ _ hp]

/-- Blanks stand outside identifiers. -/
theorem dropBlanks_lowered : (c.lowered .between).dropWhile isBlank = (c.dropWhile isBlank).lowered .between := by
  rw [dropWhile_lowered _ _ .isBlank, Spot.behind_between]
  exact fun d hd => not_isExprNameChar_of_isWhiteSpace (isWhiteSpace_of_isBlank (List.mem_takeWhile_imp hd))

theorem upTo_lowered : (start.lowered s).upTo (stop.lowered s') = lowerFrom s (start.upTo stop) :=
  takeBytes_lowerFrom s start.rest (stop.pos - start.pos)

end TextCursor

namespace Token
variable {customTypes : List String} {s s' : Spot}

theorem passType_lowered (depth pos : Nat) (s : Spot) (cs : List Char) :
    ∃ s', passType depth pos (lowerFrom s cs) = ((passType depth pos cs).1, (passType depth pos cs).2.lowered s') := by
  induction cs generalizing depth pos s with
  | nil => exact ⟨s, rfl⟩
  | cons c cs ih =>
    have hopen : CaseBlind (· == '(') := .eq rfl
    have hclose : CaseBlind (· == ')') := .eq rfl
    rw [lowerFrom, passType, passType, CaseBlind.isStop.lowered, CaseBlind.isBlank.lowered, hopen.lowered, hclose.lowered,
      CaseBlind.utf8Size.lowered]
    split
    · exact ⟨s, rfl⟩
    · exact ih _ _ _

theorem caseless_trimmed : Caseless fun cs => foldCase (String.ofList (trimmed cs)) := by
  intro cs
  change foldCase _ = foldCase _
  rw [trimmed_map]
  exact Caseless.foldCase _

theorem faultUpTo_folded (start stop : TextCursor) (cause : LexicalCause) :
    (faultUpTo (start.lowered s) (stop.lowered s') cause).folded = (faultUpTo start stop cause).folded := by
  have htext := caseless_trimmed.eq (map_toLower_lowerFrom s (start.upTo stop))
  rw [← TextCursor.upTo_lowered s s'] at htext
  exact congrArg (Fault.lexical start.pos · cause) htext

theorem caseless_strayText : Caseless fun cs => foldCase (strayText cs) := by
  intro cs
  have hends : CaseBlind fun c => !(c == '\n' || c == ';' || c == '\x7b' || c == '\x7d') :=
    ((((CaseBlind.eq rfl).or (.eq rfl)).or (.eq rfl)).or (.eq rfl)).not
  change foldCase _ = foldCase _
  rw [strayText, strayText]
  dsimp only
  rw [hends.takeWhile_map, hends.dropWhile_map, ← List.map_take, ← List.map_append]
  exact caseless_trimmed _

theorem strayFault_folded (start : TextCursor) : (strayFault (start.lowered s)).folded = (strayFault start).folded :=
  congrArg (Fault.lexical start.pos · .strayText) (caseless_strayText.eq (map_toLower_lowerFrom s start.rest))

theorem scanSize_lowered (start c : TextCursor) :
    Tallies (fun a b => b.1 = a.1.map lowerText ∧ ∃ s, b.2 = a.2.lowered s) (scanSize start c)
      (scanSize (start.lowered .between) (c.lowered s)) := by
  rw [scanSize.eq_def, scanSize.eq_def]
  split
  · rename_i cs hrest
    have hrest' : (c.lowered s).rest = '[' :: lowerFrom .between cs := by rw [TextCursor.lowered, hrest, lowerFrom_mark rfl]
    let inner : TextCursor := ⟨c.pos + 1, cs⟩
    have hstop := TextCursor.dropWhile_lowered .between inner CaseBlind.isStop.not
    simp only [hrest']
    rw [show (⟨(c.lowered s).pos + 1, lowerFrom .between cs⟩ : TextCursor) = inner.lowered .between from rfl, hstop]
    generalize inner.dropWhile (!isStop ·) = stop, Spot.between.behind _ = s'
    rw [TextCursor.upTo_lowered, trimmed_lowerFrom, Caseless.isEmpty.eq (map_toLower_lowerFrom _ _), ← lowerText_ofList]
    split
    · rename_i rest hclosed
      have hclosed' : (stop.lowered s').rest = ']' :: lowerFrom .between rest := by
        rw [TextCursor.lowered, hclosed, lowerFrom_mark rfl]
      rw [hclosed']
      exact .ite .rfl (fun _ => .error (faultUpTo_folded _ _ _)) fun _ => .ok ⟨rfl, .between, rfl⟩
    · rename_i hclosed
      split
      · rename_i hclosed'
        obtain ⟨rest, hbracket⟩ := of_lowerFrom_cons rfl hclosed'
        exact absurd hbracket (hclosed rest)
      · exact .error (strayFault_folded start)
  · rename_i hrest
    split
    · rename_i hrest'
      obtain ⟨rest, hbracket⟩ := of_lowerFrom_cons rfl hrest'
      exact absurd hbracket (hrest rest)
    · exact .ok ⟨rfl, s, rfl⟩

theorem caseless_isIdentifier : Caseless isIdentifier := by
  intro cs
  cases cs with
  | nil => rfl
  | cons c cs =>
    have hmark : (c.toLower == '_') = (c == '_') := CaseBlind.eq rfl c
    rw [List.map_cons, isIdentifier, isIdentifier, CaseBlind.isNameChar.all_map, CaseBlind.isAlpha, hmark]

theorem caseless_brokenNameRule (customTypes : List String) : Caseless (brokenNameRule customTypes) := by
  intro cs
  have hdot : (cs.map Char.toLower).contains '.' = cs.contains '.' := by
    have hmark : CaseBlind ('.' == ·) := .of_letters (a := false) fun c hc => beq_eq_false_iff_ne.mpr (by rintro rfl; cases hc)
    rw [List.contains_eq_any_beq, List.contains_eq_any_beq, List.any_map, show _ ∘ Char.toLower = _ from funext hmark]
  have hdollar : (cs.map Char.toLower).head? = some '$' ↔ cs.head? = some '$' := by
    cases cs with
    | nil => exact Iff.rfl
    | cons c cs => exact Option.some_inj.trans ((CaseBlind.eq_iff rfl).trans Option.some_inj.symm)
  have hsame : sameName (String.ofList (cs.map Char.toLower)) = sameName (String.ofList cs) := by
    funext word
    rw [sameName, sameName, Caseless.foldCase_map]
  simp only [brokenNameRule, hdot, hdollar, hsame, caseless_isIdentifier cs]

theorem checkName_lowered (start : TextCursor) (name : List Char) :
    Tallies (fun n n' => foldCase n' = foldCase n) (checkName customTypes start name)
      (checkName customTypes (start.lowered s') (lowerFrom s name)) := by
  have hfold := Caseless.foldCase.eq (map_toLower_lowerFrom s name)
  rw [checkName, checkName, (caseless_brokenNameRule customTypes).eq (map_toLower_lowerFrom s name)]
  cases brokenNameRule customTypes name with
  | none => exact .ok hfold
  | some rule => exact .error (congrArg (Fault.lexical start.pos · (.name rule)) hfold)

theorem opening_lowered (start stop : TextCursor) (size : Option String) (type? name? : Option (List Char)) :
    Tallies Declared.Recased (opening customTypes start stop size type? name?)
      (opening customTypes (start.lowered .between) (stop.lowered .between) (size.map lowerText)
        (type?.map (lowerFrom .between)) (name?.map (lowerFrom s))) := by
  rw [opening, opening, Option.isSome_map, Option.isSome_map]
  refine .ite .rfl (fun _ => .error (faultUpTo_folded _ _ _)) fun _ => ?_
  have hword : ∃ s', (name?.map (lowerFrom s) <|> type?.map (lowerFrom .between)) = (name? <|> type?).map (lowerFrom s') := by
    cases name? with
    | none => exact ⟨.between, rfl⟩
    | some name => exact ⟨s, rfl⟩
  obtain ⟨s', hword⟩ := hword
  dsimp only
  rw [hword]
  cases name? <|> type? with
  | none => exact .ok (.opening _ rfl)
  | some word => exact (checkName_lowered start word).bind fun n n' hn => .ok (.opening _ (congrArg some hn))

theorem field_lowered (start stop : TextCursor) (size : Option String) (type? name? : Option (List Char)) :
    Tallies Declared.Recased (field customTypes start stop size type? name?)
      (field customTypes (start.lowered .between) (stop.lowered .between) (size.map lowerText)
        (type?.map (lowerFrom .between)) (name?.map (lowerFrom s))) := by
  cases type? with
  | none => exact .error (faultUpTo_folded _ _ _)
  | some text =>
    simp only [field, Option.map_some, TypeSpec.parse?_lowerFrom]
    cases TypeSpec.parse? text with
    | none => exact .error (faultUpTo_folded _ _ _)
    | some spec =>
      cases name? with
      | none => exact .ok (.field _ _ rfl)
      | some name => exact (checkName_lowered start name).bind fun n n' hn => .ok (.field _ _ (congrArg some hn))

theorem word?_lowerFrom (s : Spot) (cs : List Char) : word? (lowerFrom s cs) = (word? cs).map (lowerFrom s) := by
  rw [word?, word?, Caseless.isEmpty.eq (map_toLower_lowerFrom s cs)]
  split <;> rfl

theorem scanDeclaration_lowered (start : TextCursor) :
    Tallies (fun a b => a.1.Recased b.1 ∧ b.2 = a.2.lowered .between) (scanDeclaration customTypes start)
      (scanDeclaration customTypes (start.lowered .between)) := by
  obtain ⟨s, hpass⟩ := passType_lowered 0 start.pos .between start.rest
  rw [scanDeclaration, scanDeclaration, show (start.lowered .between).pos = start.pos from rfl,
    show (start.lowered .between).rest = lowerFrom .between start.rest from rfl, hpass]
  generalize passType 0 start.pos start.rest = passed
  obtain ⟨closed, afterType⟩ := passed
  cases closed with
  | false => exact .error (faultUpTo_folded _ _ _)
  | true =>
    dsimp only
    rw [TextCursor.dropWhile_lowered _ _ .isBlank]
    refine (scanSize_lowered start _).bind ?_
    rintro ⟨size, afterSize⟩ ⟨_, _⟩ ⟨rfl, s', rfl⟩
    dsimp only
    have hends : CaseBlind fun c => !(isBlank c || isStop c || c == '/') := ((CaseBlind.isBlank.or .isStop).or (.eq rfl)).not
    rw [TextCursor.dropWhile_lowered s' _ .isBlank]
    generalize afterSize.dropWhile isBlank = beforeName, Spot.behind s' _ = sn
    rw [TextCursor.dropWhile_lowered sn _ hends]
    generalize beforeName.dropWhile _ = afterName, Spot.behind sn _ = sa
    rw [TextCursor.dropWhile_lowered sa _ .isBlank, TextCursor.upTo_lowered, TextCursor.upTo_lowered, word?_lowerFrom,
      word?_lowerFrom]
    generalize afterName.dropWhile isBlank = ending, Spot.behind sa _ = se, word? (start.upTo afterType) = type?,
      word? (beforeName.upTo afterName) = name?
    split
    · rename_i rest hrest
      have hrest' : (ending.lowered se).rest = '\x7b' :: lowerFrom .between rest := by
        rw [TextCursor.lowered, hrest, lowerFrom_mark rfl]
      simp only [hrest']
      refine (opening_lowered start ⟨ending.pos + 1, rest⟩ size type? name?).bind ?_
      exact fun d d' hd => .ok ⟨hd, rfl⟩
    · rename_i rest hrest
      have hrest' : (ending.lowered se).rest = ';' :: lowerFrom .between rest := by
        rw [TextCursor.lowered, hrest, lowerFrom_mark rfl]
      simp only [hrest']
      refine (field_lowered start ⟨ending.pos + 1, rest⟩ size type? name?).bind ?_
      exact fun d d' hd => .ok ⟨hd, rfl⟩
    · rename_i hopen hclose
      split
      · rename_i hrest'
        obtain ⟨rest, hrest⟩ := of_lowerFrom_cons rfl hrest'
        exact absurd hrest (hopen rest)
      · rename_i hrest'
        obtain ⟨rest, hrest⟩ := of_lowerFrom_cons rfl hrest'
        exact absurd hrest (hclose rest)
      · exact .error (strayFault_folded start)

theorem scanDeclared_lowered (start : TextCursor) :
    Tallies (fun a b => a.1.Recased b.1 ∧ b.2 = a.2.lowered .between) (scanDeclared customTypes start)
      (scanDeclared customTypes (start.lowered .between)) := by
  rw [scanDeclared.eq_def, scanDeclared.eq_def]
  split
  · rename_i body hrest
    have hrest' : (start.lowered .between).rest = '/' :: '/' :: lowerFrom .between body := by
      rw [TextCursor.lowered, hrest, lowerFrom_mark rfl, lowerFrom_mark rfl]
    simp only [hrest']
    let inside : TextCursor := ⟨start.pos + 2, body⟩
    have hline : CaseBlind (· != '\n') := (CaseBlind.eq rfl).not
    have hreturn : CaseBlind (· == '\r') := .eq rfl
    have hstop := TextCursor.dropWhile_lowered .between inside hline
    refine .ok ⟨.comment ?_, hstop.trans ?_⟩
    · rw [takeWhile_lowerFrom _ _ hline]
      have htext := rdropWhile_lowerFrom .between (body.takeWhile (· != '\n')) hreturn
      exact (congrArg (fun cs => foldCase (String.ofList cs)) htext).trans
        (Caseless.foldCase.eq (map_toLower_lowerFrom _ _))
    · refine congrArg (TextCursor.mk _) (lowerFrom_apart ?_ _)
      intro c hc
      have hhead := List.head?_dropWhile_not (· != '\n') body
      rw [show (body.dropWhile (· != '\n')).head? = some c from hc] at hhead
      obtain rfl : c = '\n' := by simpa using hhead
      rfl
  · rename_i rest hrest
    have hrest' : (start.lowered .between).rest = '\x7d' :: lowerFrom .between rest := by
      rw [TextCursor.lowered, hrest, lowerFrom_mark rfl]
    simp only [hrest']
    exact .ok ⟨.closing, rfl⟩
  · rename_i hcomment hclosing
    split
    · rename_i body hrest'
      obtain ⟨rest, hrest⟩ := of_lowerFrom_cons rfl hrest'
      rw [TextCursor.lowered, hrest, lowerFrom_mark rfl, List.cons.injEq] at hrest'
      obtain ⟨rest, rfl⟩ := of_lowerFrom_cons rfl hrest'.2
      exact absurd hrest (hcomment rest)
    · rename_i rest hrest'
      obtain ⟨rest, hrest⟩ := of_lowerFrom_cons rfl hrest'
      exact absurd hrest (hclosing rest)
    · exact scanDeclaration_lowered start

theorem scanFrom_fault {c : TextCursor} {fault : Fault} (hne : (c.dropWhile isBlank).rest ≠ [])
    (h : scanDeclared customTypes (c.dropWhile isBlank) = .error fault) : scanFrom customTypes c = [.error fault] := by
  rw [scanFrom]
  dsimp only
  rw [if_neg hne]
  split
  · rename_i hfault
    rw [h] at hfault
    cases hfault
    rfl
  · rename_i hok
    rw [h] at hok
    cases hok

theorem scanFrom_lowered (c : TextCursor) :
    List.Forall₂ (Tallies Recased) (scanFrom customTypes c) (scanFrom customTypes (c.lowered .between)) := by
  induction hlength : c.rest.length using Nat.strong_induction_on generalizing c with
  | h n ih =>
    have hstart := TextCursor.dropBlanks_lowered c
    by_cases hend : (c.dropWhile isBlank).rest = []
    · have hend' : ((c.lowered .between).dropWhile isBlank).rest = [] := by rw [hstart, TextCursor.lowered, hend, lowerFrom]
      rw [scanFrom_end hend, scanFrom_end hend']
      exact .nil
    have hend' : ((c.lowered .between).dropWhile isBlank).rest ≠ [] := by
      rw [hstart]
      exact fun hnil => hend (List.isEmpty_iff.mp
        ((Caseless.isEmpty.eq (map_toLower_lowerFrom .between _)).symm.trans (List.isEmpty_iff.mpr hnil)))
    have hscan := hstart ▸ @scanDeclared_lowered customTypes (c.dropWhile isBlank)
    generalize hd : scanDeclared customTypes (c.dropWhile isBlank) = x,
      hd' : scanDeclared customTypes ((c.lowered .between).dropWhile isBlank) = y at hscan
    cases hscan with
    | error hfault =>
      rw [scanFrom_fault hend hd, scanFrom_fault hend' hd']
      exact .cons (.error hfault) .nil
    | @ok a b h =>
      obtain ⟨d, stop⟩ := a
      obtain ⟨d', stop'⟩ := b
      obtain ⟨hdeclared, rfl⟩ : d.Recased d' ∧ stop' = stop.lowered .between := h
      have hless := Nat.lt_of_lt_of_le (scanDeclared_shorter hd) (TextCursor.passes_dropWhile isBlank c).length_le
      rw [scanFrom_next hend hd, scanFrom_next hend' hd', hstart]
      exact .cons (.ok ⟨rfl, hdeclared⟩) (ih _ (hlength ▸ hless) stop rfl)

/-- A script in lower case has the same tokens up to case, at the same places. -/
theorem scan_lowerText (script : String) :
    List.Forall₂ (Tallies Recased) (scan customTypes script) (scan customTypes (lowerText script)) := by
  rw [scan, scan, lowerText, String.toList_ofList]
  exact scanFrom_lowered (TextCursor.ofList script.toList)

end Token
end LayoutScript
