import LayoutScript.Proofs.TokenParts

/-! # Scanning what was written

A declaration that can be written is scanned again from its own text, and the scanner then stands
right behind it, whatever comes next. A text that is printed from declarations, with blanks
between them, is therefore scanned as just these.
-/
namespace LayoutScript
namespace Token
open Declared
variable {customTypes : List String}

/-- A gap and the character behind it that ends a declaration. -/
theorem endsType_gap {gap rest : List Char} {e : Char} (hgap : ∀ c ∈ gap, isBlank c = true) (he : isStop e = true) :
    EndsType (gap ++ e :: rest) := by
  cases gap with
  | nil =>
    rintro _ ⟨⟩
    exact .inl he
  | cons c gap =>
    rintro _ ⟨⟩
    exact .inr (hgap c (List.mem_cons_self ..))

theorem endsType_nameText {tail : List Char} (htail : EndsType tail) (name : Option String) : EndsType (nameText name ++ tail) := by
  cases name with
  | none => exact htail
  | some name =>
    rintro _ ⟨⟩
    exact .inr rfl

theorem endsType_sizeText {tail : List Char} (htail : EndsType tail) (size : Option String) : EndsType (sizeText size ++ tail) := by
  cases size with
  | none => exact htail
  | some size =>
    rintro _ ⟨⟩
    exact .inl rfl

/-- The characters that end declarations. -/
def isEnd (e : Char) : Prop := e = ';' ∨ e = '\x7b'

theorem isEnd.spec {e : Char} (he : isEnd e) : isStop e = true ∧ isBlank e = false ∧ e ≠ '[' := by
  rcases he with rfl | rfl <;> decide

theorem isEnd.utf8Size {e : Char} (he : isEnd e) : e.utf8Size = 1 := by
  rcases he with rfl | rfl <;> rfl

theorem identifier_head {name : List Char} (h : isIdentifier name = true) (rest : List Char) :
    ∀ c ∈ (name ++ rest).head?, isBlank c = false ∧ c ≠ '[' ∧ c ≠ '/' ∧ c ≠ '\x7d' := by
  obtain ⟨hne, hchars⟩ := isIdentifier_spec h
  cases name with
  | nil => exact absurd rfl hne
  | cons c cs =>
    rintro _ ⟨⟩
    have hc := hchars c (List.mem_cons_self ..)
    refine ⟨(isPlain_spec (isPlain_of_isNameChar hc)).2.1, ?_, ?_, ?_⟩ <;> rintro rfl <;> exact absurd hc (by decide)

/-- A name is read up to the blank or the end of the declaration behind it. -/
theorem name_part {name : Option String} (hname : ∀ n ∈ name, isIdentifier n.toList = true) {gap : List Char} {e : Char}
    (hgap : ∀ c ∈ gap, isBlank c = true) (he : isEnd e) (rest : List Char) (pos : Nat) :
    ∃ before after : TextCursor, (⟨pos, nameText name ++ (gap ++ e :: rest)⟩ : TextCursor).dropWhile isBlank = before ∧
      before.rest.head? ≠ some '[' ∧ (∀ c ∈ before.rest.head?, isBlank c = false) ∧
      before.dropWhile (fun c => !(isBlank c || isStop c || c == '/')) = after ∧
      word? (before.upTo after) = name.map String.toList ∧
      after.dropWhile isBlank = ⟨pos + byteLength (nameText name) + byteLength gap, e :: rest⟩ := by
  obtain ⟨hstop, hblank, hbracket⟩ := he.spec
  have hend : ∀ c ∈ (e :: rest).head?, isBlank c = false := by
    rintro _ ⟨⟩
    exact hblank
  have hgapEnd : ∀ pos, (⟨pos, gap ++ e :: rest⟩ : TextCursor).dropWhile isBlank = ⟨pos + byteLength gap, e :: rest⟩ :=
    TextCursor.dropWhile_append hgap hend
  cases name with
  | none =>
    refine ⟨_, ⟨pos + byteLength gap, e :: rest⟩, hgapEnd pos, fun heq => hbracket (Option.some.inj heq), hend, ?_, ?_, ?_⟩
    · refine TextCursor.dropWhile_same ?_ _
      rintro _ ⟨⟩
      rw [hstop, Bool.or_true, Bool.true_or]
      rfl
    · exact congrArg word? (TextCursor.upTo_append [] (e :: rest) _)
    · exact TextCursor.dropWhile_same hend _
  | some n =>
    have hid := hname n rfl
    obtain ⟨hne, hchars⟩ := isIdentifier_spec hid
    have hhead := identifier_head hid (gap ++ e :: rest)
    refine ⟨⟨pos + 1, n.toList ++ (gap ++ e :: rest)⟩, ⟨pos + 1 + byteLength n.toList, gap ++ e :: rest⟩, ?_, ?_, ?_, ?_, ?_, ?_⟩
    · have hblank : ∀ c ∈ [' '], isBlank c = true := List.forall_mem_singleton.mpr rfl
      exact TextCursor.dropWhile_append hblank (fun c hc => (hhead c hc).1) pos
    · exact fun heq => (hhead _ heq).2.1 rfl
    · exact fun c hc => (hhead c hc).1
    · refine TextCursor.dropWhile_append (fun c hc => ?_) ?_ _
      · exact congrArg not (endsName_of_isNameChar (hchars c hc))
      · intro c hc
        rcases endsType_gap hgap hstop c hc with hc | hc <;> simp [hc]
    · rw [TextCursor.upTo_append, word?, if_neg (by simpa using hne)]
      rfl
    · rw [hgapEnd]
      simp only [nameText, byteLength_cons, TextCursor.mk.injEq, and_true]
      have hspace : Char.utf8Size ' ' = 1 := by decide
      omega

/-- A size is read where there is one, and else nothing is. -/
theorem size_part {size : Option String} (hsize : ∀ s ∈ size, IsSize s) (start : TextCursor) {pos : Nat} {tail : List Char}
    {before : TextCursor} (hbefore : (⟨pos + byteLength (sizeText size), tail⟩ : TextCursor).dropWhile isBlank = before)
    (hbracket : before.rest.head? ≠ some '[') (hblank : ∀ c ∈ before.rest.head?, isBlank c = false) :
    ∃ after, scanSize start ((⟨pos, sizeText size ++ tail⟩ : TextCursor).dropWhile isBlank) = .ok (size, after) ∧
      after.dropWhile isBlank = before := by
  cases size with
  | none =>
    have hplace : (⟨pos, sizeText none ++ tail⟩ : TextCursor).dropWhile isBlank = before := hbefore
    refine ⟨before, ?_, TextCursor.dropWhile_same hblank before.pos⟩
    rw [hplace, scanSize]
    split
    · rename_i cs hcs
      rw [hcs] at hbracket
      exact absurd rfl hbracket
    · rfl
  | some s =>
    have hstay : (⟨pos, sizeText (some s) ++ tail⟩ : TextCursor).dropWhile isBlank = ⟨pos, sizeText (some s) ++ tail⟩ := by
      refine TextCursor.dropWhile_same ?_ _
      rintro _ ⟨⟩
      decide
    rw [hstay]
    exact ⟨_, scanSize_sizeText (hsize s rfl) start pos tail, hbefore⟩

/-- A declaration is scanned from its parts. -/
theorem scanDeclaration_parts (word : List Char) (size name : Option String) (gap : List Char) {e : Char}
    (hword : closesAt 0 word = true) (hsize : ∀ s ∈ size, IsSize s) (hname : ∀ n ∈ name, isIdentifier n.toList = true)
    (hgap : ∀ c ∈ gap, isBlank c = true) (he : isEnd e) (pos : Nat) (rest : List Char) {d : Declared}
    (hd : ∀ start stop, (if e = ';' then field else opening) customTypes start stop size (word? word)
      (name.map String.toList) = .ok d) :
    scanDeclaration customTypes ⟨pos, word ++ (sizeText size ++ (nameText name ++ (gap ++ e :: rest)))⟩ =
      .ok (d, ⟨pos + byteLength word + byteLength (sizeText size) + byteLength (nameText name) + byteLength gap + 1, rest⟩) := by
  obtain ⟨before, after, hbefore, hbracket, hblank, hafter, hn, hending⟩ := name_part hname hgap he rest
    (pos + byteLength word + byteLength (sizeText size))
  have htail : EndsType (sizeText size ++ (nameText name ++ (gap ++ e :: rest))) :=
    endsType_sizeText (endsType_nameText (endsType_gap hgap he.spec.1) name) size
  obtain ⟨afterSize, hscan, hsame⟩ := size_part hsize ⟨pos, word ++ (sizeText size ++ (nameText name ++ (gap ++ e :: rest)))⟩
    hbefore hbracket hblank
  rw [scanDeclaration]
  dsimp only
  rw [passType_append hword htail]
  simp only [hscan, bind, Except.bind, TextCursor.upTo_append, hsame, hafter, hn, hending]
  rcases he with rfl | rfl
  · have hfield : ∀ start stop, field customTypes start stop size (word? word) (name.map String.toList) = .ok d := hd
    simp only [hfield]
    rfl
  · have hopening : ∀ start stop, opening customTypes start stop size (word? word) (name.map String.toList) = .ok d := hd
    simp only [hopening]
    rfl

end Token

namespace Declared
open Token
variable {customTypes : List String}

/-- The blanks before the first part of a declaration. -/
def lead : Declared → List Char
  | .opening none none => [' ']
  | _ => []

/-- The text of a declaration from its first part on. -/
def body : Declared → List Char
  | .field type size name => type.render.toList ++ (sizeText size ++ (nameText name ++ [';']))
  | .opening none none => ['\x7b']
  | .opening none (some name) => name.toList ++ [' ', '\x7b']
  | .opening (some size) name => sizeText (some size) ++ (nameText name ++ [' ', '\x7b'])
  | .closing => ['\x7d']
  | .comment text => '/' :: '/' :: text.toList

theorem toList_renderSizeName {type : String} {size : Option String} (h : type ≠ "" ∨ size.isSome = true)
    (name : Option String) : (renderSizeName type size name).toList = type.toList ++ (sizeText size ++ nameText name) := by
  cases size with
  | none =>
    have htype : type ≠ "" := h.resolve_right Bool.false_ne_true
    cases name with
    | none => simp only [renderSizeName, String.append_empty, sizeText, nameText, List.append_nil]
    | some name =>
      simp only [renderSizeName, String.append_empty, if_neg htype, String.toList_append, sizeText, nameText,
        List.nil_append, List.append_assoc]
      rfl
  | some size =>
    have hhead : type ++ ("[" ++ size ++ "]") ≠ "" := by
      intro hempty
      have hlist := congrArg String.toList hempty
      simp [String.toList_append] at hlist
    cases name with
    | none =>
      simp only [renderSizeName, String.toList_append, sizeText, nameText, List.append_nil, List.append_assoc]
      rfl
    | some name =>
      simp only [renderSizeName, if_neg hhead, String.toList_append, sizeText, nameText, List.append_assoc]
      simp

theorem Written.toList_render {d : Declared} (h : d.Written customTypes) : d.render.toList = d.lead ++ d.body := by
  cases d with
  | field type size name =>
    have hne : type.render ≠ "" := by
      obtain ⟨c, cs, hrender, -⟩ := h.1.render_head
      rintro hempty
      rw [hempty] at hrender
      cases hrender
    rw [render, String.toList_append, toList_renderSizeName (.inl hne), lead, body, List.append_assoc, List.append_assoc]
    · rfl
    · nofun
  | opening size name =>
    cases size with
    | none =>
      cases name with
      | none => rfl
      | some name =>
        simp only [render, renderSizeName, String.append_empty, if_true, String.toList_append]
        rfl
    | some size =>
      rw [render, String.toList_append, toList_renderSizeName (.inr rfl), lead, body, List.append_assoc, List.append_assoc]
      · rfl
      · nofun
  | closing => rfl
  | comment text =>
    rw [render, String.toList_append]
    rfl

theorem checkName_eq {start : TextCursor} {n : String} (h : brokenNameRule customTypes n.toList = none) :
    checkName customTypes start n.toList = .ok n := by
  rw [checkName, h]
  dsimp only
  rw [String.ofList_toList]

/-- The name of a structure stands before or behind its size. -/
theorem opening_eq {n : String} (h : brokenNameRule customTypes n.toList = none) {type? name? : Option (List Char)}
    (hone : type? = some n.toList ∧ name? = none ∨ type? = none ∧ name? = some n.toList) (start stop : TextCursor)
    (size : Option String) : Token.opening customTypes start stop size type? name? = .ok (.opening size (some n)) := by
  have hname : (do return Declared.opening size (some (← checkName customTypes start n.toList)) : Except Fault Declared) =
      .ok (.opening size (some n)) := by
    rw [checkName_eq h]
    rfl
  rcases hone with ⟨rfl, rfl⟩ | ⟨rfl, rfl⟩ <;> exact hname

/-- A text that starts no comment and no end of a structure is scanned as a declaration. -/
theorem scanDeclared_eq {pos : Nat} {c : Char} {cs : List Char} (hslash : c ≠ '/') (hbrace : c ≠ '\x7d') :
    scanDeclared customTypes ⟨pos, c :: cs⟩ = scanDeclaration customTypes ⟨pos, c :: cs⟩ := by
  rw [scanDeclared]
  split
  · rename_i heq
    exact absurd (List.cons.inj heq).1 hslash
  · rename_i heq
    exact absurd (List.cons.inj heq).1 hbrace
  · rfl

theorem identifiers {name : Option String} (h : ∀ n ∈ name, brokenNameRule customTypes n.toList = none) :
    ∀ n ∈ name, isIdentifier n.toList = true := fun n hn => isIdentifier_of_brokenNameRule (h n hn)

/-- A text that is made of the parts of a declaration and starts like one is scanned as it. -/
theorem scanDeclared_parts {text : List Char} (word : List Char) (size name : Option String) (gap : List Char) {e : Char}
    (htext : text = word ++ (sizeText size ++ (nameText name ++ (gap ++ [e]))))
    (hstart : ∀ c ∈ text.head?, c ≠ '/' ∧ c ≠ '\x7d') (hword : closesAt 0 word = true) (hsize : ∀ s ∈ size, IsSize s)
    (hname : ∀ n ∈ name, isIdentifier n.toList = true) (hgap : ∀ c ∈ gap, isBlank c = true) (he : isEnd e) (pos : Nat)
    (rest : List Char) {d : Declared}
    (hd : ∀ start stop, (if e = ';' then Token.field else Token.opening) customTypes start stop size (word? word)
      (name.map String.toList) = .ok d) :
    scanDeclared customTypes ⟨pos, text ++ rest⟩ = .ok (d, ⟨pos + byteLength text, rest⟩) := by
  have hwhole : text ++ rest = word ++ (sizeText size ++ (nameText name ++ (gap ++ e :: rest))) := by
    rw [htext]
    simp only [List.append_assoc, List.singleton_append]
  have hlength : byteLength text =
      byteLength word + byteLength (sizeText size) + byteLength (nameText name) + byteLength gap + 1 := by
    rw [htext]
    simp only [byteLength_append, byteLength_cons, byteLength_nil, he.utf8Size]
    omega
  have hplain : scanDeclared customTypes ⟨pos, text ++ rest⟩ = scanDeclaration customTypes ⟨pos, text ++ rest⟩ := by
    cases text with
    | nil => simp at htext
    | cons c cs => exact scanDeclared_eq (hstart c rfl).1 (hstart c rfl).2
  rw [hplain, hwhole, scanDeclaration_parts word size name gap hword hsize hname hgap he pos rest hd, hlength]
  simp only [Nat.add_assoc]

theorem scan_field {type : TypeSpec} {size name : Option String} (h : (field type size name).Written customTypes)
    (pos : Nat) (rest : List Char) : scanDeclared customTypes ⟨pos, (field type size name).body ++ rest⟩ =
      .ok (field type size name, ⟨pos + byteLength (field type size name).body, rest⟩) := by
  obtain ⟨htype, hsize, hname⟩ := h
  obtain ⟨c, cs, hrender, hc⟩ := htype.render_head
  refine scanDeclared_parts type.render.toList size name [] rfl ?_ htype.closesAt_render hsize (identifiers hname)
    (List.forall_mem_nil _) (.inl rfl) pos rest fun start stop => ?_
  · rw [hrender]
    rintro _ ⟨⟩
    constructor <;> rintro rfl <;> rcases hc with hc | hc <;> exact absurd hc (by decide)
  · have hword : word? type.render.toList = some type.render.toList := by
      rw [hrender]
      rfl
    rw [if_pos rfl, hword]
    simp only [Token.field, htype.parse?_render]
    cases name with
    | none => rfl
    | some n =>
      simp only [Option.map_some, checkName_eq (hname n rfl)]
      rfl

theorem scan_opening {size name : Option String} (h : (opening size name).Written customTypes) (pos : Nat)
    (rest : List Char) : scanDeclared customTypes ⟨pos, (opening size name).body ++ rest⟩ =
      .ok (opening size name, ⟨pos + byteLength (opening size name).body, rest⟩) := by
  obtain ⟨hsize, hname⟩ := h
  have hgap : ∀ c ∈ [' '], isBlank c = true := List.forall_mem_singleton.mpr rfl
  cases size with
  | none =>
    cases name with
    | none =>
      refine scanDeclared_parts [] none none [] rfl ?_ rfl nofun nofun (List.forall_mem_nil _) (.inr rfl) pos rest
        fun start stop => rfl
      rintro _ ⟨⟩
      decide
    | some n =>
      -- A name alone stands where a type would, and the blank behind it ends it.
      have hid := isIdentifier_of_brokenNameRule (hname n rfl)
      obtain ⟨hne, hall⟩ := isIdentifier_spec hid
      have hclose : closesAt 0 n.toList = true := by
        rw [← List.append_nil n.toList, closesAt_append_plain fun c hc => isPlain_of_isNameChar (hall c hc)]
        rfl
      refine scanDeclared_parts n.toList none none [' '] rfl ?_ hclose nofun nofun hgap (.inr rfl) pos rest
        fun start stop => ?_
      · exact fun c hc => (identifier_head hid _ c hc).2.2
      · have hword : word? n.toList = some n.toList := if_neg (by rwa [List.isEmpty_iff])
        rw [hword]
        exact opening_eq (hname n rfl) (.inl ⟨rfl, rfl⟩) start stop none
  | some s =>
    refine scanDeclared_parts [] (some s) name [' '] rfl ?_ rfl hsize (identifiers hname) hgap (.inr rfl) pos rest
      fun start stop => ?_
    · rintro _ ⟨⟩
      decide
    · cases name with
      | none => rfl
      | some n => exact opening_eq (hname n rfl) (.inr ⟨rfl, rfl⟩) start stop (some s)

/-- A comment ends where its line does. -/
theorem scan_comment {text : String} (h : (comment text).Written customTypes) (pos : Nat) {rest : List Char}
    (hrest : ∀ c ∈ rest.head?, c = '\n') : scanDeclared customTypes ⟨pos, (comment text).body ++ rest⟩ =
      .ok (comment text, ⟨pos + byteLength (comment text).body, rest⟩) := by
  obtain ⟨hline, hreturn⟩ := h
  have hstop : (⟨pos + 2, text.toList ++ rest⟩ : TextCursor).dropWhile (· != '\n') =
      ⟨pos + 2 + byteLength text.toList, rest⟩ := by
    refine TextCursor.dropWhile_append (fun c hc => bne_iff_ne.mpr ?_) (fun c hc => ?_) _
    · rintro rfl
      exact hline hc
    · rw [hrest c hc]
      rfl
  have hwhole : (text.toList ++ rest).takeWhile (· != '\n') = text.toList :=
    (TextCursor.passes_dropWhile (· != '\n') ⟨pos + 2, text.toList ++ rest⟩).upTo.symm.trans
      (by rw [hstop, TextCursor.upTo_append])
  have hkept : text.toList.reverse.dropWhile (· == '\r') = text.toList.reverse := by
    rw [← List.head?_reverse] at hreturn
    cases hback : text.toList.reverse with
    | nil => rfl
    | cons c cs =>
      rw [hback] at hreturn
      exact List.dropWhile_cons_of_neg fun hc => hreturn (congrArg some (beq_iff_eq.mp hc))
  have hscan : scanDeclared customTypes ⟨pos, (comment text).body ++ rest⟩ =
      .ok (.comment (String.ofList (((text.toList ++ rest).takeWhile (· != '\n')).reverse.dropWhile (· == '\r')).reverse),
        (⟨pos + 2, text.toList ++ rest⟩ : TextCursor).dropWhile (· != '\n')) := rfl
  rw [hscan, hwhole, hkept, hstop, List.reverse_reverse, String.ofList_toList, body, byteLength_cons, byteLength_cons,
    Nat.add_assoc, ← Nat.add_assoc (Char.utf8Size '/')]
  rfl

/-- A declaration is scanned again from its own text, behind the blanks that it may start with. -/
theorem Written.scan_body {d : Declared} (h : d.Written customTypes) (pos : Nat) {rest : List Char}
    (hcomment : ∀ text, d = .comment text → ∀ c ∈ rest.head?, c = '\n') :
    scanDeclared customTypes ⟨pos, d.body ++ rest⟩ = .ok (d, ⟨pos + byteLength d.body, rest⟩) := by
  cases d with
  | field type size name => exact scan_field h pos rest
  | opening size name => exact scan_opening h pos rest
  | closing => rfl
  | comment text => exact scan_comment h pos (hcomment text rfl)

/-- No blank stands before the first part of a declaration. -/
theorem Written.body_head {d : Declared} (h : d.Written customTypes) : ∃ c cs, d.body = c :: cs ∧ isBlank c = false := by
  cases d with
  | field type size name =>
    obtain ⟨c, cs, hrender, hc⟩ := h.1.render_head
    refine ⟨c, cs ++ _, by rw [body, hrender, List.cons_append], ?_⟩
    rcases hc with rfl | hc
    · decide
    · exact (isPlain_spec (isPlain_of_isNameChar hc)).2.1
  | opening size name =>
    cases size with
    | none =>
      cases name with
      | none => exact ⟨_, _, rfl, by decide⟩
      | some n =>
        have hid := isIdentifier_of_brokenNameRule (h.2 n rfl)
        have hhead := identifier_head hid [' ', '\x7b']
        rw [body]
        cases hn : n.toList with
        | nil => exact absurd hn (isIdentifier_spec hid).1
        | cons c cs =>
          rw [hn] at hhead
          exact ⟨c, _, rfl, (hhead c rfl).1⟩
    | some s => exact ⟨_, _, rfl, by decide⟩
  | closing => exact ⟨_, _, rfl, by decide⟩
  | comment text => exact ⟨_, _, rfl, by decide⟩

theorem lead_blank (d : Declared) : ∀ c ∈ d.lead, isBlank c = true := by
  rw [lead.eq_def]
  split
  · exact List.forall_mem_singleton.mpr rfl
  · exact List.forall_mem_nil _

theorem Written.takeWhile_render {d : Declared} (h : d.Written customTypes) : d.render.toList.takeWhile isBlank = d.lead := by
  obtain ⟨c, cs, hbody, hc⟩ := h.body_head
  rw [h.toList_render, List.takeWhile_append_of_pos d.lead_blank, hbody, List.takeWhile_cons_of_neg (by simp [hc]),
    List.append_nil]

end Declared

/-! ## Texts -/

namespace Token

/-- The text of declarations, each with the blanks behind it. -/
def printed : List (Declared × List Char) → List Char
  | [] => []
  | (d, gap) :: parts => d.render.toList ++ (gap ++ printed parts)

/-- The tokens of declarations whose text starts at the offset `pos`. Each starts at the first byte of
its text that is no blank. -/
def placed (pos : Nat) : List (Declared × List Char) → List Token
  | [] => []
  | (d, gap) :: parts =>
    ⟨pos + byteLength (d.render.toList.takeWhile isBlank), d⟩ ::
      placed (pos + byteLength d.render.toList + byteLength gap) parts

/-- Blanks stand between declarations, and a line break behind a comment. -/
def Spaced : List (Declared × List Char) → Prop
  | [] => True
  | (d, gap) :: parts =>
    (∀ c ∈ gap, isBlank c = true) ∧ (gap = [] → parts = []) ∧
      (∀ text, d = .comment text → ∀ c ∈ gap.head?, c = '\n') ∧ Spaced parts

theorem map_declared_placed (pos : Nat) (parts : List (Declared × List Char)) :
    (placed pos parts).map (·.declared) = parts.map (·.1) := by
  induction parts generalizing pos with
  | nil => rfl
  | cons part parts ih => rw [placed, List.map_cons, List.map_cons, ih]

variable {customTypes : List String}

theorem scanFrom_end {c : TextCursor} (h : (c.dropWhile isBlank).rest = []) : scanFrom customTypes c = [] := by
  rw [scanFrom]
  exact if_pos h

theorem scanFrom_next {c stop : TextCursor} {d : Declared} (hne : (c.dropWhile isBlank).rest ≠ [])
    (h : scanDeclared customTypes (c.dropWhile isBlank) = .ok (d, stop)) :
    scanFrom customTypes c = .ok ⟨(c.dropWhile isBlank).pos, d⟩ :: scanFrom customTypes stop := by
  rw [scanFrom]
  dsimp only
  rw [if_neg hne]
  split
  · rename_i hfault
    rw [h] at hfault
    cases hfault
  · rename_i hok
    rw [h] at hok
    cases hok
    rfl

/-- A text that is printed from declarations is scanned as these declarations. -/
theorem scanFrom_printed {parts : List (Declared × List Char)} (hwritten : ∀ part ∈ parts, part.1.Written customTypes)
    (hspaced : Spaced parts) {lead : List Char} (hlead : ∀ c ∈ lead, isBlank c = true) (pos : Nat) :
    scanFrom customTypes ⟨pos, lead ++ printed parts⟩ = (placed (pos + byteLength lead) parts).map .ok := by
  induction parts generalizing lead pos with
  | nil =>
    refine scanFrom_end ?_
    rw [printed, TextCursor.dropWhile_append hlead (fun _ h => by cases h)]
  | cons part parts ih =>
    obtain ⟨d, gap⟩ := part
    rw [List.forall_mem_cons] at hwritten
    obtain ⟨hd, hparts⟩ := hwritten
    obtain ⟨hgap, hlast, hcomment, hspaced⟩ := hspaced
    obtain ⟨c, cs, hbody, hc⟩ := hd.body_head
    have hstart : (⟨pos, lead ++ printed ((d, gap) :: parts)⟩ : TextCursor).dropWhile isBlank =
        ⟨pos + byteLength lead + byteLength d.lead, d.body ++ (gap ++ printed parts)⟩ := by
      rw [printed, hd.toList_render, List.append_assoc, ← List.append_assoc lead]
      rw [TextCursor.dropWhile_append (List.forall_mem_append.mpr ⟨hlead, d.lead_blank⟩), byteLength_append, Nat.add_assoc]
      rw [hbody]
      rintro _ ⟨⟩
      exact hc
    have hbehind : ∀ text, d = .comment text → ∀ c ∈ (gap ++ printed parts).head?, c = '\n' := by
      intro text htext
      cases gap with
      | nil =>
        rw [hlast rfl]
        nofun
      | cons g gap => exact hcomment text htext
    have hscan := hd.scan_body (pos + byteLength lead + byteLength d.lead) hbehind
    rw [scanFrom_next (by rw [hstart, hbody]; exact List.cons_ne_nil _ _) (by rw [hstart]; exact hscan), hstart,
      ih hparts hspaced hgap, placed, hd.takeWhile_render, List.map_cons, hd.toList_render, byteLength_append,
      ← Nat.add_assoc (pos + byteLength lead)]

end Token
end LayoutScript
