import LayoutScript.Proofs.NameScope

/-! # The names that sizes ask for

A size asks for a name when nothing comes of it where the name has no answer. What comes of such
a size is told by the answer: a fault is the fault of the script, and an index is found again in
the tables of the layout.
-/
namespace LayoutScript

/-- The resolver with a fault in place of its answer to a name. -/
def Resolver.refusing (resolve : Resolver) (name : String) (fault : Fault) : Resolver := fun n =>
  if n = name then .error fault else resolve n

theorem Resolver.refusing_of_ne {resolve : Resolver} {name n : String} (fault : Fault) (h : n ≠ name) :
    resolve.refusing name fault n = resolve n := if_neg h

theorem Resolver.refusing_self (resolve : Resolver) (name : String) (fault : Fault) :
    resolve.refusing name fault name = .error fault := if_pos rfl

/-- What comes of a text that asks for a name, by the answer to the name: its fault, the fault of
a name that is not known, or something that mentions the index. -/
def Outcome.Tells {α : Type} (answer : Except Fault (Option Nat)) (unknown : Fault) (mentions : Nat → α → Prop)
    (outcome : Except Fault α) : Prop :=
  match answer with
  | .error fault => outcome = .error fault
  | .ok none => outcome = .error unknown
  | .ok (some index) => ∀ a, outcome = .ok a → mentions index a

/-- Refusing a name makes no difference, or what comes of it otherwise is told by its answer. -/
def Outcome.Meets {α : Type} (answer : Except Fault (Option Nat)) (unknown refusal : Fault) (mentions : Nat → α → Prop)
    (refused outcome : Except Fault α) : Prop :=
  refused = outcome ∨ refused = .error refusal ∧ Tells answer unknown mentions outcome

namespace Outcome
variable {α β : Type} {answer : Except Fault (Option Nat)} {unknown refusal : Fault} {mentions : Nat → α → Prop}
  {mentions' : Nat → β → Prop} {refused outcome : Except Fault α}

theorem Meets.rfl : Meets answer unknown refusal mentions outcome outcome := .inl (Eq.refl _)

theorem Tells.bind {f : α → Except Fault β} (h : Tells answer unknown mentions outcome)
    (hkeeps : ∀ index a b, mentions index a → f a = .ok b → mentions' index b) :
    Tells answer unknown mentions' (outcome >>= f) := by
  rw [Tells.eq_def] at h ⊢
  split at h
  · rw [h]
    exact Eq.refl _
  · rw [h]
    exact Eq.refl _
  · intro b hb
    obtain ⟨a, ha, hb⟩ := of_bind_ok hb
    exact hkeeps _ a b (h a ha) hb

theorem Meets.bind {f f' : α → Except Fault β} (h : Meets answer unknown refusal mentions refused outcome)
    (hf : ∀ a, Meets answer unknown refusal mentions' (f' a) (f a))
    (hkeeps : ∀ index a b, mentions index a → f a = .ok b → mentions' index b) :
    Meets answer unknown refusal mentions' (refused >>= f') (outcome >>= f) := by
  rcases h with rfl | ⟨rfl, htells⟩
  · cases refused with
    | error fault => exact .rfl
    | ok a => exact hf a
  · exact .inr ⟨Eq.refl _, htells.bind hkeeps⟩

theorem Meets.bind_same {f : α → Except Fault β} (h : Meets answer unknown refusal mentions refused outcome)
    (hkeeps : ∀ index a b, mentions index a → f a = .ok b → mentions' index b) :
    Meets answer unknown refusal mentions' (refused >>= f) (outcome >>= f) :=
  h.bind (fun _ => .rfl) hkeeps

end Outcome

namespace Expr
open Outcome

/-- The expression has the field with this index in it. -/
def Mentions (index : Nat) (e : Expr) : Prop := .field index ∈ e.postfixOps

section parsers
variable {text : String} {resolve : Resolver} {name : String} {refusal : Fault}

theorem ofName_meets (cs : List Char) :
    Meets (resolve name) (.expression (.unknownIdentifier text name)) refusal Mentions
      (ofName text (resolve.refusing name refusal) cs) (ofName text resolve cs) := by
  rw [ofName.eq_def, ofName.eq_def]
  split
  · exact .rfl
  by_cases hname : String.ofList cs = name
  · rw [hname, resolve.refusing_self]
    refine .inr ⟨rfl, ?_⟩
    rw [Tells.eq_def]
    rcases resolve name with fault | _ | index
    · exact Eq.refl _
    · exact Eq.refl _
    · intro e he
      cases he
      exact List.mem_singleton_self _
  · rw [Resolver.refusing_of_ne refusal hname]
    exact .rfl

/-- A chain keeps what stands in front of it. -/
theorem parseChain_mentions {rank index : Nat} {e₀ e : Expr} {ts : List PlacedLexeme}
    {rest : { rest : List PlacedLexeme // rest.length ≤ ts.length }} (hm : e₀.Mentions index)
    (h : parseChain text resolve rank e₀ ts = .ok (e, rest)) : e.Mentions index := by
  induction hn : ts.length using Nat.strongRecOn generalizing e₀ ts rest with
  | _ n ih =>
    cases ts with
    | nil =>
      rw [parseChain] at h
      cases h
      exact hm
    | cons t ts =>
      rw [parseChain] at h
      split at h
      · split at h
        · obtain ⟨⟨e₁, rest₁⟩, h₁, h⟩ := of_bind_ok h
          obtain ⟨⟨e₂, rest₂⟩, h₂, h⟩ := of_bind_ok h
          cases h
          have hshorter : rest₁.val.length < n := hn ▸ Nat.lt_succ_of_lt rest₁.property
          exact ih _ hshorter (List.mem_append_left _ (List.mem_append_left _ hm)) h₂ rfl
        · cases h
          exact hm
      · cases h
        exact hm

mutual

theorem parseOperand_meets (ts : List PlacedLexeme) :
    Meets (resolve name) (.expression (.unknownIdentifier text name)) refusal (fun index p => p.1.Mentions index)
      (parseOperand text (resolve.refusing name refusal) ts) (parseOperand text resolve ts) := by
  match ts with
  | [] =>
    rw [parseOperand, parseOperand]
    exact .rfl
  | ⟨pos, .number digits⟩ :: ts' =>
    rw [parseOperand, parseOperand]
    exact .rfl
  | ⟨_, .name cs⟩ :: ts' =>
    rw [parseOperand, parseOperand]
    refine (ofName_meets cs).bind_same ?_
    rintro index e _ he heq
    cases heq
    exact he
  | ⟨pos, .sign c⟩ :: ts' =>
    rw [parseOperand, parseOperand]
    split
    · refine (parseOperand_meets ts').bind_same ?_
      rintro index ⟨e, rest⟩ _ he heq
      cases heq
      exact List.mem_append_left _ he
    · split
      · refine (parseRank_meets 3 ts').bind_same ?_
        rintro index ⟨e, ⟨_ | ⟨t, rest⟩, hrest⟩⟩ p he heq
        · cases heq
        · dsimp only at heq
          split at heq
          · cases heq
            exact he
          · cases heq
      · exact .rfl
termination_by (ts.length, 0)

theorem parseRank_meets (rank : Nat) (ts : List PlacedLexeme) :
    Meets (resolve name) (.expression (.unknownIdentifier text name)) refusal (fun index p => p.1.Mentions index)
      (parseRank text (resolve.refusing name refusal) rank ts) (parseRank text resolve rank ts) := by
  match rank with
  | 0 =>
    rw [parseRank, parseRank]
    exact parseOperand_meets ts
  | rank + 1 =>
    rw [parseRank, parseRank]
    refine (parseRank_meets rank ts).bind ?_ ?_
    · rintro ⟨e, ⟨rest, hrest⟩⟩
      refine (parseChain_meets rank e rest).bind_same ?_
      rintro index ⟨e', rest'⟩ p he heq
      cases heq
      exact he
    · rintro index ⟨e, ⟨rest, hrest⟩⟩ p he heq
      obtain ⟨⟨e', rest'⟩, hchain, heq⟩ := of_bind_ok heq
      cases heq
      exact parseChain_mentions he hchain
termination_by (ts.length, 2 * rank + 1)

theorem parseChain_meets (rank : Nat) (e : Expr) (ts : List PlacedLexeme) :
    Meets (resolve name) (.expression (.unknownIdentifier text name)) refusal (fun index p => p.1.Mentions index)
      (parseChain text (resolve.refusing name refusal) rank e ts) (parseChain text resolve rank e ts) := by
  match ts with
  | [] =>
    rw [parseChain, parseChain]
    exact .rfl
  | t :: ts' =>
    rw [parseChain, parseChain]
    split
    · split
      · refine (parseRank_meets rank ts').bind ?_ ?_
        · rintro ⟨right, ⟨rest, hrest⟩⟩
          refine (parseChain_meets rank _ rest).bind_same ?_
          rintro index ⟨e', rest'⟩ p he heq
          cases heq
          exact he
        · rintro index ⟨right, ⟨rest, hrest⟩⟩ p he heq
          obtain ⟨⟨e', rest'⟩, hchain, heq⟩ := of_bind_ok heq
          cases heq
          exact parseChain_mentions (List.mem_append_left _ (List.mem_append_right _ he)) hchain
      · exact .rfl
    · exact .rfl
termination_by (ts.length, 2 * rank + 2)

end

theorem parse_meets :
    Meets (resolve name) (.expression (.unknownIdentifier text name)) refusal Mentions
      (parse text (resolve.refusing name refusal)) (parse text resolve) := by
  rw [parse.eq_def, parse.eq_def]
  split
  · exact .rfl
  · refine (parseRank_meets 3 _).bind_same ?_
    rintro index ⟨e, ⟨_ | ⟨t, rest⟩, hrest⟩⟩ e' he heq
    · cases heq
      exact he
    · cases heq

end parsers
end Expr

/-- The source has the named declaration with this index in it. -/
def SizeSource.Mentions (index : Nat) : SizeSource → Prop
  | .expression program => .field index ∈ program.ops
  | .field i _ => i = index
  | .external _ | .position => False

/-- The size is computed from the named declaration with this index. -/
def SizeSpec.Mentions (index : Nat) (spec : SizeSpec) : Prop :=
  ∃ source, spec = .computed source ∧ source.Mentions index

/-- The fault of a name in a size that stands for nothing. A text that is nothing but the name is
told apart from an expression. -/
def Fault.unknownName (position : Nat) (token text name : String) : Fault :=
  if isSingleReference text.toList then .script position token (.unknownSizeField name)
  else .expression (.unknownIdentifier text name)

namespace SizeScope
open Outcome

def refusing (scope : SizeScope) (name : String) (fault : Fault) : SizeScope :=
  { scope with resolve := scope.resolve.refusing name fault }

variable {scope : SizeScope} {text name : String} {refusal : Fault}

theorem reference_meets :
    Meets (scope.resolve name) (.script scope.position scope.token (.unknownSizeField name)) refusal SizeSpec.Mentions
      ((scope.refusing name refusal).reference text) (scope.reference text) := by
  rw [reference, reference]
  split
  · exact .rfl
  split
  · exact .rfl
  by_cases hname : text = name
  · subst hname
    refine .inr ⟨?_, ?_⟩
    · have hself : (scope.refusing text refusal).resolve text = .error refusal := Resolver.refusing_self _ _ _
      rw [hself]
      rfl
    · rw [Tells.eq_def]
      rcases scope.resolve text with fault | _ | index
      · exact Eq.refl _
      · exact Eq.refl _
      · intro spec hspec
        cases hspec
        exact ⟨_, rfl, rfl⟩
  · have hother : (scope.refusing name refusal).resolve text = scope.resolve text :=
      Resolver.refusing_of_ne refusal hname
    rw [hother]
    exact .rfl

theorem compile_meets :
    Meets (scope.resolve name) (.expression (.unknownIdentifier text name)) refusal (fun index p => .field index ∈ p.ops)
      (ExprProgram.compile text (scope.refusing name refusal).resolve) (ExprProgram.compile text scope.resolve) := by
  rw [ExprProgram.compile_eq, ExprProgram.compile_eq]
  refine Expr.parse_meets.bind_same ?_
  rintro index e program he heq
  cases heq
  exact he

theorem build_meets :
    Meets (scope.resolve name) (.unknownName scope.position scope.token text name) refusal SizeSpec.Mentions
      ((scope.refusing name refusal).build text) (scope.build text) := by
  rw [build, build, Fault.unknownName]
  split
  · exact reference_meets
  · refine compile_meets.bind_same ?_
    rintro index program spec hmentions heq
    -- An expression with a field in it is no constant.
    have hconstant : program.constant? = none := by
      rw [ExprProgram.constant?, if_neg]
      rw [ExprProgram.isConstant, List.all_eq_true]
      exact fun hall => Bool.false_ne_true (hall _ hmentions)
    rw [hconstant] at heq
    cases heq
    exact ⟨_, rfl, hmentions⟩

theorem extra_meets :
    Meets (scope.resolve name) (.unknownName scope.position scope.token (trimText text) name) refusal SizeSpec.Mentions
      ((scope.refusing name refusal).extra text) (scope.extra text) := build_meets

theorem arraySize_meets :
    Meets (scope.resolve name) (.unknownName scope.position scope.token (trimText text) name) refusal SizeSpec.Mentions
      ((scope.refusing name refusal).arraySize text) (scope.arraySize text) := by
  rw [arraySize, arraySize]
  split
  · exact .rfl
  · exact build_meets

end SizeScope

/-- What a text in brackets or parentheses is classified as. -/
inductive SizeUse where
  | extra
  | arraySize
deriving DecidableEq

namespace SizeUse
open Outcome

def classify : SizeUse → SizeScope → String → Except Fault SizeSpec
  | .extra => SizeScope.extra
  | .arraySize => SizeScope.arraySize

/-- The classification of a text comes to ask for a name: whatever fault the name had for an answer
would be that of the classification. -/
def Asks (use : SizeUse) (scope : SizeScope) (text name : String) : Prop :=
  ∀ fault, use.classify (scope.refusing name fault) text = .error fault

theorem Asks.tells {use : SizeUse} {scope : SizeScope} {text name : String} (h : use.Asks scope text name) :
    Tells (scope.resolve name) (.unknownName scope.position scope.token (trimText text) name) SizeSpec.Mentions
      (use.classify scope text) := by
  have hmeets : ∀ refusal, Meets (scope.resolve name)
      (.unknownName scope.position scope.token (trimText text) name) refusal SizeSpec.Mentions
      (use.classify (scope.refusing name refusal) text) (use.classify scope text) := by
    intro refusal
    cases use
    · exact SizeScope.extra_meets
    · exact SizeScope.arraySize_meets
  -- Two refusals make a difference where one may happen to be the fault of the size itself.
  rcases hmeets (.corrupt 0) with hsame | ⟨-, htells⟩
  · rcases hmeets (.corrupt 1) with hsame' | ⟨-, htells⟩
    · rw [h] at hsame hsame'
      rw [← hsame] at hsame'
      cases hsame'
    · exact htells
  · exact htells

/-- A text that is nothing but a name asks for it. -/
theorem asks_name {use : SizeUse} {scope : SizeScope} {text : String}
    (hsingle : isSingleReference (trimText text).toList = true)
    (hnumber : (trimText text).toList.all Char.isDigit = false) (hdollar : (trimText text).toList.head? ≠ some '$')
    (hwhole : trimText text ≠ "_") : use.Asks scope text (trimText text) := by
  intro fault
  have hreference : (scope.refusing (trimText text) fault).reference (trimText text) = .error fault := by
    have hself : (scope.refusing (trimText text) fault).resolve (trimText text) = .error fault :=
      Resolver.refusing_self _ _ _
    rw [SizeScope.reference, hnumber, if_neg Bool.false_ne_true]
    split
    · rename_i name hname
      rw [hname] at hdollar
      exact absurd rfl hdollar
    · rw [hself]
      rfl
  cases use with
  | extra =>
    rw [classify, SizeScope.extra, SizeScope.build, if_pos hsingle]
    exact hreference
  | arraySize =>
    simp only [classify, SizeScope.arraySize]
    rw [if_neg hwhole, SizeScope.build, if_pos hsingle]
    exact hreference

end SizeUse

namespace Draft
variable {custom : Option CustomTypes} {d : Draft} {t : Token}

/-- Adding a token comes to classify a text. The extra of a field is classified before its size. -/
inductive Classifies (custom : Option CustomTypes) (d : Draft) (t : Token) : SizeUse → String → Prop where
  | extra {type : TypeSpec} {size name : Option String} {kind : Kind} {text : String}
    (ht : t.declared = .field type size name) (hopen : d.wholeStreamDepth.any (d.opened.length ≤ ·) = false)
    (hkind : kindOf custom t type = .ok kind) (hform : checkForm t kind type size name = .ok ())
    (hextra : kind.hasExtra = true) (htext : type.extra = some text) (hcomputed : type.isComputed = true) :
    Classifies custom d t .extra text
  | size {type : TypeSpec} {name : Option String} {kind : Kind} {extra : Option SizeSpec} {text : String}
    (ht : t.declared = .field type (some text) name) (hopen : d.wholeStreamDepth.any (d.opened.length ≤ ·) = false)
    (hkind : kindOf custom t type = .ok kind) (hform : checkForm t kind type (some text) name = .ok ())
    (hextra : d.fieldExtra t kind type = .ok extra) : Classifies custom d t .arraySize text
  | structureSize {name : Option String} {text : String} (ht : t.declared = .opening (some text) name)
    (hopen : d.wholeStreamDepth.any (d.opened.length ≤ ·) = false) : Classifies custom d t .arraySize text

theorem arraySpec_error {text : String} {fault : Fault} (h : (d.sizeScope t).arraySize text = .error fault) :
    d.arraySpec t (some text) = .error fault := by
  rw [arraySpec]
  dsimp only
  rw [h]
  rfl

/-- A token whose text cannot be classified cannot be added. -/
theorem Classifies.add_error {use : SizeUse} {text : String} (h : d.Classifies custom t use text) {fault : Fault}
    (hfault : use.classify (d.sizeScope t) text = .error fault) : d.add custom t = .error fault := by
  cases h with
  | extra ht hopen hkind hform hextra htext hcomputed =>
    have hspec : (d.sizeScope t).extra text = .error fault := hfault
    rw [add.eq_def, ht]
    simp only [hopen, Bool.false_eq_true, if_false]
    rw [addField_def, hkind]
    simp only [bind, Except.bind, hform]
    rw [fieldExtra, if_pos hextra, extraSpec, htext]
    simp only [if_pos hcomputed, hspec]
    rfl
  | size ht hopen hkind hform hextra =>
    rw [add.eq_def, ht]
    simp only [hopen, Bool.false_eq_true, if_false]
    rw [addField_def, hkind]
    simp only [bind, Except.bind, hform, hextra]
    rw [addKind, arraySpec_error hfault]
    rfl
  | structureSize ht hopen =>
    rw [add.eq_def, ht]
    simp only [hopen, Bool.false_eq_true, if_false]
    rw [openStructure, arraySpec_error hfault]
    rfl

theorem arraySpec_source_mem {text : String} {count : Option SizeSpec} {d' : Draft}
    (h : d.arraySpec t (some text) = .ok (count, d')) {source : SizeSource}
    (hsource : (d.sizeScope t).arraySize text = .ok (.computed source)) : source ∈ (Extent.ofSpec count).sources := by
  obtain ⟨-, ⟨hnone, -⟩ | ⟨text', x, htext, rfl, hx⟩⟩ := arraySpec_cases h
  · cases hnone
  · cases htext
    rw [hsource] at hx
    cases hx
    exact List.mem_singleton_self _

/-- What a text of an added token is computed from is among the sources of the draft. -/
theorem Classifies.source_mem {use : SizeUse} {text : String} (h : d.Classifies custom t use text) {d' : Draft}
    (hadd : d.add custom t = .ok d') {source : SizeSource}
    (hsource : use.classify (d.sizeScope t) text = .ok (.computed source)) : source ∈ d'.sizes := by
  rcases add_cases [] hadd with ⟨_, ht', -⟩ | ⟨type', size', name', head, ht', hhead, rfl⟩ |
      ⟨size', name', head, ht', hhead, rfl⟩ | ⟨_, _, ht', -, -⟩
  · cases h with
    | extra ht | size ht | structureSize ht => simp [ht'] at ht
  · refine List.mem_append_right _ ?_
    obtain ⟨kind', extra', count, hkind', -, hextra', hcount, rfl⟩ := fieldHead_ok hhead
    cases h with
    | extra ht hopen hkind hform hextra htext hcomputed =>
      rw [ht'] at ht
      cases ht
      rw [hkind'] at hkind
      cases hkind
      refine List.mem_append_left _ ?_
      rw [fieldExtra, if_pos hextra] at hextra'
      obtain ⟨spec, hspec, rfl⟩ := of_map_some_ok hextra'
      rcases extraSpec_cases hspec with ⟨hnone, -⟩ | ⟨text', htext', -, hspec⟩
      · rw [htext] at hnone
        cases hnone
      · rw [htext] at htext'
        cases htext'
        rw [if_pos hcomputed, show (d.sizeScope t).extra text = _ from hsource] at hspec
        cases hspec
        exact List.mem_singleton_self _
    | size ht hopen hkind hform hextra =>
      rw [ht'] at ht
      cases ht
      exact List.mem_append_right _ (arraySpec_source_mem hcount hsource)
    | structureSize ht => simp [ht'] at ht
  · refine List.mem_append_right _ ?_
    obtain ⟨count, hcount, rfl⟩ := structureHead_ok hhead
    cases h with
    | extra ht => simp [ht'] at ht
    | size ht => simp [ht'] at ht
    | structureSize ht hopen =>
      rw [ht'] at ht
      cases ht
      exact List.mem_append_right _ (arraySpec_source_mem hcount hsource)
  · cases h with
    | extra ht | size ht | structureSize ht => simp [ht'] at ht

theorem sizes_add {d' : Draft} (h : d.add custom t = .ok d') : d.sizes <+: d'.sizes := by
  rcases add_cases [] h with ⟨_, -, rfl⟩ | ⟨_, _, _, _, -, -, rfl⟩ | ⟨_, _, _, -, -, rfl⟩ | ⟨_, _, -, -, rfl⟩
  · exact List.prefix_refl _
  · exact List.prefix_append _ _
  · exact List.prefix_append _ _
  · exact List.prefix_refl _

theorem sizes_addAll {tokens : List (Except Fault Token)} {d' : Draft} (h : d.addAll custom tokens = .ok d') :
    d.sizes <+: d'.sizes := by
  induction tokens generalizing d with
  | nil =>
    cases h
    exact List.prefix_refl _
  | cons token tokens ih =>
    cases token with
    | error fault => cases h
    | ok t =>
      obtain ⟨d₁, hadd, h⟩ := of_bind_ok h
      exact (sizes_add hadd).trans (ih h)

theorem addAll_append (ts : List Token) (more : List (Except Fault Token)) :
    d.addAll custom (ts.map .ok ++ more) = (do (← d.addAll custom (ts.map .ok)).addAll custom more) := by
  induction ts generalizing d with
  | nil => rfl
  | cons t ts ih =>
    rw [List.map_cons, List.cons_append, addAll, addAll]
    cases d.add custom t with
    | error fault => rfl
    | ok d' => exact ih

end Draft

/-- A script that compiles has nothing but tokens, and each is added to the draft of those before it. -/
theorem Layout.compileWith_add {custom : Option CustomTypes} {script : String} {layout : Layout} {ts : List Token}
    {t : Token} {more : List (Except Fault Token)} {d : Draft}
    (hscan : Token.scan ((custom.map (·.names)).getD []) script = ts.map .ok ++ .ok t :: more)
    (hd : Draft.addAll custom {} (ts.map .ok) = .ok d) (h : compileWith custom script = .ok layout) :
    ∃ ts' d', Token.scan ((custom.map (·.names)).getD []) script = (ts ++ ts').map .ok ∧ d.add custom t = .ok d' ∧
      d'.sizes <+: layout.sizes := by
  obtain ⟨all, -, -, hall, -⟩ := compileWith_traced h
  obtain ⟨last, hlast, h⟩ := of_bind_ok h
  rw [hscan, Draft.addAll_append, hd] at hlast
  change d.addAll custom (.ok t :: more) = .ok last at hlast
  obtain ⟨d', hadd, hlast⟩ := of_bind_ok hlast
  rw [hall] at hscan
  obtain ⟨ts₁, ts', rfl, hts₁, -⟩ := List.map_eq_append_iff.mp hscan
  obtain rfl : ts₁ = ts := List.map_injective_iff.mpr (fun _ _ => Except.ok.inj) hts₁
  refine ⟨ts', d', hall, hadd, ?_⟩
  have hsizes := Draft.sizes_addAll hlast
  rw [Draft.finish] at h
  split at h
  · cases h
  · cases h
    exact hsizes

/-- A script that reaches a token whose size is refused fails as that size does. -/
theorem Layout.compileWith_refused {custom : Option CustomTypes} {script : String} {ts : List Token} {t : Token}
    {more : List (Except Fault Token)} {d : Draft} {use : SizeUse} {text : String} {fault : Fault}
    (hscan : Token.scan ((custom.map (·.names)).getD []) script = ts.map .ok ++ .ok t :: more)
    (hd : Draft.addAll custom {} (ts.map .ok) = .ok d) (hclassifies : d.Classifies custom t use text)
    (hfault : use.classify (d.sizeScope t) text = .error fault) : compileWith custom script = .error fault := by
  have hadd := hclassifies.add_error hfault
  rw [compileWith]
  simp only [hscan, Draft.addAll_append, hd, bind, Except.bind]
  rw [Draft.addAll, hadd]
  rfl

/-- The table keeps each declaration before a token at the index it had there, under its full path. -/
theorem Layout.compileWith_site {custom : Option CustomTypes} {script : String} {layout : Layout} {ts : List Token}
    {t : Token} {more : List (Except Fault Token)} {d : Draft} {site : Site} {index : Nat}
    (hscan : Token.scan ((custom.map (·.names)).getD []) script = ts.map .ok ++ .ok t :: more)
    (hd : Draft.addAll custom {} (ts.map .ok) = .ok d) (hsite : (Scoping.of ts).sites[index]? = some site)
    (h : compileWith custom script = .ok layout) :
    (layout.named[index]?).map (·.path) = some (foldCase (site.pathFrom [])) := by
  obtain ⟨ts', _, hall, -, -⟩ := compileWith_add hscan hd h
  have hpaths := congrArg (·[index]?) (compileWith_paths hall h)
  simp only [List.getElem?_map] at hpaths
  rw [hpaths]
  obtain ⟨later, hlater⟩ := Scoping.sites_of_append ts ts'
  rw [← hlater, List.getElem?_append_left (List.getElem?_eq_some_iff.mp hsite).1, hsite, Option.map_some]

/-- What every size read at a token keeps of a name, a compiled layout keeps of it. -/
theorem Layout.compileWith_mentions {custom : Option CustomTypes} {script : String} {layout : Layout}
    {ts : List Token} {t : Token} {more : List (Except Fault Token)} {d : Draft} {use : SizeUse} {text : String}
    {index : Nat} (hscan : Token.scan ((custom.map (·.names)).getD []) script = ts.map .ok ++ .ok t :: more)
    (hd : Draft.addAll custom {} (ts.map .ok) = .ok d) (hclassifies : d.Classifies custom t use text)
    (htells : ∀ spec, use.classify (d.sizeScope t) text = .ok spec → spec.Mentions index)
    (h : compileWith custom script = .ok layout) : ∃ source ∈ layout.sizes, source.Mentions index := by
  obtain ⟨_, d', -, hadd, hsizes⟩ := compileWith_add hscan hd h
  cases hspec : use.classify (d.sizeScope t) text with
  | error fault =>
    rw [hclassifies.add_error hspec] at hadd
    cases hadd
  | ok spec =>
    obtain ⟨source, rfl, hmentions⟩ := htells spec hspec
    exact ⟨source, hsizes.subset (hclassifies.source_mem hadd hspec), hmentions⟩

/-- A name that a size comes to ask for stands for the last declaration before the token whose path
from the innermost structure around both is that name. Where there is none, or where its number is
not kept for the token, the script does not compile. -/
theorem Layout.compileWith_asks {custom : Option CustomTypes} {script : String} {ts : List Token} {t : Token}
    {more : List (Except Fault Token)} {d : Draft} {use : SizeUse} {text name : String}
    (hscan : Token.scan ((custom.map (·.names)).getD []) script = ts.map .ok ++ .ok t :: more)
    (hd : Draft.addAll custom {} (ts.map .ok) = .ok d) (hclassifies : d.Classifies custom t use text)
    (hasks : use.Asks (d.sizeScope t) text name) :
    match (Scoping.of ts).find? name with
    | none => compileWith custom script = .error (.unknownName t.position t.render (trimText text) name)
    | some (site, index) =>
      let path := site.pathFrom (Scoping.of ts).opened
      index < (Scoping.of ts).sites.length ∧
      (∀ layout, compileWith custom script = .ok layout →
        (layout.named[index]?).map (·.path) = some (foldCase (site.pathFrom []))) ∧
      if site.isStructure then
        compileWith custom script = .error (.script t.position t.render (.nonNumericSizeSource (foldCase path)))
      else if site.isArray || site.inClosedArray (Scoping.of ts).opened then
        compileWith custom script = .error (.script t.position t.render (.arraySizeSource (foldCase path)))
      else
        d.resolve t.position t.render name = .ok (some index) ∧
        ∀ layout, compileWith custom script = .ok layout → ∃ source ∈ layout.sizes, source.Mentions index := by
  have hfails {fault : Fault} := @compileWith_refused _ _ _ _ _ _ _ _ fault hscan hd hclassifies
  have htells := hasks.tells
  have hresolve : (d.sizeScope t).resolve name = (Scoping.of ts).resolve t.position t.render name :=
    congrFun (Draft.resolve_of_addAll hd t.position t.render) name
  rw [hresolve, Scoping.resolve] at htells
  cases hfind : (Scoping.of ts).find? name with
  | none =>
    rw [hfind] at htells
    exact hfails htells
  | some found =>
    obtain ⟨site, index⟩ := found
    have hsite := Scoping.find?_getElem? hfind
    rw [hfind] at htells
    dsimp only at htells ⊢
    refine ⟨(List.getElem?_eq_some_iff.mp hsite).1, fun _ => compileWith_site hscan hd hsite, ?_⟩
    split at htells
    · rename_i hstructure
      rw [if_pos hstructure]
      exact hfails htells
    rename_i hfield
    rw [if_neg hfield]
    split at htells
    · rename_i harray
      rw [if_pos harray]
      exact hfails htells
    rename_i hsingle
    rw [if_neg hsingle]
    refine ⟨?_, fun _ => compileWith_mentions hscan hd hclassifies htells⟩
    rw [Draft.resolve_of_addAll hd, Scoping.resolve, hfind]
    simp only [if_neg hfield, if_neg hsingle]

/-- The inner of two declarations of one name is meant, in whichever case it is written. -/
theorem Layout.compileWith_asks_inner_name :
    ∃ (ts : List Token) (t : Token) (more : List (Except Fault Token)) (d : Draft) (layout : Layout),
      Token.scan [] "ubyte n; rec \x7b ubyte n; byte[ N ] d; \x7d" = ts.map .ok ++ .ok t :: more ∧
      Draft.addAll none {} (ts.map .ok) = .ok d ∧ d.Classifies none t .arraySize "N" ∧
      SizeUse.Asks .arraySize (d.sizeScope t) "N" "N" ∧ d.resolve t.position t.render "N" = .ok (some 2) ∧
      compileWith none "ubyte n; rec \x7b ubyte n; byte[ N ] d; \x7d" = .ok layout ∧
      (∃ source ∈ layout.sizes, source.Mentions 2) ∧ (layout.named[2]?).map (·.path) = some "rec.n" := by
  let ts : List Token := [⟨0, .field ⟨.big, "ubyte", none⟩ none (some "n")⟩, ⟨9, .opening none (some "rec")⟩,
    ⟨15, .field ⟨.big, "ubyte", none⟩ none (some "n")⟩]
  let t : Token := ⟨24, .field ⟨.big, "byte", none⟩ (some "N") (some "d")⟩
  have hscan : Token.scan [] "ubyte n; rec \x7b ubyte n; byte[ N ] d; \x7d" =
      ts.map .ok ++ .ok t :: [.ok ⟨37, .closing⟩] := by decide +kernel
  obtain ⟨d, hd, hopen⟩ := of_any_ok (x := Draft.addAll none {} (ts.map .ok))
    (p := fun d => !d.wholeStreamDepth.any (d.opened.length ≤ ·)) (by decide +kernel)
  obtain ⟨layout, hlayout, -⟩ := of_any_ok (x := compileWith none "ubyte n; rec \x7b ubyte n; byte[ N ] d; \x7d")
    (p := fun _ => true) (by decide +kernel)
  have hkind : Draft.kindOf none t ⟨.big, "byte", none⟩ = .ok (.whole .byte) := by decide
  have hextra : d.fieldExtra t (.whole .byte) ⟨.big, "byte", none⟩ = .ok none := rfl
  have hclassifies : d.Classifies none t .arraySize "N" := .size rfl (Bool.not_eq_true' _ ▸ hopen) hkind rfl hextra
  have hasks : SizeUse.Asks .arraySize (d.sizeScope t) "N" "N" :=
    @SizeUse.asks_name .arraySize (d.sizeScope t) "N" (by decide) (by decide) (by decide) (by decide)
  have hfind : (Scoping.of ts).find? "N" = some (⟨[⟨0, some "rec", false⟩], "n", false, false⟩, 2) := by decide +kernel
  have h := @compileWith_asks none _ ts t _ d .arraySize "N" "N" hscan hd hclassifies hasks
  rw [hfind] at h
  obtain ⟨-, hpath, hresolve, hmentions⟩ := h
  exact ⟨ts, t, _, d, layout, hscan, hd, hclassifies, hasks, hresolve, hlayout, hmentions layout hlayout,
    hpath layout hlayout⟩

end LayoutScript
