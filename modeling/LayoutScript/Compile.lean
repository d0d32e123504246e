import LayoutScript.Compile.Size
import LayoutScript.Token.Scan

/-! # Compiling scripts

A script is compiled token by token into a draft: the code so far, the tables that go with
it and the structures that are still open. A named declaration enters the table under its
own name; when a structure closes, its name is put before the paths of its members, so that
a path is always relative to the innermost structure that is still open around it.
-/
namespace LayoutScript

structure CustomTypes where
  names : List String
  /-- Whether a declaration is acceptable, from its type, its name, its extra as far as it is
  a number, and whether it is an array. -/
  allows : TypeSpec → Option String → Option Int32 → Bool → Bool

/-- A named declaration of a draft and what decides whether it can be a size. -/
structure DraftEntry where
  field : NamedField
  numeric : Bool
  isArray : Bool
  /-- The structure arrays around the declaration. -/
  arrayScopes : List Nat
deriving DecidableEq

structure OpenStructure where
  /-- Offset of its instruction. -/
  start : Nat
  /-- Offset and text of its token. -/
  position : Nat
  token : String
  name : Option String
  /-- The number of named declarations before its members. -/
  firstMember : Nat
  /-- The number of the structure array that it is. -/
  arrayScope : Option Nat
deriving DecidableEq

structure Draft where
  code : Array UInt8 := #[]
  entries : List DraftEntry := []
  sizes : List SizeSource := []
  customTypes : List TypeSpec := []
  /-- The open structures, the innermost first. -/
  opened : List OpenStructure := []
  arrayScopes : Nat := 0
  /-- The number of structures around the array over the whole input, once there is one. -/
  wholeStreamDepth : Option Nat := none

namespace Draft

/-- The index that a name stands for at a token: the last declaration with that path, if its
value can be a size there. -/
def resolve (d : Draft) (position : Nat) (token : String) : Resolver := fun name =>
  let wanted := foldCase name
  match d.entries.reverse.findIdx? (·.field.path == wanted) with
  | none => .ok none
  | some fromEnd =>
    let index := d.entries.length - 1 - fromEnd
    match d.entries[index]? with
    | none => .ok none
    | some entry =>
      let isOpen (scope : Nat) : Bool := d.opened.any (·.arrayScope == some scope)
      if !entry.numeric then
        .error (.script position token (.nonNumericSizeSource entry.field.path))
      else if entry.isArray || !entry.arrayScopes.all isOpen then
        .error (.script position token (.arraySizeSource entry.field.path))
      else .ok (some index)

def sizeScope (d : Draft) (t : Token) : SizeScope where
  position := t.position
  token := t.render
  resolve := d.resolve t.position t.render

def arraySpec (d : Draft) (t : Token) (size : Option String) :
    Except Fault (Option SizeSpec × Draft) :=
  match size with
  | none => .ok (none, d)
  | some text => do
    match ← (d.sizeScope t).arraySize text with
    | .wholeStream =>
      if d.wholeStreamDepth.isSome then throw (.script t.position t.render .secondWholeStream)
      return (some .wholeStream, { d with wholeStreamDepth := some d.opened.length })
    | spec => return (some spec, d)

/-- The number of declarations before those that a new name has to differ from. -/
def firstMember (d : Draft) : Nat := (d.opened.head?.map (·.firstMember)).getD 0

def register (d : Draft) (t : Token) (name : String) (numeric isArray : Bool) : Except Fault Draft :=
  if (d.entries.drop d.firstMember).any (·.field.path == name) then
    .error (.script t.position t.render (.duplicateName name))
  else .ok { d with
    entries := d.entries ++ [{
      field := ⟨name, name, d.code.size⟩
      numeric, isArray
      arrayScopes := d.opened.filterMap (·.arrayScope) }] }

def registerNamed (d : Draft) (t : Token) (name : Option String) (numeric isArray : Bool) :
    Except Fault Draft :=
  match name with
  | some name => d.register t (foldCase name) numeric isArray
  | none => .ok d

def countOf : Option SizeSpec → Count
  | none => .one
  | some (.fixed n) => .fixed n.toInt.toNat
  | some .wholeStream => .wholeStream
  | some (.computed _) => .computed

def sourceOf : SizeSpec → List SizeSource
  | .computed source => [source]
  | _ => []

def packedOf : SizeSpec → Packed
  | .fixed n => .value n
  | _ => .computed

def emit (d : Draft) (i : Instruction) : Draft := { d with code := d.code ++ i.encode }

def openStructure (d : Draft) (t : Token) (size name : Option String) : Except Fault Draft := do
  let (count, d) ← d.arraySpec t size
  let start := d.code.size
  let d ← d.registerNamed t name false count.isSome
  let d := d.emit { action := .opening, named := name.isSome, count := countOf count }
  let arrayScope := if count.isSome then some (d.arrayScopes + 1) else none
  return { d with
    sizes := d.sizes ++ count.toList.flatMap sourceOf
    arrayScopes := arrayScope.getD d.arrayScopes
    opened := {
      start, arrayScope
      position := t.position
      token := t.render
      name := name.map foldCase
      firstMember := d.entries.length } :: d.opened }

def closeStructure (d : Draft) (t : Token) : Except Fault Draft :=
  match d.opened with
  | [] => .error (.script t.position t.render .unmatchedClose)
  | inner :: outer =>
    let d := d.emit { action := .closing (Int32.ofNat inner.start) }
    let rename (e : DraftEntry) : DraftEntry :=
      match inner.name with
      | some owner => { e with field := e.field.within owner }
      | none => e
    .ok { d with
      opened := outer
      entries := d.entries.take inner.firstMember ++ (d.entries.drop inner.firstMember).map rename }

def defaultExtra : Kind → Int32
  | .bit | .align | .skip => 1
  | _ => 0

def checkExtra (t : Token) (kind : Kind) (text : String) (spec : SizeSpec) : Except Fault SizeSpec :=
  match spec with
  | .fixed value =>
    let invalid : Except Fault SizeSpec := .error (.script t.position t.render (.invalidExtra text))
    match kind with
    | .bit =>
      if 1 ≤ value ∧ value ≤ 8 then .ok spec
      else .error (.script t.position t.render (.bitWidth value.toInt))
    | .align => if value < 1 then invalid else .ok spec
    | .skip => if value < 0 then invalid else .ok spec
    | _ => .ok spec
  | _ => .ok spec

/-- A literal extra. A width is checked before the range of a 32-bit integer. -/
def literalExtra (t : Token) (kind : Kind) (text : String) : Except Fault SizeSpec :=
  let invalid : Except Fault SizeSpec := .error (.script t.position t.render (.invalidExtra text))
  match signed? decimal? text.toList with
  | none => invalid
  | some value =>
    if !fitsSigned 64 value then invalid
    else if kind = .bit ∧ ¬(1 ≤ value ∧ value ≤ 8) then
      .error (.script t.position t.render (.bitWidth value))
    else if fitsSigned 32 value then .ok (.fixed (Int32.ofInt value))
    else invalid

def extraSpec (d : Draft) (t : Token) (kind : Kind) (type : TypeSpec) : Except Fault SizeSpec :=
  match type.extra with
  | none => .ok (.fixed (defaultExtra kind))
  | some text => do
    let spec ←
      if type.isComputed then (d.sizeScope t).extra text else literalExtra t kind text
    checkExtra t kind text spec

def kindOf (custom : Option CustomTypes) (t : Token) (type : TypeSpec) : Except Fault Kind :=
  match Kind.ofKeyword? type.name with
  | some kind => .ok kind
  | none =>
    if custom.any fun c => c.names.any (sameName type.name) then .ok .custom
    else .error (.script t.position t.render (.unknownType type.name))

def checkForm (t : Token) (kind : Kind) (type : TypeSpec) (size name : Option String) :
    Except Fault Unit := do
  if kind.isModifier then
    if name.isSome then throw (.script t.position t.render (.modifierMisuse .named))
    if size.isSome then throw (.script t.position t.render (.modifierMisuse .array))
  if !kind.hasExtra then
    if let some extra := type.extra then
      throw (.script t.position t.render (.invalidExtra extra))

def actionOf (kind : Kind) (extra : Packed) (customIndex : Nat) : Action :=
  match kind with
  | .align => .align extra
  | .bit => .bit extra
  | .whole type => .whole type
  | .skip => .skip extra
  | .var => .var extra
  | .restart => .restart
  | .custom => .custom customIndex extra
  | .opening => .opening
  | .closing => .closing 0

def allowed (custom : Option CustomTypes) (type : TypeSpec) (name : Option String)
    (extra : Option SizeSpec) (isArray : Bool) : Bool :=
  custom.any fun c =>
    c.allows type name
      (match extra with
        | some (.fixed value) => some value
        | _ => none)
      isArray

def addField (custom : Option CustomTypes) (d : Draft) (t : Token) (type : TypeSpec)
    (size name : Option String) : Except Fault Draft := do
  let kind ← kindOf custom t type
  checkForm t kind type size name
  let extra ← if kind.hasExtra then some <$> d.extraSpec t kind type else pure none
  let (count, d) ← d.arraySpec t size
  if kind = .custom ∧ !allowed custom type name extra count.isSome then
    throw (.script t.position t.render (.customTypeRejected type.name))
  let d ← d.registerNamed t name kind.isNumeric count.isSome
  let d := d.emit {
    action := actionOf kind (packedOf (extra.getD (.fixed 0))) d.customTypes.length
    named := name.isSome
    little := type.order = .little
    count := countOf count }
  return { d with
    sizes := d.sizes ++ (extra.toList ++ count.toList).flatMap sourceOf
    customTypes := d.customTypes ++ (if kind = .custom then [type] else []) }

/-- Adds a token. After the array over the whole input only structures may close. -/
def add (custom : Option CustomTypes) (d : Draft) (t : Token) : Except Fault Draft :=
  let closed : Bool := d.wholeStreamDepth.any (d.opened.length ≤ ·)
  let late : Except Fault Draft := .error (.script t.position t.render .afterWholeStream)
  match t.declared with
  | .comment _ => .ok d
  | .closing => d.closeStructure t
  | .opening size name => if closed then late else d.openStructure t size name
  | .field type size name => if closed then late else d.addField custom t type size name

def finish (d : Draft) (script : String) : Except Fault Layout :=
  match d.opened with
  | inner :: _ => .error (.script inner.position inner.token .unclosed)
  | [] => .ok {
      source := script
      code := d.code.toList
      named := d.entries.map (·.field)
      sizes := d.sizes
      customTypes := d.customTypes }

def addAll (custom : Option CustomTypes) (d : Draft) : List (Except Fault Token) → Except Fault Draft
  | [] => .ok d
  | .error fault :: _ => .error fault
  | .ok t :: ts => do addAll custom (← d.add custom t) ts

end Draft

namespace Layout

def compileWith (custom : Option CustomTypes) (script : String) : Except Fault Layout := do
  let names := (custom.map (·.names)).getD []
  (← Draft.addAll custom {} (Token.scan names script)).finish script

def compile (script : String) : Except Fault Layout := compileWith none script

end Layout
end LayoutScript
