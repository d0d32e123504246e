import LayoutScript.Apply.Request
import LayoutScript.Command.External

/-! # Words of a command line

A command line names a command; words that start with a dash are its options, all others are
its operands. An option may have a value, in the next word or behind an equals sign, and two
dashes alone make all words behind them operands.
-/
namespace LayoutScript

inductive OptionForm where
  | alone | valued
deriving DecidableEq

structure OptionSpec where
  name : String
  form : OptionForm
  repeatable : Bool := false
deriving DecidableEq

structure CommandWords where
  operands : List String := []
  /-- The options as they are given, those that stand alone with an empty value. -/
  options : List (String × String) := []
deriving DecidableEq

namespace CommandWords

def isOption (word : String) : Bool :=
  match word.toList with
  | '-' :: _ :: _ => true
  | _ => false

def addOperand (word : String) (w : CommandWords) : CommandWords :=
  { w with operands := word :: w.operands }

def addOption (name value : String) (w : CommandWords) : CommandWords :=
  { w with options := (name, value) :: w.options }

def splitOption (word : String) : String × Option String :=
  let body := word.toList.drop 2
  match splitEquals? body with
  | none => (String.ofList body, none)
  | some (name, value) => (String.ofList name, some (String.ofList value))

def formOf? (table : List OptionSpec) (name : String) : Option OptionForm :=
  (table.find? (·.name == name)).map (·.form)

/-- Sorts words out. Options with a single dash do not exist. -/
def sort? (table : List OptionSpec) : List String → Option CommandWords
  | [] => some {}
  | word :: rest =>
    if word = "--" then some { operands := rest }
    else if !isOption word then (sort? table rest).map (addOperand word)
    else if !"--".toList.isPrefixOf word.toList then none
    else
      let (name, value?) := splitOption word
      match formOf? table name, value?, rest with
      | some .alone, none, rest => (sort? table rest).map (addOption name "")
      | some .valued, some value, rest => (sort? table rest).map (addOption name value)
      | some .valued, none, value :: rest =>
        if isOption value then none else (sort? table rest).map (addOption name value)
      | _, _, _ => none

def isSound (table : List OptionSpec) (w : CommandWords) : Bool :=
  table.all fun o => o.repeatable || (w.options.filter (·.1 == o.name)).length ≤ 1

def values (w : CommandWords) (name : String) : List String :=
  (w.options.filter (·.1 == name)).map (·.2)

def has (w : CommandWords) (name : String) : Bool := !(w.values name).isEmpty

end CommandWords

structure CompileRequest where
  script : String
  json : Bool
deriving DecidableEq

structure ParseRequest where
  script : String
  data : String
  options : ReadOptions
  externals : List (String × Int32)
  path : Option String
  json : Bool
deriving DecidableEq

inductive Command where
  | compile (request : CompileRequest)
  | parse (request : ParseRequest)
deriving DecidableEq

namespace Command

def compileOptions : List OptionSpec := [⟨"json", .alone, false⟩]

def parseOptions : List OptionSpec :=
  [⟨"msb0", .alone, false⟩, ⟨"tolerate-eof", .alone, false⟩, ⟨"ext", .valued, true⟩,
    ⟨"path", .valued, false⟩, ⟨"max-depth", .valued, false⟩, ⟨"max-array", .valued, false⟩,
    ⟨"json", .alone, false⟩]

/-- A limit with a sign that is less than `2 ^ bits`. -/
def signedLimit? (bits : Nat) (word : String) : Option Nat :=
  (signed? decimal? word.toList).bind fun n => if 0 ≤ n ∧ n.toNat < 1 <<< bits then some n.toNat else none

def unsignedLimit? (bits : Nat) (word : String) : Option Nat :=
  if word.toList.head? = some '-' then none else signedLimit? bits word

def limitOf? (w : CommandWords) (name : String) (read : String → Option Nat) (default : Nat) :
    Option Nat :=
  match w.values name with
  | [] => some default
  | value :: _ => read value

/-- The words of a command that are sound and have as many operands as it needs, none of them
empty. -/
def words? (table : List OptionSpec) (operands : Nat) (words : List String) : Option CommandWords :=
  (CommandWords.sort? table words).filter fun w =>
    w.isSound table && w.operands.length == operands && w.operands.all (!·.isEmpty)

def compileOf? (words : List String) : Option Command := do
  let w ← words? compileOptions 1 words
  return .compile ⟨w.operands.getD 0 "", w.has "json"⟩

def parseOf? (words : List String) : Option Command := do
  let w ← words? parseOptions 2 words
  let externals ← (w.values "ext").mapM fun word => (parseExternal word).toOption
  let defaults : ReadOptions := {}
  let maxDepth ← limitOf? w "max-depth" (signedLimit? 32) defaults.maxDepth
  let maxElements ← limitOf? w "max-array" (unsignedLimit? 64) defaults.maxElements
  return .parse {
    script := w.operands.getD 0 ""
    data := w.operands.getD 1 ""
    options := {
      bitOrder := if w.has "msb0" then .msb0 else .lsb0
      tolerant := w.has "tolerate-eof"
      maxDepth, maxElements }
    externals
    path := (w.values "path").head?
    json := w.has "json" }

def ofWords? : List String → Option Command
  | "compile" :: words => compileOf? words
  | "parse" :: words => parseOf? words
  | _ => none

def paths : Command → List String
  | .compile request => [request.script]
  | .parse request => [request.script, request.data]

end Command
end LayoutScript
