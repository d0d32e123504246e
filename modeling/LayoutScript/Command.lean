import LayoutScript.Apply.Body
import LayoutScript.Command.Words
import LayoutScript.Compile
import LayoutScript.Fault.Message
import LayoutScript.Input
import LayoutScript.Layout.Listing
import LayoutScript.Supply.External
import LayoutScript.Value.Json
import LayoutScript.Value.Lookup
import LayoutScript.Value.Report

/-! # Commands

A command reads its files, a script among them, and writes a text or a JSON object. It runs on
any files that can be looked up by their paths, with any decoder for compressed ones.
-/
namespace LayoutScript

abbrev Files := String → Option (List UInt8)

/-- What a command line writes, and its exit code. -/
structure Outcome where
  exitCode : UInt32
  output : String := ""
  errors : String := ""
deriving DecidableEq

namespace Files

def read (files : Files) (path : String) : Except Fault (List UInt8) :=
  match files path with
  | some bytes => .ok bytes
  | none => .error (.file .missing)

def readText (files : Files) (path : String) : Except Fault String := do
  match String.fromUTF8? ⟨(← files.read path).toArray⟩ with
  | some text => return text
  | none => throw (.file .notText)

end Files

/-- A number with blanks in front up to `width` characters. -/
def paddedNumber (width n : Nat) : String :=
  let text := toString n
  blanks (width - text.length) ++ text

def jsonOutput (value : Json) : String := value.render .indented ++ "\n"

namespace CompileRequest

def text (request : CompileRequest) (layout : Layout) (listing : String) : String :=
  let names := layout.named.zipIdx.map fun (field, index) =>
    s!"  {paddedNumber 3 index}  {hexPadded 4 field.offset}  {field.path}"
  let sizes := layout.sizes.zipIdx.map fun (size, index) =>
    s!"  {paddedNumber 3 index}  {size.render}"
  joinLines [s!"script: {request.script}", s!"code: {layout.code.length} bytes"] ++ listing ++
    joinLines ([s!"named fields: {layout.named.length}"] ++ names ++
      [s!"evaluators: {layout.sizes.length}"] ++ sizes)

def object (request : CompileRequest) (layout : Layout) (listing : String) : Json :=
  .object [
    ("script", .text request.script),
    ("code", .text (hexText layout.code)),
    ("code_len", .number layout.code.length),
    ("instructions", .array ((textLines listing).map .text)),
    ("named_fields", .array (layout.named.map fun field => .object [
      ("path", .text field.path), ("name", .text field.name), ("offset", .number field.offset)])),
    ("evaluators", .array (layout.sizes.map fun size => .text size.render)),
    ("custom_types", .array (layout.customTypes.map fun type => .text type.render))]

def run (request : CompileRequest) (files : Files) : Except Fault String := do
  let layout ← Layout.compile (← files.readText request.script)
  let listing ← layout.listing
  return if request.json then jsonOutput (request.object layout listing)
    else request.text layout listing

end CompileRequest

namespace ParseRequest

/-- The value at a path of a structure, or the structure. -/
def select (request : ParseRequest) (r : Record) : Except Fault Value :=
  match request.path with
  | none => .ok (.record r)
  | some path => do r.select (← FieldPath.parse path)

/-- The fields of an input, or the value at the path, as a text. -/
def text (request : ParseRequest) (encoding : InputEncoding) (bytes : List UInt8) (value : Value) :
    String :=
  match request.path, value with
  | none, .record r =>
    joinLines [s!"data: {request.data} ({encoding.label}, {bytes.length} bytes)"] ++
      r.report {} 0 0
  | _, value => value.report {}

/-- The fields of an input, or the value at the path, as an object. -/
def object (request : ParseRequest) (encoding : InputEncoding) (bytes : List UInt8)
    (value : Value) : Json :=
  .object ([
    ("script", .text request.script),
    ("data", .text request.data),
    ("encoding", .text encoding.label),
    ("input_bytes", .number bytes.length),
    ("bit_order", .text request.options.bitOrder.label)] ++
    (request.path.toList.map fun path => ("path", .text path)) ++ [("value", value.toJson)])

def run {δ : Type} (request : ParseRequest) (files : Files) (decoder : FrameDecoder δ) : Except Fault String := do
  let layout ← Layout.compile (← files.readText request.script)
  let (encoding, bytes) ← Input.unpack decoder Input.maxUnpacked (← files.read request.data)
  let provider := Provider.ofRules (request.externals.map fun (name, n) => (name, .constant n))
  let r ← (layout.readBytes bytes request.options { provider }).1
  let value ← request.select r
  return if request.json then jsonOutput (request.object encoding bytes value)
    else request.text encoding bytes value

end ParseRequest

namespace Command

variable {δ : Type}

def run (command : Command) (files : Files) (decoder : FrameDecoder δ) : Except Fault String :=
  match command with
  | .compile request => request.run files
  | .parse request => request.run files decoder

def usage : String := joinLines [
  "usage: compile SCRIPT [--json]",
  "       parse SCRIPT DATA [--msb0] [--tolerate-eof] [--ext NAME=VALUE]... [--path PATH]",
  "             [--max-depth N] [--max-array N] [--json]"]

/-- Runs a command line. A line that cannot be read exits with two, a command that fails with
one. -/
def runWords (words : List String) (files : Files) (decoder : FrameDecoder δ) : Outcome :=
  match ofWords? words with
  | none => { exitCode := 2, errors := usage }
  | some command =>
    match command.run files decoder with
    | .ok output => { exitCode := 0, output }
    | .error fault => { exitCode := 1, errors := s!"error: {fault.message}\n" }

end Command
end LayoutScript
