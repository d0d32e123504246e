import LayoutScript.Command

/-! # The program

The program reads the files that its command line names, runs the command on them and writes
what it answers. Whoever links it supplies the decoder of compressed files.
-/
namespace LayoutScript

/-- The contents of the files that can be read. -/
def readFiles : List String → IO (List (String × List UInt8))
  | [] => return []
  | path :: paths => do
    let files ← readFiles paths
    try
      let bytes ← IO.FS.readBinFile path
      return (path, bytes.toList) :: files
    catch _ => return files

/-- Runs a command line and gives its exit code. -/
def program {δ : Type} (decoder : FrameDecoder δ) (words : List String) : IO UInt32 := do
  let command := Command.ofWords? words
  let files ← readFiles ((command.map Command.paths).getD [])
  let outcome := Command.runWords words (List.lookup · files) decoder
  IO.print outcome.output
  IO.eprint outcome.errors
  return outcome.exitCode

end LayoutScript
