import MathMarkup.CommandLine

/-!
# The program

Reads the source from a file or from the standard input, and prints what the command line asks for.
-/

namespace MathMarkup.CommandLine

def readSource : Option String → IO (Except ReadFailure String)
  | none => do
    let stdin ← IO.getStdin
    let mut bytes := ByteArray.empty
    repeat
      let chunk ← stdin.read 65536
      if chunk.isEmpty then break
      bytes := bytes ++ chunk
    return decodeSource bytes
  | some path => do
    try
      return decodeSource (← IO.FS.readBinFile path)
    catch
      | .noFileOrDirectory .. => return .error .missing
      | .inappropriateType .. => return .error .directory
      | e => throw e

def printReport (r : Report) : IO UInt32 := do
  IO.print r.stdout
  IO.eprint r.stderr
  return r.exit.toUInt32

def perform : Request → IO UInt32
  | .run options => do printReport (run options (← readSource options.file))
  | .version => printReport ⟨0, versionText, ""⟩
  | .help => printReport ⟨0, usage, ""⟩
  | .misuse => printReport ⟨2, "", usage⟩

end MathMarkup.CommandLine

def main (args : List String) : IO UInt32 :=
  MathMarkup.CommandLine.perform (MathMarkup.CommandLine.request args)
