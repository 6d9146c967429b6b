import ProtoSyntax.CommandLine

/-!
# The program

Reads the files that the arguments name and prints what the command line makes of them.
-/

namespace ProtoSyntax.CommandLine

def readFile (path : String) : IO (Except ReadError String) := do
  try
    let bytes ← IO.FS.readBinFile path
    return (String.fromUTF8? bytes).elim (.error .notText) .ok
  catch e =>
    match e with
    | .noFileOrDirectory _ _ _ => return .error .missing
    | _ => return .error (.other (toString e))

end ProtoSyntax.CommandLine

open ProtoSyntax.CommandLine in
def main (arguments : List String) : IO UInt32 := do
  let paths := ((parse? arguments).map (·.command.paths)).getD []
  let files ← paths.mapM fun path => return (path, ← readFile path)
  let outcome := run arguments fun path => (files.lookup path).getD (.error .missing)
  IO.print outcome.out
  IO.eprint outcome.err
  return outcome.code.toUInt32
