import StackScript.Inspection

/-!
# The command line

Looks at a file that holds an image: `disasm FILE` lists its code, `inspect FILE` sums it up and
`verify FILE` checks it. The options for logging are accepted, and nothing is logged.
-/

namespace StackScript

/-- The bytes of a file, or the reason why it cannot be read. -/
def readImageFile (path : String) : IO (Except String (List UInt8)) := do
  try
    let bytes ← IO.FS.readBinFile path
    return .ok bytes.toList
  catch
    | .noFileOrDirectory .. => return .error Inspection.missing
    | e => return .error (toString e)

/-- The arguments without the options for logging. -/
def withoutLogging : List String → List String
  | [] => []
  | "--verbose" :: args | "-v" :: args | "--log" :: _ :: args => withoutLogging args
  | arg :: args => arg :: withoutLogging args

end StackScript

open StackScript in
def main (args : List String) : IO UInt32 := do
  match withoutLogging args with
  | [name, path] =>
    match Inspection.Command.ofName? name with
    | some command =>
      let report := Inspection.report command path (← readImageFile path)
      IO.print report.out
      IO.eprint report.err
      return report.code.toUInt32
    | none =>
      IO.eprintln ("unrecognized subcommand '" ++ name ++ "'")
      return 2
  | _ =>
    IO.eprintln "usage: (disasm | inspect | verify) FILE"
    return 2
