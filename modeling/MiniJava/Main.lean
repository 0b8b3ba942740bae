import MiniJava.CommandLine

/-!
# The command

Reads the file named on the command line, compiles it and prints what came of it.
-/

namespace MiniJava.CommandLine

/-- The number of an error of the system. Opening a file reports it with a minus sign. -/
def errorNumber (code : UInt32) : Nat := code.toInt32.toInt.natAbs

def ReadError.ofSystem (e : IO.Error) : ReadError :=
  match e with
  | .noFileOrDirectory .. => .notFound
  | .permissionDenied _ code _ | .inappropriateType _ code _ | .invalidArgument _ code _ =>
    match errorNumber code with
    | 13 => .accessDenied
    | 20 => .notADirectory
    | 21 => .isDirectory
    | 36 => .nameTooLong
    | _ => .other (toString e)
  | _ => .other (toString e)

def readSource (file : String) : IO (Except ReadError String) := do
  try
    return decodeFile (← IO.FS.readBinFile file)
  catch e =>
    return .error (.ofSystem e)

def outputOf (texts : List String) : IO Output := do
  match Arguments.parse texts with
  | .error refusal => return refuse refusal
  | .ok (args, file) => return args.run file (← readSource file)

end MiniJava.CommandLine

def main (texts : List String) : IO UInt32 := do
  let output ← MiniJava.CommandLine.outputOf texts
  IO.print output.stdout
  IO.eprint output.stderr
  return output.exit.toUInt32
