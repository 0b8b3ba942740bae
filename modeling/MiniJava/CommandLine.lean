import MiniJava.Snapshot

/-!
# The command line

The command compiles one file. Flags choose how far to go and what to print; short flags can be
combined in one argument, and `--` ends the flags.
-/

namespace MiniJava.CommandLine

/-! ## Arguments -/

inductive Flag where
  | typecheck
  | regalloc
  | registers
  | asm
  | json
  | verbose
  | help
  deriving DecidableEq, Repr

namespace Flag

def all : List Flag := [typecheck, regalloc, registers, asm, json, verbose, help]

def long : Flag → String
  | typecheck => "typecheck"
  | regalloc => "regalloc"
  | registers => "registers"
  | asm => "asm"
  | json => "json"
  | verbose => "verbose"
  | help => "help"

def short? : Flag → Option Char
  | typecheck => some 't'
  | regalloc => some 'r'
  | registers => some 'k'
  | asm => none
  | json => none
  | verbose => some 'v'
  | help => some 'h'

def ofLong? (name : String) : Option Flag := all.find? (·.long == name)

def ofShort? (c : Char) : Option Flag := all.find? (·.short? == some c)

end Flag

structure Arguments where
  file? : Option String := none
  typecheck : Bool := false
  regalloc : Bool := false
  registers? : Option Nat := none
  asm : Bool := false
  json : Bool := false
  deriving DecidableEq, Repr

inductive Refusal where
  | usage
  | help
  deriving DecidableEq, Repr

/-- One more than the highest number that fits into 64 bits. -/
def numberBound : Nat := 18446744073709551616

/-- The value of a decimal numeral, which may start with a plus sign, if it fits into 64 bits. -/
def number? (text : String) : Option Nat :=
  let digits := match text.toList with
    | '+' :: rest => rest
    | cs => cs
  if digits.isEmpty || !digits.all Char.isDigit then none
  else
    let n := digits.foldl (fun n c => 10 * n + (c.toNat - 48)) 0
    if n < numberBound then some n else none

namespace Arguments

/-- Turns a flag without value on. Each such flag but the verbosity may be given once. -/
def turnOn (args : Arguments) : Flag → Except Refusal Arguments
  | .typecheck => if args.typecheck then throw .usage else return { args with typecheck := true }
  | .regalloc => if args.regalloc then throw .usage else return { args with regalloc := true }
  | .asm => if args.asm then throw .usage else return { args with asm := true }
  | .json => if args.json then throw .usage else return { args with json := true }
  | .verbose => return args
  | .help => throw .help
  | .registers => throw .usage

/-- Sets the number of registers, which may be given once. -/
def setRegisters (args : Arguments) (text : String) : Except Refusal Arguments :=
  match args.registers?, number? text with
  | none, some n => .ok { args with registers? := some n }
  | _, _ => .error .usage

/-- Sets the file, which may be given once and has a name. -/
def setFile (args : Arguments) (name : String) : Except Refusal Arguments :=
  if args.file?.isSome || name.isEmpty then .error .usage else .ok { args with file? := some name }

/-- Takes flags of one letter. The number of registers may follow its letter directly or after an
equals sign; if nothing follows, it is in the next argument, and the answer is `true`. -/
def letters (args : Arguments) : List Char → Except Refusal (Arguments × Bool)
  | [] => .ok (args, false)
  | c :: cs =>
    match Flag.ofShort? c with
    | none => .error .usage
    | some .registers =>
      match cs with
      | [] => .ok (args, true)
      | '=' :: value => do return (← args.setRegisters (String.ofList value), false)
      | value => do return (← args.setRegisters (String.ofList value), false)
    | some flag =>
      match args.turnOn flag with
      | .ok args => args.letters cs
      | .error e => .error e

/-- Takes a long flag. A value after an equals sign goes with the number of registers only; without
one, it is in the next argument, and the answer is `true`. -/
def word (args : Arguments) (text : List Char) : Except Refusal (Arguments × Bool) := do
  let name := String.ofList (text.takeWhile (· ≠ '='))
  let value := text.dropWhile (· ≠ '=')
  match Flag.ofLong? name, value with
  | none, _ => throw .usage
  | some .registers, [] => return (args, true)
  | some .registers, _ :: value => return (← args.setRegisters (String.ofList value), false)
  | some flag, [] => return (← args.turnOn flag, false)
  | some _, _ :: _ => throw .usage

def files (args : Arguments) : List String → Except Refusal Arguments
  | [] => .ok args
  | name :: names => do (← args.setFile name).files names

/-- Takes arguments from left to right. `pending` says that the number of registers comes next. -/
def take (args : Arguments) (pending : Bool) : List String → Except Refusal Arguments
  | [] => if pending then .error .usage else .ok args
  | text :: rest =>
    if pending then
      match args.setRegisters text with
      | .ok args => args.take false rest
      | .error e => .error e
    else
      match text.toList with
      | ['-', '-'] => args.files rest
      | '-' :: '-' :: name =>
        match args.word name with
        | .ok (args, pending) => args.take pending rest
        | .error e => .error e
      | '-' :: c :: cs =>
        match args.letters (c :: cs) with
        | .ok (args, pending) => args.take pending rest
        | .error e => .error e
      | _ =>
        match args.setFile text with
        | .ok args => args.take false rest
        | .error e => .error e

/-- Reads the arguments of the command, among which there has to be a file. -/
def parse (texts : List String) : Except Refusal (Arguments × String) := do
  let args ← ({} : Arguments).take false texts
  match args.file? with
  | some file => return (args, file)
  | none => throw .usage

/-- Whether to emit assembly: if asked for, and if nothing else is. -/
def emitAsm (args : Arguments) : Bool := args.asm || !(args.typecheck || args.regalloc)

def options (args : Arguments) : Options :=
  { allocate := args.regalloc, registers := args.registers?.getD 15, emitAsm := args.emitAsm }

end Arguments

/-! ## Output -/

structure Output where
  exit : Nat
  stdout : String := ""
  stderr : String := ""
  deriving DecidableEq, Repr

inductive ReadError where
  | notFound
  | accessDenied
  | notADirectory
  | isDirectory
  | nameTooLong
  | invalidText
  | other (text : String)
  deriving DecidableEq, Repr

def ReadError.message : ReadError → String
  | notFound => "No such file or directory (os error 2)"
  | accessDenied => "Permission denied (os error 13)"
  | notADirectory => "Not a directory (os error 20)"
  | isDirectory => "Is a directory (os error 21)"
  | nameTooLong => "File name too long (os error 36)"
  | invalidText => "stream did not contain valid UTF-8"
  | other text => text

def decodeFile (bytes : ByteArray) : Except ReadError String :=
  match String.fromUTF8? bytes with
  | some text => .ok text
  | none => .error .invalidText

def lines (ls : List String) : String := String.join (ls.map (· ++ "\n"))

def helpText : String := lines
  ["A MiniJava compiler for MIPS (SPIM)",
    "",
    "Usage: mjc [OPTIONS] <FILE>",
    "",
    "Arguments:",
    "  <FILE>  Path to the MiniJava source file",
    "",
    "Options:",
    "  -t, --typecheck              Type check and print the typed SSA",
    "  -r, --regalloc               Allocate registers and print the allocated SSA",
    "  -k, --registers <REGISTERS>  Number of registers available to -r [default: 15]",
    "      --asm                    Emit MIPS assembly (the default when no pass is selected)",
    "      --json                   Print the whole compilation snapshot as JSON",
    "  -v, --verbose...             Log pass progress to stderr (-vv for per-round detail)",
    "  -h, --help                   Print help"]

/-- What the command prints if it compiles nothing. -/
def refuse : Refusal → Output
  | .help => { exit := 0, stdout := helpText }
  | .usage => { exit := 2, stderr := lines ["Usage: mjc [OPTIONS] <FILE>"] }

namespace Arguments

def report (args : Arguments) (s : Snapshot) : Output :=
  let exit := if s.success then 0 else 1
  if args.json then { exit, stdout := s.json.text ++ "\n" }
  else
    match s.error? with
    | some e => { exit := 1, stderr := e ++ "\n" }
    | none => { exit := 0, stdout := lines ((if args.emitAsm then s.asm? else s.ssa?).getD []) }

/-- What the command prints for a file. Without a snapshot it breaks off with exit code 101. -/
def run (args : Arguments) (file : String) (source : Except ReadError String) : Output :=
  match source with
  | .error e => { exit := 1, stderr := s!"Error: reading '{file}': {e.message}\n" }
  | .ok source =>
    match snapshot? source args.options with
    | some s => args.report s
    | none => { exit := 101 }

end Arguments

end MiniJava.CommandLine
