import MiniJava.Compile
import MiniJava.JsonValue
import MiniJava.Ssa.Listing

/-!
# Snapshots of a compilation

A snapshot runs the compiler as far as the options ask and collects what came of it: a listing of the
linear code after the last pass that ran, the assembly, the results of the allocation, or the error.
-/

namespace MiniJava

structure Options where
  typeCheck : Bool := true
  /-- Allocate `registers` registers. -/
  allocate : Bool := false
  registers : Nat := 15
  /-- Emit assembly, with all registers of the machine. -/
  emitAsm : Bool := false
  deriving DecidableEq, Repr

structure Snapshot where
  success : Bool
  error? : Option String
  ssa? : Option (List String)
  asm? : Option (List String)
  methods : List MethodStats
  deriving DecidableEq, Repr

/-- A run of the compiler: the program as the last pass left it, unless there was none, and the
assembly and results of the allocation, or the error. -/
structure CompilerRun where
  program? : Option Ssa.Program
  outputs : Except CompileError (Option (List String) × List MethodStats)

namespace CompilerRun

/-- Allocates and emits a checked program as the options ask. -/
def ofChecked (p : Ssa.Program) (options : Options) : CompilerRun :=
  if options.emitAsm then
    match p.allocate machineRegisters with
    | (p, .error e) => ⟨some p, .error (.allocation e)⟩
    | (p, .ok methods) =>
      ⟨some p, (p.emit.mapError .emission).map fun asm => (some asm.lines, methods)⟩
  else if options.allocate then
    match p.allocate options.registers with
    | (p, .error e) => ⟨some p, .error (.allocation e)⟩
    | (p, .ok methods) => ⟨some p, .ok (none, methods)⟩
  else ⟨some p, .ok (none, [])⟩

def ofSource (source : String) (options : Options) : CompilerRun :=
  match compileToSsa source with
  | .error e => ⟨none, .error e⟩
  | .ok p =>
    if options.typeCheck || options.allocate || options.emitAsm then
      match p.check with
      | (p, .error e) => ⟨some p, .error (.ofCheck e)⟩
      | (p, .ok _) => ofChecked p options
    else ⟨some p, .ok (none, [])⟩

def snapshot (run : CompilerRun) (ssa? : Option (List String)) : Snapshot :=
  match run.outputs with
  | .ok (asm?, methods) => { success := true, error? := none, ssa?, asm?, methods }
  | .error e => { success := false, error? := some e.message, ssa?, asm? := none, methods := [] }

end CompilerRun

/-- Takes a snapshot. There is none if the program has no listing. -/
def snapshot? (source : String) (options : Options) : Option Snapshot :=
  let run := CompilerRun.ofSource source options
  match run.program? with
  | none => some (run.snapshot none)
  | some p => p.lines?.map fun lines => run.snapshot (some lines)

namespace Snapshot

/-- The JSON value of the results of an allocation. -/
def statsJson (stats : MethodStats) : JsonValue :=
  .obj [("method", .str stats.method), ("registers_used", .nat stats.registersUsed),
    ("spill_slots", .nat stats.spillSlots), ("rounds", .nat stats.rounds)]

def json (s : Snapshot) : JsonValue :=
  .obj [("success", .bool s.success), ("error", .ofOption .str s.error?),
    ("ssa", .ofOption .strings s.ssa?), ("asm", .ofOption .strings s.asm?),
    ("methods", .arr (s.methods.map statsJson))]

end Snapshot

end MiniJava
