import MiniJava.Error
import MiniJava.Ssa.Lower

/-!
# From source text to assembly

The stages of the compiler put together.
-/

namespace MiniJava

def parse (source : String) : Except CompileError Ast.Program := do
  let tokens ← (tokenize source).mapError .lexical
  (parseTokens source tokens).mapError .parse

/-- The linear code of a source text, without types. -/
def compileToSsa (source : String) : Except CompileError Ssa.Program := do
  let program ← parse source
  (Ssa.Program.ofAst program).mapError .structural

/-- The linear code of a source text, type checked. -/
def compileToCheckedSsa (source : String) : Except CompileError Ssa.Program := do
  let program ← compileToSsa source
  match program.check with
  | (program, .ok _) => return program
  | (_, .error e) => throw (.ofCheck e)

/-- The number of registers that the allocator may use for assembly. -/
def machineRegisters : Nat := Register.allocatable.length

/-- Allocates a program with all registers and emits its assembly. The program is returned as
allocation left it. -/
def Ssa.Program.assemble (p : Program) : Program × Except CompileError Assembly :=
  match p.allocate machineRegisters with
  | (p, .ok _) => (p, p.emit.mapError .emission)
  | (p, .error e) => (p, .error (.allocation e))

def compileToAssembly (source : String) : Except CompileError String := do
  let program ← compileToCheckedSsa source
  let asm ← program.assemble.2
  return asm.text

end MiniJava
