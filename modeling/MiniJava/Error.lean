import MiniJava.Allocation
import MiniJava.Ast.Parser
import MiniJava.Emit
import MiniJava.Typing

/-!
# Errors of a compilation

What a compilation can fail with, by the stage that fails, and how it is reported.
-/

namespace MiniJava

inductive CompileError where
  | lexical (e : LexicalError)
  | parse (e : ParseError)
  | structural (e : StructuralError)
  | type (e : TypeError)
  | allocation (e : AllocError)
  | emission (e : EmitError)

namespace CompileError

def message : CompileError → String
  | lexical e => s!"Lexical error: {e.message}"
  | parse e => s!"Parse error at {e.position.line}:{e.position.column}: {e.message}"
  | structural e => s!"StructuralError:{e.kind.name} - {e.message}"
  | type e => s!"TypeError:{e.fault.kind.name} (SSA statement {e.stmt}) - {e.fault.message}"
  | allocation e => s!"Register allocation failed: {e.message}"
  | emission e => s!"Code generation failed: {e.message}"

def ofCheck : CheckError → CompileError
  | .structural e => structural e
  | .type e => type e

end CompileError

end MiniJava
