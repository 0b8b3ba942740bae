import MiniJava.Ssa.Program

/-!
# Listings of linear code

A statement is written as its number, the register in parentheses, the operation, the operands, the
payload after a star and the type after a colon, where each part but the number and the operation may
be missing. A listing needs the name of every type it mentions, so there is none if some statement
carries a type that is not in the program's table.
-/

namespace MiniJava.Ssa

namespace Statement

def untypedLine (s : Statement) : String :=
  let register := match s.register? with
    | some r => s!"({r})"
    | none => ""
  let left := match s.left? with
    | some l => s!" {l}"
    | none => ""
  let right := match s.right? with
    | some r => s!" {r}"
    | none => ""
  let payload := match s.payload with
    | .none => ""
    | payload => s!" *{payload.text}"
  s!"{s.id}{register}: {s.op.name}{left}{right}{payload}"

def line? (types : TypeTable) (s : Statement) : Option String :=
  match s.type? with
  | none => some s.untypedLine
  | some type => (types.name? type).map fun name => s!"{s.untypedLine} :{name}"

end Statement

namespace Method

def lines? (types : TypeTable) (m : Method) : Option (List String) := do
  let body ← m.body.mapM (·.line? types)
  return s!"    method {m.name}:" :: body.map ("      " ++ ·)

end Method

namespace ClassDef

def lines? (types : TypeTable) (c : ClassDef) : Option (List String) := do
  let methods ← c.methods.mapM (·.lines? types)
  return s!"  class {c.name}:" :: methods.flatten

end ClassDef

namespace Program

def lines? (p : Program) : Option (List String) := do
  let main ← p.main.lines? p.types
  let classes ← p.classes.mapM (·.lines? p.types)
  return "program:" :: "  main:" :: main ++ classes.flatten

end Program

end MiniJava.Ssa
