import MiniJava.Ast
import MiniJava.Token.Lexer

/-!
# Reading a program from its tokens

One function per phrase of the grammar, each looking at the next token only, and at two tokens where
a local declaration may start. A phrase that was read leaves fewer tokens than there were (`Rest`),
which is why the reading ends; binary operators are read level by level, loosest first.
-/

namespace MiniJava

namespace Ast

inductive Expectation where
  | token (t : Token)
  | identifier
  | word (text : String)
  | typeName
  | expression
  /-- The phrase before `=` cannot be assigned to. -/
  | assignable
  deriving DecidableEq, Repr

namespace Expectation

def text : Expectation → String
  | token t => s!"expected {t.describe}"
  | identifier => "expected identifier"
  | word w => s!"expected '{w}'"
  | typeName => "expected a type"
  | expression => "expected an expression"
  | assignable => "invalid assignment target"

end Expectation

abbrev Tokens := List Spanned

/-- A reading that cannot go on, with the tokens that were left. -/
structure Failure where
  expected : Expectation
  rest : Tokens
  deriving DecidableEq, Repr

abbrev Rest (ts : Tokens) := { rest : Tokens // rest.length < ts.length }

abbrev Read (α : Type) (ts : Tokens) := Except Failure (α × Rest ts)

/-- The result of reading any number of phrases from `ts`, none included. -/
abbrev ReadMany (α : Type) (ts : Tokens) :=
  Except Failure (α × { rest : Tokens // rest.length ≤ ts.length })

def expect (t : Token) : (ts : Tokens) → Except Failure (Rest ts)
  | [] => .error ⟨.token t, []⟩
  | s :: rest => if s.token = t then .ok ⟨rest, by simp⟩ else .error ⟨.token t, s :: rest⟩

def expectSymbol (s : Symbol) (ts : Tokens) : Except Failure (Rest ts) := expect (.symbol s) ts

def expectKeyword (k : Keyword) (ts : Tokens) : Except Failure (Rest ts) := expect (.keyword k) ts

def identifier : (ts : Tokens) → Read String ts
  | ⟨.ident name, _, _⟩ :: rest => .ok (name, ⟨rest, by simp⟩)
  | ts => .error ⟨.identifier, ts⟩

def expectWord (w : String) : (ts : Tokens) → Except Failure (Rest ts)
  | ⟨.ident name, start, stop⟩ :: rest =>
    if name = w then .ok ⟨rest, by simp⟩
    else .error ⟨.word w, ⟨.ident name, start, stop⟩ :: rest⟩
  | ts => .error ⟨.word w, ts⟩

def typeName : (ts : Tokens) → Read TypeName ts
  | ⟨.keyword .intKw, _, _⟩ :: ⟨.symbol .lbracket, _, _⟩ :: rest => do
    let ⟨rest', h⟩ ← expectSymbol .rbracket rest
    return (.intArray, ⟨rest', by simp only [List.length_cons]; omega⟩)
  | ⟨.keyword .intKw, _, _⟩ :: rest => .ok (.int, ⟨rest, by simp⟩)
  | ⟨.keyword .booleanKw, _, _⟩ :: rest => .ok (.boolean, ⟨rest, by simp⟩)
  | ⟨.ident name, _, _⟩ :: rest => .ok (.named name, ⟨rest, by simp⟩)
  | ts => .error ⟨.typeName, ts⟩

/-! ## Expressions -/

/-- The operator that a symbol stands for between two operands. -/
def binOp? : Symbol → Option BinOp
  | .orOr => some .or
  | .andAnd => some .and
  | .equal => some .eq
  | .notEqual => some .ne
  | .lt => some .lt
  | .le => some .le
  | .gt => some .gt
  | .ge => some .ge
  | .plus => some .add
  | .minus => some .sub
  | .star => some .mul
  | .slash => some .div
  | .percent => some .mod
  | _ => none

/-- How tightly an operator binds, from the loosest level `0` to the tightest level `5`. -/
def level : BinOp → Nat
  | .or => 0
  | .and => 1
  | .eq | .ne => 2
  | .lt | .le | .gt | .ge => 3
  | .add | .sub => 4
  | .mul | .div | .mod => 5

def levels : Nat := 6

/-- The operator of level `l` that a symbol stands for. -/
def binOpAt? (l : Nat) (s : Symbol) : Option BinOp := (binOp? s).filter (level · == l)

mutual

/-- An expression: operands of the loosest level, or an assignment, which groups to the right. -/
def expression (ts : Tokens) : Read Expr ts := do
  let (target, ⟨rest, h⟩) ← binary 0 ts
  match rest, h with
  | ⟨.symbol .assign, start, stop⟩ :: rest', h =>
    if target.isAssignable then
      let (value, ⟨rest'', h'⟩) ← expression rest'
      return (.assign target value, ⟨rest'', by simp only [List.length_cons] at h; omega⟩)
    else
      throw ⟨.assignable, ⟨.symbol .assign, start, stop⟩ :: rest'⟩
  | rest, h => return (target, ⟨rest, h⟩)
termination_by 12 * ts.length + 10
decreasing_by
  · simp only [levels]; omega
  · simp only [List.length_cons] at h; omega

/-- Operands joined by operators of level `l`, which group to the left. -/
def binary (l : Nat) (ts : Tokens) : Read Expr ts :=
  if l < levels then do
    let (left, ⟨rest, h⟩) ← binary (l + 1) ts
    let (e, ⟨rest', h'⟩) ← operands l left rest
    return (e, ⟨rest', by omega⟩)
  else unary ts
termination_by 12 * ts.length + 3 + (levels - l)
decreasing_by
  · omega
  · omega
  · omega

/-- The operators of level `l` and their right operands that follow a left operand. -/
def operands (l : Nat) (left : Expr) (ts : Tokens) : ReadMany Expr ts :=
  match ts with
  | ⟨.symbol s, start, stop⟩ :: rest =>
    match binOpAt? l s with
    | some op => do
      let (right, ⟨rest', h⟩) ← binary (l + 1) rest
      let (e, ⟨rest'', h'⟩) ← operands l (.binary op left right) rest'
      return (e, ⟨rest'', by simp only [List.length_cons]; omega⟩)
    | none => return (left, ⟨⟨.symbol s, start, stop⟩ :: rest, Nat.le_refl _⟩)
  | ts => return (left, ⟨ts, Nat.le_refl _⟩)
termination_by 12 * ts.length
decreasing_by
  · simp only [List.length_cons, levels]; omega
  · simp only [List.length_cons]; omega

/-- Negations and minus signs before an operand. A minus sign subtracts from zero. -/
def unary (ts : Tokens) : Read Expr ts :=
  match ts with
  | ⟨.symbol .bang, _, _⟩ :: rest => do
    let (operand, ⟨rest', h⟩) ← unary rest
    return (.not operand, ⟨rest', by simp only [List.length_cons]; omega⟩)
  | ⟨.symbol .minus, _, _⟩ :: rest => do
    let (operand, ⟨rest', h⟩) ← unary rest
    return (.binary .sub (.intLit 0) operand, ⟨rest', by simp only [List.length_cons]; omega⟩)
  | ts => do
    let (target, ⟨rest, h⟩) ← primary ts
    let (e, ⟨rest', h'⟩) ← selectors target rest
    return (e, ⟨rest', by omega⟩)
termination_by 12 * ts.length + 2
decreasing_by
  · simp only [List.length_cons]; omega
  · simp only [List.length_cons]; omega
  · omega
  · omega

/-- The indices, members and calls that follow an operand. -/
def selectors (target : Expr) (ts : Tokens) : ReadMany Expr ts :=
  match ts with
  | ⟨.symbol .lbracket, _, _⟩ :: rest => do
    let (index, ⟨rest₁, h₁⟩) ← expression rest
    let ⟨rest₂, h₂⟩ ← expectSymbol .rbracket rest₁
    let (e, ⟨rest₃, h₃⟩) ← selectors (.index target index) rest₂
    return (e, ⟨rest₃, by simp only [List.length_cons]; omega⟩)
  | ⟨.symbol .dot, _, _⟩ :: rest => do
    let (name, ⟨rest₁, h₁⟩) ← identifier rest
    match rest₁, h₁ with
    | ⟨.symbol .lparen, _, _⟩ :: rest₂, h₁ =>
      let (args, ⟨rest₃, h₃⟩) ← arguments rest₂
      let (e, ⟨rest₄, h₄⟩) ← selectors (.call target name args) rest₃
      return (e, ⟨rest₄, by simp only [List.length_cons] at h₁ ⊢; omega⟩)
    | rest₁, h₁ =>
      let (e, ⟨rest₂, h₂⟩) ← selectors (.member target name) rest₁
      return (e, ⟨rest₂, by simp only [List.length_cons]; omega⟩)
  | ts => return (target, ⟨ts, Nat.le_refl _⟩)
termination_by 12 * ts.length
decreasing_by
  · simp only [List.length_cons]; omega
  · simp only [List.length_cons]; omega
  · simp only [List.length_cons] at h₁ ⊢; omega
  · simp only [List.length_cons] at h₁ ⊢; omega
  · simp only [List.length_cons]; omega

/-- The arguments of a call, up to its closing parenthesis. -/
def arguments (ts : Tokens) : Read (List Expr) ts :=
  match ts with
  | ⟨.symbol .rparen, _, _⟩ :: rest => return ([], ⟨rest, by simp⟩)
  | ts => do
    let (e, ⟨rest, h⟩) ← expression ts
    let (es, ⟨rest', h'⟩) ← moreArguments rest
    return (e :: es, ⟨rest', by omega⟩)
termination_by 12 * ts.length + 11
decreasing_by
  · omega
  · omega

/-- The arguments after the first one, up to the closing parenthesis. -/
def moreArguments (ts : Tokens) : Read (List Expr) ts :=
  match ts with
  | ⟨.symbol .comma, _, _⟩ :: rest => do
    let (e, ⟨rest₁, h₁⟩) ← expression rest
    let (es, ⟨rest₂, h₂⟩) ← moreArguments rest₁
    return (e :: es, ⟨rest₂, by simp only [List.length_cons]; omega⟩)
  | ts => do
    let rest ← expectSymbol .rparen ts
    return ([], rest)
termination_by 12 * ts.length
decreasing_by
  · simp only [List.length_cons]; omega
  · simp only [List.length_cons]; omega

/-- A literal, a name, `this`, a creation, or an expression in parentheses. -/
def primary (ts : Tokens) : Read Expr ts :=
  match ts with
  | ⟨.number value, _, _⟩ :: rest => return (.intLit value, ⟨rest, by simp⟩)
  | ⟨.keyword .trueKw, _, _⟩ :: rest => return (.boolLit true, ⟨rest, by simp⟩)
  | ⟨.keyword .falseKw, _, _⟩ :: rest => return (.boolLit false, ⟨rest, by simp⟩)
  | ⟨.keyword .thisKw, _, _⟩ :: rest => return (.this, ⟨rest, by simp⟩)
  | ⟨.ident name, _, _⟩ :: rest => return (.var name, ⟨rest, by simp⟩)
  | ⟨.symbol .lparen, _, _⟩ :: rest => do
    let (e, ⟨rest₁, h₁⟩) ← expression rest
    let ⟨rest₂, h₂⟩ ← expectSymbol .rparen rest₁
    return (e, ⟨rest₂, by simp only [List.length_cons]; omega⟩)
  | ⟨.keyword .newKw, _, _⟩ :: ⟨.keyword .intKw, _, _⟩ :: rest => do
    let ⟨rest₁, h₁⟩ ← expectSymbol .lbracket rest
    let (size, ⟨rest₂, h₂⟩) ← expression rest₁
    let ⟨rest₃, h₃⟩ ← expectSymbol .rbracket rest₂
    return (.newIntArray size, ⟨rest₃, by simp only [List.length_cons]; omega⟩)
  | ⟨.keyword .newKw, _, _⟩ :: rest => do
    let (name, ⟨rest₁, h₁⟩) ← identifier rest
    let ⟨rest₂, h₂⟩ ← expectSymbol .lparen rest₁
    let ⟨rest₃, h₃⟩ ← expectSymbol .rparen rest₂
    return (.newObject name, ⟨rest₃, by simp only [List.length_cons]; omega⟩)
  | ts => throw ⟨.expression, ts⟩
termination_by 12 * ts.length + 1
decreasing_by
  · simp only [List.length_cons]; omega
  · simp only [List.length_cons]; omega

end

/-! ## Statements -/

mutual

/-- A statement. `next` is the number of the next `if` or `while`; the number after all those inside
comes back with the statement. -/
def statement (next : NodeId) (ts : Tokens) : Read (Stmt × NodeId) ts :=
  match ts with
  | ⟨.symbol .lbrace, _, _⟩ :: rest => do
    let ((stmts, next'), ⟨rest', h⟩) ←
      statementsUntil (.symbol .rbrace) (.token (.symbol .rbrace)) next rest
    return ((.block stmts, next'), ⟨rest', by simp only [List.length_cons]; omega⟩)
  | ⟨.keyword .ifKw, _, _⟩ :: rest => do
    let ⟨rest₁, h₁⟩ ← expectSymbol .lparen rest
    let (condition, ⟨rest₂, h₂⟩) ← expression rest₁
    let ⟨rest₃, h₃⟩ ← expectSymbol .rparen rest₂
    let ((thenBranch, next₁), ⟨rest₄, h₄⟩) ← statement (next + 1) rest₃
    match rest₄, h₄ with
    | ⟨.keyword .elseKw, _, _⟩ :: rest₅, h₄ =>
      let ((elseBranch, next₂), ⟨rest₆, h₆⟩) ← statement next₁ rest₅
      return ((.ifElse next condition thenBranch elseBranch, next₂),
        ⟨rest₆, by simp only [List.length_cons] at h₄ ⊢; omega⟩)
    | rest₄, h₄ =>
      return ((.ifThen next condition thenBranch, next₁),
        ⟨rest₄, by simp only [List.length_cons]; omega⟩)
  | ⟨.keyword .whileKw, _, _⟩ :: rest => do
    let ⟨rest₁, h₁⟩ ← expectSymbol .lparen rest
    let (condition, ⟨rest₂, h₂⟩) ← expression rest₁
    let ⟨rest₃, h₃⟩ ← expectSymbol .rparen rest₂
    let ((body, next₁), ⟨rest₄, h₄⟩) ← statement (next + 1) rest₃
    return ((.while next condition body, next₁), ⟨rest₄, by simp only [List.length_cons]; omega⟩)
  | ⟨.keyword .printlnKw, _, _⟩ :: rest => do
    let ⟨rest₁, h₁⟩ ← expectSymbol .lparen rest
    let (value, ⟨rest₂, h₂⟩) ← expression rest₁
    let ⟨rest₃, h₃⟩ ← expectSymbol .rparen rest₂
    let ⟨rest₄, h₄⟩ ← expectSymbol .semicolon rest₃
    return ((.print value, next), ⟨rest₄, by simp only [List.length_cons]; omega⟩)
  | ts => do
    let (value, ⟨rest₁, h₁⟩) ← expression ts
    let ⟨rest₂, h₂⟩ ← expectSymbol .semicolon rest₁
    return ((.expr value, next), ⟨rest₂, by omega⟩)
termination_by 2 * ts.length
decreasing_by
  · simp only [List.length_cons]; omega
  · simp only [List.length_cons]; omega
  · simp only [List.length_cons] at h₄ ⊢; omega
  · simp only [List.length_cons]; omega

/-- Statements up to and including the token `stop`. At the end of the input `missing` is named as
what was expected. -/
def statementsUntil (stop : Token) (missing : Expectation) (next : NodeId) (ts : Tokens) :
    Read (List Stmt × NodeId) ts :=
  match ts with
  | [] => throw ⟨missing, []⟩
  | t :: rest =>
    if t.token = stop then return (([], next), ⟨rest, by simp⟩)
    else do
      let ((stmt, next₁), ⟨rest₁, h₁⟩) ← statement next (t :: rest)
      let ((stmts, next₂), ⟨rest₂, h₂⟩) ← statementsUntil stop missing next₁ rest₁
      return ((stmt :: stmts, next₂), ⟨rest₂, by omega⟩)
termination_by 2 * ts.length + 1
decreasing_by
  · omega
  · omega

end

/-! ## Declarations -/

/-- A declared field or local, with its semicolon. -/
def varDecl (ts : Tokens) : Read VarDecl ts := do
  let (type, ⟨rest₁, h₁⟩) ← typeName ts
  let (name, ⟨rest₂, h₂⟩) ← identifier rest₁
  let ⟨rest₃, h₃⟩ ← expectSymbol .semicolon rest₂
  return (⟨type, name⟩, ⟨rest₃, by omega⟩)

/-- Whether a local declaration starts here: with a primitive type or with two identifiers. -/
def startsLocal : Tokens → Bool
  | ⟨.keyword .intKw, _, _⟩ :: _ | ⟨.keyword .booleanKw, _, _⟩ :: _ => true
  | ⟨.ident _, _, _⟩ :: ⟨.ident _, _, _⟩ :: _ => true
  | _ => false

/-- Declarations for as long as `more` says that another one starts. -/
def varDecls (more : Tokens → Bool) (ts : Tokens) : ReadMany (List VarDecl) ts :=
  if more ts then do
    let (decl, ⟨rest, h⟩) ← varDecl ts
    let (decls, ⟨rest', h'⟩) ← varDecls more rest
    return (decl :: decls, ⟨rest', by omega⟩)
  else return ([], ⟨ts, Nat.le_refl _⟩)
termination_by ts.length

/-- The parameters after the first one, up to the closing parenthesis. -/
def moreParams (ts : Tokens) : Read (List VarDecl) ts :=
  match ts with
  | ⟨.symbol .comma, _, _⟩ :: rest => do
    let (type, ⟨rest₁, h₁⟩) ← typeName rest
    let (name, ⟨rest₂, h₂⟩) ← identifier rest₁
    let (decls, ⟨rest₃, h₃⟩) ← moreParams rest₂
    return (⟨type, name⟩ :: decls, ⟨rest₃, by simp only [List.length_cons]; omega⟩)
  | ts => do
    let rest ← expectSymbol .rparen ts
    return ([], rest)
termination_by ts.length
decreasing_by simp only [List.length_cons]; omega

/-- The parameters of a method, up to the closing parenthesis. -/
def params (ts : Tokens) : Read (List VarDecl) ts :=
  match ts with
  | ⟨.symbol .rparen, _, _⟩ :: rest => return ([], ⟨rest, by simp⟩)
  | ts => do
    let (type, ⟨rest₁, h₁⟩) ← typeName ts
    let (name, ⟨rest₂, h₂⟩) ← identifier rest₁
    let (decls, ⟨rest₃, h₃⟩) ← moreParams rest₂
    return (⟨type, name⟩ :: decls, ⟨rest₃, by omega⟩)

def methodDecl (next : NodeId) (ts : Tokens) : Read (MethodDecl × NodeId) ts := do
  let ⟨rest₁, h₁⟩ ← expectKeyword .publicKw ts
  let (returnType, ⟨rest₂, h₂⟩) ← typeName rest₁
  let (name, ⟨rest₃, h₃⟩) ← identifier rest₂
  let ⟨rest₄, h₄⟩ ← expectSymbol .lparen rest₃
  let (params, ⟨rest₅, h₅⟩) ← params rest₄
  let ⟨rest₆, h₆⟩ ← expectSymbol .lbrace rest₅
  let (locals, ⟨rest₇, h₇⟩) ← varDecls startsLocal rest₆
  let ((body, next'), ⟨rest₈, h₈⟩) ←
    statementsUntil (.keyword .returnKw) (.token (.keyword .returnKw)) next rest₇
  let (result, ⟨rest₉, h₉⟩) ← expression rest₈
  let ⟨rest₁₀, h₁₀⟩ ← expectSymbol .semicolon rest₉
  let ⟨rest₁₁, h₁₁⟩ ← expectSymbol .rbrace rest₁₀
  return ((⟨returnType, name, params, locals, body, result⟩, next'), ⟨rest₁₁, by omega⟩)

/-- Methods up to the closing brace of their class. -/
def methodDecls (next : NodeId) (ts : Tokens) : Read (List MethodDecl × NodeId) ts :=
  match ts with
  | ⟨.symbol .rbrace, _, _⟩ :: rest => return (([], next), ⟨rest, by simp⟩)
  | ts => do
    let ((method, next₁), ⟨rest₁, h₁⟩) ← methodDecl next ts
    let ((methods, next₂), ⟨rest₂, h₂⟩) ← methodDecls next₁ rest₁
    return ((method :: methods, next₂), ⟨rest₂, by omega⟩)
termination_by ts.length

/-- The parent named after a class, if there is one. -/
def parentName (ts : Tokens) : ReadMany (Option String) ts :=
  match ts with
  | ⟨.keyword .extendsKw, _, _⟩ :: rest => do
    let (name, ⟨rest', h⟩) ← identifier rest
    return (some name, ⟨rest', by simp only [List.length_cons]; omega⟩)
  | ts => return (none, ⟨ts, Nat.le_refl _⟩)

/-- Whether another field starts here: anything but a method or the end of the class. -/
def startsField : Tokens → Bool
  | ⟨.keyword .publicKw, _, _⟩ :: _ | ⟨.symbol .rbrace, _, _⟩ :: _ => false
  | _ => true

def classDecl (next : NodeId) (ts : Tokens) : Read (ClassDecl × NodeId) ts := do
  let ⟨rest₁, h₁⟩ ← expectKeyword .classKw ts
  let (name, ⟨rest₂, h₂⟩) ← identifier rest₁
  let (parent?, ⟨rest₃, h₃⟩) ← parentName rest₂
  let ⟨rest₄, h₄⟩ ← expectSymbol .lbrace rest₃
  let (fields, ⟨rest₅, h₅⟩) ← varDecls startsField rest₄
  let ((methods, next'), ⟨rest₆, h₆⟩) ← methodDecls next rest₅
  return ((⟨name, parent?, fields, methods⟩, next'), ⟨rest₆, by omega⟩)

def classDecls (next : NodeId) (ts : Tokens) : Except Failure (List ClassDecl) :=
  match ts with
  | [] => return []
  | t :: rest => do
    let ((decl, next'), ⟨rest', _⟩) ← classDecl next (t :: rest)
    let decls ← classDecls next' rest'
    return decl :: decls
termination_by ts.length
decreasing_by simp only [List.length_cons] at *; omega

/-- The body of the entry point: a single statement stands for itself. -/
def mainBody : List Stmt → Stmt
  | [stmt] => stmt
  | stmts => .block stmts

def mainClass (ts : Tokens) : Read (MainClass × NodeId) ts := do
  let ⟨rest₁, h₁⟩ ← expectKeyword .classKw ts
  let (name, ⟨rest₂, h₂⟩) ← identifier rest₁
  let ⟨rest₃, h₃⟩ ← expectSymbol .lbrace rest₂
  let ⟨rest₄, h₄⟩ ← expectKeyword .publicKw rest₃
  let ⟨rest₅, h₅⟩ ← expectKeyword .staticKw rest₄
  let ⟨rest₆, h₆⟩ ← expectKeyword .voidKw rest₅
  let ⟨rest₇, h₇⟩ ← expectWord "main" rest₆
  let ⟨rest₈, h₈⟩ ← expectSymbol .lparen rest₇
  let ⟨rest₉, h₉⟩ ← expectWord "String" rest₈
  let ⟨rest₁₀, h₁₀⟩ ← expectSymbol .lbracket rest₉
  let ⟨rest₁₁, h₁₁⟩ ← expectSymbol .rbracket rest₁₀
  let (_, ⟨rest₁₂, h₁₂⟩) ← identifier rest₁₁
  let ⟨rest₁₃, h₁₃⟩ ← expectSymbol .rparen rest₁₂
  let ⟨rest₁₄, h₁₄⟩ ← expectSymbol .lbrace rest₁₃
  let ((stmts, next), ⟨rest₁₅, h₁₅⟩) ← statementsUntil (.symbol .rbrace) .expression 0 rest₁₄
  let ⟨rest₁₆, h₁₆⟩ ← expectSymbol .rbrace rest₁₅
  return ((⟨name, mainBody stmts⟩, next), ⟨rest₁₆, by omega⟩)

def program (ts : Tokens) : Except Failure Program := do
  let ((main, next), ⟨rest, _⟩) ← mainClass ts
  let classes ← classDecls next rest
  return ⟨main, classes⟩

end Ast

/-- A token that cannot go on, and what was expected in its place. -/
structure ParseError where
  position : Text.Position
  expected : Ast.Expectation
  /-- The token at the place; none at the end of the input. -/
  found? : Option Token
  deriving DecidableEq, Repr

namespace ParseError

/-- The error for a failed reading: at the first token left, or at the end of the source. -/
def ofFailure (source : String) (failure : Ast.Failure) : ParseError :=
  let offset := match failure.rest with
    | t :: _ => t.start
    | [] => Text.byteLength source.toList
  ⟨Text.position source offset, failure.expected, failure.rest.head?.map (·.token)⟩

def message (e : ParseError) : String :=
  let found := match e.found? with
    | some t => t.describe
    | none => "end of input"
  s!"{e.expected.text} (found {found})"

end ParseError

/-- The program that a token list spells, with errors placed in the source it was read from. -/
def parseTokens (source : String) (tokens : List Spanned) : Except ParseError Ast.Program :=
  (Ast.program tokens).mapError (.ofFailure source)

end MiniJava
