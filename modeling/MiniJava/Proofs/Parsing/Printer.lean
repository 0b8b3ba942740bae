import MiniJava.Proofs.Parsing.Spelling

/-!
# Writing programs

A program is written token by token, with blanks between the tokens. An operand stands in parentheses
only if it binds less tightly than its place asks for: assignments bind loosest, then operators level by
level, then negations. The right operand of an operator has to bind more tightly than the operator,
since operators group to the left. The numbers of nodes are not written, and neither is the name of the
parameter of the entry point, for trees do not have it.
-/

namespace MiniJava.Ast

open List

/-! ## Expressions -/

def symbolOf : BinOp → Symbol
  | .or => .orOr
  | .and => .andAnd
  | .eq => .equal
  | .ne => .notEqual
  | .lt => .lt
  | .le => .le
  | .gt => .gt
  | .ge => .ge
  | .add => .plus
  | .sub => .minus
  | .mul => .star
  | .div => .slash
  | .mod => .percent

@[simp] theorem binOp?_symbolOf (op : BinOp) : binOp? (symbolOf op) = some op := by cases op <;> rfl

theorem level_lt_levels (op : BinOp) : level op < levels := by cases op <;> decide

inductive Place where
  /-- A whole expression. -/
  | whole
  /-- An operand of the operators of level `l`, or after all levels that of a sign. -/
  | operand (l : Nat)
  /-- What something is selected from. -/
  | target
  deriving DecidableEq

def Place.binding : Place → Nat
  | whole => 0
  | operand l => l + 1
  | target => levels + 2

def Expr.place : Expr → Place
  | .assign _ _ => .whole
  | .binary op _ _ => .operand (level op)
  | .not _ => .operand levels
  | .index _ _ | .member _ _ | .call _ _ _ | .newObject _ | .newIntArray _ | .this | .var _
  | .intLit _ | .boolLit _ => .target

/-- The tokens of an expression in a place, in parentheses if it does not bind tightly enough. -/
def Expr.enclose (e : Expr) (p : Place) (ts : List Token) : List Token :=
  if e.place.binding < p.binding then .symbol .lparen :: ts ++ [.symbol .rparen] else ts

mutual

def Expr.tokens : Expr → List Token
  | .assign target value => target.tokens ++ .symbol .assign :: value.tokens
  | .binary op left right =>
    left.enclose (.operand (level op)) left.tokens ++
      .symbol (symbolOf op) :: right.enclose (.operand (level op + 1)) right.tokens
  | .not operand => .symbol .bang :: operand.enclose (.operand levels) operand.tokens
  | .index target index =>
    target.enclose .target target.tokens ++
      .symbol .lbracket :: index.tokens ++ [.symbol .rbracket]
  | .member target name => target.enclose .target target.tokens ++ [.symbol .dot, .ident name]
  | .call target method args =>
    target.enclose .target target.tokens ++
      .symbol .dot :: .ident method :: .symbol .lparen :: argTokens args ++ [.symbol .rparen]
  | .newObject name => [.keyword .newKw, .ident name, .symbol .lparen, .symbol .rparen]
  | .newIntArray size =>
    .keyword .newKw :: .keyword .intKw :: .symbol .lbracket :: size.tokens ++ [.symbol .rbracket]
  | .this => [.keyword .thisKw]
  | .var name => [.ident name]
  | .intLit value => [.number value]
  | .boolLit value => [.keyword (if value then .trueKw else .falseKw)]

def argTokens : List Expr → List Token
  | [] => []
  | e :: es => e.tokens ++ moreArgTokens es

def moreArgTokens : List Expr → List Token
  | [] => []
  | e :: es => .symbol .comma :: e.tokens ++ moreArgTokens es

end

/-! ## Statements -/

mutual

def Stmt.tokens : Stmt → List Token
  | .block stmts => .symbol .lbrace :: stmtsTokens stmts ++ [.symbol .rbrace]
  | .ifThen _ condition thenBranch =>
    .keyword .ifKw :: .symbol .lparen :: condition.tokens ++ .symbol .rparen :: thenBranch.tokens
  | .ifElse _ condition thenBranch elseBranch =>
    .keyword .ifKw :: .symbol .lparen :: condition.tokens ++
      .symbol .rparen :: thenBranch.tokens ++ .keyword .elseKw :: elseBranch.tokens
  | .while _ condition body =>
    .keyword .whileKw :: .symbol .lparen :: condition.tokens ++ .symbol .rparen :: body.tokens
  | .print value =>
    .keyword .printlnKw :: .symbol .lparen :: value.tokens ++ [.symbol .rparen, .symbol .semicolon]
  | .expr value => value.tokens ++ [.symbol .semicolon]

def stmtsTokens : List Stmt → List Token
  | [] => []
  | s :: ss => s.tokens ++ stmtsTokens ss

end

/-! ## Declarations -/

def typeTokens : TypeName → List Token
  | .int => [.keyword .intKw]
  | .boolean => [.keyword .booleanKw]
  | .intArray => [.keyword .intKw, .symbol .lbracket, .symbol .rbracket]
  | .named name => [.ident name]

def VarDecl.tokens (d : VarDecl) : List Token := typeTokens d.type ++ [.ident d.name]

def declTokens (ds : List VarDecl) : List Token := ds.flatMap fun d => d.tokens ++ [.symbol .semicolon]

def moreParamTokens (ds : List VarDecl) : List Token := ds.flatMap fun d => .symbol .comma :: d.tokens

def paramTokens : List VarDecl → List Token
  | [] => []
  | d :: ds => d.tokens ++ moreParamTokens ds

def MethodDecl.tokens (m : MethodDecl) : List Token :=
  .keyword .publicKw :: typeTokens m.returnType ++
    .ident m.name :: .symbol .lparen :: paramTokens m.params ++
    .symbol .rparen :: .symbol .lbrace :: declTokens m.locals ++ stmtsTokens m.body ++
    .keyword .returnKw :: m.result.tokens ++ [.symbol .semicolon, .symbol .rbrace]

def parentTokens : Option String → List Token
  | none => []
  | some name => [.keyword .extendsKw, .ident name]

def ClassDecl.tokens (c : ClassDecl) : List Token :=
  .keyword .classKw :: .ident c.name :: parentTokens c.parent? ++
    .symbol .lbrace :: declTokens c.fields ++ c.methods.flatMap (·.tokens) ++ [.symbol .rbrace]

/-- The tokens of the class with the entry point. Its body is a single statement. -/
def MainClass.tokens (c : MainClass) : List Token :=
  .keyword .classKw :: .ident c.name :: .symbol .lbrace :: .keyword .publicKw ::
    .keyword .staticKw :: .keyword .voidKw :: .ident "main" :: .symbol .lparen :: .ident "String" ::
    .symbol .lbracket :: .symbol .rbracket :: .ident "a" :: .symbol .rparen :: .symbol .lbrace ::
    c.body.tokens ++ [.symbol .rbrace, .symbol .rbrace]

def Program.tokens (p : Program) : List Token := p.main.tokens ++ p.classes.flatMap (·.tokens)

def Program.render (p : Program) : String := .ofList ([' '].intercalate (p.tokens.map Token.chars))

/-! ## Tokens of texts -/

theorem lexical_enclose {e : Expr} {p : Place} {ts : List Token} (h : ∀ t ∈ ts, t.Lexical) :
    ∀ t ∈ e.enclose p ts, t.Lexical := by
  rw [Expr.enclose]
  split
  · rw [forall_mem_append, forall_mem_cons, forall_mem_singleton]
    exact ⟨⟨trivial, h⟩, trivial⟩
  · exact h

mutual

theorem lexical_tokens_expr : (e : Expr) → e.Spelled Token.Lexical → ∀ t ∈ e.tokens, t.Lexical
  | .assign target value, h => by
    obtain ⟨_, ht, hv⟩ := h
    rw [Expr.tokens, forall_mem_append, forall_mem_cons]
    exact ⟨lexical_tokens_expr target ht, trivial, lexical_tokens_expr value hv⟩
  | .binary op left right, h => by
    rw [Expr.tokens, forall_mem_append, forall_mem_cons]
    exact ⟨lexical_enclose (lexical_tokens_expr left h.1), trivial,
      lexical_enclose (lexical_tokens_expr right h.2)⟩
  | .not operand, h => by
    rw [Expr.tokens, forall_mem_cons]
    exact ⟨trivial, lexical_enclose (lexical_tokens_expr operand h)⟩
  | .index target index, h => by
    have ht := lexical_enclose (e := target) (p := .target) (lexical_tokens_expr target h.1)
    have hi := lexical_tokens_expr index h.2
    simp only [Expr.tokens, forall_mem_append, forall_mem_cons]
    exact ⟨⟨ht, trivial, hi⟩, trivial, forall_mem_nil _⟩
  | .member target name, h => by
    rw [Expr.tokens, forall_mem_append, forall_mem_cons, forall_mem_singleton]
    exact ⟨lexical_enclose (lexical_tokens_expr target h.1), trivial, h.2⟩
  | .call target method args, h => by
    obtain ⟨ht, hm, ha⟩ := h
    have ht := lexical_enclose (e := target) (p := .target) (lexical_tokens_expr target ht)
    have ha := lexical_argTokens args ha
    simp only [Expr.tokens, forall_mem_append, forall_mem_cons]
    exact ⟨⟨ht, trivial, hm, trivial, ha⟩, trivial, forall_mem_nil _⟩
  | .newObject name, h => by
    simp only [Expr.tokens, forall_mem_cons]
    exact ⟨trivial, h, trivial, trivial, forall_mem_nil _⟩
  | .newIntArray size, h => by
    have hs := lexical_tokens_expr size h
    simp only [Expr.tokens, forall_mem_append, forall_mem_cons]
    exact ⟨⟨trivial, trivial, trivial, hs⟩, trivial, forall_mem_nil _⟩
  | .this, _ => by
    rw [Expr.tokens, forall_mem_singleton]
    trivial
  | .var name, h => by
    rw [Expr.tokens, forall_mem_singleton]
    exact h
  | .intLit value, h => by
    rw [Expr.tokens, forall_mem_singleton]
    rcases h with rfl | h
    · exact (by decide : (0 : Int) ≤ (0 : Int32).toInt)
    · exact h
  | .boolLit value, _ => by
    rw [Expr.tokens, forall_mem_singleton]
    trivial

theorem lexical_argTokens : (es : List Expr) → allSpelled Token.Lexical es →
    ∀ t ∈ argTokens es, t.Lexical
  | [], _ => forall_mem_nil _
  | e :: es, h => by
    rw [argTokens, forall_mem_append]
    exact ⟨lexical_tokens_expr e h.1, lexical_moreArgTokens es h.2⟩

theorem lexical_moreArgTokens : (es : List Expr) → allSpelled Token.Lexical es →
    ∀ t ∈ moreArgTokens es, t.Lexical
  | [], _ => forall_mem_nil _
  | e :: es, h => by
    rw [moreArgTokens, forall_mem_append, forall_mem_cons]
    exact ⟨⟨trivial, lexical_tokens_expr e h.1⟩, lexical_moreArgTokens es h.2⟩

end

mutual

theorem lexical_tokens_stmt : (s : Stmt) → s.Spelled Token.Lexical → ∀ t ∈ s.tokens, t.Lexical
  | .block stmts, h => by
    have hs := lexical_stmtsTokens stmts h
    simp only [Stmt.tokens, forall_mem_append, forall_mem_cons]
    exact ⟨⟨trivial, hs⟩, trivial, forall_mem_nil _⟩
  | .ifThen _ condition thenBranch, h => by
    obtain ⟨hc, ht⟩ := h
    simp only [Stmt.tokens, forall_mem_append, forall_mem_cons]
    exact ⟨⟨trivial, trivial, lexical_tokens_expr condition hc⟩, trivial,
      lexical_tokens_stmt thenBranch ht⟩
  | .ifElse _ condition thenBranch elseBranch, h => by
    obtain ⟨hc, ht, _, he⟩ := h
    simp only [Stmt.tokens, forall_mem_append, forall_mem_cons]
    exact ⟨⟨⟨trivial, trivial, lexical_tokens_expr condition hc⟩, trivial,
      lexical_tokens_stmt thenBranch ht⟩, trivial, lexical_tokens_stmt elseBranch he⟩
  | .while _ condition body, h => by
    obtain ⟨hc, hb⟩ := h
    simp only [Stmt.tokens, forall_mem_append, forall_mem_cons]
    exact ⟨⟨trivial, trivial, lexical_tokens_expr condition hc⟩, trivial,
      lexical_tokens_stmt body hb⟩
  | .print value, h => by
    simp only [Stmt.tokens, forall_mem_append, forall_mem_cons]
    exact ⟨⟨trivial, trivial, lexical_tokens_expr value h⟩, trivial, trivial, forall_mem_nil _⟩
  | .expr value, h => by
    simp only [Stmt.tokens, forall_mem_append, forall_mem_cons]
    exact ⟨lexical_tokens_expr value h, trivial, forall_mem_nil _⟩

theorem lexical_stmtsTokens : (ss : List Stmt) → stmtsSpelled Token.Lexical ss →
    ∀ t ∈ stmtsTokens ss, t.Lexical
  | [], _ => forall_mem_nil _
  | s :: ss, h => by
    rw [stmtsTokens, forall_mem_append]
    exact ⟨lexical_tokens_stmt s h.1, lexical_stmtsTokens ss h.2⟩

end

theorem lexical_typeTokens {type : TypeName} (h : typeSpelled Token.Lexical type) :
    ∀ t ∈ typeTokens type, t.Lexical := by
  cases type with
  | named name =>
    rw [typeTokens, forall_mem_singleton]
    exact h name rfl
  | int | boolean | intArray => simp [typeTokens, Token.Lexical]

theorem lexical_tokens_varDecl {d : VarDecl} (h : d.Spelled Token.Lexical) :
    ∀ t ∈ d.tokens, t.Lexical := by
  rw [VarDecl.tokens, forall_mem_append, forall_mem_singleton]
  exact ⟨lexical_typeTokens h.type, h.name⟩

theorem lexical_declTokens {ds : List VarDecl} (h : ∀ d ∈ ds, d.Spelled Token.Lexical) :
    ∀ t ∈ declTokens ds, t.Lexical := by
  rw [declTokens, forall_mem_flatMap]
  intro d hd
  rw [forall_mem_append, forall_mem_singleton]
  exact ⟨lexical_tokens_varDecl (h d hd), trivial⟩

theorem lexical_paramTokens {ds : List VarDecl} (h : ∀ d ∈ ds, d.Spelled Token.Lexical) :
    ∀ t ∈ paramTokens ds, t.Lexical := by
  cases ds with
  | nil => exact forall_mem_nil _
  | cons d ds =>
    obtain ⟨hd, hds⟩ := List.forall_mem_cons.1 h
    rw [paramTokens, moreParamTokens, forall_mem_append, forall_mem_flatMap]
    refine ⟨lexical_tokens_varDecl hd, fun d hd => ?_⟩
    rw [forall_mem_cons]
    exact ⟨trivial, lexical_tokens_varDecl (hds d hd)⟩

theorem lexical_tokens_methodDecl {m : MethodDecl} (h : m.Spelled Token.Lexical) :
    ∀ t ∈ m.tokens, t.Lexical := by
  simp only [MethodDecl.tokens, forall_mem_append, forall_mem_cons]
  exact ⟨⟨⟨⟨⟨⟨trivial, lexical_typeTokens h.returnType⟩, h.name, trivial,
    lexical_paramTokens h.params⟩, trivial, trivial, lexical_declTokens h.locals⟩,
    lexical_stmtsTokens _ h.body⟩, trivial, lexical_tokens_expr _ h.result⟩, trivial, trivial,
    forall_mem_nil _⟩

theorem lexical_tokens_classDecl {c : ClassDecl} (h : c.Spelled Token.Lexical) :
    ∀ t ∈ c.tokens, t.Lexical := by
  have hparent : ∀ t ∈ parentTokens c.parent?, t.Lexical := by
    cases hp : c.parent? with
    | none => exact forall_mem_nil _
    | some name =>
      rw [parentTokens, forall_mem_cons, forall_mem_singleton]
      exact ⟨trivial, h.parent? name hp⟩
  simp only [ClassDecl.tokens, forall_mem_append, forall_mem_cons, forall_mem_flatMap]
  exact ⟨⟨⟨⟨trivial, h.name, hparent⟩, trivial, lexical_declTokens h.fields⟩,
    fun m hm => lexical_tokens_methodDecl (h.methods m hm)⟩, trivial, forall_mem_nil _⟩

theorem isIdentifier_of_toList {name : String} {c : Char} {cs : List Char}
    (h : name.toList = c :: cs) (hc : Lexer.startsWord c = true) (hcs : (c :: cs).all Lexer.inWord = true)
    (hk : Keyword.ofWord? name = none) : Lexer.IsIdentifier name :=
  ⟨fun d hd => List.all_eq_true.1 hcs d (h ▸ hd), ⟨c, cs, h, hc⟩, hk⟩

theorem isIdentifier_main : Lexer.IsIdentifier "main" :=
  isIdentifier_of_toList rfl (by decide) (by decide) (by decide)

theorem isIdentifier_string : Lexer.IsIdentifier "String" :=
  isIdentifier_of_toList rfl (by decide) (by decide) (by decide)

theorem isIdentifier_a : Lexer.IsIdentifier "a" :=
  isIdentifier_of_toList rfl (by decide) (by decide) (by decide)

/-- **The tokens of a tree that was made from tokens are tokens of texts.** -/
theorem lexical_tokens_program {p : Program} (h : p.Spelled Token.Lexical) :
    ∀ t ∈ p.tokens, t.Lexical := by
  simp only [Program.tokens, MainClass.tokens, forall_mem_append, forall_mem_cons,
    forall_mem_flatMap]
  exact ⟨⟨⟨trivial, h.mainName, trivial, trivial, trivial, trivial, isIdentifier_main, trivial,
    isIdentifier_string, trivial, trivial, isIdentifier_a, trivial, trivial, lexical_tokens_stmt _ h.mainBody⟩, trivial, trivial,
    forall_mem_nil _⟩,
    fun c hc => lexical_tokens_classDecl (h.classes c hc)⟩

end MiniJava.Ast
