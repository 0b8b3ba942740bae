import MiniJava.Proofs.Parsing.Reading

/-!
# Parsing undoes printing

A program that was parsed from some text is parsed again from the text that is written for it, with the
same grouping of operators, the same branches after `else` and the same numbers of nodes. Statements
need two things for this, and parsed ones have both: no `else` follows a statement that it would belong
to, and the nodes are numbered in the order in which they are read.
-/

namespace MiniJava

open List

variable {t : Token} {toks : List Token} {ss : List Stmt} {P : Token → Prop} {type : TypeName}

namespace Ast

/-! ## Statements -/

section StatementRules

variable {ts mid mid' rest : Tokens} {i j i' j' i₁ j₁ i₂ j₂ : Nat} {next next₁ next₂ : NodeId} {e : Expr}
  {st st' : Stmt} {stmts : List Stmt} {stop : Token} {missing : Expectation}

theorem Reads.block
    (h : Reads (statementsUntil (.symbol .rbrace) (.token (.symbol .rbrace)) next ts) (stmts, next₁) rest) :
    Reads (statement next (⟨.symbol .lbrace, i, j⟩ :: ts)) (.block stmts, next₁) rest := by
  rw [statement]
  exact h.bind fun _ => .pure

section

variable (he : Reads (Ast.expression ts) e (⟨.symbol .rparen, i₁, j₁⟩ :: mid))
include he

theorem Reads.ifThen (ht : Reads (statement (next + 1) mid) (st, next₁) rest)
    (hrest : next? rest ≠ some (.keyword .elseKw)) :
    Reads (statement next (⟨.keyword .ifKw, i, j⟩ :: ⟨.symbol .lparen, i', j'⟩ :: ts))
      (.ifThen next e st, next₁) rest := by
  rw [statement]
  refine .expect fun _ => he.bind fun _ => .expect fun _ => ht.bind fun _ => ?_
  dsimp only
  split
  · exact absurd rfl hrest
  · exact .pure

theorem Reads.ifElse
    (ht : Reads (statement (next + 1) mid) (st, next₁) (⟨.keyword .elseKw, i₂, j₂⟩ :: mid'))
    (ht' : Reads (statement next₁ mid') (st', next₂) rest) :
    Reads (statement next (⟨.keyword .ifKw, i, j⟩ :: ⟨.symbol .lparen, i', j'⟩ :: ts))
      (.ifElse next e st st', next₂) rest := by
  rw [statement]
  exact .expect fun _ => he.bind fun _ => .expect fun _ => ht.bind fun _ => ht'.bind fun _ => .pure

theorem Reads.whileLoop (ht : Reads (statement (next + 1) mid) (st, next₁) rest) :
    Reads (statement next (⟨.keyword .whileKw, i, j⟩ :: ⟨.symbol .lparen, i', j'⟩ :: ts))
      (.while next e st, next₁) rest := by
  rw [statement]
  exact .expect fun _ => he.bind fun _ => .expect fun _ => ht.bind fun _ => .pure

end

theorem Reads.print (he : Reads (Ast.expression ts) e
      (⟨.symbol .rparen, i₁, j₁⟩ :: ⟨.symbol .semicolon, i₂, j₂⟩ :: rest)) :
    Reads (statement next (⟨.keyword .printlnKw, i, j⟩ :: ⟨.symbol .lparen, i', j'⟩ :: ts))
      (.print e, next) rest := by
  rw [statement]
  exact .expect fun _ => he.bind fun _ => .expect fun _ => .expect fun _ => .pure

theorem Reads.expr (hts : next? ts = some t) (ht : startsExpr t = true)
    (he : Reads (Ast.expression ts) e (⟨.symbol .semicolon, i, j⟩ :: rest)) :
    Reads (statement next ts) (.expr e, next) rest := by
  unfold statement
  split
  · cases hts
    cases ht
  · cases hts
    cases ht
  · cases hts
    cases ht
  · cases hts
    cases ht
  · exact he.bind fun _ => .expect fun _ => .pure

theorem Reads.noStatements :
    Reads (statementsUntil stop missing next (⟨stop, i, j⟩ :: rest)) ([], next) rest := by
  rw [statementsUntil, if_pos rfl]
  exact .pure

theorem Reads.statements (hts : next? ts ≠ some stop) (h : Reads (statement next ts) (st, next₁) mid)
    (h' : Reads (statementsUntil stop missing next₁ mid) (stmts, next₂) rest) :
    Reads (statementsUntil stop missing next ts) (st :: stmts, next₂) rest := by
  cases ts with
  | nil => exact absurd h.1 (Nat.not_lt_zero _)
  | cons t ts =>
    rw [statementsUntil, if_neg fun ht => hts (congrArg some ht)]
    exact h.bind fun _ => h'.bind fun _ => .pure

end StatementRules

def startsStmt (t : Token) : Bool :=
  t = .symbol .lbrace || t = .keyword .ifKw || t = .keyword .whileKw || t = .keyword .printlnKw ||
    startsExpr t

/-- Tokens that start like a statement: in particular no identifier follows an identifier. -/
def StartsStmt (toks : List Token) : Prop := ∃ t more, toks = t :: more ∧ startsStmt t = true ∧
  (isIdent t = true → ∃ t' more', more = t' :: more' ∧ isIdent t' = false)

theorem startsStmt_of_startsExpr (h : startsExpr t = true) : startsStmt t = true := by
  simp [startsStmt, h]

theorem startsStmt_tokens (s : Stmt) : StartsStmt s.tokens := by
  cases s with
  | expr value =>
    have hvalue := startsExpr_tokens value
    rw [Stmt.tokens]
    match value.tokens, hvalue with
    | [t], h => exact ⟨t, _, rfl, startsStmt_of_startsExpr h, fun _ => ⟨_, _, rfl, rfl⟩⟩
    | t :: t' :: toks, h =>
      exact ⟨t, _, rfl, startsStmt_of_startsExpr h.1, fun ht => ⟨t', _, rfl, h.2 ht⟩⟩
  | block | ifThen | ifElse | «while» | print => exact ⟨_, _, rfl, rfl, fun h => nomatch h⟩

theorem StartsStmt.append (h : StartsStmt toks) (more : List Token) :
    StartsStmt (toks ++ more) := by
  obtain ⟨t, toks, rfl, ht, hident⟩ := h
  refine ⟨t, toks ++ more, rfl, ht, fun h => ?_⟩
  obtain ⟨t', toks, rfl, ht'⟩ := hident h
  exact ⟨t', toks ++ more, rfl, ht'⟩

theorem StartsStmt.next? {ts rest : Tokens} (h : StartsStmt toks) (hts : Begins toks ts rest) :
    ∃ t, next? ts = some t ∧ startsStmt t = true := by
  obtain ⟨t, more, rfl, ht, _⟩ := h
  exact ⟨t, next?_of_begins hts, ht⟩

structure StopsStmts (stop : Token) : Prop where
  not_starts : startsStmt stop = false
  ne_else : stop ≠ .keyword .elseKw

theorem next?_of_stmtsTokens {stop : Token} (hstop : StopsStmts stop) {ts rest : Tokens}
    (hts : Begins (stmtsTokens ss ++ [stop]) ts rest) : next? ts ≠ some (.keyword .elseKw) := by
  cases ss with
  | nil =>
    rw [next?_of_begins hts]
    simpa using hstop.ne_else
  | cons s ss =>
    rw [stmtsTokens, append_assoc] at hts
    obtain ⟨t, ht, hstarts⟩ := ((startsStmt_tokens s).append _).next? hts
    rw [ht]
    rintro ⟨⟩
    exact absurd hstarts (by decide)

mutual

/-- **The tokens of a statement are read back.** -/
theorem reads_stmt : (s : Stmt) → s.Spelled P → ∀ {next next' ts rest},
    Counts next s.nodeIds next' → Begins s.tokens ts rest →
      (s.endsOpen = true → next? rest ≠ some (.keyword .elseKw)) →
        Reads (statement next ts) (s, next') rest
  | .block stmts, h, next, next', ts, rest, hids, hts, _ => by
    obtain ⟨_, _, ts, rfl, hts⟩ := hts
    exact .block (reads_stmts ⟨by decide, by decide⟩ _ stmts h hids hts)
  | .ifThen id condition thenBranch, h, next, next', ts, rest, hids, hts, hopen => by
    obtain ⟨hc, ht⟩ := h
    obtain ⟨rfl, hids⟩ := hids.of_cons
    rw [Stmt.tokens] at hts
    obtain ⟨_, ⟨_, _, _, rfl, _, _, _, rfl, hcond⟩, _, _, mid, rfl, hthen⟩ := begins_append.1 hts
    exact .ifThen (reads_expression hc hcond (by simp))
      (reads_stmt thenBranch ht hids hthen fun _ => hopen rfl) (hopen rfl)
  | .ifElse id condition thenBranch elseBranch, h, next, next', ts, rest, hids, hts, hopen => by
    obtain ⟨hc, ht, hclosed, he⟩ := h
    obtain ⟨rfl, hids⟩ := hids.of_cons
    obtain ⟨next₁, hids, hids'⟩ := hids.of_append
    rw [Stmt.tokens] at hts
    obtain ⟨_, hif, _, _, _, rfl, helse⟩ := begins_append.1 hts
    obtain ⟨_, ⟨_, _, _, rfl, _, _, _, rfl, hcond⟩, _, _, mid, rfl, hthen⟩ := begins_append.1 hif
    have hthen := reads_stmt thenBranch ht hids hthen fun h =>
      absurd (hclosed.symm.trans h) Bool.false_ne_true
    exact .ifElse (reads_expression hc hcond (by simp)) hthen
      (reads_stmt elseBranch he hids' helse hopen)
  | .while id condition body, h, next, next', ts, rest, hids, hts, hopen => by
    obtain ⟨hc, hb⟩ := h
    obtain ⟨rfl, hids⟩ := hids.of_cons
    rw [Stmt.tokens] at hts
    obtain ⟨_, ⟨_, _, _, rfl, _, _, _, rfl, hcond⟩, _, _, mid, rfl, hbody⟩ := begins_append.1 hts
    exact .whileLoop (reads_expression hc hcond (by simp))
      (reads_stmt body hb hids hbody hopen)
  | .print value, h, next, next', ts, rest, hids, hts, _ => by
    cases hids.of_nil
    rw [Stmt.tokens] at hts
    obtain ⟨_, ⟨_, _, _, rfl, _, _, _, rfl, hvalue⟩, _, _, _, rfl, _, _, _, rfl, rfl⟩ :=
      begins_append.1 hts
    exact .print (reads_expression h hvalue (by simp))
  | .expr value, h, next, next', ts, rest, hids, hts, _ => by
    cases hids.of_nil
    rw [Stmt.tokens] at hts
    obtain ⟨_, hvalue, _, _, _, rfl, rfl⟩ := begins_append.1 hts
    obtain ⟨t, ht, hstarts⟩ := next?_of_startsExpr (startsExpr_tokens value) hvalue
    exact .expr ht hstarts (reads_expression h hvalue (by simp))

theorem reads_stmts {stop : Token} (hstop : StopsStmts stop) (missing : Expectation) :
    (ss : List Stmt) → stmtsSpelled P ss → ∀ {next next' ts rest},
      Counts next (stmtsNodeIds ss) next' → Begins (stmtsTokens ss ++ [stop]) ts rest →
        Reads (statementsUntil stop missing next ts) (ss, next') rest
  | [], _, next, next', ts, rest, hids, hts => by
    cases hids.of_nil
    obtain ⟨_, _, _, rfl, rfl⟩ := hts
    exact .noStatements
  | s :: ss, h, next, next', ts, rest, hids, hts => by
    obtain ⟨next₁, hids, hids'⟩ := hids.of_append
    rw [stmtsTokens, append_assoc] at hts
    obtain ⟨mid, hs, hss⟩ := begins_append.1 hts
    obtain ⟨t, ht, hstarts⟩ := (startsStmt_tokens s).next? hs
    have hts : next? ts ≠ some stop := by
      rw [ht]
      rintro ⟨⟩
      exact absurd (hstop.not_starts.symm.trans hstarts) Bool.false_ne_true
    exact .statements hts (reads_stmt s h.1 hids hs fun _ => next?_of_stmtsTokens hstop hss)
      (reads_stmts hstop missing ss h.2 hids' hss)

end

/-! ## Declarations -/

theorem reads_typeName {name : String} {i j : Nat} {ts rest : Tokens}
    (hts : Begins (typeTokens type) ts (⟨.ident name, i, j⟩ :: rest)) :
    Reads (typeName ts) type (⟨.ident name, i, j⟩ :: rest) := by
  cases type with
  | intArray =>
    obtain ⟨_, _, _, rfl, _, _, _, rfl, _, _, _, rfl, rfl⟩ := hts
    exact .expect fun _ => .pure
  | int | boolean | named _ =>
    obtain ⟨_, _, _, rfl, rfl⟩ := hts
    exact .pure

theorem next?_of_typeTokens {ts rest : Tokens} (hts : Begins (typeTokens type) ts rest)
    (s : Symbol) : next? ts ≠ some (.symbol s) := by
  cases type <;> rw [next?_of_begins hts] <;> simp

theorem reads_varDecl {d : VarDecl} {ts rest : Tokens}
    (hts : Begins (d.tokens ++ [.symbol .semicolon]) ts rest) : Reads (varDecl ts) d rest := by
  rw [VarDecl.tokens, append_assoc] at hts
  obtain ⟨_, htype, _, _, _, rfl, _, _, _, rfl, rfl⟩ := begins_append.1 hts
  exact (reads_typeName htype).bind fun _ => Reads.identifier.bind fun _ => .expect fun _ => .pure

theorem reads_varDecls {more : Tokens → Bool}
    (hmore : ∀ (d : VarDecl) ts rest, Begins d.tokens ts rest → more ts = true) :
    (ds : List VarDecl) → ∀ {ts rest}, Begins (declTokens ds) ts rest → more rest = false →
      Reads (varDecls more ts) ds rest
  | [], ts, rest, hts, hrest => by
    cases hts
    rw [varDecls, hrest]
    exact .pure
  | d :: ds, ts, rest, hts, hrest => by
    rw [declTokens, flatMap_cons] at hts
    obtain ⟨mid, hd, hds⟩ := begins_append.1 hts
    have hstarts : more ts = true := by
      obtain ⟨_, hd, _⟩ := begins_append.1 hd
      exact hmore d ts _ hd
    rw [varDecls, if_pos hstarts]
    exact (reads_varDecl hd).bind fun _ => (reads_varDecls hmore ds hds hrest).bind fun _ => .pure

theorem startsLocal_of_varDecl (d : VarDecl) (ts rest : Tokens) (hts : Begins d.tokens ts rest) :
    startsLocal ts = true := by
  obtain ⟨type, name⟩ := d
  cases type with
  | named _ =>
    obtain ⟨_, _, _, rfl, _, _, _, rfl, _⟩ := hts
    rfl
  | int | boolean | intArray =>
    obtain ⟨_, _, _, rfl, _⟩ := hts
    rfl

theorem startsField_of_varDecl (d : VarDecl) (ts rest : Tokens) (hts : Begins d.tokens ts rest) :
    startsField ts = true := by
  obtain ⟨type, name⟩ := d
  cases type with
  | int | boolean | intArray | named _ =>
    obtain ⟨_, _, _, rfl, _⟩ := hts
    rfl

theorem startsLocal_of_stmtsTokens {ts rest : Tokens}
    (hts : Begins (stmtsTokens ss ++ [.keyword .returnKw]) ts rest) : startsLocal ts = false := by
  cases ss with
  | nil =>
    obtain ⟨_, _, _, rfl, _⟩ := hts
    rfl
  | cons s ss =>
    rw [stmtsTokens, append_assoc] at hts
    obtain ⟨t, more, htoks, ht, hident⟩ := (startsStmt_tokens s).append
      (stmtsTokens ss ++ [.keyword .returnKw])
    rw [htoks] at hts
    obtain ⟨_, _, ts, rfl, hts⟩ := hts
    unfold startsLocal
    split
    · next heq => cases heq; cases ht
    · next heq => cases heq; cases ht
    · next heq =>
      cases heq
      obtain ⟨t', more', rfl, ht'⟩ := hident rfl
      obtain ⟨_, _, _, heq, _⟩ := hts
      cases heq
      cases ht'
    · rfl

theorem reads_moreParams : (ds : List VarDecl) → ∀ {ts rest},
    Begins (moreParamTokens ds ++ [.symbol .rparen]) ts rest → Reads (moreParams ts) ds rest
  | [], ts, rest, hts => by
    obtain ⟨_, _, _, rfl, rfl⟩ := hts
    unfold moreParams
    exact .expect fun _ => .pure
  | d :: ds, ts, rest, hts => by
    rw [moreParamTokens, flatMap_cons, append_assoc, cons_append, VarDecl.tokens,
      append_assoc] at hts
    obtain ⟨_, _, ts, rfl, hts⟩ := hts
    obtain ⟨_, htype, _, _, _, rfl, hds⟩ := begins_append.1 hts
    rw [moreParams]
    exact (reads_typeName htype).bind fun _ => Reads.identifier.bind fun _ =>
      (reads_moreParams ds hds).bind fun _ => .pure

theorem reads_params (ds : List VarDecl) {ts rest : Tokens}
    (hts : Begins (paramTokens ds ++ [.symbol .rparen]) ts rest) : Reads (params ts) ds rest := by
  cases ds with
  | nil =>
    obtain ⟨_, _, _, rfl, rfl⟩ := hts
    exact .pure
  | cons d ds =>
    rw [paramTokens, append_assoc, VarDecl.tokens, append_assoc] at hts
    obtain ⟨_, htype, _, _, _, rfl, hds⟩ := begins_append.1 hts
    have hparen := next?_of_typeTokens htype .rparen
    unfold params
    split
    · exact absurd rfl hparen
    · exact (reads_typeName htype).bind fun _ => Reads.identifier.bind fun _ =>
        (reads_moreParams ds hds).bind fun _ => .pure

/-- **The tokens of a method are read back.** -/
theorem reads_methodDecl {m : MethodDecl} (h : m.Spelled P) {next next' : NodeId}
    {ts rest : Tokens} (hids : Counts next (stmtsNodeIds m.body) next')
    (hts : Begins m.tokens ts rest) :
    Reads (methodDecl next ts) (m, next') rest := by
  simp only [MethodDecl.tokens, append_assoc, cons_append] at hts
  obtain ⟨_, _, _, rfl, hts⟩ := hts
  obtain ⟨_, htype, _, _, _, rfl, _, _, _, rfl, hts⟩ := begins_append.1 hts
  rw [← singleton_append, ← append_assoc] at hts
  obtain ⟨_, hparams, _, _, _, rfl, hts⟩ := begins_append.1 hts
  obtain ⟨_, hlocals, hts⟩ := begins_append.1 hts
  rw [← singleton_append, ← append_assoc] at hts
  obtain ⟨_, hbody, hts⟩ := begins_append.1 hts
  obtain ⟨_, hresult, _, _, _, rfl, _, _, _, rfl, rfl⟩ := begins_append.1 hts
  refine .expect fun _ => (reads_typeName htype).bind fun _ => Reads.identifier.bind fun _ =>
    .expect fun _ => (reads_params _ hparams).bind fun _ => .expect fun _ => ?_
  refine (reads_varDecls startsLocal_of_varDecl _ hlocals
    (startsLocal_of_stmtsTokens hbody)).bind fun _ => ?_
  refine (reads_stmts ⟨by decide, by decide⟩ _ _ h.body hids hbody).bind fun _ => ?_
  exact (reads_expression h.result hresult (by simp)).bind fun _ => .expect fun _ => .expect fun _ =>
    .pure

theorem reads_methodDecls : (ms : List MethodDecl) → (∀ m ∈ ms, m.Spelled P) →
    ∀ {next next' ts rest}, Counts next (ms.flatMap fun m => stmtsNodeIds m.body) next' →
      Begins (ms.flatMap (·.tokens) ++ [.symbol .rbrace]) ts rest →
        Reads (methodDecls next ts) (ms, next') rest
  | [], _, next, next', ts, rest, hids, hts => by
    cases hids.of_nil
    obtain ⟨_, _, _, rfl, rfl⟩ := hts
    unfold methodDecls
    exact .pure
  | m :: ms, h, next, next', ts, rest, hids, hts => by
    obtain ⟨hm, hms⟩ := List.forall_mem_cons.1 h
    rw [flatMap_cons] at hids
    obtain ⟨next₁, hids, hids'⟩ := hids.of_append
    rw [flatMap_cons, append_assoc] at hts
    obtain ⟨mid, hts, hts'⟩ := begins_append.1 hts
    have hpublic : next? ts = some (.keyword .publicKw) := by
      simp only [MethodDecl.tokens, append_assoc, cons_append] at hts
      exact next?_of_begins hts
    unfold methodDecls
    split
    · cases hpublic
    · exact (reads_methodDecl hm hids hts).bind fun _ =>
        (reads_methodDecls ms hms hids' hts').bind fun _ => .pure

theorem reads_parentName {parent? : Option String} {i j : Nat} {ts rest : Tokens}
    (hts : Begins (parentTokens parent?) ts (⟨.symbol .lbrace, i, j⟩ :: rest)) :
    Reads (parentName ts) parent? (⟨.symbol .lbrace, i, j⟩ :: rest) := by
  cases parent? with
  | none =>
    cases hts
    exact .pure
  | some name =>
    obtain ⟨_, _, _, rfl, _, _, _, rfl, rfl⟩ := hts
    exact Reads.identifier.bind fun _ => .pure

theorem startsField_of_methods {ms : List MethodDecl} {ts rest : Tokens}
    (hts : Begins (ms.flatMap (·.tokens) ++ [.symbol .rbrace]) ts rest) : startsField ts = false := by
  cases ms with
  | nil =>
    obtain ⟨_, _, _, rfl, rfl⟩ := hts
    rfl
  | cons m ms =>
    simp only [flatMap_cons, MethodDecl.tokens, append_assoc, cons_append] at hts
    obtain ⟨_, _, _, rfl, _⟩ := hts
    rfl

/-- **The tokens of a class are read back.** -/
theorem reads_classDecl {c : ClassDecl} (h : c.Spelled P) {next next' : NodeId} {ts rest : Tokens}
    (hids : Counts next c.nodeIds next') (hts : Begins c.tokens ts rest) :
    Reads (classDecl next ts) (c, next') rest := by
  simp only [ClassDecl.tokens, append_assoc, cons_append] at hts
  obtain ⟨_, _, _, rfl, _, _, _, rfl, hts⟩ := hts
  obtain ⟨_, hparent, _, _, _, rfl, hts⟩ := begins_append.1 hts
  obtain ⟨_, hfields, hmethods⟩ := begins_append.1 hts
  refine .expect fun _ => Reads.identifier.bind fun _ => (reads_parentName hparent).bind fun _ =>
    .expect fun _ => ?_
  refine (reads_varDecls startsField_of_varDecl _ hfields
    (startsField_of_methods hmethods)).bind fun _ => ?_
  exact (reads_methodDecls _ h.methods hids hmethods).bind fun _ => .pure

theorem classDecls_of_tokens : (cs : List ClassDecl) → (∀ c ∈ cs, c.Spelled P) →
    ∀ {next next' ts}, Counts next (cs.flatMap (·.nodeIds)) next' →
      Begins (cs.flatMap (·.tokens)) ts [] → classDecls next ts = .ok cs
  | [], _, next, next', ts, _, hts => by
    cases hts
    unfold classDecls
    rfl
  | c :: cs, h, next, next', ts, hids, hts => by
    obtain ⟨hc, hcs⟩ := List.forall_mem_cons.1 h
    rw [flatMap_cons] at hids hts
    obtain ⟨next₁, hids, hids'⟩ := hids.of_append
    obtain ⟨mid, hts, hts'⟩ := begins_append.1 hts
    obtain ⟨hlt, hc⟩ := reads_classDecl hc hids hts
    have hcs := classDecls_of_tokens cs hcs hids' hts'
    cases ts with
    | nil => exact absurd hlt (Nat.not_lt_zero _)
    | cons t ts =>
      unfold classDecls
      simp only [hc, hcs, except_ok_bind]
      rfl

theorem reads_mainClass {c : MainClass} (h : c.body.Spelled P) {next : NodeId} {ts rest : Tokens}
    (hids : Counts 0 c.body.nodeIds next) (hts : Begins c.tokens ts rest) :
    Reads (mainClass ts) (c, next) rest := by
  simp only [MainClass.tokens, cons_append] at hts
  obtain ⟨_, _, _, rfl, _, _, _, rfl, _, _, _, rfl, _, _, _, rfl, _, _, _, rfl, _, _, _, rfl, _, _, _, rfl,
    _, _, _, rfl, _, _, _, rfl, _, _, _, rfl, _, _, _, rfl, _, _, _, rfl, _, _, _, rfl, _, _, _, rfl, hts⟩ :=
    hts
  -- The statement is read as a list of one, with the brace after it.
  have htokens : c.body.tokens ++ [.symbol .rbrace, .symbol .rbrace] =
      stmtsTokens [c.body] ++ [.symbol .rbrace] ++ [.symbol .rbrace] := by simp [stmtsTokens]
  rw [htokens] at hts
  obtain ⟨_, hstmts, _, _, _, rfl, rfl⟩ := begins_append.1 hts
  have hids : Counts 0 (stmtsNodeIds [c.body]) next := by simpa [stmtsNodeIds] using hids
  refine .expect fun _ => Reads.identifier.bind fun _ => .expect fun _ => .expect fun _ =>
    .expect fun _ => .expect fun _ => .expectWord fun _ => .expect fun _ => .expectWord fun _ =>
    .expect fun _ => .expect fun _ => Reads.identifier.bind fun _ => .expect fun _ =>
    .expect fun _ => ?_
  exact (reads_stmts ⟨by decide, by decide⟩ .expression [c.body] ⟨h, trivial⟩ hids hstmts).bind
    fun _ => .expect fun _ => .pure

theorem program_of_tokens {p : Program} (h : p.Spelled P) {next : NodeId}
    (hids : Counts 0 p.nodeIds next) {ts : Tokens} (hts : ts.map (·.token) = p.tokens) :
    program ts = .ok p := by
  obtain ⟨mid, hmain, hclasses⟩ := begins_append.1 (begins_of_map_eq hts)
  obtain ⟨next₁, hids, hids'⟩ := hids.of_append
  obtain ⟨hlt, hmain⟩ := reads_mainClass h.mainBody hids hmain
  have hclasses := classDecls_of_tokens _ h.classes hids' hclasses
  simp only [program, hmain, hclasses, except_ok_bind]
  rfl

end Ast

/-! ## Programs -/

/-- **Parsing undoes printing.** The text that is written for a parsed program is parsed as the same
program, with the numbers of its nodes. -/
theorem parse_render {source : String} {p : Ast.Program} (h : parse source = .ok p) :
    parse p.render = .ok p := by
  have hspelled := spelled_of_parse h
  obtain ⟨_, _, hprogram⟩ := parse_eq_ok_iff.1 h
  obtain ⟨next, hids⟩ := Ast.counts_program hprogram
  obtain ⟨tokens, htokens, hmap⟩ :=
    tokens_of_tokenize_intercalate (Ast.lexical_tokens_program hspelled)
  rw [parse, Ast.Program.render, htokens]
  change (parseTokens _ tokens).mapError _ = _
  rw [parseTokens, Ast.program_of_tokens hspelled hids hmap]
  rfl

/-- Parentheses that group nothing are dropped, the others stay, and a sign is written as a difference. -/
theorem parse_render_parentheses : ∃ p,
    parse ("class M\x7bpublic static void main(String[]s)\x7bwhile(!(1-(2-3)*4<5))" ++
      "if(b)\x7bif(c)(x)=(y=-0);\x7delse((new A())).f((x=y)[0]);\x7d\x7d" ++
      "class A extends B\x7bint[]g;\x7d") = .ok p ∧
    p.render = "class M \x7b public static void main ( String [ ] a ) \x7b " ++
      "while ( ! ( 1 - ( 2 - 3 ) * 4 < 5 ) ) if ( b ) \x7b if ( c ) x = y = 0 - 0 ; \x7d else " ++
      "new A ( ) . f ( ( x = y ) [ 0 ] ) ; \x7d \x7d class A extends B \x7b int [ ] g ; \x7d" ∧
    parse p.render = .ok p := by
  refine (exists_eq_ok_of_map_toOption (f := Ast.Program.render) ?_).imp fun p h =>
    ⟨h.1, h.2, parse_render h.1⟩
  decide +kernel

end MiniJava
