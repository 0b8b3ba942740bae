import MiniJava.Compile
import MiniJava.Proofs.Lowering.Labels
import MiniJava.Proofs.Results

/-!
# The names and numbers of parsed programs

Whatever holds of all tokens of a text holds of the names and numbers of the program that is read from
it, for a phrase that is read leaves some of the tokens. So every name in a parsed program is that of an
identifier of the source, and an identifier consists of the characters of words and is not a keyword.
Along the way we note what else a phrase that was read has: assignments have targets, no `else` follows
a statement that it would belong to, and the nodes are numbered in the order in which they start.
-/

namespace MiniJava

open List

variable {c : Char} {cs : List Char} {n : Nat} {ps : List Piece} {t : Spanned} {source : String}
  {ast : Ast.Program}

/-! ## Tokens of texts -/

namespace Lexer

def IsWord (name : String) : Prop := ∀ c ∈ name.toList, inWord c = true

structure IsIdentifier (name : String) : Prop where
  isWord : IsWord name
  starts : ∃ c cs, name.toList = c :: cs ∧ startsWord c = true
  ofWord? : Keyword.ofWord? name = none

theorem inWord_of_startsWord (h : startsWord c = true) : inWord c = true := by
  simp only [startsWord, inWord, Char.isAlphanum, Bool.or_eq_true] at h ⊢
  rcases h with h | h
  · exact Or.inl (Or.inl h)
  · exact Or.inr h

end Lexer

def Token.Lexical : Token → Prop
  | .ident name => Lexer.IsIdentifier name
  | .number value => 0 ≤ value.toInt
  | .keyword _ | .symbol _ => True

namespace Lexer

theorem lexical_of_word (hc : startsWord c = true) : (word (c :: cs)).1.Lexical := by
  unfold word
  dsimp only
  split
  · trivial
  · split
    · trivial
    · next hnone =>
      refine ⟨fun d hd => ?_, ⟨c, cs.takeWhile inWord, ?_, hc⟩, hnone⟩
      · rw [String.toList_ofList] at hd
        exact all_eq_true.1 all_takeWhile d hd
      · rw [String.toList_ofList, takeWhile_cons_of_pos (inWord_of_startsWord hc)]

theorem lexical_of_number? {t : Token} (h : number? cs = some (t, n)) : t.Lexical := by
  unfold number? at h
  dsimp only at h
  split at h
  · next hle =>
    cases h
    have hlt : decimal (cs.takeWhile Char.isDigit) < 2 ^ 31 := Nat.lt_succ_of_le hle
    rw [Token.Lexical, Int32.toInt_ofNat_of_lt hlt]
    exact Int.natCast_nonneg _
  · cases h

theorem lexical_of_munch? {t : Token} (h : munch? cs = some (some t, n)) : t.Lexical := by
  unfold munch? at h
  split at h
  · cases h
  · cases h
  · obtain ⟨_, _, hm⟩ := Option.map_eq_some_iff.1 h
    cases hm
  · split at h
    · cases h
    · split at h
      · next hc =>
        cases h
        exact lexical_of_word hc
      · split at h
        · obtain ⟨⟨token, m⟩, hm, heq⟩ := Option.map_eq_some_iff.1 h
          cases heq
          exact lexical_of_number? hm
        · obtain ⟨⟨token, m⟩, hm, heq⟩ := Option.map_eq_some_iff.1 h
          cases heq
          obtain ⟨_, _, heq⟩ := Option.map_eq_some_iff.1 hm
          cases heq
          trivial

theorem lexical_of_pieces (h : pieces cs = .ok ps) {p : Piece} (hp : p ∈ ps) {t : Token}
    (ht : p.token? = some t) : t.Lexical := by
  fun_induction pieces cs generalizing ps with
  | case1 =>
    cases h
    cases hp
  | case2 => cases h
  | case3 c cs q rest hq ih =>
    cases hr : pieces rest with
    | error e => simp [hr, Except.map] at h
    | ok qs =>
      simp only [hr, Except.map, Except.ok.injEq] at h
      subst h
      rcases mem_cons.1 hp with rfl | hp
      · obtain ⟨⟨token?, n⟩, hm, heq⟩ := Option.map_eq_some_iff.1 hq
        obtain ⟨rfl, _⟩ := Prod.mk.inj heq
        obtain rfl : token? = some t := ht
        exact lexical_of_munch? hm
      · exact ih hr hp

theorem exists_piece_of_mem_spans {start : Nat} (h : t ∈ spans start ps) :
    ∃ p ∈ ps, p.token? = some t.token := by
  induction ps generalizing start with
  | nil => cases h
  | cons p ps ih =>
    rw [spans] at h
    split at h
    · next token htoken =>
      rcases mem_cons.1 h with rfl | h
      · exact ⟨p, mem_cons_self, htoken⟩
      · obtain ⟨q, hq, heq⟩ := ih h
        exact ⟨q, mem_cons_of_mem _ hq, heq⟩
    · obtain ⟨q, hq, heq⟩ := ih h
      exact ⟨q, mem_cons_of_mem _ hq, heq⟩

end Lexer

open Lexer

/-- **The tokens of a text.** Its identifiers are words but not keywords. -/
theorem lexical_of_tokenize {tokens : List Spanned} (h : tokenize source = .ok tokens)
    (ht : t ∈ tokens) : t.token.Lexical := by
  rw [tokenize] at h
  split at h
  · next ps hps =>
    cases h
    obtain ⟨p, hp, heq⟩ := exists_piece_of_mem_spans ht
    exact lexical_of_pieces hps hp heq
  · cases h

/-! ## Trees made from tokens -/

def TypeName.NamedBy (P : String → Prop) (t : TypeName) : Prop := ∀ name, t = .named name → P name

namespace Ast

section Trees

variable (P : Token → Prop)

mutual

/-- An expression whose names and numbers are tokens with `P`. A minus sign brings a zero with it. -/
def Expr.Spelled : Expr → Prop
  | .assign target value => target.isAssignable = true ∧ target.Spelled ∧ value.Spelled
  | .binary _ left right => left.Spelled ∧ right.Spelled
  | .not operand => operand.Spelled
  | .index target index => target.Spelled ∧ index.Spelled
  | .member target name => target.Spelled ∧ P (.ident name)
  | .call target method args => target.Spelled ∧ P (.ident method) ∧ allSpelled args
  | .newObject name => P (.ident name)
  | .newIntArray size => size.Spelled
  | .var name => P (.ident name)
  | .intLit value => value = 0 ∨ P (.number value)
  | .this | .boolLit _ => True

def allSpelled : List Expr → Prop
  | [] => True
  | e :: es => e.Spelled ∧ allSpelled es

end

/-- Whether an `else` after the statement would belong to an `if` inside it. -/
def Stmt.endsOpen : Stmt → Bool
  | .ifThen _ _ _ => true
  | .ifElse _ _ _ elseBranch => elseBranch.endsOpen
  | .while _ _ body => body.endsOpen
  | .block _ | .print _ | .expr _ => false

mutual

def Stmt.Spelled : Stmt → Prop
  | .block stmts => stmtsSpelled stmts
  | .ifThen _ condition thenBranch => condition.Spelled P ∧ thenBranch.Spelled
  | .ifElse _ condition thenBranch elseBranch =>
    condition.Spelled P ∧ thenBranch.Spelled ∧ thenBranch.endsOpen = false ∧ elseBranch.Spelled
  | .while _ condition body => condition.Spelled P ∧ body.Spelled
  | .print value | .expr value => value.Spelled P

def stmtsSpelled : List Stmt → Prop
  | [] => True
  | s :: ss => s.Spelled ∧ stmtsSpelled ss

end

def typeSpelled (t : TypeName) : Prop := t.NamedBy fun name => P (.ident name)

structure VarDecl.Spelled (d : VarDecl) : Prop where
  type : typeSpelled P d.type
  name : P (.ident d.name)

structure MethodDecl.Spelled (m : MethodDecl) : Prop where
  returnType : typeSpelled P m.returnType
  name : P (.ident m.name)
  params : ∀ d ∈ m.params, d.Spelled P
  locals : ∀ d ∈ m.locals, d.Spelled P
  body : stmtsSpelled P m.body
  result : m.result.Spelled P

structure ClassDecl.Spelled (c : ClassDecl) : Prop where
  name : P (.ident c.name)
  parent? : ∀ name, c.parent? = some name → P (.ident name)
  fields : ∀ d ∈ c.fields, d.Spelled P
  methods : ∀ m ∈ c.methods, m.Spelled P

structure Program.Spelled (p : Program) : Prop where
  mainName : P (.ident p.main.name)
  mainBody : p.main.body.Spelled P
  classes : ∀ c ∈ p.classes, c.Spelled P

end Trees

/-! ## Numbers of nodes -/

def ClassDecl.nodeIds (c : ClassDecl) : List NodeId := c.methods.flatMap fun m => stmtsNodeIds m.body

def Program.nodeIds (p : Program) : List NodeId :=
  p.main.body.nodeIds ++ p.classes.flatMap (·.nodeIds)

def Counts (next : NodeId) (ids : List NodeId) (next' : NodeId) : Prop :=
  next' = next + ids.length ∧ ids = range' next ids.length

namespace Counts

variable {next next₁ next₂ : NodeId} {ids ids' : List NodeId}

theorem nil (next : NodeId) : Counts next [] next := ⟨rfl, rfl⟩

theorem cons (h : Counts (next + 1) ids next₁) : Counts next (next :: ids) next₁ := by
  refine ⟨by rw [h.1, length_cons, Nat.add_right_comm, Nat.add_assoc], ?_⟩
  rw [length_cons, range'_succ, ← h.2]

theorem append (h : Counts next ids next₁) (h' : Counts next₁ ids' next₂) :
    Counts next (ids ++ ids') next₂ := by
  refine ⟨by rw [h'.1, h.1, length_append, Nat.add_assoc], ?_⟩
  rw [length_append, ← range'_append_1, ← h.2, ← h.1, ← h'.2]

theorem of_cons {id : NodeId} (h : Counts next (id :: ids) next₁) :
    id = next ∧ Counts (next + 1) ids next₁ := by
  obtain ⟨hnext, hids⟩ := h
  rw [length_cons, range'_succ] at hids
  obtain ⟨rfl, hids⟩ := cons.inj hids
  refine ⟨rfl, ?_, hids⟩
  rw [hnext, length_cons, Nat.add_right_comm, Nat.add_assoc]

theorem of_append (h : Counts next (ids ++ ids') next₁) :
    ∃ mid, Counts next ids mid ∧ Counts mid ids' next₁ := by
  induction ids generalizing next with
  | nil => exact ⟨next, .nil next, h⟩
  | cons id ids ih =>
    obtain ⟨rfl, h⟩ := h.of_cons
    obtain ⟨mid, hids, hids'⟩ := ih h
    exact ⟨mid, hids.cons, hids'⟩

theorem of_nil (h : Counts next [] next₁) : next₁ = next := h.1

theorem nodup (h : Counts next ids next₁) : ids.Nodup := by
  rw [h.2]
  exact nodup_range'

end Counts

/-! ## Phrases -/

def AllTokens (P : Token → Prop) (ts : Tokens) : Prop := ∀ t ∈ ts, P t.token

/-- If a phrase is read, then it has `Q`, and the tokens that are left have `P`. -/
def Gives (P : Token → Prop) {α : Type} {R : Tokens → Prop} (Q : α → Tokens → Prop)
    (r : Except Failure (α × { rest : Tokens // R rest })) : Prop :=
  ∀ a, r = .ok a → AllTokens P a.2.1 ∧ Q a.1 a.2.1

variable {P : Token → Prop} {ts : Tokens}

theorem AllTokens.head (h : AllTokens P (t :: ts)) : P t.token := h t mem_cons_self

theorem AllTokens.tail (h : AllTokens P (t :: ts)) : AllTokens P ts :=
  fun s hs => h s (mem_cons_of_mem _ hs)

namespace Gives

variable {α β : Type} {R R' : Tokens → Prop} {Q : α → Tokens → Prop} {Q' : β → Tokens → Prop}

theorem ok {a : α} {rest : Tokens} {h : R rest} (hrest : AllTokens P rest) (ha : Q a rest) :
    Gives P Q (.ok (a, (⟨rest, h⟩ : { rest // R rest }))) := by
  rintro _ ⟨⟩
  exact ⟨hrest, ha⟩

theorem error {e : Failure} : Gives P Q (.error e : Except Failure (α × { rest // R rest })) := nofun

theorem bind {x : Except Failure (α × { rest // R rest })}
    {f : α × { rest // R rest } → Except Failure (β × { rest // R' rest })} (hx : Gives P Q x)
    (hf : ∀ a rest h, AllTokens P rest → Q a rest → Gives P Q' (f (a, ⟨rest, h⟩))) :
    Gives P Q' (x >>= f) := by
  intro b hb
  obtain ⟨⟨a, rest, h⟩, ha, hb⟩ := except_bind_eq_ok.1 hb
  obtain ⟨hrest, ha⟩ := hx _ ha
  exact hf a rest h hrest ha b hb

theorem expect {t : Token} {f : Rest ts → Except Failure (β × { rest // R' rest })}
    (hts : AllTokens P ts) (hf : ∀ rest h, AllTokens P rest → Gives P Q' (f ⟨rest, h⟩)) :
    Gives P Q' (Ast.expect t ts >>= f) := by
  intro b hb
  obtain ⟨⟨rest, h⟩, hr, hb⟩ := except_bind_eq_ok.1 hb
  refine hf rest h ?_ b hb
  unfold Ast.expect at hr
  split at hr
  · cases hr
  · split at hr
    · cases hr
      exact hts.tail
    · cases hr

theorem expectWord {w : String} {f : Rest ts → Except Failure (β × { rest // R' rest })}
    (hts : AllTokens P ts) (hf : ∀ rest h, AllTokens P rest → Gives P Q' (f ⟨rest, h⟩)) :
    Gives P Q' (Ast.expectWord w ts >>= f) := by
  intro b hb
  obtain ⟨⟨rest, h⟩, hr, hb⟩ := except_bind_eq_ok.1 hb
  refine hf rest h ?_ b hb
  unfold Ast.expectWord at hr
  split at hr
  · split at hr
    · cases hr
      exact hts.tail
    · cases hr
  · cases hr

end Gives

theorem gives_identifier (hts : AllTokens P ts) :
    Gives P (fun name _ => P (.ident name)) (identifier ts) := by
  unfold identifier
  split
  · exact .ok hts.tail hts.head
  · exact .error

theorem gives_typeName (hts : AllTokens P ts) : Gives P (fun t _ => typeSpelled P t) (typeName ts) := by
  unfold typeName
  split
  · exact .expect hts.tail.tail fun _ _ hrest => .ok hrest nofun
  · exact .ok hts.tail nofun
  · exact .ok hts.tail nofun
  · refine .ok hts.tail ?_
    rintro _ ⟨⟩
    exact hts.head
  · exact .error

/-! ## Expressions -/

mutual

theorem gives_expression {ts : Tokens} (hts : AllTokens P ts) :
    Gives P (fun e _ => e.Spelled P) (expression ts) := by
  unfold expression
  refine .bind (gives_binary 0 hts) fun target rest h hrest htarget => ?_
  dsimp only
  split
  · next rest' h =>
    split
    · next hassignable =>
      refine .bind (gives_expression hrest.tail) fun value rest'' _ hrest'' hvalue => ?_
      exact .ok hrest'' ⟨hassignable, htarget, hvalue⟩
    · exact .error
  · exact .ok hrest htarget
termination_by 12 * ts.length + 10
decreasing_by
  · simp only [levels]; omega
  · simp only [length_cons] at h; omega

theorem gives_binary {ts : Tokens} (l : Nat) (hts : AllTokens P ts) :
    Gives P (fun e _ => e.Spelled P) (binary l ts) := by
  unfold binary
  split
  · refine .bind (gives_binary (l + 1) hts) fun left rest h hrest hleft => ?_
    refine .bind (gives_operands l hrest hleft) fun e rest' _ hrest' he => ?_
    exact .ok hrest' he
  · exact gives_unary hts
termination_by 12 * ts.length + 3 + (levels - l)

theorem gives_operands {ts : Tokens} (l : Nat) {left : Expr} (hts : AllTokens P ts)
    (hleft : left.Spelled P) : Gives P (fun e _ => e.Spelled P) (operands l left ts) := by
  obtain ⟨n, hn⟩ : ∃ n, ts.length = n := ⟨_, rfl⟩
  unfold operands
  split
  · split
    · refine .bind (gives_binary _ hts.tail) fun right rest₁ h₁ hrest₁ hright => ?_
      refine .bind (gives_operands l hrest₁ ⟨hleft, hright⟩) fun e rest₂ _ hrest₂ he => ?_
      exact .ok hrest₂ he
    · exact .ok hts hleft
  · exact .ok hts hleft
termination_by 12 * ts.length
decreasing_by all_goals simp only [length_cons, levels] at *; omega

theorem gives_unary {ts : Tokens} (hts : AllTokens P ts) :
    Gives P (fun e _ => e.Spelled P) (unary ts) := by
  obtain ⟨n, hn⟩ : ∃ n, ts.length = n := ⟨_, rfl⟩
  unfold unary
  split
  · exact .bind (gives_unary hts.tail) fun _ _ _ hrest he => .ok hrest he
  · exact .bind (gives_unary hts.tail) fun _ _ _ hrest he => .ok hrest ⟨Or.inl rfl, he⟩
  · refine .bind (gives_primary hts) fun target rest h hrest htarget => ?_
    exact .bind (gives_selectors hrest htarget) fun e rest' _ hrest' he => .ok hrest' he
termination_by 12 * ts.length + 2
decreasing_by all_goals simp only [length_cons] at *; omega

theorem gives_selectors {ts : Tokens} {target : Expr} (hts : AllTokens P ts)
    (htarget : target.Spelled P) : Gives P (fun e _ => e.Spelled P) (selectors target ts) := by
  obtain ⟨n, hn⟩ : ∃ n, ts.length = n := ⟨_, rfl⟩
  unfold selectors
  split
  · refine .bind (gives_expression hts.tail) fun index rest₁ h₁ hrest₁ hindex => ?_
    refine .expect hrest₁ fun rest₂ h₂ hrest₂ => ?_
    refine .bind (gives_selectors hrest₂ ⟨htarget, hindex⟩) fun e rest₃ _ hrest₃ he => ?_
    exact .ok hrest₃ he
  · refine .bind (gives_identifier hts.tail) fun name rest₁ h₁ hrest₁ hname => ?_
    dsimp only
    split
    · next rest₂ h₁ =>
      have h₂ : rest₂.length < _ := Nat.lt_of_succ_lt h₁
      refine .bind (gives_arguments hrest₁.tail) fun args rest₃ h₃ hrest₃ hargs => ?_
      refine .bind (gives_selectors hrest₃ ⟨htarget, hname, hargs⟩) fun e rest₄ _ hrest₄ he => ?_
      exact .ok hrest₄ he
    · refine .bind (gives_selectors hrest₁ ⟨htarget, hname⟩) fun e rest₂ _ hrest₂ he => ?_
      exact .ok hrest₂ he
  · exact .ok hts htarget
termination_by 12 * ts.length
decreasing_by all_goals simp only [length_cons] at *; omega

theorem gives_arguments {ts : Tokens} (hts : AllTokens P ts) :
    Gives P (fun es _ => allSpelled P es) (arguments ts) := by
  obtain ⟨n, hn⟩ : ∃ n, ts.length = n := ⟨_, rfl⟩
  unfold arguments
  split
  · exact .ok hts.tail trivial
  · refine .bind (gives_expression hts) fun e rest h hrest he => ?_
    exact .bind (gives_moreArguments hrest) fun es rest' _ hrest' hes => .ok hrest' ⟨he, hes⟩
termination_by 12 * ts.length + 11
decreasing_by all_goals omega

theorem gives_moreArguments {ts : Tokens} (hts : AllTokens P ts) :
    Gives P (fun es _ => allSpelled P es) (moreArguments ts) := by
  obtain ⟨n, hn⟩ : ∃ n, ts.length = n := ⟨_, rfl⟩
  unfold moreArguments
  split
  · refine .bind (gives_expression hts.tail) fun e rest₁ h₁ hrest₁ he => ?_
    exact .bind (gives_moreArguments hrest₁) fun es rest₂ _ hrest₂ hes => .ok hrest₂ ⟨he, hes⟩
  · exact .expect hts fun rest _ hrest => .ok hrest trivial
termination_by 12 * ts.length
decreasing_by all_goals simp only [length_cons] at *; omega

theorem gives_primary {ts : Tokens} (hts : AllTokens P ts) :
    Gives P (fun e _ => e.Spelled P) (primary ts) := by
  obtain ⟨n, hn⟩ : ∃ n, ts.length = n := ⟨_, rfl⟩
  unfold primary
  split
  · exact .ok hts.tail (Or.inr hts.head)
  · exact .ok hts.tail trivial
  · exact .ok hts.tail trivial
  · exact .ok hts.tail trivial
  · exact .ok hts.tail hts.head
  · refine .bind (gives_expression hts.tail) fun e rest₁ _ hrest₁ he => ?_
    exact .expect hrest₁ fun rest₂ _ hrest₂ => .ok hrest₂ he
  · refine .expect hts.tail.tail fun rest₁ h₁ hrest₁ => ?_
    refine .bind (gives_expression hrest₁) fun size rest₂ _ hrest₂ hsize => ?_
    exact .expect hrest₂ fun rest₃ _ hrest₃ => .ok hrest₃ hsize
  · refine .bind (gives_identifier hts.tail) fun name rest₁ _ hrest₁ hname => ?_
    refine .expect hrest₁ fun rest₂ _ hrest₂ => ?_
    exact .expect hrest₂ fun rest₃ _ hrest₃ => .ok hrest₃ hname
  · exact .error
termination_by 12 * ts.length + 1
decreasing_by all_goals simp only [length_cons] at *; omega

end

/-! ## Statements -/

/-- A statement that was read: it is made from tokens, its nodes have the numbers from `next` up to
the one that comes back, and what follows does not belong to it. -/
structure StmtRead (P : Token → Prop) (next : NodeId) (r : Stmt × NodeId) (rest : Tokens) : Prop where
  spelled : r.1.Spelled P
  counts : Counts next r.1.nodeIds r.2
  ends : r.1.endsOpen = true → ∀ t ∈ rest.head?, t.token ≠ .keyword .elseKw

structure StmtsRead (P : Token → Prop) (next : NodeId) (r : List Stmt × NodeId) : Prop where
  spelled : stmtsSpelled P r.1
  counts : Counts next (stmtsNodeIds r.1) r.2

mutual

theorem gives_statement {ts : Tokens} {next : NodeId} (hts : AllTokens P ts) :
    Gives P (StmtRead P next) (statement next ts) := by
  obtain ⟨n, hn⟩ : ∃ n, ts.length = n := ⟨_, rfl⟩
  unfold statement
  split
  · refine .bind (gives_statementsUntil hts.tail) fun r rest _ hrest hr => ?_
    exact .ok hrest ⟨hr.spelled, hr.counts, nofun⟩
  · refine .expect hts.tail fun rest₁ h₁ hrest₁ => ?_
    refine .bind (gives_expression hrest₁) fun condition rest₂ h₂ hrest₂ hcond => ?_
    refine .expect hrest₂ fun rest₃ h₃ hrest₃ => ?_
    refine .bind (gives_statement hrest₃) ?_
    rintro ⟨thenBranch, next₁⟩ rest₄ h₄ hrest₄ hthen
    dsimp only
    split
    · next rest₅ h₄ =>
      have h₅ : rest₅.length < _ := Nat.lt_of_succ_lt h₄
      refine .bind (gives_statement hrest₄.tail) fun r rest₆ _ hrest₆ helse => ?_
      have hopen : thenBranch.endsOpen = false :=
        Bool.not_eq_true _ ▸ fun hopen => hthen.ends hopen _ rfl rfl
      exact .ok hrest₆ ⟨⟨hcond, hthen.spelled, hopen, helse.spelled⟩,
        (hthen.counts.append helse.counts).cons, helse.ends⟩
    · next hnot =>
      refine .ok hrest₄ ⟨⟨hcond, hthen.spelled⟩, hthen.counts.cons, ?_⟩
      rintro - ⟨token, start, stop⟩ ht htoken
      cases rest₄ with
      | nil => cases ht
      | cons t rest₅ =>
        cases ht
        cases htoken
        exact hnot _ _ _ _ rfl HEq.rfl
  · refine .expect hts.tail fun rest₁ h₁ hrest₁ => ?_
    refine .bind (gives_expression hrest₁) fun condition rest₂ h₂ hrest₂ hcond => ?_
    refine .expect hrest₂ fun rest₃ h₃ hrest₃ => ?_
    refine .bind (gives_statement hrest₃) fun r rest₄ _ hrest₄ hbody => ?_
    exact .ok hrest₄ ⟨⟨hcond, hbody.spelled⟩, hbody.counts.cons, hbody.ends⟩
  · refine .expect hts.tail fun rest₁ _ hrest₁ => ?_
    refine .bind (gives_expression hrest₁) fun value rest₂ _ hrest₂ hvalue => ?_
    refine .expect hrest₂ fun rest₃ _ hrest₃ => ?_
    exact .expect hrest₃ fun rest₄ _ hrest₄ => .ok hrest₄ ⟨hvalue, .nil next, nofun⟩
  · refine .bind (gives_expression hts) fun value rest₁ _ hrest₁ hvalue => ?_
    exact .expect hrest₁ fun rest₂ _ hrest₂ => .ok hrest₂ ⟨hvalue, .nil next, nofun⟩
termination_by 2 * ts.length
decreasing_by all_goals simp only [length_cons] at *; omega

theorem gives_statementsUntil {ts : Tokens} {stop : Token} {missing : Expectation} {next : NodeId}
    (hts : AllTokens P ts) :
    Gives P (fun r _ => StmtsRead P next r) (statementsUntil stop missing next ts) := by
  obtain ⟨n, hn⟩ : ∃ n, ts.length = n := ⟨_, rfl⟩
  unfold statementsUntil
  split
  · exact .error
  · split
    · exact .ok hts.tail ⟨trivial, .nil next⟩
    · refine .bind (gives_statement hts) fun r rest h hrest hr => ?_
      refine .bind (gives_statementsUntil hrest) fun rs rest' _ hrest' hrs => ?_
      exact .ok hrest' ⟨⟨hr.spelled, hrs.spelled⟩, hr.counts.append hrs.counts⟩
termination_by 2 * ts.length + 1
decreasing_by all_goals omega

end

/-! ## Declarations -/

theorem gives_varDecl (hts : AllTokens P ts) : Gives P (fun d _ => d.Spelled P) (varDecl ts) := by
  unfold varDecl
  refine .bind (gives_typeName hts) fun type rest₁ _ hrest₁ htype => ?_
  refine .bind (gives_identifier hrest₁) fun name rest₂ _ hrest₂ hname => ?_
  exact .expect hrest₂ fun rest₃ _ hrest₃ => .ok hrest₃ ⟨htype, hname⟩

theorem gives_varDecls {ts : Tokens} {more : Tokens → Bool} (hts : AllTokens P ts) :
    Gives P (fun ds _ => ∀ d ∈ ds, d.Spelled P) (varDecls more ts) := by
  unfold varDecls
  split
  · refine .bind (gives_varDecl hts) fun decl rest h hrest hd => ?_
    refine .bind (gives_varDecls hrest) fun decls rest' _ hrest' hds => ?_
    exact .ok hrest' (forall_mem_cons.2 ⟨hd, hds⟩)
  · exact .ok hts (forall_mem_nil _)
termination_by ts.length

theorem gives_moreParams {ts : Tokens} (hts : AllTokens P ts) :
    Gives P (fun ds _ => ∀ d ∈ ds, d.Spelled P) (moreParams ts) := by
  obtain ⟨n, hn⟩ : ∃ n, ts.length = n := ⟨_, rfl⟩
  unfold moreParams
  split
  · refine .bind (gives_typeName hts.tail) fun type rest₁ h₁ hrest₁ htype => ?_
    refine .bind (gives_identifier hrest₁) fun name rest₂ h₂ hrest₂ hname => ?_
    refine .bind (gives_moreParams hrest₂) fun decls rest₃ _ hrest₃ hds => ?_
    exact .ok hrest₃ (forall_mem_cons.2 ⟨⟨htype, hname⟩, hds⟩)
  · exact .expect hts fun rest _ hrest => .ok hrest (forall_mem_nil _)
termination_by ts.length
decreasing_by simp only [length_cons] at *; omega

theorem gives_params (hts : AllTokens P ts) :
    Gives P (fun ds _ => ∀ d ∈ ds, d.Spelled P) (params ts) := by
  unfold params
  split
  · exact .ok hts.tail (forall_mem_nil _)
  · refine .bind (gives_typeName hts) fun type rest₁ _ hrest₁ htype => ?_
    refine .bind (gives_identifier hrest₁) fun name rest₂ _ hrest₂ hname => ?_
    refine .bind (gives_moreParams hrest₂) fun decls rest₃ _ hrest₃ hds => ?_
    exact .ok hrest₃ (forall_mem_cons.2 ⟨⟨htype, hname⟩, hds⟩)

theorem gives_parentName (hts : AllTokens P ts) :
    Gives P (fun parent? _ => ∀ name, parent? = some name → P (.ident name)) (parentName ts) := by
  unfold parentName
  split
  · refine .bind (gives_identifier hts.tail) fun name rest _ hrest hname => .ok hrest ?_
    rintro _ ⟨⟩
    exact hname
  · exact .ok hts nofun

theorem gives_methodDecl {next : NodeId} (hts : AllTokens P ts) : Gives P
    (fun r _ => r.1.Spelled P ∧ Counts next (stmtsNodeIds r.1.body) r.2) (methodDecl next ts) := by
  unfold methodDecl
  refine .expect hts fun rest₁ _ h₁ => ?_
  refine .bind (gives_typeName h₁) fun returnType rest₂ _ h₂ htype => ?_
  refine .bind (gives_identifier h₂) fun name rest₃ _ h₃ hname => ?_
  refine .expect h₃ fun rest₄ _ h₄ => ?_
  refine .bind (gives_params h₄) fun params rest₅ _ h₅ hparams => ?_
  refine .expect h₅ fun rest₆ _ h₆ => ?_
  refine .bind (gives_varDecls h₆) fun locals rest₇ _ h₇ hlocals => ?_
  refine .bind (gives_statementsUntil h₇) fun body rest₈ _ h₈ hbody => ?_
  refine .bind (gives_expression h₈) fun result rest₉ _ h₉ hresult => ?_
  refine .expect h₉ fun rest₁₀ _ h₁₀ => ?_
  refine .expect h₁₀ fun rest₁₁ _ h₁₁ => ?_
  exact .ok h₁₁ ⟨⟨htype, hname, hparams, hlocals, hbody.spelled, hresult⟩, hbody.counts⟩

theorem gives_methodDecls {ts : Tokens} {next : NodeId} (hts : AllTokens P ts) : Gives P (fun r _ =>
    (∀ m ∈ r.1, m.Spelled P) ∧ Counts next (r.1.flatMap fun m => stmtsNodeIds m.body) r.2)
    (methodDecls next ts) := by
  obtain ⟨n, hn⟩ : ∃ n, ts.length = n := ⟨_, rfl⟩
  unfold methodDecls
  split
  · exact .ok hts.tail ⟨forall_mem_nil _, .nil next⟩
  · refine .bind (gives_methodDecl hts) fun m rest h hrest hm => ?_
    refine .bind (gives_methodDecls hrest) fun ms rest' _ hrest' hms => ?_
    exact .ok hrest' ⟨forall_mem_cons.2 ⟨hm.1, hms.1⟩, hm.2.append hms.2⟩
termination_by ts.length
decreasing_by omega

theorem gives_classDecl {next : NodeId} (hts : AllTokens P ts) :
    Gives P (fun r _ => r.1.Spelled P ∧ Counts next r.1.nodeIds r.2) (classDecl next ts) := by
  unfold classDecl
  refine .expect hts fun rest₁ _ h₁ => ?_
  refine .bind (gives_identifier h₁) fun name rest₂ _ h₂ hname => ?_
  refine .bind (gives_parentName h₂) fun parent? rest₃ _ h₃ hparent => ?_
  refine .expect h₃ fun rest₄ _ h₄ => ?_
  refine .bind (gives_varDecls h₄) fun fields rest₅ _ h₅ hfields => ?_
  refine .bind (gives_methodDecls h₅) fun methods rest₆ _ h₆ hmethods => ?_
  exact .ok h₆ ⟨⟨hname, hparent, hfields, hmethods.1⟩, hmethods.2⟩

theorem read_classDecls {ts : Tokens} {next : NodeId} {decls : List ClassDecl} (hts : AllTokens P ts)
    (h : classDecls next ts = .ok decls) :
    (∀ c ∈ decls, c.Spelled P) ∧ ∃ next', Counts next (decls.flatMap (·.nodeIds)) next' := by
  obtain ⟨n, hn⟩ : ∃ n, ts.length = n := ⟨_, rfl⟩
  unfold classDecls at h
  split at h
  · cases h
    exact ⟨forall_mem_nil _, next, .nil next⟩
  · obtain ⟨⟨⟨decl, next₁⟩, rest₁, h₁⟩, hdecl, h⟩ := except_bind_eq_ok.1 h
    obtain ⟨decls', hdecls, h⟩ := except_bind_eq_ok.1 h
    cases h
    obtain ⟨hrest₁, hdecl, hids⟩ := gives_classDecl hts _ hdecl
    obtain ⟨hdecls, next', hids'⟩ := read_classDecls hrest₁ hdecls
    exact ⟨forall_mem_cons.2 ⟨hdecl, hdecls⟩, next', hids.append hids'⟩
termination_by ts.length
decreasing_by omega

theorem StmtsRead.mainBody {next : NodeId} {r : List Stmt × NodeId} (h : StmtsRead P next r) :
    (mainBody r.1).Spelled P ∧ Counts next (mainBody r.1).nodeIds r.2 := by
  obtain ⟨hspelled, hcounts⟩ := h
  unfold Ast.mainBody
  split
  · next heq =>
    rw [heq] at hspelled hcounts
    exact ⟨hspelled.1, by simpa [stmtsNodeIds] using hcounts⟩
  · exact ⟨hspelled, hcounts⟩

theorem gives_mainClass (hts : AllTokens P ts) : Gives P (fun r _ => P (.ident r.1.name) ∧
    r.1.body.Spelled P ∧ Counts 0 r.1.body.nodeIds r.2) (mainClass ts) := by
  unfold mainClass
  refine .expect hts fun rest₁ _ h₁ => ?_
  refine .bind (gives_identifier h₁) fun name rest₂ _ h₂ hname => ?_
  refine .expect h₂ fun rest₃ _ h₃ => .expect h₃ fun rest₄ _ h₄ => ?_
  refine .expect h₄ fun rest₅ _ h₅ => .expect h₅ fun rest₆ _ h₆ => ?_
  refine .expectWord h₆ fun rest₇ _ h₇ => .expect h₇ fun rest₈ _ h₈ => ?_
  refine .expectWord h₈ fun rest₉ _ h₉ => .expect h₉ fun rest₁₀ _ h₁₀ => ?_
  refine .expect h₁₀ fun rest₁₁ _ h₁₁ => ?_
  refine .bind (gives_identifier h₁₁) fun _ rest₁₂ _ h₁₂ _ => ?_
  refine .expect h₁₂ fun rest₁₃ _ h₁₃ => .expect h₁₃ fun rest₁₄ _ h₁₄ => ?_
  refine .bind (gives_statementsUntil h₁₄) fun stmts rest₁₅ _ h₁₅ hstmts => ?_
  exact .expect h₁₅ fun rest₁₆ _ h₁₆ => .ok h₁₆ ⟨hname, hstmts.mainBody⟩

/-- **A program is made from its tokens, and its nodes are numbered one after the other.** -/
theorem read_program {p : Program} (hts : AllTokens P ts) (h : program ts = .ok p) :
    p.Spelled P ∧ ∃ next, Counts 0 p.nodeIds next := by
  unfold program at h
  obtain ⟨⟨⟨main, next⟩, rest, _⟩, hmain, h⟩ := except_bind_eq_ok.1 h
  obtain ⟨classes, hclasses, ⟨⟩⟩ := except_bind_eq_ok.1 h
  obtain ⟨hrest, hname, hbody, hids⟩ := gives_mainClass hts _ hmain
  obtain ⟨hclasses, next', hids'⟩ := read_classDecls hrest hclasses
  exact ⟨⟨hname, hbody, hclasses⟩, next', hids.append hids'⟩

theorem counts_program {tokens : Tokens} {ast : Program} (h : program tokens = .ok ast) :
    ∃ next, Counts 0 ast.nodeIds next :=
  (read_program (P := fun _ => True) (fun _ _ => trivial) h).2

end Ast

theorem parse_eq_ok_iff : parse source = .ok ast ↔
    ∃ tokens, tokenize source = .ok tokens ∧ Ast.program tokens = .ok ast := by
  simp only [parse, parseTokens, except_bind_eq_ok, mapError_eq_ok]

/-- **A parsed program is made from the tokens of its text.** -/
theorem spelled_of_parse (h : parse source = .ok ast) : ast.Spelled Token.Lexical := by
  obtain ⟨tokens, htokens, h⟩ := parse_eq_ok_iff.1 h
  exact (Ast.read_program (fun _ => lexical_of_tokenize htokens) h).1

/-! ## Names in declarations -/

namespace Ast

structure MethodDecl.NamedBy (P : String → Prop) (m : MethodDecl) : Prop where
  name : P m.name
  locals : ∀ d ∈ m.locals, d.type.NamedBy P

/-- The names of a class, of its methods and of the types of its fields and locals. -/
structure ClassDecl.NamedBy (P : String → Prop) (c : ClassDecl) : Prop where
  name : P c.name
  fields : ∀ d ∈ c.fields, d.type.NamedBy P
  methods : ∀ m ∈ c.methods, m.NamedBy P

end Ast

theorem namedBy_of_parse (h : parse source = .ok ast) :
    ∀ c ∈ ast.classes, c.NamedBy IsIdentifier := by
  intro c hc
  have hspelled := (spelled_of_parse h).classes c hc
  refine ⟨hspelled.name, fun d hd => (hspelled.fields d hd).type, fun m hm => ?_⟩
  have hm := hspelled.methods m hm
  exact ⟨hm.name, fun d hd => (hm.locals d hd).type⟩

theorem isWord_of_parse (h : parse source = .ok ast) :
    ∀ c ∈ ast.classes, IsWord c.name ∧ ∀ m ∈ c.methods, IsWord m.name := fun c hc =>
  have hnamed := namedBy_of_parse h c hc
  ⟨hnamed.name.isWord, fun m hm => (hnamed.methods m hm).name.isWord⟩

end MiniJava
