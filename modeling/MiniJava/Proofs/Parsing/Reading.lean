import MiniJava.Proofs.Parsing.Printer

/-!
# Reading what was written: expressions

The tokens of an expression are read back as this expression, whatever follows that cannot go on in it.
Expressions group to the left, so the reader of a level takes up an operand before it knows where the
operand belongs. For this reason what is proved about a place is what happens after its operand: if the
rest is read as something, then so is the operand with the rest.
-/

namespace MiniJava.Ast

open List

variable {t : Token} {sym : Symbol} {p : Place} {P : Token → Prop}

/-! ## Readings -/

def Reads {α : Type} {q : Tokens → Prop} (r : Except Failure (α × { rest : Tokens // q rest }))
    (a : α) (rest : Tokens) : Prop := ∃ h, r = .ok (a, ⟨rest, h⟩)

namespace Reads

variable {α β : Type} {q q' : Tokens → Prop} {a : α} {b : β} {mid rest : Tokens}

theorem pure {h : q rest} : Reads (.ok (a, (⟨rest, h⟩ : { rest // q rest }))) a rest := ⟨h, rfl⟩

theorem bind {r : Except Failure (α × { rest : Tokens // q rest })}
    {f : α × { rest : Tokens // q rest } → Except Failure (β × { rest : Tokens // q' rest })}
    (h : Reads r a mid) (hf : ∀ hmid, Reads (f (a, ⟨mid, hmid⟩)) b rest) : Reads (r >>= f) b rest := by
  obtain ⟨hmid, rfl⟩ := h
  exact hf hmid

theorem expect {i j : Nat}
    {f : Rest (⟨t, i, j⟩ :: mid) → Except Failure (β × { rest : Tokens // q' rest })}
    (hf : ∀ hmid, Reads (f ⟨mid, hmid⟩) b rest) :
    Reads (Ast.expect t (⟨t, i, j⟩ :: mid) >>= f) b rest := by
  rw [Ast.expect, if_pos rfl]
  exact hf _

theorem expectWord {w : String} {i j : Nat}
    {f : Rest (⟨.ident w, i, j⟩ :: mid) → Except Failure (β × { rest : Tokens // q' rest })}
    (hf : ∀ hmid, Reads (f ⟨mid, hmid⟩) b rest) :
    Reads (Ast.expectWord w (⟨.ident w, i, j⟩ :: mid) >>= f) b rest := by
  rw [Ast.expectWord, if_pos rfl]
  exact hf _

theorem identifier {name : String} {i j : Nat} :
    Reads (Ast.identifier (⟨.ident name, i, j⟩ :: rest)) name rest := ⟨Nat.lt_succ_self _, rfl⟩

theorem unique {r : Except Failure (α × { rest : Tokens // q rest })} {a' : α} (h : Reads r a mid)
    (h' : Reads r a' rest) : a = a' ∧ mid = rest := by
  obtain ⟨_, rfl⟩ := h
  obtain ⟨_, h'⟩ := h'
  cases h'
  exact ⟨rfl, rfl⟩

end Reads

def Begins : List Token → Tokens → Tokens → Prop
  | [], ts, rest => ts = rest
  | t :: toks, ts, rest => ∃ start stop ts', ts = ⟨t, start, stop⟩ :: ts' ∧ Begins toks ts' rest

theorem begins_append {toks toks' : List Token} {ts rest : Tokens} :
    Begins (toks ++ toks') ts rest ↔ ∃ mid, Begins toks ts mid ∧ Begins toks' mid rest := by
  induction toks generalizing ts with
  | nil => simp [Begins]
  | cons t toks ih =>
    simp only [cons_append, Begins, ih]
    constructor
    · rintro ⟨i, j, ts', rfl, mid, h, h'⟩
      exact ⟨mid, ⟨i, j, ts', rfl, h⟩, h'⟩
    · rintro ⟨mid, ⟨i, j, ts', rfl, h⟩, h'⟩
      exact ⟨i, j, ts', rfl, mid, h, h'⟩

theorem begins_of_map_eq {toks : List Token} {ts : Tokens} (h : ts.map (·.token) = toks) :
    Begins toks ts [] := by
  subst h
  induction ts with
  | nil => rfl
  | cons t ts ih => exact ⟨t.start, t.stop, ts, rfl, ih⟩

def next? (ts : Tokens) : Option Token := ts.head?.map (·.token)

theorem next?_of_begins {toks : List Token} {ts rest : Tokens} (h : Begins (t :: toks) ts rest) :
    next? ts = some t := by
  obtain ⟨_, _, _, rfl, _⟩ := h
  rfl

/-! ## What each reader does -/

section Rules

variable {ts mid rest : Tokens} {e e' target : Expr} {l i j i' j' i₁ j₁ i₂ j₂ : Nat} {name : String}
  {args : List Expr}

/-- What follows goes on neither in an operand of a level from `l` on nor in what it selects from. -/
def Ends (l : Nat) (ts : Tokens) : Prop := ∀ s, next? ts = some (.symbol s) →
  s ∉ [.lbracket, .dot, .lparen] ∧ ∀ op, binOp? s = some op → level op < l

theorem Ends.mono {l' : Nat} (h : Ends l ts) (hl : l ≤ l') : Ends l' ts := fun s hs =>
  ⟨(h s hs).1, fun op hop => Nat.lt_of_lt_of_le ((h s hs).2 op hop) hl⟩

theorem ends_cons (hsym : sym ∉ [.lbracket, .dot, .lparen])
    (hop : ∀ op, binOp? sym = some op → level op < l) : Ends l (⟨.symbol sym, i, j⟩ :: rest) := by
  rintro _ ⟨⟩
  exact ⟨hsym, hop⟩

theorem Reads.expression (h : Reads (binary 0 ts) e rest)
    (hrest : next? rest ≠ some (.symbol .assign)) : Reads (expression ts) e rest := by
  rw [Ast.expression]
  refine h.bind fun _ => ?_
  dsimp only
  split
  · exact absurd rfl hrest
  · exact .pure

theorem Reads.assign (h : Reads (binary 0 ts) target (⟨.symbol .assign, i, j⟩ :: mid))
    (ht : target.isAssignable = true) (hv : Reads (Ast.expression mid) e rest) :
    Reads (Ast.expression ts) (.assign target e) rest := by
  rw [Ast.expression]
  refine h.bind fun _ => ?_
  dsimp only
  rw [if_pos ht]
  exact hv.bind fun _ => .pure

theorem Reads.binary (hl : l < levels) (h : Reads (binary (l + 1) ts) e' mid)
    (h' : Reads (operands l e' mid) e rest) : Reads (Ast.binary l ts) e rest := by
  rw [Ast.binary, if_pos hl]
  exact h.bind fun _ => h'.bind fun _ => .pure

theorem reads_tightest : Reads (Ast.binary levels ts) e rest ↔ Reads (unary ts) e rest := by
  rw [Ast.binary, if_neg (Nat.lt_irrefl _)]

theorem Ends.operands (h : Ends l rest) (e : Expr) : Reads (operands l e rest) e rest := by
  unfold Ast.operands
  split
  · next s start stop rest =>
    have hnone : binOpAt? l s = none := by
      rw [binOpAt?, Option.filter_eq_none_iff]
      intro op hop
      have := (h s rfl).2 op hop
      simp only [beq_iff_eq]
      omega
    rw [hnone]
    exact .pure
  · exact .pure

theorem Reads.operand {op : BinOp} (h : Reads (Ast.binary (level op + 1) ts) e' mid)
    (h' : Reads (Ast.operands (level op) (.binary op target e') mid) e rest) :
    Reads (Ast.operands (level op) target (⟨.symbol (symbolOf op), i, j⟩ :: ts)) e rest := by
  have hop : binOpAt? (level op) (symbolOf op) = some op := by simp [binOpAt?]
  rw [Ast.operands]
  dsimp only
  rw [hop]
  exact h.bind fun _ => h'.bind fun _ => .pure

theorem Reads.not (h : Reads (unary ts) e rest) :
    Reads (unary (⟨.symbol .bang, i, j⟩ :: ts)) (.not e) rest := by
  rw [Ast.unary]
  exact h.bind fun _ => .pure

theorem Reads.unary (h : Reads (primary ts) target mid) (h' : Reads (selectors target mid) e rest) :
    Reads (Ast.unary ts) e rest := by
  unfold Ast.unary
  split
  · unfold Ast.primary at h
    cases h.2
  · unfold Ast.primary at h
    cases h.2
  · exact h.bind fun _ => h'.bind fun _ => .pure

theorem Ends.selectors (h : Ends l rest) (target : Expr) : Reads (selectors target rest) target rest := by
  unfold Ast.selectors
  split
  · exact absurd (by simp) (h _ rfl).1
  · exact absurd (by simp) (h _ rfl).1
  · exact .pure

theorem Reads.index (h : Reads (Ast.expression ts) e' (⟨.symbol .rbracket, i', j'⟩ :: mid))
    (h' : Reads (selectors (.index target e') mid) e rest) :
    Reads (selectors target (⟨.symbol .lbracket, i, j⟩ :: ts)) e rest := by
  rw [Ast.selectors]
  exact h.bind fun _ => .expect fun _ => h'.bind fun _ => .pure

theorem Reads.member (hts : next? ts ≠ some (.symbol .lparen))
    (h : Reads (selectors (.member target name) ts) e rest) :
    Reads (selectors target (⟨.symbol .dot, i, j⟩ :: ⟨.ident name, i', j'⟩ :: ts)) e rest := by
  rw [Ast.selectors]
  refine Reads.identifier.bind fun _ => ?_
  dsimp only
  split
  · exact absurd rfl hts
  · exact h.bind fun _ => .pure

theorem Reads.call (h : Reads (arguments ts) args mid)
    (h' : Reads (selectors (.call target name args) mid) e rest) :
    Reads (selectors target
      (⟨.symbol .dot, i, j⟩ :: ⟨.ident name, i', j'⟩ :: ⟨.symbol .lparen, i₁, j₁⟩ :: ts)) e rest := by
  rw [Ast.selectors]
  exact Reads.identifier.bind fun _ => h.bind fun _ => h'.bind fun _ => .pure

theorem Reads.noArguments : Reads (arguments (⟨.symbol .rparen, i, j⟩ :: rest)) [] rest := by
  rw [Ast.arguments]
  exact .pure

theorem Reads.arguments (hts : next? ts ≠ some (.symbol .rparen))
    (h : Reads (Ast.expression ts) e mid) (h' : Reads (moreArguments mid) args rest) :
    Reads (Ast.arguments ts) (e :: args) rest := by
  unfold Ast.arguments
  split
  · exact absurd rfl hts
  · exact h.bind fun _ => h'.bind fun _ => .pure

theorem Reads.noMoreArguments :
    Reads (moreArguments (⟨.symbol .rparen, i, j⟩ :: rest)) [] rest := by
  unfold Ast.moreArguments
  exact .expect fun _ => .pure

theorem Reads.moreArguments (h : Reads (Ast.expression ts) e mid)
    (h' : Reads (moreArguments mid) args rest) :
    Reads (Ast.moreArguments (⟨.symbol .comma, i, j⟩ :: ts)) (e :: args) rest := by
  rw [Ast.moreArguments]
  exact h.bind fun _ => h'.bind fun _ => .pure

theorem Reads.parens (h : Reads (Ast.expression ts) e (⟨.symbol .rparen, i', j'⟩ :: rest)) :
    Reads (primary (⟨.symbol .lparen, i, j⟩ :: ts)) e rest := by
  rw [Ast.primary]
  exact h.bind fun _ => .expect fun _ => .pure

theorem Reads.newObject : Reads (primary (⟨.keyword .newKw, i, j⟩ :: ⟨.ident name, i', j'⟩ ::
    ⟨.symbol .lparen, i₁, j₁⟩ :: ⟨.symbol .rparen, i₂, j₂⟩ :: rest)) (.newObject name) rest := by
  rw [Ast.primary]
  · exact Reads.identifier.bind fun _ => .expect fun _ => .expect fun _ => .pure
  · rintro _ _ _ ⟨⟩

theorem Reads.newIntArray (h : Reads (Ast.expression ts) e (⟨.symbol .rbracket, i₂, j₂⟩ :: rest)) :
    Reads (primary (⟨.keyword .newKw, i, j⟩ :: ⟨.keyword .intKw, i', j'⟩ ::
      ⟨.symbol .lbracket, i₁, j₁⟩ :: ts)) (.newIntArray e) rest := by
  rw [Ast.primary]
  exact .expect fun _ => h.bind fun _ => .expect fun _ => .pure

end Rules

def leaf? : Token → Option Expr
  | .number value => some (.intLit value)
  | .keyword .trueKw => some (.boolLit true)
  | .keyword .falseKw => some (.boolLit false)
  | .keyword .thisKw => some .this
  | .ident name => some (.var name)
  | _ => none

theorem Reads.leaf {e : Expr} {i j : Nat} {rest : Tokens} (h : leaf? t = some e) :
    Reads (primary (⟨t, i, j⟩ :: rest)) e rest := by
  unfold primary
  cases t with
  | number _ | ident _ =>
    cases h
    exact .pure
  | symbol _ => cases h
  | keyword k =>
    cases k with
    | trueKw | falseKw | thisKw =>
      cases h
      exact .pure
    | _ => cases h

/-! ## Places -/

def ReadsIn : Place → List Token → Expr → Prop
  | .whole, toks, e => ∀ ts rest, Begins toks ts rest → Ends 0 rest →
    next? rest ≠ some (.symbol .assign) → Reads (expression ts) e rest
  | .operand l, toks, e => ∀ ts mid x rest, Begins toks ts mid → Ends (l + 1) mid →
    Reads (operands l e mid) x rest → Reads (binary l ts) x rest
  | .target, toks, e => ∀ ts mid x rest, Begins toks ts mid → next? mid ≠ some (.symbol .lparen) →
    Reads (selectors e mid) x rest → Reads (unary ts) x rest

theorem Expr.place_le_levels {e : Expr} {l : Nat} (h : e.place = .operand l) : l ≤ levels := by
  cases e with
  | binary op left right =>
    cases h
    exact Nat.le_of_lt (level_lt_levels op)
  | not operand =>
    cases h
    exact Nat.le_refl _
  | _ => cases h

namespace ReadsIn

variable {toks : List Token} {e : Expr} {l l' : Nat} {ts rest : Tokens}

theorem binary (h : ReadsIn (.operand l) toks e) (hts : Begins toks ts rest) (hends : Ends l rest) :
    Reads (Ast.binary l ts) e rest :=
  h ts rest e rest hts (hends.mono (Nat.le_succ l)) (hends.operands e)

theorem operand_of_target (h : ReadsIn .target toks e) : ReadsIn (.operand levels) toks e := by
  intro ts mid x rest hts hends hx
  have hends : Ends levels mid := fun s hs => ⟨(hends s hs).1, fun op _ => level_lt_levels op⟩
  obtain ⟨rfl, rfl⟩ := (hends.operands e).unique hx
  have hparen : next? mid ≠ some (.symbol .lparen) := fun hs => (hends _ hs).1 (by simp)
  exact reads_tightest.2 (h ts mid e mid hts hparen (hends.selectors e))

theorem operand_of_succ (h : ReadsIn (.operand (l + 1)) toks e) (hl : l < levels) :
    ReadsIn (.operand l) toks e := by
  intro ts mid x rest hts hends hx
  exact .binary hl (h.binary hts hends) hx

theorem operand_of_le (h : ReadsIn (.operand l) toks e) (hle : l' ≤ l) (hl : l ≤ levels) :
    ReadsIn (.operand l') toks e := by
  induction hle with
  | refl => exact h
  | step hle ih => exact ih (h.operand_of_succ hl) (Nat.le_of_lt hl)

theorem whole_of_operand (h : ReadsIn (.operand l) toks e) (hl : l ≤ levels) :
    ReadsIn .whole toks e := by
  intro ts rest hts hends hrest
  exact ((h.operand_of_le (Nat.zero_le l) hl).binary hts hends).expression hrest

theorem of_binding_le {p' : Place} (h : ReadsIn p toks e) (hle : p'.binding ≤ p.binding)
    (hp : ∀ l, p = .operand l → l ≤ levels) (hp' : ∀ l, p' = .operand l → l ≤ levels) :
    ReadsIn p' toks e := by
  cases p with
  | whole =>
    cases p' with
    | whole => exact h
    | operand l => exact absurd hle (by simp [Place.binding])
    | target => exact absurd hle (by simp [Place.binding])
  | operand l =>
    have hl := hp l rfl
    cases p' with
    | whole => exact h.whole_of_operand hl
    | operand l' => exact h.operand_of_le (Nat.le_of_succ_le_succ hle) hl
    | target => exact absurd (Nat.le_of_succ_le_succ hle) (Nat.not_le_of_lt (Nat.lt_succ_of_le hl))
  | target =>
    cases p' with
    | whole => exact h.operand_of_target.whole_of_operand (Nat.le_refl _)
    | operand l' => exact h.operand_of_target.operand_of_le (hp' l' rfl) (Nat.le_refl _)
    | target => exact h

theorem expression {i j : Nat} (h : ReadsIn .whole toks e)
    (hts : Begins toks ts (⟨.symbol sym, i, j⟩ :: rest))
    (hsym : sym ∈ [.rparen, .rbracket, .semicolon, .comma]) :
    Reads (Ast.expression ts) e (⟨.symbol sym, i, j⟩ :: rest) := by
  have hcloses : ∀ sym ∈ [Symbol.rparen, .rbracket, .semicolon, .comma],
      sym ∉ [Symbol.lbracket, .dot, .lparen] ∧ binOp? sym = none ∧ sym ≠ .assign := by decide
  obtain ⟨hselector, hnone, hassign⟩ := hcloses sym hsym
  refine h ts _ hts (ends_cons hselector fun op hop => ?_) ?_
  · rw [hnone] at hop
    cases hop
  · simpa [next?] using hassign

theorem parens (h : ReadsIn .whole toks e) :
    ReadsIn .target (.symbol .lparen :: toks ++ [.symbol .rparen]) e := by
  intro ts mid x rest hts _ hx
  obtain ⟨_, ⟨_, _, ts, rfl, htoks⟩, _, _, _, rfl, rfl⟩ := begins_append.1 hts
  exact .unary (.parens (h.expression htoks (by simp))) hx

theorem whole (h : ReadsIn e.place toks e) : ReadsIn .whole toks e :=
  h.of_binding_le (Nat.zero_le _) (fun _ => Expr.place_le_levels) (fun _ hl => nomatch hl)

theorem enclose (h : ReadsIn e.place e.tokens e) (p : Place)
    (hp : ∀ l, p = .operand l → l ≤ levels) : ReadsIn p (e.enclose p e.tokens) e := by
  rw [Expr.enclose]
  split
  · refine h.whole.parens.of_binding_le ?_ (fun _ hl => by cases hl) hp
    cases p with
    | whole => exact Nat.zero_le _
    | operand l => exact Nat.succ_le_succ (Nat.le_succ_of_le (hp l rfl))
    | target => exact Nat.le_refl _
  · next hle => exact h.of_binding_le (Nat.le_of_not_lt hle) (fun _ => Expr.place_le_levels) hp

end ReadsIn

/-! ## First tokens -/

def startsExpr : Token → Bool
  | .number _ | .ident _ => true
  | .keyword k => k = .trueKw || k = .falseKw || k = .thisKw || k = .newKw
  | .symbol s => s = .lparen || s = .bang

def isIdent : Token → Bool
  | .ident _ => true
  | _ => false

/-- Tokens that start like an expression: in particular no identifier follows an identifier. -/
def StartsExpr : List Token → Prop
  | [] => False
  | [t] => startsExpr t = true
  | t :: t' :: _ => startsExpr t = true ∧ (isIdent t = true → isIdent t' = false)

theorem StartsExpr.append_symbol {toks : List Token} (h : StartsExpr toks) (s : Symbol)
    (more : List Token) : StartsExpr (toks ++ .symbol s :: more) := by
  match toks, h with
  | [t], h => exact ⟨h, fun _ => rfl⟩
  | t :: t' :: toks, h => exact h

theorem startsExpr_cons (h : startsExpr t = true) (hident : isIdent t = false) (toks : List Token) :
    StartsExpr (t :: toks) := by
  cases toks with
  | nil => exact h
  | cons t' toks => exact ⟨h, fun ht => absurd (hident.symm.trans ht) Bool.false_ne_true⟩

theorem StartsExpr.enclose {e : Expr} {toks : List Token} (h : StartsExpr toks) :
    StartsExpr (e.enclose p toks) := by
  rw [Expr.enclose]
  split
  · exact startsExpr_cons rfl rfl _
  · exact h

theorem startsExpr_tokens : (e : Expr) → StartsExpr e.tokens
  | .assign target _ => by
    rw [Expr.tokens]
    exact (startsExpr_tokens target).append_symbol _ _
  | .binary _ left _ => by
    rw [Expr.tokens]
    exact (startsExpr_tokens left).enclose.append_symbol _ _
  | .index target _ => by
    rw [Expr.tokens, append_assoc]
    exact (startsExpr_tokens target).enclose.append_symbol _ _
  | .member target _ => by
    rw [Expr.tokens]
    exact (startsExpr_tokens target).enclose.append_symbol _ _
  | .call target _ _ => by
    rw [Expr.tokens, append_assoc]
    exact (startsExpr_tokens target).enclose.append_symbol _ _
  | .not _ | .newObject _ | .newIntArray _ => startsExpr_cons rfl rfl _
  | .this | .var _ | .intLit _ => rfl
  | .boolLit true | .boolLit false => rfl

theorem next?_of_startsExpr {toks : List Token} {ts rest : Tokens} (h : StartsExpr toks)
    (hts : Begins toks ts rest) : ∃ t, next? ts = some t ∧ startsExpr t = true := by
  match toks, h with
  | [t], h => exact ⟨t, next?_of_begins hts, h⟩
  | t :: t' :: toks, h => exact ⟨t, next?_of_begins hts, h.1⟩

/-! ## Expressions -/

theorem next_of_moreArgTokens {es : List Expr} {ts rest : Tokens}
    (h : Begins (moreArgTokens es ++ [.symbol .rparen]) ts rest) :
    ∃ sym i j ts', ts = ⟨.symbol sym, i, j⟩ :: ts' ∧
      sym ∈ [Symbol.rparen, .rbracket, .semicolon, .comma] := by
  cases es with
  | nil =>
    obtain ⟨i, j, ts', rfl, _⟩ := h
    exact ⟨_, i, j, ts', rfl, by decide⟩
  | cons e es =>
    rw [moreArgTokens, append_assoc, cons_append] at h
    obtain ⟨i, j, ts', rfl, _⟩ := h
    exact ⟨_, i, j, ts', rfl, by decide⟩

mutual

/-- **The tokens of an expression are read back** in its place. -/
theorem readsIn_tokens : (e : Expr) → e.Spelled P → ReadsIn e.place e.tokens e
  | .assign target value, h => by
    obtain ⟨hassign, ht, hv⟩ := h
    have hplace : target.place = .target := by
      cases target with
      | var _ | index _ _ | member _ _ => rfl
      | _ => cases hassign
    have ht := hplace ▸ readsIn_tokens target ht
    have hv := (readsIn_tokens value hv).whole
    intro ts rest hts hends hrest
    rw [Expr.tokens] at hts
    obtain ⟨_, htarget, _, _, mid, rfl, hvalue⟩ := begins_append.1 hts
    have hbinary := (ht.operand_of_target.operand_of_le (Nat.zero_le _) (Nat.le_refl _)).binary htarget
      (ends_cons (by decide) (by simp [binOp?]))
    exact hbinary.assign hassign (hv _ _ hvalue hends hrest)
  | .binary op left right, h => by
    have hl := (readsIn_tokens left h.1).enclose (.operand (level op)) fun _ hl => by
      cases hl
      exact Nat.le_of_lt (level_lt_levels op)
    have hr := (readsIn_tokens right h.2).enclose (.operand (level op + 1)) fun _ hl => by
      cases hl
      exact level_lt_levels op
    intro ts mid x rest hts hends hx
    rw [Expr.tokens] at hts
    obtain ⟨_, hleft, _, _, mid', rfl, hright⟩ := begins_append.1 hts
    -- The left operand is followed by an operator of its own level.
    refine hl ts _ x rest hleft (ends_cons (by cases op <;> decide) fun op' hop' => ?_)
      (.operand (hr.binary hright hends) hx)
    rw [binOp?_symbolOf, Option.some.injEq] at hop'
    rw [hop']
    exact Nat.lt_succ_self _
  | .not operand, h => by
    have ho := (readsIn_tokens operand h).enclose (.operand levels) fun _ hl => by
      cases hl
      exact Nat.le_refl _
    intro ts mid x rest hts hends hx
    rw [Expr.tokens] at hts
    obtain ⟨_, _, ts, rfl, hts⟩ := hts
    have hends : Ends levels mid := fun s hs => ⟨(hends s hs).1, fun op _ => level_lt_levels op⟩
    obtain ⟨rfl, rfl⟩ := (hends.operands _).unique hx
    exact reads_tightest.2 (.not (reads_tightest.1 (ho.binary hts hends)))
  | .index target index, h => by
    have ht := (readsIn_tokens target h.1).enclose .target (fun _ hl => nomatch hl)
    have hi := (readsIn_tokens index h.2).whole
    intro ts mid x rest hts _ hx
    rw [Expr.tokens] at hts
    obtain ⟨_, hopen, _, _, _, rfl, rfl⟩ := begins_append.1 hts
    obtain ⟨_, htarget, _, _, _, rfl, hindex⟩ := begins_append.1 hopen
    exact ht _ _ x rest htarget nofun (.index (hi.expression hindex (by simp)) hx)
  | .member target name, h => by
    have ht := (readsIn_tokens target h.1).enclose .target (fun _ hl => nomatch hl)
    intro ts mid x rest hts hparen hx
    rw [Expr.tokens] at hts
    obtain ⟨_, htarget, _, _, _, rfl, _, _, _, rfl, rfl⟩ := begins_append.1 hts
    exact ht _ _ x rest htarget nofun (.member hparen hx)
  | .call target method args, h => by
    have ht := (readsIn_tokens target h.1).enclose .target (fun _ hl => nomatch hl)
    intro ts mid x rest hts _ hx
    rw [Expr.tokens, append_assoc] at hts
    obtain ⟨_, htarget, _, _, _, rfl, _, _, _, rfl, _, _, _, rfl, hargs⟩ := begins_append.1 hts
    exact ht _ _ x rest htarget nofun (.call (reads_argTokens args h.2.2 hargs) hx)
  | .newObject name, _ => by
    intro ts mid x rest hts _ hx
    obtain ⟨_, _, _, rfl, _, _, _, rfl, _, _, _, rfl, _, _, _, rfl, rfl⟩ := hts
    exact .unary .newObject hx
  | .newIntArray size, h => by
    have hsize := (readsIn_tokens size h).whole
    intro ts mid x rest hts _ hx
    rw [Expr.tokens] at hts
    obtain ⟨_, ⟨_, _, _, rfl, _, _, _, rfl, _, _, _, rfl, htoks⟩, _, _, _, rfl, rfl⟩ :=
      begins_append.1 hts
    exact .unary (.newIntArray (hsize.expression htoks (by simp))) hx
  | .this, _ | .var _, _ | .intLit _, _ => by
    intro ts mid x rest hts _ hx
    obtain ⟨_, _, _, rfl, rfl⟩ := hts
    exact .unary (.leaf rfl) hx
  | .boolLit value, _ => by
    intro ts mid x rest hts _ hx
    obtain ⟨_, _, _, rfl, rfl⟩ := hts
    exact .unary (.leaf (by cases value <;> rfl)) hx

theorem reads_argTokens : (es : List Expr) → allSpelled P es →
    ∀ {ts rest}, Begins (argTokens es ++ [.symbol .rparen]) ts rest → Reads (arguments ts) es rest
  | [], _, ts, rest, hts => by
    obtain ⟨_, _, _, rfl, rfl⟩ := hts
    exact .noArguments
  | e :: es, h, ts, rest, hts => by
    rw [argTokens, append_assoc] at hts
    obtain ⟨mid, he, hmore⟩ := begins_append.1 hts
    obtain ⟨t, ht, hstarts⟩ := next?_of_startsExpr (startsExpr_tokens e) he
    obtain ⟨sym, _, _, mid, rfl, hsym⟩ := next_of_moreArgTokens hmore
    refine .arguments ?_ ((readsIn_tokens e h.1).whole.expression he hsym)
      (reads_moreArgTokens es h.2 hmore)
    rw [ht]
    rintro ⟨⟩
    exact absurd hstarts (by decide)

theorem reads_moreArgTokens : (es : List Expr) → allSpelled P es →
    ∀ {ts rest}, Begins (moreArgTokens es ++ [.symbol .rparen]) ts rest →
      Reads (moreArguments ts) es rest
  | [], _, ts, rest, hts => by
    obtain ⟨_, _, _, rfl, rfl⟩ := hts
    exact .noMoreArguments
  | e :: es, h, ts, rest, hts => by
    rw [moreArgTokens, append_assoc, cons_append] at hts
    obtain ⟨_, _, ts, rfl, hts⟩ := hts
    obtain ⟨mid, he, hmore⟩ := begins_append.1 hts
    obtain ⟨sym, _, _, mid, rfl, hsym⟩ := next_of_moreArgTokens hmore
    exact .moreArguments ((readsIn_tokens e h.1).whole.expression he hsym)
      (reads_moreArgTokens es h.2 hmore)

end

/-- **The tokens of an expression are read back** before a symbol that ends it. -/
theorem reads_expression {e : Expr} {i j : Nat} {ts rest : Tokens} (h : e.Spelled P)
    (hts : Begins e.tokens ts (⟨.symbol sym, i, j⟩ :: rest))
    (hsym : sym ∈ [.rparen, .rbracket, .semicolon, .comma]) :
    Reads (expression ts) e (⟨.symbol sym, i, j⟩ :: rest) :=
  (readsIn_tokens e h).whole.expression hts hsym

end MiniJava.Ast
