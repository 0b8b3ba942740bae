import Mathlib.Logic.Relation
import MiniJava.Proofs.Assembly.Provision

/-!
# Types of operands

Spilling redirects operands to loads. A load has the type of the variable that it reloads, and all
members of a variable have one type, so an operand refers to a statement of the same type before and
after. Emission chooses offsets of fields, slots of methods and the way to compare by the types of
operands. So it chooses as it would without spilling.
-/

namespace MiniJava

open Ssa Option

namespace Ssa

/-! ## Statements -/

/-- A statement and what became of it: both have the same type and, operand by operand, refer to
statements of the same type. Types of statements are `ty` before and `ty'` after. -/
structure Statement.TypesAgree (ty ty' : StmtId → Option TypeId) (s s' : Statement) : Prop where
  id : s'.id = s.id
  op : s'.op = s.op
  type? : s'.type? = s.type?
  name? : s'.name? = s.name?
  left? : s'.left?.map ty' = s.left?.map ty
  right? : s'.right?.map ty' = s.right?.map ty
  call? : s'.call?.map (fun c => (c.1, c.2.map ty')) = s.call?.map fun c => (c.1, c.2.map ty)
  index? : s'.index?.map ty' = s.index?.map ty

namespace Statement.TypesAgree

variable {ty ty' ty'' : StmtId → Option TypeId} {s s' s'' : Statement}

theorem trans (h : s.TypesAgree ty ty' s') (h' : s'.TypesAgree ty' ty'' s'') :
    s.TypesAgree ty ty'' s'' where
  id := h'.id.trans h.id
  op := h'.op.trans h.op
  type? := h'.type?.trans h.type?
  name? := h'.name?.trans h.name?
  left? := h'.left?.trans h.left?
  right? := h'.right?.trans h.right?
  call? := h'.call?.trans h.call?
  index? := h'.index?.trans h.index?

theorem of_placed (h : s.Placed s') : s.TypesAgree ty ty s' := by
  obtain ⟨_, _, rfl⟩ := h
  exact ⟨rfl, rfl, rfl, rfl, rfl, rfl, rfl, rfl⟩

theorem mapOperands {f : StmtId → StmtId} (hf : ∀ o ∈ s.operands, ty' (f o) = ty o) :
    s.TypesAgree ty ty' (s.mapOperands f) where
  id := rfl
  op := rfl
  type? := rfl
  name? := s.name?_mapOperands f
  left? := by
    rw [Statement.mapOperands, map_map]
    exact map_congr fun o ho => hf o (by simp [operands, mem_def.1 ho])
  right? := by
    rw [Statement.mapOperands, map_map]
    exact map_congr fun o ho => hf o (by simp [operands, mem_def.1 ho])
  call? := by
    rw [Statement.call?, Statement.call?, Statement.mapOperands]
    cases hp : s.payload with
    | call method args =>
      have hargs : (args.map f).map ty' = args.map ty := by
        rw [List.map_map]
        exact List.map_congr_left fun o ho => hf o (by simp [operands, hp, payloadOperands, ho])
      simp only [mapPayload, map_some, hargs]
    | _ => rfl
  index? := by
    rw [Statement.index?, Statement.index?, Statement.mapOperands]
    cases hp : s.payload with
    | index o =>
      simp only [mapPayload, map_some]
      rw [hf o (by simp [operands, hp, payloadOperands])]
    | _ => rfl

end Statement.TypesAgree

/-! ## Bodies -/

/-- A body and what became of it: no statement is lost, and what was added is spill code. -/
structure Body.KeepsTypes (body body' : Body) : Prop where
  kept : ∀ s ∈ body, ∃ s' ∈ body', s.TypesAgree body.type? body'.type? s'
  origin : ∀ t ∈ body', (∃ s ∈ body, s.id = t.id ∧ s.op = t.op) ∨ t.op = .load ∨ t.op = .store

namespace Body

variable {body body' body'' : Body} {next : StmtId} {p : Program}

theorem KeepsTypes.trans (h : body.KeepsTypes body') (h' : body'.KeepsTypes body'') :
    body.KeepsTypes body'' where
  kept := by
    intro s hs
    obtain ⟨s', hs', hagree⟩ := h.kept s hs
    obtain ⟨s'', hs'', hagree'⟩ := h'.kept s' hs'
    exact ⟨s'', hs'', hagree.trans hagree'⟩
  origin := by
    intro t ht
    rcases h'.origin t ht with ⟨s', hs', hid, hop⟩ | hspill
    · rw [← hid, ← hop]
      exact h.origin s' hs'
    · exact Or.inr hspill

theorem KeepsTypes.of_placed (h : List.Forall₂ Statement.Placed body body') :
    body.KeepsTypes body' where
  kept := by
    intro s hs
    obtain ⟨s', hs', hplaced⟩ := exists_right_of_forall₂ h hs
    rw [type?_eq_of_forall₂ (h.imp fun _ _ h => h.sameTypes)]
    exact ⟨s', hs', .of_placed hplaced⟩
  origin := by
    intro t ht
    obtain ⟨s, hs, hplaced⟩ := exists_left_of_forall₂ h ht
    exact Or.inl ⟨s, hs, hplaced.sameTypes.id.symm, hplaced.sameTypes.op.symm⟩

theorem placed_prepare (h : ∀ s ∈ body, s.op = .assignVar → s.right? = none) :
    List.Forall₂ Statement.Placed body body.prepare := by
  rw [prepare_eq]
  refine List.forall₂_map_right_iff.2 (List.forall₂_same.2 fun s hs => ?_)
  obtain ⟨pin?, register?, heq⟩ := s.prepared_eq
  refine ⟨pin?, register?, heq.trans ?_⟩
  by_cases hop : s.op = .assignVar
  · rw [if_pos hop, h s hs hop]
  · rw [if_neg hop]

/-- The body has variables, and all members of a variable have one type. -/
def UniformTypes (body : Body) : Prop :=
  ∃ vs, Variables.build body = .ok vs ∧
    ∀ x ∈ vs.all, ∃ t, ∀ i ∈ x.members, (body[i]?.bind (·.type?)) = some t

theorem Provided.uniformTypes (hb : body.Provided p) (h : body.Disciplined next) :
    body.UniformTypes := by
  obtain ⟨vs, hvs⟩ := h.exists_variables
  refine ⟨vs, hvs, fun x hx => ?_⟩
  rw [(Variables.build_numbers hvs).all] at hx
  obtain ⟨c, hc, rfl⟩ := List.mem_map.1 hx
  exact hb.exists_type_of_cell h.distinct hc

theorem Provided.exists_type_of_operand (hb : body.Provided p) (h : body.Disciplined next)
    {s : Statement} (hs : s ∈ body) {o : StmtId} (ho : o ∈ s.operands) :
    ∃ t, body.type? o = some t := by
  obtain ⟨u, hu, rfl⟩ := h.exists_of_mem_operands hs ho
  obtain ⟨t, ht, _⟩ := (hb u hu).typed
  exact ⟨t, (h.distinct.type?_eq hu).trans ht⟩

end Body

end Ssa

/-! ## Rounds -/

theorem Spill.Spilling.keepsTypes {body code : Body} {next : StmtId} {a : Analysis} {slots : Slots}
    {n' : Nat} {p : Program} (h : Spilling body next a slots code n') (hb : body.Provided p) :
    body.KeepsTypes code where
  kept := by
    intro s hs
    obtain ⟨f, hmem, hf⟩ := h.exists_mapOperands hb hs
    exact ⟨s.mapOperands f, hmem, .mapOperands hf⟩
  origin := by
    intro t ht
    cases h.groups.origin ht with
    | kept hs => exact Or.inl ⟨_, hs, rfl, rfl⟩
    | load => exact Or.inr (Or.inl rfl)
    | store _ _ _ _ ht =>
      subst ht
      exact Or.inr (Or.inr rfl)

/-- **Allocation keeps the types of operands.** -/
theorem Allocates.keepsTypes {k : Nat} {body final : Body} {next last : StmtId} {p : Program}
    (h : Allocates k body next final last) (hb : body.Provided p) : body.KeepsTypes final := by
  induction h with
  | colored _ _ _ =>
    -- Registers are places, so the last round changes no operand at all.
    exact (Body.KeepsTypes.of_placed (Body.placed_clearRegisters _)).trans
      (.of_placed (Body.placed_assignRegisters _ _ _))
  | spilled hs _ _ ih =>
    exact (Body.KeepsTypes.of_placed (Body.placed_clearRegisters _)).trans
      ((hs.keepsTypes hb.clearRegisters).trans (ih (hs.provided hb.clearRegisters)))

def SpillsTo (k : Nat) (b b' : Body × StmtId) : Prop :=
  ∃ method, allocationRound method k b.1.clearRegisters b.2 = .spilled b'.1 b'.2

theorem provided_of_spillsTo {k : Nat} {b b' : Body × StmtId} {p : Program}
    (hd : b.1.Disciplined b.2) (hb : b.1.Provided p) (h : Relation.ReflTransGen (SpillsTo k) b b') :
    b'.1.Disciplined b'.2 ∧ b'.1.Provided p := by
  induction h with
  | refl => exact ⟨hd, hb⟩
  | tail _ hstep ih =>
    obtain ⟨hd, hb⟩ := ih
    obtain ⟨method, hround⟩ := hstep
    -- Of the ways in which a round ends, only spilling leaves a body for another.
    rcases allocationRound_cases method k (hd.of_bare (Body.bare_clearRegisters _)) with
      ⟨_, _, _, heq⟩ | ⟨_, _, heq⟩ | ⟨_, _, _, _, hs, _, _, heq⟩
    · rw [heq] at hround
      cases hround
    · rw [heq] at hround
      cases hround
    · rw [heq] at hround
      obtain ⟨rfl, rfl⟩ := Round.spilled.inj hround
      exact ⟨hs.disciplined_code, hs.provided hb.clearRegisters⟩

/-! ## Emission -/

namespace EmitContext

/-- Contexts in which emission makes the same choices for two statements: what it takes the left
operand for, where it finds fields and methods, and how it compares. -/
structure SameChoices (cx cx' : EmitContext) (s s' : Statement) : Prop where
  isArray : cx'.operandType? s'.left? = some .intArray ↔ cx.operandType? s.left? = some .intArray
  targetClass : cx'.targetClass s' = cx.targetClass s
  fieldOffset : ∀ field, cx'.fieldOffset s' field = cx.fieldOffset s field
  methodSlot? : ∀ owner method,
    cx'.program.methodSlot? owner method = cx.program.methodSlot? owner method
  sameKind : cx'.sameKind s' = cx.sameKind s

variable {cx cx' : EmitContext} {s s' : Statement}

theorem operandType?_eq (cx : EmitContext) (o? : Option StmtId) :
    cx.operandType? o? = (o?.map cx.body.type?).join := by
  cases o? <;> rfl

theorem sameChoices {R : Method → Method → Prop}
    (h : s.TypesAgree cx.body.type? cx'.body.type? s')
    (hmatches : Program.Matches R cx.program cx'.program) (hname : ∀ m m', R m m' → m'.name = m.name)
    (htypes : cx'.program.types = cx.program.types) : cx.SameChoices cx' s s' := by
  have hleft : cx'.operandType? s'.left? = cx.operandType? s.left? := by
    rw [operandType?_eq, operandType?_eq, h.left?]
  have hright : cx'.operandType? s'.right? = cx.operandType? s.right? := by
    rw [operandType?_eq, operandType?_eq, h.right?]
  have hat : cx'.typeAt = cx.typeAt := by
    funext type
    rw [typeAt, typeAt, htypes]
  -- Failures name the statement, so they agree as well.
  have hfault : ∀ {α : Type} (fault : EmitFault),
      (s'.fault fault : Except EmitError α) = s.fault fault := by
    intro α fault
    rw [Statement.fault, Statement.fault, h.id, h.op]
  have hrequire : ∀ {α : Type} (fault : EmitFault) (a? : Option α),
      s'.require fault a? = s.require fault a? := by
    intro α fault a?
    cases a? with
    | none => exact hfault fault
    | some a => rfl
  have htarget : cx'.targetClass s' = cx.targetClass s := by
    simp only [targetClass, hleft, hat, hrequire, hfault, hmatches.isSome_class?]
  refine ⟨by rw [hleft], htarget, fun field => ?_, fun owner method =>
    hmatches.methodSlot? hname owner method, ?_⟩
  · simp only [fieldOffset, htarget, hrequire, hmatches.fieldOffset?]
  · rw [sameKind, sameKind, hleft, hright, hat]

end EmitContext

/-! ## Programs -/

namespace Ssa

variable {ast : Ast.Program} {p p' q : Program} {cx : TypeContext} {k : Nat} {m m' : Method}

theorem Checked.right?_of_assignVar (h : Checked p p' cx) (hp : Lowered ast p) (hm : m' ∈ p'.methods) :
    ∀ s ∈ m'.body, s.op = .assignVar → s.right? = none := by
  obtain ⟨m, hm, hcheck⟩ := exists_left_of_forall₂ h.code.methods hm
  obtain ⟨ty, _, hannotates⟩ := TypeContext.annotates_of_checkMethod (hp.lawful h.context)
    (h.signed hp m hm) (h.distinctIds hp m hm) hcheck
  intro s' hs' hop
  obtain ⟨s, _, type, _, _, rfl⟩ := exists_left_of_forall₂ hannotates hs'
  exact if_pos hop

/-- What the allocation of a program `p` to `q` keeps of the types of a method. -/
structure Method.KeepsTypes (p q : Program) (k : Nat) (m m' : Method) : Prop where
  /-- Only the body changes. -/
  signature : m' = { m with body := m'.body }
  /-- Statements are told apart by their numbers. -/
  distinct : m'.body.DistinctIds
  /-- Variables have one type each, in every round. -/
  rounds : ∀ next ≥ p.nextId, ∀ b,
    Relation.ReflTransGen (SpillsTo k) (m.body.prepare, next) b → b.1.clearRegisters.UniformTypes
  /-- Variables have one type each in the end. -/
  uniform : m'.body.UniformTypes
  /-- New statements are loads and stores. -/
  inserted : ∀ t ∈ m'.body, (∀ s ∈ m.body, s.id ≠ t.id) → t.op = .load ∨ t.op = .store
  /-- All statements have types, new ones as well. -/
  typed : ∀ t ∈ m'.body, ∃ type, t.type? = some type
  /-- Operands refer to statements with types. -/
  referred : ∀ t ∈ m'.body, ∀ o ∈ t.operands, ∃ type, m'.body.type? o = some type
  /-- Old statements refer to statements of the types that they referred to before, and emission
  chooses accordingly. -/
  kept : ∀ s ∈ m.body, ∃ s' ∈ m'.body, s.TypesAgree m.body.type? m'.body.type? s' ∧
    ∀ label label' frame frame', EmitContext.SameChoices ⟨p, label, frame, m.body⟩
      ⟨q, label', frame', m'.body⟩ s s'

theorem Method.Allocated.keepsTypes (h : m.Allocated k p.nextId m')
    (hd : m.body.prepare.Disciplined p.nextId) (hb : m.body.Provided q)
    (hassign : ∀ s ∈ m.body, s.op = .assignVar → s.right? = none)
    (hmatches : Program.Matches (Method.Allocated k p.nextId) p q) (htypes : q.types = p.types) :
    m.KeepsTypes p q k m' := by
  obtain ⟨hsignature, n, last, _, hall⟩ := h
  have hfinal := hall.disciplined
  have hprovided := hall.provided hb.prepare
  have hkeeps : m.body.KeepsTypes m'.body :=
    (Body.KeepsTypes.of_placed (Body.placed_prepare hassign)).trans (hall.keepsTypes hb.prepare)
  constructor
  case signature => exact hsignature
  case distinct => exact hfinal.distinct
  case rounds =>
    intro next hnext b hb'
    obtain ⟨hround, htyped⟩ := provided_of_spillsTo (hd.mono hnext) hb.prepare hb'
    exact htyped.clearRegisters.uniformTypes (hround.of_bare (Body.bare_clearRegisters _))
  case uniform => exact hprovided.uniformTypes hfinal
  case inserted =>
    intro t ht hnew
    rcases hkeeps.origin t ht with ⟨s, hs, hid, _⟩ | hspill
    · exact absurd hid (hnew s hs)
    · exact hspill
  case typed =>
    intro t ht
    obtain ⟨type, htype, _⟩ := (hprovided t ht).typed
    exact ⟨type, htype⟩
  case referred => exact fun t ht o ho => hprovided.exists_type_of_operand hfinal ht ho
  case kept =>
    intro s hs
    obtain ⟨s', hs', hagree⟩ := hkeeps.kept s hs
    refine ⟨s', hs', hagree, fun label label' frame frame' => ?_⟩
    refine EmitContext.sameChoices hagree hmatches (fun m₁ m₂ h₁₂ => ?_) htypes
    rw [h₁₂.1]

/-- **Allocation keeps types.** In a program that passed the check, variables have one type each, spill
code has types, and every operand refers to a statement of the type that it referred to before, so
fields, methods and comparisons are those of the program before. -/
theorem allocation_keeps_types (ast : Ast.Program) (p p' q : Program) (k : Nat)
    (stats : List MethodStats) (hp : Program.ofAst ast = .ok p) (hp' : p.check = (p', .ok ()))
    (hq : p'.allocate k = (q, .ok stats)) :
    q.types = p'.types ∧ List.Forall₂ (Method.KeepsTypes p' q k) p'.methods q.methods := by
  have hl := lowered_of_ofAst hp
  obtain ⟨cx, hchecked⟩ := checked_of_check hp'
  have hd := hl.disciplined_of_check (Or.inr (congrArg Prod.fst hp').symm)
  obtain ⟨hmatches, htypes⟩ := Program.matches_of_allocate hd hq
  refine ⟨htypes, forall₂_imp_mem hmatches.methods fun m hm m' hm' => ?_⟩
  exact hm'.keepsTypes (hd m hm)
    (hchecked.provided hl (hchecked.describes hmatches htypes) m hm)
    (hchecked.right?_of_assignVar hl hm) hmatches htypes

/-- Links of a chain, each of which passes what it has added up on to the next. -/
def links : Ast.Program where
  main := ⟨"Main", .print (.call (.newObject "Link") "sum" [.intLit 0])⟩
  classes := [⟨"Link", none, [⟨.int, "value"⟩, ⟨.named "Link", "next"⟩], [{
    returnType := .int
    name := "sum"
    params := [⟨.int, "n"⟩]
    locals := []
    body := []
    result := .call (.var "next") "sum" [.binary .add (.var "value") (.var "n")] }]⟩]

/-- With two registers, the next link is spilled while the sum is taken. -/
theorem allocation_keeps_types_links : ∃ p p' q stats, Program.ofAst links = .ok p ∧
    p.check = (p', .ok ()) ∧ p'.allocate 2 = (q, .ok stats) ∧
      (∃ m ∈ q.methods, ∃ t ∈ m.body, t.op = .load) ∧
      q.types = p'.types ∧ List.Forall₂ (Method.KeepsTypes p' q 2) p'.methods q.methods := by
  have hruns : ((Program.ofAst links).toOption.map fun p => p.check.2.isOk &&
      (p.check.1.allocate 2).2.isOk &&
        (p.check.1.allocate 2).1.methods.any fun m => m.body.any (·.op == .load)) = some true := by
    decide +kernel
  obtain ⟨p, hp, hruns⟩ := exists_eq_ok_of_map_toOption hruns
  simp only [Bool.and_eq_true, List.any_eq_true, beq_iff_eq] at hruns
  obtain ⟨⟨hcheck, hallocate⟩, hload⟩ := hruns
  obtain ⟨u, hcheck⟩ := exists_eq_ok_of_isOk hcheck
  obtain ⟨stats, hallocate⟩ := exists_eq_ok_of_isOk hallocate
  have hp' : p.check = (p.check.1, .ok ()) := Prod.ext rfl hcheck
  have hq : p.check.1.allocate 2 = ((p.check.1.allocate 2).1, .ok stats) := Prod.ext rfl hallocate
  exact ⟨p, _, _, stats, hp, hp', hq, hload, allocation_keeps_types links p _ _ 2 stats hp hp' hq⟩

end Ssa

end MiniJava
