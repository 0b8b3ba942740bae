import MiniJava.Emit
import MiniJava.Proofs.Allocation.Preservation

/-!
# Types of allocated code

Code generation looks at types to find members. Allocation keeps what it needs: statements keep their
types and a load has the type of the variable that it reloads, which is that of all its members.
-/

namespace MiniJava

open Ssa List Option Variables

namespace Ssa

def Body.type? (body : Body) (id : StmtId) : Option TypeId := (body.last? id).bind (·.type?)

theorem Body.DistinctIds.type?_eq {body : Body} (hd : body.DistinctIds) {s : Statement}
    (hs : s ∈ body) : body.type? s.id = s.type? := by
  obtain ⟨i, hi⟩ := mem_iff_getElem?.1 hs
  rw [type?, hd.last?_eq hi]
  rfl

def Statement.member? (s : Statement) : Option String :=
  match s.op, s.payload with
  | .member, .name n => some n
  | .assignMember, .name n => some n
  | .call, .call n _ => some n
  | _, _ => none

def Program.Places (p : Program) (op : Op) (type : TypeId) (member : String) : Prop :=
  ∃ e, p.types.get? type = some e ∧ (p.class? e.name).isSome = true ∧
    if op = .call then (p.methodSlot? e.name member).isSome = true
    else (p.fieldOffset? e.name member).isSome = true

def Program.Offers (p : Program) (op : Op) (type : TypeId) (member : String) : Prop :=
  op = .member ∧ type = .intArray ∧ member = "length" ∨
    type ≠ .intArray ∧ p.Places op type member

structure Statement.Provided (p : Program) (ty : StmtId → Option TypeId) (s : Statement) : Prop where
  typed : ∃ t, s.type? = some t ∧ (p.types.get? t).isSome = true
  merged : ∀ o ∈ s.mergeOperands, ty o = s.type?
  created : s.op = .newObject → ∀ n, s.name? = some n → (p.class? n).isSome = true
  target : ∀ o n, s.left? = some o → s.member? = some n → ∃ t, ty o = some t ∧ p.Offers s.op t n

/-! ## Renaming -/

section Renaming

variable (s : Statement) (f : StmtId → StmtId)

theorem Statement.name?_mapOperands : (s.mapOperands f).name? = s.name? := by
  obtain ⟨_, _, _, _, payload, _, _, _⟩ := s
  cases payload <;> rfl

theorem Statement.member?_mapOperands : (s.mapOperands f).member? = s.member? := by
  obtain ⟨_, op, _, _, payload, _, _, _⟩ := s
  cases payload <;> cases op <;> rfl

end Renaming

theorem Statement.Provided.mapOperands {p : Program} {ty ty' : StmtId → Option TypeId}
    {s : Statement} (h : s.Provided p ty) {f : StmtId → StmtId}
    (hf : ∀ o ∈ s.operands, ty' (f o) = ty o) : (s.mapOperands f).Provided p ty' where
  typed := h.typed
  merged := by
    intro o' ho'
    rw [mergeOperands_mapOperands] at ho'
    obtain ⟨o, ho, rfl⟩ := mem_map.1 ho'
    exact (hf o (of_mem_mergeOperands ho).2).trans (h.merged o ho)
  created := by
    intro hop n hn
    rw [name?_mapOperands] at hn
    exact h.created hop n hn
  target := by
    intro o' n ho' hn
    rw [member?_mapOperands] at hn
    obtain ⟨o, ho, rfl⟩ := map_eq_some_iff.1 ho'
    rw [hf o (by rw [operands, ho]; exact mem_cons_self)]
    exact h.target o n ho hn

/-! ## Places -/

/-- Statements that differ in places and in what assignments forget only. -/
structure Statement.SameTypes (s s' : Statement) : Prop where
  id : s'.id = s.id
  op : s'.op = s.op
  left? : s'.left? = s.left?
  payload : s'.payload = s.payload
  type? : s'.type? = s.type?
  mergeOperands : s'.mergeOperands = s.mergeOperands

def Statement.Placed (s s' : Statement) : Prop := ∃ pin? register?, s' = { s with pin?, register? }

theorem Statement.Placed.sameTypes {s s' : Statement} (h : s.Placed s') : s.SameTypes s' := by
  obtain ⟨_, _, rfl⟩ := h
  exact ⟨rfl, rfl, rfl, rfl, rfl, rfl⟩

theorem Statement.Provided.congr {p : Program} {ty : StmtId → Option TypeId} {s s' : Statement}
    (h : s.Provided p ty) (hs : s.SameTypes s') : s'.Provided p ty where
  typed := by
    rw [hs.type?]
    exact h.typed
  merged := by
    rw [hs.type?, hs.mergeOperands]
    exact h.merged
  created := by
    rw [hs.op, name?, hs.payload]
    exact h.created
  target := by
    rw [hs.left?, member?, hs.op, hs.payload]
    exact h.target

namespace Body

variable {body body' : Body} {p : Program}

theorem last?_eq_find? (body : Body) (id : StmtId) :
    body.last? id = body.reverse.find? (·.id == id) := by
  conv_rhs => rw [← zipIdx_map_fst 0 body, ← map_reverse, find?_map]
  rfl

theorem type?_eq_of_forall₂ (h : List.Forall₂ Statement.SameTypes body body') :
    body'.type? = body.type? := by
  funext id
  rw [type?, type?, last?_eq_find?, last?_eq_find?]
  rcases find?_forall₂ (forall₂_reverse_iff.2 h) (f := (·.id == id)) (g := (·.id == id))
    fun s s' hs => by rw [hs.id] with ⟨hs, hs'⟩ | ⟨s, s', hss', hs, hs'⟩
  · rw [hs, hs']
  · rw [hs, hs', bind_some, bind_some, hss'.type?]

/-- All statements of a body have the types that their code depends on. -/
def Provided (p : Program) (body : Body) : Prop := ∀ s ∈ body, s.Provided p body.type?

theorem Provided.of_forall₂ (hb : body.Provided p)
    (h : List.Forall₂ Statement.SameTypes body body') : body'.Provided p := by
  intro s' hs'
  obtain ⟨s, hs, hsame⟩ := exists_left_of_forall₂ h hs'
  rw [type?_eq_of_forall₂ h]
  exact (hb s hs).congr hsame

theorem Provided.map (hb : body.Provided p) {f : Statement → Statement}
    (hf : ∀ s : Statement, s.SameTypes (f s)) : Provided p (body.map f) :=
  hb.of_forall₂ (forall₂_map_right_iff.2 (forall₂_same.2 fun s _ => hf s))

theorem Provided.prepare (hb : body.Provided p) : body.prepare.Provided p := by
  refine hb.map fun s => ?_
  change s.SameTypes s.prepared
  obtain ⟨_, _, heq⟩ := s.prepared_eq
  exact ⟨s.id_prepared, s.op_prepared, by rw [heq], by rw [heq], by rw [heq],
    keepsTies_prepared.mergeOperands s⟩

theorem placed_clearRegisters (body : Body) :
    List.Forall₂ Statement.Placed body body.clearRegisters := by
  refine forall₂_map_right_iff.2 (forall₂_same.2 fun s _ => ?_)
  split <;> exact ⟨_, _, rfl⟩

theorem placed_assignRegisters (body : Body) (vs : Variables) (colors : List (Option Nat)) :
    List.Forall₂ Statement.Placed body (body.assignRegisters vs colors) := by
  have hzip : List.Forall₂ Statement.Placed (body.zipIdx.map Prod.fst)
      (body.assignRegisters vs colors) := by
    rw [forall₂_map_left_iff, assignRegisters, forall₂_map_right_iff]
    refine forall₂_same.2 fun e _ => ?_
    dsimp only
    split <;> exact ⟨_, _, rfl⟩
  rwa [zipIdx_map_fst] at hzip

theorem Provided.clearRegisters (hb : body.Provided p) : body.clearRegisters.Provided p :=
  hb.of_forall₂ (body.placed_clearRegisters.imp fun _ _ h => h.sameTypes)

theorem Provided.assignRegisters (hb : body.Provided p) (vs : Variables)
    (colors : List (Option Nat)) : (body.assignRegisters vs colors).Provided p :=
  hb.of_forall₂ ((body.placed_assignRegisters vs colors).imp fun _ _ h => h.sameTypes)

/-! ## Cells -/

/-- **Statements of one cell have one type.** -/
theorem Provided.type?_eq_of_root_eq (hb : body.Provided p) (hd : body.DistinctIds) {i j : Nat}
    (h : body.joined.root i = body.joined.root j) :
    (body[i]?.bind (·.type?)) = body[j]?.bind (·.type?) := by
  rw [root_joined_iff] at h
  induction h with
  | rel i j hedge =>
    obtain ⟨s, o, hs, ho, hj⟩ := mem_mergeEdges.1 hedge
    obtain ⟨t, ht, rfl⟩ := getElem?_of_lastPosition? hj
    have hmerged := (hb s (mem_of_getElem? hs)).merged _ ho
    rw [hd.type?_eq (mem_of_getElem? ht)] at hmerged
    rw [hs, ht, bind_some, bind_some, hmerged]
  | refl => rfl
  | symm _ _ _ ih => exact ih.symm
  | trans _ _ _ _ _ ih₁ ih₂ => exact ih₁.trans ih₂

theorem Provided.exists_type_of_cell (hb : body.Provided p) (hd : body.DistinctIds) {c : Nat}
    (hc : c ∈ body.cells) : ∃ t, ∀ j ∈ (variableOf body.tracked c).members,
      (body[j]?.bind (·.type?)) = some t := by
  obtain ⟨i, hi⟩ := mem_cells.1 hc
  obtain ⟨s, hs, _, rfl⟩ := cellAt?_eq_some.1 hi
  obtain ⟨t, ht, _⟩ := (hb s (mem_of_getElem? hs)).typed
  refine ⟨t, fun j hj => ?_⟩
  obtain ⟨_, _, _, hroot⟩ := cellAt?_eq_some.1 (mem_members_variableOf.1 hj)
  rw [hb.type?_eq_of_root_eq hd hroot.symm, hs, bind_some, ht]

theorem Provided.typeOf?_eq (hb : body.Provided p) (hd : body.DistinctIds) {vs : Variables}
    (hn : Numbers body vs) {o : StmtId} {v : Nat} (hv : vs.of? o = some v) :
    Spill.typeOf? body vs v = body.type? o := by
  obtain ⟨c, hc, hcell⟩ := hn.of?_eq_some.1 hv
  obtain ⟨i, s, hs, rfl, htr, rfl⟩ := cell?_eq_some hc
  have hmem : i ∈ (variableOf body.tracked (body.joined.root i)).members :=
    mem_members_variableOf.2 (cellAt?_eq hs htr)
  obtain ⟨t, hall⟩ := hb.exists_type_of_cell hd (mem_cells_of_cell? hc)
  have ht := hall i hmem
  rw [hs, bind_some] at ht
  rw [hd.type?_eq (mem_of_getElem? hs), ht, Spill.typeOf?, hn.getElem?_all, hcell]
  change findSome? _ _ = _
  generalize (variableOf body.tracked (body.joined.root i)).members = members at hmem hall
  cases members with
  | nil => cases hmem
  | cons j members => rw [findSome?_cons, hall j mem_cons_self]

end Body

end Ssa

/-! ## Spilling -/

namespace Spill.Spilling

variable {body code : Body} {next : StmtId} {a : Analysis} {slots : Slots} {n' : Nat} {p : Program}

section

variable (h : Spilling body next a slots code n')
include h

theorem type?_kept {s : Statement} (hs : s ∈ body) : code.type? s.id = body.type? s.id := by
  obtain ⟨_, _, _, _, hmem⟩ := h.groups.exists_mem hs
  have htype := h.distinct.type?_eq hmem
  rw [h.disciplined.distinct.type?_eq hs]
  exact htype

theorem type?_reloadOf (hb : body.Provided p) {s : Statement} (hs : s ∈ body)
    {loaded : List (Nat × StmtId)} (hload : ∀ e ∈ loaded, loadOf body a.vars slots e ∈ code)
    {o : StmtId} (ho : o ∈ s.operands) :
    code.type? (reloadOf a.vars slots loaded o) = body.type? o := by
  have hd := h.disciplined.distinct
  cases hl : (spilled? a.vars slots o).bind fun v => loaded.lookup v with
  | none =>
    obtain ⟨t, ht, rfl⟩ := h.disciplined.exists_of_mem_operands hs ho
    rw [reloadOf, hl]
    exact h.type?_kept ht
  | some id =>
    obtain ⟨v, hv, hid⟩ := bind_eq_some_iff.1 hl
    have hmem := hload _ (Reloads.mem_of_lookup hid)
    rw [reloadOf, hl, getD_some,
      ← hb.typeOf?_eq hd h.analyses.numbers (spilled?_eq_some.1 hv).1]
    exact h.distinct.type?_eq hmem

theorem exists_mapOperands (hb : body.Provided p) {s : Statement} (hs : s ∈ body) :
    ∃ f, s.mapOperands f ∈ code ∧ ∀ o ∈ s.operands, code.type? (f o) = body.type? o := by
  -- The statement is the one in its group, where its loads are.
  obtain ⟨_, _, loaded, _, _, hgroup⟩ := h.groups.exists_group hs
  refine ⟨reloadOf a.vars slots loaded, hgroup _ (by simp [groupOf]), fun o ho => ?_⟩
  refine h.type?_reloadOf hb hs (fun e he => ?_) ho
  exact hgroup _ (mem_append_left _ (mem_map_of_mem (mem_reverse.2 he)))

/-- **Spilling keeps types.** -/
theorem provided (hb : body.Provided p) : code.Provided p := by
  intro t ht
  cases h.groups.origin ht with
  | @kept s m loaded hs hm hr =>
    obtain ⟨f, hmem, hf⟩ := h.exists_mapOperands hb hs
    rw [h.disciplined_code.eq_of_id_eq ht hmem rfl]
    exact (hb s hs).mapOperands hf
  | @load e s o hn hn' hs ho hv =>
    obtain ⟨i, hi⟩ := mem_iff_getElem?.1 hs
    obtain ⟨u, hu, rfl, _⟩ := h.disciplined.exists_of_mem_uses hi ho
    have hu := mem_of_mem_take hu
    have htype : typeOf? body a.vars e.1 = u.type? := by
      rw [hb.typeOf?_eq h.disciplined.distinct h.analyses.numbers (spilled?_eq_some.1 hv).1,
        h.disciplined.distinct.type?_eq hu]
    refine ⟨?_, by simp [loadOf, Statement.mergeOperands], by simp [loadOf],
      by simp [loadOf, Statement.member?]⟩
    obtain ⟨t, ht, hget⟩ := (hb u hu).typed
    exact ⟨t, htype.trans ht, hget⟩
  | @store j slot id s t hs hslot hn hn' ht =>
    subst ht
    exact ⟨(hb s (mem_of_getElem? hs)).typed, by simp [Statement.mergeOperands], by simp,
      by simp [Statement.member?]⟩

end

end Spill.Spilling

/-- **Allocation keeps types.** -/
theorem Allocates.provided {k : Nat} {body final : Body} {next last : StmtId} {p : Program}
    (h : Allocates k body next final last) (hb : body.Provided p) : final.Provided p := by
  induction h with
  | colored _ _ _ => exact hb.clearRegisters.assignRegisters _ _
  | spilled hs _ _ ih => exact ih (hs.provided hb.clearRegisters)

end MiniJava
