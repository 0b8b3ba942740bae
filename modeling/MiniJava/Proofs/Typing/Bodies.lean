import MiniJava.Proofs.Cells
import MiniJava.Proofs.Sweeps
import MiniJava.Proofs.Typing.Contexts

/-!
# Types of bodies

The check walks through a body and types each statement in terms of those before it. Since statements
have different numbers, a type once given stays, so in the end every statement has its type by the
rules in terms of all the others: the order no longer matters.
-/

namespace MiniJava

open Ssa List

namespace TypeContext

variable {cx : TypeContext} {mx : MethodContext} {typed typed' : TypedStmts} {s : Statement}
  {body body' : Body} {type : TypeId}

def methodContext (cx : TypeContext) (m : Method) : MethodContext :=
  { this? := m.owner?.bind cx.types.lookup?, params := m.paramTypes, returnType? := m.returnType? }

def Annotates (cx : TypeContext) (mx : MethodContext) (ty : StmtId → Option TypeId)
    (body body' : Body) : Prop :=
  List.Forall₂ (fun s s' => ∃ type, ty s.id = some type ∧ cx.Follows mx ty s type ∧
    s' = annotate s type) body body'

theorem checkStmt_eq_ok {s' : Statement} : cx.checkStmt mx typed s = (s', .ok typed') ↔
    ∃ type, cx.Follows mx typed.type? s type ∧ s' = annotate s type ∧
      typed' = (s.id, type) :: typed := by
  rw [checkStmt]
  constructor
  · intro h
    split at h
    · next type htype =>
      cases h
      exact ⟨type, typeOf_eq_ok.1 htype, rfl, rfl⟩
    · cases h
  · rintro ⟨type, htype, rfl, rfl⟩
    rw [typeOf_eq_ok.2 htype]

def Untyped (typed : TypedStmts) (body : Body) : Prop := ∀ s ∈ body, typed.type? s.id = none

theorem type?_cons (id : StmtId) (type : TypeId) (typed : TypedStmts) (id' : StmtId) :
    TypedStmts.type? ((id, type) :: typed) id' = if id' = id then some type else typed.type? id' := by
  rw [TypedStmts.type?, lookup_cons]
  by_cases h : id' = id
  · simp [h]
  · rw [if_neg h, beq_eq_false_iff_ne.2 h]
    rfl

/-- **What a check leaves behind.** -/
theorem annotates_of_sweep (hd : body.DistinctIds) (hfresh : Untyped typed body)
    (h : sweep (cx.checkStmt mx) typed body = (body', .ok typed')) :
    (∀ id t, typed.type? id = some t → typed'.type? id = some t) ∧
      cx.Annotates mx typed'.type? body body' := by
  induction body generalizing typed body' with
  | nil =>
    cases h
    exact ⟨fun _ _ h => h, .nil⟩
  | cons s body ih =>
    obtain ⟨s', typed₁, rest, rfl, hs, hrest⟩ := sweep_cons_eq_ok h
    obtain ⟨type, hfollows, rfl, rfl⟩ := checkStmt_eq_ok.1 hs
    rw [Body.DistinctIds, map_cons, nodup_cons] at hd
    have hrestFresh : Untyped ((s.id, type) :: typed) body := by
      intro t ht
      rw [type?_cons, if_neg, hfresh t (mem_cons_of_mem _ ht)]
      rintro heq
      exact hd.1 (List.mem_map.2 ⟨t, ht, heq⟩)
    obtain ⟨hle, hannotates⟩ := ih hd.2 hrestFresh hrest
    have hkeep : ∀ id t, typed.type? id = some t → typed'.type? id = some t := by
      intro id t ht
      refine hle id t ?_
      rw [type?_cons, if_neg, ht]
      rintro rfl
      rw [hfresh s mem_cons_self] at ht
      cases ht
    refine ⟨hkeep, .cons ⟨type, hle s.id type ?_, hfollows.mono hkeep, rfl⟩ hannotates⟩
    rw [type?_cons, if_pos rfl]

theorem types_of_sweep {P : StmtId → TypeId → Prop}
    (hstep : ∀ ty, ∀ s ∈ body, ∀ type, (∀ id t, ty id = some t → P id t) →
      cx.Follows mx ty s type → P s.id type)
    (hP : ∀ id t, typed.type? id = some t → P id t)
    (h : sweep (cx.checkStmt mx) typed body = (body', .ok typed')) :
    ∀ id t, typed'.type? id = some t → P id t := by
  induction body generalizing typed body' with
  | nil =>
    cases h
    exact hP
  | cons s body ih =>
    obtain ⟨s', typed₁, rest, rfl, hs, hrest⟩ := sweep_cons_eq_ok h
    obtain ⟨type, hfollows, rfl, rfl⟩ := checkStmt_eq_ok.1 hs
    refine ih (fun ty s hs => hstep ty s (mem_cons_of_mem _ hs)) (fun id t ht => ?_) hrest
    rw [type?_cons] at ht
    split at ht
    · next heq =>
      cases ht
      rw [heq]
      exact hstep _ s mem_cons_self type hP hfollows
    · exact hP id t ht

/-! ## Methods -/

theorem checkMethod_eq_ok {m m' : Method} : cx.checkMethod m = (m', .ok ()) ↔ ∃ body' typed,
    sweep (cx.checkStmt (cx.methodContext m)) [] m.body = (body', .ok typed) ∧
      m' = { m with body := body' } := by
  rw [checkMethod]
  change (({ m with body := (sweep (cx.checkStmt (cx.methodContext m)) [] m.body).1 } : Method),
    (sweep (cx.checkStmt (cx.methodContext m)) [] m.body).2.map fun _ => ()) = _ ↔ _
  rcases sweep (cx.checkStmt (cx.methodContext m)) [] m.body with ⟨body', typed | typed⟩
  · simp [Except.map]
  · simp [Except.map, eq_comm]

theorem knows_methodContext {m : Method} (h : cx.Signed m) : cx.Knows (cx.methodContext m) where
  this? := by
    intro t ht
    obtain ⟨owner, _, ht⟩ := Option.bind_eq_some_iff.1 ht
    exact TypeTable.has_of_lookup? ht
  params := h.1

/-- **The types of a method.** -/
theorem annotates_of_checkMethod {m m' : Method} (hl : cx.Lawful) (hm : cx.Signed m)
    (hd : m.body.DistinctIds) (h : cx.checkMethod m = (m', .ok ())) :
    ∃ ty, (∀ id t, ty id = some t → cx.types.Has t ∧ ∃ s ∈ m.body, s.id = id) ∧
      cx.Annotates (cx.methodContext m) ty m.body m'.body := by
  obtain ⟨body', typed, hsweep, rfl⟩ := checkMethod_eq_ok.1 h
  refine ⟨typed.type?, types_of_sweep (fun ty s hs type hty hfollows => ⟨?_, s, hs, rfl⟩)
    (by simp [TypedStmts.type?]) hsweep, (annotates_of_sweep hd (fun _ _ => rfl) hsweep).2⟩
  exact hfollows.has hl (knows_methodContext hm) fun id t ht => (hty id t ht).1

end TypeContext

end MiniJava
