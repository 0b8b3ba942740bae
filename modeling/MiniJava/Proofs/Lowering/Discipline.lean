import MiniJava.Proofs.Allocation.Annotations
import MiniJava.Proofs.Lowering.Shapes

/-!
# Lowered code is disciplined

By the rules of lowering, arguments stand right before their call, parameters are copied at the start
of a method, and nothing else is read than values that were emitted before. So the code of a method,
once it is prepared for allocation, is a disciplined body.
-/

namespace MiniJava

open Ssa Ast List Statement

namespace Ssa

/-! ## Prepared statements -/

namespace Statement

def prepared (s : Statement) : Statement :=
  if s.pin.op = .assignVar then { s.pin with right? := none } else s.pin

section

variable (s : Statement)

theorem pin_eq_fixedPin? : s.pin =
    (s.fixedPin?.map fun p => { s with pin? := some p, register? := p.register? }).getD s := by
  unfold pin fixedPin?
  split <;> simp_all <;> split <;> rfl

theorem pin_eq : ∃ pin? register?, s.pin = { s with pin?, register? } := by
  rw [pin_eq_fixedPin?]
  cases s.fixedPin? <;> exact ⟨_, _, rfl⟩

theorem prepared_eq : ∃ pin? register?, s.prepared =
    { s with pin?, register?, right? := if s.op = .assignVar then none else s.right? } := by
  obtain ⟨pin?, register?, hpin⟩ := s.pin_eq
  refine ⟨pin?, register?, ?_⟩
  rw [prepared, hpin]
  split <;> simp_all

@[simp] theorem id_prepared : s.prepared.id = s.id := by
  obtain ⟨_, _, h⟩ := s.prepared_eq
  rw [h]

@[simp] theorem op_prepared : s.prepared.op = s.op := by
  obtain ⟨_, _, h⟩ := s.prepared_eq
  rw [h]

@[simp] theorem position?_prepared : s.prepared.position? = s.position? := by
  obtain ⟨_, _, h⟩ := s.prepared_eq
  rw [h]
  rfl

@[simp] theorem isTracked_prepared : s.prepared.isTracked = s.isTracked := by
  rw [isTracked, op_prepared, isTracked]

theorem operands_prepared_sublist : s.prepared.operands.Sublist s.operands := by
  obtain ⟨_, _, h⟩ := s.prepared_eq
  rw [h, operands, operands]
  refine List.Sublist.append_right (List.Sublist.append_left ?_ _) _
  dsimp only
  split
  · exact nil_sublist _
  · exact List.Sublist.refl _

theorem uses_prepared_sublist : s.prepared.uses.Sublist s.operands := by
  rw [uses]
  split
  · exact nil_sublist _
  · exact s.operands_prepared_sublist

theorem uses_prepared_subset : s.prepared.uses ⊆ s.uses := by
  rw [uses, uses, op_prepared]
  split
  · exact List.Subset.refl _
  · exact s.operands_prepared_sublist.subset

@[simp] theorem fixedPin?_prepared : s.prepared.fixedPin? = s.fixedPin? := by
  rw [fixedPin?, op_prepared, position?_prepared]
  rfl

end

theorem pin?_prepared {s : Statement} (h : s.pin? = none) : s.prepared.pin? = s.prepared.fixedPin? := by
  have hpin : s.prepared.pin? = s.pin.pin? := by
    rw [prepared]
    split <;> rfl
  rw [hpin, fixedPin?_prepared, pin_eq_fixedPin?]
  cases s.fixedPin? with
  | none => exact h
  | some p => rfl

theorem reads_of_isShaped (s : Statement) (h : s.isShaped = true) (hop : s.op.isAlone = true) :
    s.operands.length ≤ 3 ∧ (s.op = .label → s.operands = []) ∧
      (s.op.isMerge = true → s.prepared.mergeOperands ≠ []) := by
  obtain ⟨_, _, hprep⟩ := s.prepared_eq
  rw [hprep]
  have hright : s.right?.toList.length < 3 := by cases s.right? <;> simp
  unfold isShaped at h
  split at h <;> simp_all [operands, payloadOperands, mergeOperands, Op.isMerge, Op.isAlone]

end Statement

theorem Body.prepare_eq (body : Body) : body.prepare = body.map (·.prepared) := rfl

end Ssa

/-! ## What is on its way -/

namespace Ssa.Body

variable {body : Body} {args params : List StmtId} {s : Statement}

def pending (body : Body) : Pending := ({} : Pending).after body.prepare

theorem pending_concat (body : Body) (s : Statement) :
    pending (body ++ [s]) = body.pending.next s.prepared := by
  rw [pending, pending, prepare_eq, map_append, Pending.after_append, ← prepare_eq]
  rfl

theorem mem_values_pending {o : StmtId} : o ∈ body.pending.values ↔ o ∈ body.values := by
  induction body using reverseRecOn with
  | nil => rfl
  | append_singleton body s ih =>
    have hs : o ∈ values [s] ↔ o = s.id ∧ s.isTracked = true ∧ s.op.isTransit = false := by
      cases ht : s.isTracked <;> cases hop : s.op.isTransit <;> simp [values, ht, hop]
    rw [pending_concat, Pending.mem_values_next, ih, values_append, mem_append, hs,
      id_prepared, isTracked_prepared, op_prepared]

theorem arity_pending (body : Body) :
    body.pending.arity = body.countP (·.op = .parameter) := by
  induction body using reverseRecOn with
  | nil => rfl
  | append_singleton body s ih =>
    rw [pending_concat, Pending.next, ih, countP_append, op_prepared]
    by_cases hop : s.op = .parameter <;> simp [hop]

/-- The code is disciplined, and these arguments and parameters are on their way after it. -/
structure Passes (args params : List StmtId) (body : Body) : Prop where
  flows : Pending.Flows {} body.prepare
  loads : body.pending.loads = []
  args : body.pending.args = args
  params : body.pending.params = params

namespace Passes

theorem concat (h : body.Passes args params) (hload : s.op ≠ .load)
    (ha : body.pending.Admits s.prepared) :
    Body.Passes (body.pending.next s.prepared).args (body.pending.next s.prepared).params
      (body ++ [s]) := by
  refine ⟨?_, ?_, by rw [pending_concat], by rw [pending_concat]⟩
  · rw [prepare_eq, map_append, Pending.flows_append, ← prepare_eq]
    exact ⟨h.flows, ha, trivial⟩
  · rw [pending_concat]
    exact Pending.next_loads_of_ne (by rwa [op_prepared])

theorem consumes (h : body.Passes args params) {p : Prop} : p → ∀ o ∈ body.pending.loads,
    o ∈ s.prepared.uses := by
  intro _ o ho
  rw [h.loads] at ho
  cases ho

theorem admits (h : body.Passes [] []) (hs : s.isShaped = true) (hop : s.op.isAlone = true)
    (hreads : ∀ o ∈ s.operands, o ∈ body.values) : body.pending.Admits s.prepared := by
  have hreads : ∀ o ∈ s.operands, o ∈ body.pending.values := fun o ho =>
    mem_values_pending.2 (hreads o ho)
  have hsub := s.uses_prepared_sublist
  have hne : ∀ {op : Op} {p : Prop}, op.isAlone = false → s.prepared.op = op → p := by
    rintro _ _ ht rfl
    rw [op_prepared, hop] at ht
    cases ht
  obtain ⟨hlen, hlabel, hmerge⟩ := s.reads_of_isShaped hs hop
  refine ⟨fun o ho => Or.inl (hreads o (hsub.subset ho)), ?_, h.consumes, hne rfl, hne rfl, hne rfl,
    hne rfl, fun hc => ?_, fun hc => ?_, hne rfl⟩
  · rw [Pending.width, h.args, h.params, if_pos ⟨rfl, rfl⟩]
    exact (length_filter_le _ _).trans (hsub.length_le.trans hlen)
  · rw [op_prepared] at hc
    exact ⟨sublist_nil.1 (hlabel hc ▸ hsub), h.args, h.params⟩
  · rw [op_prepared] at hc
    exact ⟨hmerge hc, fun o ho => hreads o (s.operands_prepared_sublist.subset ho)⟩

theorem alone (h : body.Passes [] []) (hs : s.isShaped = true) (hop : s.op.isAlone = true)
    (hreads : ∀ o ∈ s.operands, o ∈ body.values) : Body.Passes [] [] (body ++ [s]) := by
  have hnext := h.concat (fun hc => by rw [hc] at hop; cases hop) (h.admits hs hop hreads)
  have hempty : (body.pending.next s.prepared).args = [] ∧
      (body.pending.next s.prepared).params = [] := by
    simp only [Pending.next, h.params, op_prepared]
    revert hop
    cases s.op <;> simp [Op.isAlone]
  rwa [hempty.1, hempty.2] at hnext

theorem arg (h : body.Passes args []) (id : StmtId) {value : StmtId} (hv : value ∈ body.values) :
    Body.Passes (args ++ [id]) []
      (body ++ [{ id, op := .arg, left? := some value, payload := .position args.length }]) := by
  let s : Statement := { id, op := .arg, left? := some value, payload := .position args.length }
  have huses : s.prepared.uses = [value] := by
    obtain ⟨_, _, hprep⟩ := s.prepared_eq
    rw [hprep]
    rfl
  have ha : body.pending.Admits s.prepared := by
    refine ⟨?_, ?_, h.consumes, by simp [s], ?_, by simp [s], by simp [s], by simp [s],
      by simp [s, Op.isMerge], by simp [s]⟩
    · rw [huses]
      exact forall_mem_singleton.2 (Or.inl (mem_values_pending.2 hv))
    · rw [huses]
      refine (length_filter_le _ _).trans ?_
      rw [Pending.width]
      split <;> simp
    · intro _
      rw [position?_prepared, h.args]
      rfl
  simpa [Pending.next, s, h.args] using h.concat (by simp [s]) ha

theorem call (h : body.Passes args []) (id : StmtId) (method : String) {target : StmtId}
    (ht : target ∈ body.values) : Body.Passes [] []
      (body ++ [{ id, op := .call, left? := some target, payload := .call method args }]) := by
  let s : Statement := { id, op := .call, left? := some target, payload := .call method args }
  have huses : s.prepared.uses = target :: args := rfl
  have ht := mem_values_pending.2 ht
  have ha : body.pending.Admits s.prepared := by
    refine ⟨?_, ?_, h.consumes, by simp [s], by simp [s], by simp [s], by simp [s], by simp [s],
      by simp [s, Op.isMerge], ?_⟩
    · rw [huses]
      exact forall_mem_cons.2
        ⟨Or.inl ht, fun o ho => Or.inr (Or.inr (Or.inl ⟨rfl, h.args ▸ ho⟩))⟩
    · -- Only the target counts besides the arguments.
      have hfilter : (args.filter fun o => !body.pending.args.contains o) = [] := by
        rw [h.args]
        simp
      rw [huses, filter_cons, hfilter, Pending.width]
      split <;> split <;> simp
    · intro _ o ho
      obtain rfl : target = o := Option.some.inj ho
      exact Or.inl ht
  exact h.concat (by simp [s]) ha

theorem parameter (h : body.Passes [] params) (id : StmtId) : Body.Passes [] (params ++ [id])
    (body ++ [{ id, op := .parameter, payload := .position (body.countP (·.op = .parameter)) }]) := by
  let s : Statement :=
    { id, op := .parameter, payload := .position (body.countP (·.op = .parameter)) }
  have huses : s.prepared.uses = [] := by
    obtain ⟨_, _, hprep⟩ := s.prepared_eq
    rw [hprep]
    rfl
  have ha : body.pending.Admits s.prepared := by
    refine ⟨by simp [huses], by simp [huses], h.consumes, by simp [s], by simp [s], ?_, by simp [s],
      by simp [s], by simp [s, Op.isMerge], by simp [s]⟩
    intro _
    rw [position?_prepared, arity_pending]
    exact ⟨huses, rfl⟩
  simpa [Pending.next, s, h.params] using h.concat (by simp [s]) ha

theorem copy {value : StmtId} (h : body.Passes [] (value :: params)) (hnot : value ∉ params)
    (id : StmtId) (x : String) : Body.Passes [] params (body ++
      [{ id, op := .assignVar, left? := some value, right? := some value, payload := .name x }]) := by
  let s : Statement :=
    { id, op := .assignVar, left? := some value, right? := some value, payload := .name x }
  have huses : s.prepared.uses = [value] := rfl
  have ha : body.pending.Admits s.prepared := by
    refine ⟨?_, ?_, h.consumes, by simp [s], by simp [s], by simp [s], by simp [s], by simp [s],
      by simp [s, Op.isMerge], by simp [s]⟩
    · rw [huses]
      refine forall_mem_singleton.2 (Or.inr (Or.inr (Or.inr ⟨Or.inl rfl, ?_⟩)))
      rw [h.params]
      exact mem_cons_self
    · rw [huses]
      refine (length_filter_le _ _).trans ?_
      rw [Pending.width]
      split <;> simp
  have hfilter : (params.filter fun o => !o == value) = params := by
    refine filter_eq_self.2 fun o ho => ?_
    have hne : o ≠ value := fun hc => hnot (hc ▸ ho)
    simpa using hne
  have hparams : (body.pending.next s.prepared).params = params := by
    simpa [Pending.next, s, h.params, huses] using hfilter
  have hnext := h.concat (by simp [s]) ha
  rw [hparams] at hnext
  exact hnext

end Passes

end Ssa.Body

namespace Ssa

/-- **Code that follows the rules of lowering is disciplined.** -/
theorem Written.passes {labels : List String} {types : TypeName → Prop} {args params : List StmtId}
    {body : Body} (h : Written labels types args params body) : body.Passes args params := by
  induction h with
  | nil => exact ⟨trivial, rfl, rfl, rfl⟩
  | @alone _ s _ hs hop _ hreads ih => exact ih.alone (hs s (by simp)).1 hop hreads
  | arg id _ hv ih => exact ih.arg id hv
  | call id method _ ht ih => exact ih.call id method ht
  | parameter id _ ih => exact ih.parameter id
  | copy id x _ hnot ih => exact ih.copy hnot id x

theorem Scope.Settled.disciplined {sc₀ sc : Scope} {labels names : List String}
    {types : TypeName → Prop} {next : StmtId} (h : sc.Settled labels types)
    (happ : sc₀.beginMethod.Appends names sc) (hnext : sc.nextId ≤ next) :
    sc.body.prepare.Disciplined next := by
  obtain ⟨code, hb, hids, hn, _⟩ := happ
  obtain rfl : sc.body = code := hb
  have hmap : sc.body.prepare.map (·.id) = sc.body.map (·.id) := by
    rw [Body.prepare_eq, map_map]
    exact map_congr_left fun s _ => s.id_prepared
  have hmem : ∀ {t : Statement}, t ∈ sc.body.prepare → ∃ s ∈ sc.body, s.prepared = t :=
    mem_map.1
  refine ⟨?_, fun t ht => ?_, h.code.passes.flows, fun t ht hop => ?_, fun t ht => ?_,
    fun t ht hop => ?_⟩
  · rw [Body.DistinctIds, hmap, hids]
    exact nodup_range'
  · have hid := mem_map_of_mem (f := fun s : Statement => s.id) ht
    rw [hmap, hids, mem_range'_1, ← hn] at hid
    exact Nat.lt_of_lt_of_le hid.2 hnext
  · obtain ⟨s, hs, rfl⟩ := hmem ht
    rw [op_prepared] at hop
    exact absurd hop (h.code.plain s hs).1
  · obtain ⟨s, hs, rfl⟩ := hmem ht
    exact pin?_prepared (h.code.plain s hs).2.2.1
  · obtain ⟨s, hs, rfl⟩ := hmem ht
    rw [op_prepared] at hop
    obtain ⟨_, _, hprep⟩ := s.prepared_eq
    rw [hprep]
    exact if_pos hop

end Ssa

end MiniJava
