import MiniJava.Proofs.Allocation.Paths
import MiniJava.Proofs.Soundness.Statements

/-!
# Execution of typed methods

While a typed method runs, each cell holds a value of the type that all statements of the cell have,
and the cells that are still to be read have been written. A step keeps this, and so does a run. In
particular no operand is missing and no jump leads nowhere, and a method that has to return something
does not run past its end.
-/

namespace MiniJava

open Ssa List Statement

/-- A body whose statements follow the rules. It reads only what it has written, jumps only to its own
labels, and ends with a return if the method has a result. -/
structure CodeTyped (cx : TypeContext) (naming : FieldNaming) (mx : MethodContext)
    (ty : StmtId → Option TypeId) (body : Body) : Prop where
  rules : ∀ r ∈ body, ∃ s type, r = cx.running naming ty type s ∧ ty s.id = some type ∧
    cx.Follows mx ty s type ∧ s.isShaped = true ∧
      (s.op = .null → ∃ t, t.NamedBy Lexer.IsIdentifier ∧ s.payload = .type t)
  has : ∀ id t, ty id = some t → cx.types.Has t
  distinct : body.DistinctIds
  tracked : ∀ r ∈ body, ∀ o ∈ r.reads, ∃ t ∈ body, t.id = o ∧ t.isTracked = true
  initialized : ∀ c, ¬ body.LiveAt c 0
  closed : ∀ r ∈ body, r.op.isJump = true → ∀ l, r.label? = some l →
    ∃ target, body.labelPosition? l = some target
  returns : mx.returnType?.isSome = true → ∃ r, body.getLast? = some r ∧ r.op = .ret

structure FrameTyped (cx : TypeContext) (ty : StmtId → Option TypeId) (body : Body)
    (heap : List HeapCell) (pc : Nat) (σ : Store Nat) : Prop where
  typed : ∀ o c v, body.cell? o = some c → σ.values c = some v → OperandTyped cx ty heap o v
  written : ∀ c, body.LiveAt c pc → ∃ v, σ.values c = some v

structure StepTyped (cx : TypeContext) (mx : MethodContext) (ty : StmtId → Option TypeId) (body : Body)
    (pc : Nat) (r : Statement) (heap : List HeapCell) (result : Store Nat × Control) : Prop where
  value : r.op.definesValue = true → ∃ v t, (body.cell? r.id).bind result.1.values = some v ∧
    r.type? = some t ∧ v.HasType cx.types heap t
  next : result.2 = .next → r.op.fallsThrough = true ∧ FrameTyped cx ty body heap (pc + 1) result.1
  jump : ∀ l, result.2 = .jump l → ∃ target, body.labelPosition? l = some target ∧
    FrameTyped cx ty body heap target result.1
  leave : ∀ v, result.2 = .leave v → v.HasType cx.types heap (mx.returnType?.getD .void)

section Frames

variable {cx : TypeContext} {naming : FieldNaming} {mx : MethodContext} {ty : StmtId → Option TypeId}
  {body : Body} {heap : List HeapCell} {pc k c : Nat} {σ σ' : Store Nat} {r : Statement} {w : World}
  {act : Activation}

namespace StepTyped

theorem of_next (hvalue : r.op.definesValue = true → ∃ v t,
      (body.cell? r.id).bind σ.values = some v ∧ r.type? = some t ∧ v.HasType cx.types heap t)
    (hf : r.op.fallsThrough = true) (hframe : FrameTyped cx ty body heap (pc + 1) σ) :
    StepTyped cx mx ty body pc r heap (σ, .next) :=
  ⟨hvalue, fun _ => ⟨hf, hframe⟩, nofun, nofun⟩

theorem of_jump {l : String} {target : Nat} (hd : r.op.definesValue = false)
    (ht : body.labelPosition? l = some target) (hframe : FrameTyped cx ty body heap target σ) :
    StepTyped cx mx ty body pc r heap (σ, .jump l) :=
  ⟨fun hdef => absurd (hd.symm.trans hdef) Bool.false_ne_true, nofun,
    fun _ heq => Control.jump.inj heq ▸ ⟨target, ht, hframe⟩, nofun⟩

theorem of_leave {v : Value} (hd : r.op.definesValue = false)
    (hv : v.HasType cx.types heap (mx.returnType?.getD .void)) :
    StepTyped cx mx ty body pc r heap (σ, .leave v) :=
  ⟨fun hdef => absurd (hd.symm.trans hdef) Bool.false_ne_true, nofun, nofun,
    fun _ heq => Control.leave.inj heq ▸ hv⟩

end StepTyped

theorem FrameTyped.written_next (h : FrameTyped cx ty body heap pc σ) (hr : body[pc]? = some r)
    (hk : ∀ c, body.LiveAt c k → k ∈ body.successorsOf r pc)
    (hkeep : ∀ c v, σ.values c = some v → ∃ v', σ'.values c = some v')
    (hwrites : ∀ c, body.Writes pc c → ∃ v, σ'.values c = some v) (hlive : body.LiveAt c k) :
    ∃ v, σ'.values c = some v := by
  by_cases hw : body.Writes pc c
  · exact hwrites c hw
  · obtain ⟨v, hv⟩ := h.written c (.pass hr hw (hk c hlive) hlive)
    exact hkeep c v hv

theorem FrameTyped.next (h : FrameTyped cx ty body heap pc σ) (hr : body[pc]? = some r)
    (hd : r.op.definesValue = false) (hk : ∀ c, body.LiveAt c k → k ∈ body.successorsOf r pc)
    {heap' : List HeapCell} (hext : HeapExtends heap heap') (hσ : σ'.values = σ.values) :
    FrameTyped cx ty body heap' k σ' where
  typed := by
    intro o c v ho hv
    rw [hσ] at hv
    obtain ⟨t, ht, htyped⟩ := h.typed o c v ho hv
    exact ⟨t, ht, htyped.extend hext⟩
  written := by
    intro c hlive
    refine h.written_next hr hk (fun c v hv => ⟨v, hσ ▸ hv⟩) (fun c hw => ?_) hlive
    obtain ⟨s, hs, hdef, _⟩ := hw
    obtain rfl := Option.mem_unique hr hs
    rw [hd] at hdef
    cases hdef

theorem lt_length_of_liveAt (h : body.LiveAt c k) : k < body.length := by
  cases h with
  | read hs _ _ => exact lt_of_getElem? hs
  | pass hs _ _ _ => exact lt_of_getElem? hs

theorem mem_successorsOf_of_fallsThrough (hf : r.op.fallsThrough = true) (c : Nat)
    (hlive : body.LiveAt c (pc + 1)) : pc + 1 ∈ body.successorsOf r pc :=
  Body.succ_mem_successorsOf hf (lt_length_of_liveAt hlive)

theorem exists_mapM_of_forall {α β : Type} {f : α → Option β} {R : α → β → Prop} {as : List α}
    (h : ∀ a ∈ as, ∃ b, f a = some b ∧ R a b) :
    ∃ bs, as.mapM f = some bs ∧ List.Forall₂ R as bs := by
  induction as with
  | nil => exact ⟨[], rfl, .nil⟩
  | cons a as ih =>
    rw [forall_mem_cons] at h
    obtain ⟨⟨b, hb, hab⟩, hrest⟩ := h
    obtain ⟨bs, hbs, habs⟩ := ih hrest
    refine ⟨b :: bs, ?_, .cons hab habs⟩
    rw [mapM_cons, hb, hbs]
    rfl

end Frames

namespace CodeTyped

variable {cx : TypeContext} {naming : FieldNaming} {mx : MethodContext} {ty : StmtId → Option TypeId}
  {body : Body} {pc c : Nat} {σ : Store Nat} {r : Statement} {w : World} {act : Activation}
  {a b : StmtId}

section

variable (h : CodeTyped cx naming mx ty body)
include h

/-- **Statements of one cell have one type.** -/
theorem type_eq_of_cell (ha : body.cell? a = some c) (hb : body.cell? b = some c) :
    ty a = ty b := by
  have hown : ∀ r ∈ body, ∀ o ∈ r.mergeOperands, ty o = ty r.id ∧ ty r.id ≠ none := by
    intro r hr o ho
    obtain ⟨s, type, rfl, htype, hfollows, hshape, _⟩ := h.rules r hr
    have hshape := shape_of_isShaped hshape
    rw [TypeContext.running, mergeOperands_renameField] at ho
    rw [TypeContext.running, id_renameField]
    obtain ⟨id, op, left?, right?, payload, type?, register?, pin?⟩ := s
    dsimp only at hshape
    cases hshape with
    | unify a b =>
      obtain ⟨ha, hb⟩ := hfollows
      have hty : ty o = some type := by
        rcases mem_pair.1 (show o ∈ [a, b] from ho) with rfl | rfl
        · exact ha
        · exact hb
      exact ⟨hty.trans htype.symm, fun hnone => Option.some_ne_none _ (htype.symm.trans hnone)⟩
    | _ => cases ho
  rcases Body.eq_of_cell?_eq hown ha hb with rfl | ⟨heq, _⟩
  · rfl
  · exact heq

theorem type?_eq (hr : r ∈ body) : r.type? = ty r.id := by
  obtain ⟨s, type, rfl, htype, _⟩ := h.rules r hr
  rw [TypeContext.running, type?_renameField, id_renameField]
  exact htype.symm

theorem exists_cell? (hr : r ∈ body) (ht : r.isTracked = true) : ∃ c, body.cell? r.id = some c := by
  obtain ⟨i, hi⟩ := mem_iff_getElem?.1 hr
  exact ⟨_, h.distinct.cell?_eq hi ht⟩

/-- **All operands are there** and have their types. -/
theorem exists_values (act : Activation) {heap : List HeapCell}
    (hframe : FrameTyped cx ty body heap pc σ) (hr : body[pc]? = some r) :
    ∃ values, r.reads.mapM ((cellMachine body act).read? σ) = some values ∧
      List.Forall₂ (OperandTyped cx ty heap) r.reads values := by
  refine exists_mapM_of_forall fun o ho => ?_
  obtain ⟨t, ht, rfl, htr⟩ := h.tracked r (mem_of_getElem? hr) o ho
  obtain ⟨c, hc⟩ := h.exists_cell? ht htr
  obtain ⟨v, hv⟩ := hframe.written c (.read hr (r.reads_subset_uses ho) hc)
  refine ⟨v, ?_, hframe.typed _ c v hc hv⟩
  rw [Machine.read?, show (cellMachine body act).place? t.id = some c from hc, Option.bind_some, hv]

theorem frame_put {heap heap' : List HeapCell} (hframe : FrameTyped cx ty body heap pc σ)
    (hext : HeapExtends heap heap') (hr : body[pc]? = some r) (hc : body.cell? r.id = some c)
    (hf : r.op.fallsThrough = true) {v : Value} (hv : OperandTyped cx ty heap' r.id v) :
    FrameTyped cx ty body heap' (pc + 1) (σ.put c v) where
  typed := by
    intro o c' v' ho hv'
    change (if c' = c then some v else σ.values c') = some v' at hv'
    split at hv'
    · next heq =>
      cases hv'
      obtain ⟨t, ht, htyped⟩ := hv
      exact ⟨t, (h.type_eq_of_cell (heq ▸ ho) hc).trans ht, htyped⟩
    · obtain ⟨t, ht, htyped⟩ := hframe.typed o c' v' ho hv'
      exact ⟨t, ht, htyped.extend hext⟩
  written := by
    intro c' hlive
    refine hframe.written_next hr (mem_successorsOf_of_fallsThrough hf) (fun c' v' hv' => ?_)
      (fun c' hw => ?_) hlive
    · change ∃ v', (if c' = c then some v else σ.values c') = some v'
      split
      · exact ⟨v, rfl⟩
      · exact ⟨v', hv'⟩
    · obtain ⟨s, hs, _, hc'⟩ := hw
      obtain rfl := Option.mem_unique hr hs
      rw [← h.distinct.cell?_eq_cellAt? hr, hc] at hc'
      cases hc'
      exact ⟨v, if_pos rfl⟩

theorem frame_empty (heap : List HeapCell) : FrameTyped cx ty body heap 0 .empty where
  typed := nofun
  written := fun c hlive => absurd hlive (h.initialized c)

section

variable (hc : cx.Coherent naming) (hrt : RuntimeSafe cx naming act.runtime)
include hc hrt

/-- **A step is safe.** -/
theorem safe_step (hact : ActivationTyped cx mx w.heap act) (hh : HeapTyped cx naming w.heap)
    (hframe : FrameTyped cx ty body w.heap pc σ) (hr : body[pc]? = some r) :
    Safe cx naming w ((cellMachine body act).step σ r) (StepTyped cx mx ty body pc r) := by
  have hmem := mem_of_getElem? hr
  obtain ⟨values, hvalues, htyped⟩ := h.exists_values act hframe hr
  obtain ⟨s, type, hrun, htype, hfollows, hshape, hnull⟩ := h.rules r hmem
  have hid : ty r.id = some type := by
    rw [hrun, TypeContext.running, id_renameField]
    exact htype
  have hperform := hfollows.safe_perform hc hrt hact hh h.has hshape hnull (hrun ▸ htyped)
  rw [← hrun] at hperform
  rw [Machine.step_eq hvalues]
  refine hperform.bind fun o w' hext hh' hsuits => ?_
  -- A statement without a value leaves the cells alone.
  have hnext : r.op.definesValue = false → r.op.fallsThrough = true → ∀ σ' : Store Nat,
      σ'.values = σ.values → StepTyped cx mx ty body pc r w'.heap (σ', .next) := by
    intro hd hf σ' hσ
    exact .of_next (fun hdef => absurd (hd.symm.trans hdef) Bool.false_ne_true) hf
      (hframe.next hr hd (mem_successorsOf_of_fallsThrough hf) hext hσ)
  cases o with
  | value v =>
    obtain ⟨hd, hf, hv⟩ := hsuits
    obtain ⟨c, hcell⟩ := h.exists_cell? hmem (by rw [isTracked, hd]; rfl)
    have hdefine : (cellMachine body act).define σ r.id v = pure (σ.put c v) := by
      rw [Machine.define, show (cellMachine body act).place? r.id = some c from hcell]
    rw [Machine.settle, hdefine, pure_bind]
    refine .pure hh' (.of_next (fun _ => ⟨v, type, ?_, (h.type?_eq hmem).trans hid, hv⟩) hf
      (h.frame_put hframe hext hr hcell hf ⟨type, hid, hv⟩))
    rw [hcell, Option.bind_some]
    exact if_pos rfl
  | nothing => exact .pure hh' (hnext hsuits.1 hsuits.2 σ rfl)
  | save slot v => exact .pure hh' (hnext hsuits.1 hsuits.2 (σ.save slot v) rfl)
  | jump l =>
    obtain ⟨hd, hjump, hl⟩ := hsuits
    obtain ⟨target, htarget⟩ := h.closed r hmem hjump l hl
    exact .pure hh' (.of_jump hd htarget (hframe.next hr hd
      (fun _ _ => Body.mem_successorsOf_of_jump hjump hl htarget) hext rfl))
  | leave v => exact .pure hh' (.of_leave hsuits.1 hsuits.2)
  | restore slot => exact hsuits.elim

/-- **A run is safe.** A jump back takes from the budget, any other step goes forward. -/
theorem safe_run (budget : Nat) :
    ∀ pc σ w, ActivationTyped cx mx w.heap act → HeapTyped cx naming w.heap →
      FrameTyped cx ty body w.heap pc σ → (mx.returnType?.isSome = true → pc < body.length) →
      Safe cx naming w ((cellMachine body act).run budget pc σ) fun heap v =>
        ∀ t, mx.returnType? = some t → v.HasType cx.types heap t := by
  induction budget using Nat.strong_induction_on with
  | _ budget ihb =>
    intro pc
    induction hn : body.length - pc using Nat.strong_induction_on generalizing pc with
    | _ n ihn =>
      intro σ w hact hh hframe hin
      cases hr : body[pc]? with
      | none =>
        have hle : body.length ≤ pc := getElem?_eq_none_iff.1 hr
        rw [Machine.run_of_length_le (M := cellMachine body act) hle]
        refine .pure hh fun t ht => absurd (hin ?_) (Nat.not_lt.2 hle)
        rw [ht]
        rfl
      | some r =>
        have hlt := lt_of_getElem? hr
        rw [Machine.run_of_getElem? (M := cellMachine body act) hr]
        refine (h.safe_step hc hrt hact hh hframe hr).bind ?_
        rintro ⟨σ', control⟩ w' hext hh' hstep
        have hact' := hact.extend hext
        cases control with
        | next =>
          obtain ⟨hf, hframe'⟩ := hstep.next rfl
          refine ihn _ (by omega) (pc + 1) rfl σ' w' hact' hh' hframe' fun hsome => ?_
          -- The last statement returns, so control does not fall off the end.
          obtain ⟨last, hlast, hop⟩ := h.returns hsome
          refine Nat.lt_of_le_of_ne hlt fun heq => ?_
          rw [getLast?_eq_getElem?, ← heq, Nat.add_sub_cancel, hr] at hlast
          cases hlast
          rw [hop] at hf
          cases hf
        | leave v =>
          refine .pure hh' fun t ht => ?_
          have hv := hstep.leave v rfl
          rwa [ht] at hv
        | jump l =>
          obtain ⟨target, htarget, hframe'⟩ := hstep.jump l rfl
          obtain ⟨_, hlabel, _⟩ := Body.getElem?_of_labelPosition? htarget
          have hlt' : target < body.length := lt_of_getElem? hlabel
          simp only [Machine.resume, show (cellMachine body act).code.labelPosition? l = _ from htarget]
          split
          · cases budget with
            | zero => exact .of_error rfl rfl
            | succ n => exact ihb n (Nat.lt_succ_self n) target σ' w' hact' hh' hframe' fun _ => hlt'
          · exact ihn _ (by omega) target rfl σ' w' hact' hh' hframe' fun _ => hlt'

/-- **A typed method is safe.** -/
theorem safe_exec (hact : ActivationTyped cx mx w.heap act) (hh : HeapTyped cx naming w.heap)
    (budget : Nat) :
    Safe cx naming w ((cellMachine body act).exec budget) fun heap v =>
      ∀ t, mx.returnType? = some t → v.HasType cx.types heap t := by
  refine h.safe_run hc hrt budget 0 .empty w hact hh (h.frame_empty _) fun hsome => ?_
  obtain ⟨r, hr, _⟩ := h.returns hsome
  exact length_pos_of_mem (mem_of_getLast? hr)

end

end

end CodeTyped

end MiniJava
