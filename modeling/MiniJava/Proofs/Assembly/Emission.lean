import MiniJava.Proofs.Assembly.Provision
import MiniJava.Proofs.Stages

/-!
# Accepted programs reach assembly

Emission fails at a statement that lacks an operand, a register, a type or a member. A program that
was lowered, checked and allocated has no such statement: lowering gives statements their operands,
the check has found the members that code looks for, allocation gives every value that is read a
register, and what spilling adds is complete. So a compilation fails for what is wrong with its
source only.
-/

namespace MiniJava

open Ssa List Statement Option Body

variable {body final : Body} {α : Type} {op : Op} {t : TypeId} {n : String} {m' : Method}

/-! ## Operands of statements -/

theorem Ssa.Body.Disciplined.exists_operand {next : StmtId} (h : body.Disciplined next)
    {s : Statement} (hs : s ∈ body) {o : StmtId} (ho : o ∈ s.uses)
    (hcall : s.op = .call → s.left? = some o) :
    ∃ t ∈ body, t.id = o ∧ t.isTracked = true ∧ t.op ≠ .arg := by
  obtain ⟨i, hi⟩ := List.mem_iff_getElem?.1 hs
  have hd := h.describes i
  have hvalues : o ∈ (body.pendingAt i).values →
      ∃ t ∈ body, t.id = o ∧ t.isTracked = true ∧ t.op ≠ .arg := by
    intro ho
    obtain ⟨t, ht, hid, htr, hop⟩ := hd.values o ho
    refine ⟨t, mem_of_mem_take ht, hid, htr, fun harg => ?_⟩
    rw [harg] at hop
    cases hop
  have htransit : ∀ {t : Statement} {op : Op}, t.op = op → op.isTransit = true → op ≠ .arg →
      t.isTracked = true ∧ t.op ≠ .arg := by
    rintro t op rfl htr hop
    exact ⟨isTracked_of_isTransit htr, hop⟩
  have hloads : o ∈ (body.pendingAt i).loads →
      ∃ t ∈ body, t.id = o ∧ t.isTracked = true ∧ t.op ≠ .arg := by
    intro ho
    obtain ⟨t, ht, hid, hop⟩ := hd.loads o ho
    exact ⟨t, mem_of_mem_take ht, hid, htransit hop rfl (by decide)⟩
  rcases (h.admits hi).reads o ho with ho | ho | ⟨hop, _⟩ | ⟨_, ho⟩
  · exact hvalues ho
  · exact hloads ho
  · exact ((h.admits hi).target hop o (hcall hop)).elim hvalues hloads
  · obtain ⟨t, ht, hid, hop⟩ := hd.params o ho
    exact ⟨t, mem_of_mem_take ht, hid, htransit hop rfl (by decide)⟩

/-! ## Registers of statements -/

theorem Allocates.exists_register {k : Nat} {next last : StmtId}
    (h : Allocates k body next final last) {t : Statement} (ht : t ∈ final)
    (htr : t.isTracked = true) (hop : t.op ≠ .arg) :
    ∃ r < max k Register.arguments.length, t.register? = some r := by
  induction h with
  | @colored body next a hb ha hall =>
    obtain ⟨i, s, hs, hbare, hreg⟩ := exists_of_mem_assignRegisters ht
    have hsop : t.bare.op = s.bare.op := congrArg op hbare
    have hcell := cellAt?_eq hs (show s.isTracked = true by
      rwa [isTracked, ← s.op_bare, ← hsop])
    obtain ⟨v, hv⟩ := Numbers.exists_number (mem_cells.2 ⟨i, hcell⟩)
    have hclear := hb.of_bare body.bare_clearRegisters
    rw [hreg, ha.registerAt?_assignRegisters hv hcell]
    exact ha.exists_color_of_ne_arg hclear hall hs
      (by rw [hclear.distinct.cell?_eq_cellAt? hs, hcell]) hv (hsop ▸ hop)
  | spilled _ _ _ ih => exact ih ht

theorem Allocates.shaped {k : Nat} {next last : StmtId} (h : Allocates k body next final last)
    (hshape : body.Shaped) : final.Shaped := by
  induction h with
  | @colored body next a _ _ _ =>
    rw [← shaped_bare, bare_assignRegisters, shaped_bare]
    exact shaped_clearRegisters.2 hshape
  | spilled hs _ _ ih => exact ih (hs.shaped (shaped_clearRegisters.2 hshape))

theorem Register.exists_ofColor? {r : Nat} (h : r < 22) : ∃ x, Register.ofColor? r = some x :=
  ⟨_, getElem?_eq_getElem (show r < Register.allocatable.length from h)⟩

/-! ## Code of statements -/

namespace EmitContext

variable {cx : EmitContext} {next : StmtId} {s : Statement} {o : StmtId}

structure Ready (cx : EmitContext) (next : StmtId) : Prop where
  disciplined : cx.body.Disciplined next
  shaped : cx.body.Shaped
  provided : cx.body.Provided cx.program
  registers : ∀ s ∈ cx.body, s.isTracked = true → s.op ≠ .arg → ∃ r, s.result? = some r

theorem require_some (s : Statement) (fault : EmitFault) (a : α) :
    s.require fault (some a) = .ok a := rfl

namespace Ready

section

variable (h : cx.Ready next) (hs : s ∈ cx.body)
include h hs

theorem exists_registerOf (ho : o ∈ s.uses) (hcall : s.op = .call → s.left? = some o) :
    ∃ r, cx.registerOf o = .ok r := by
  obtain ⟨t, ht, rfl, htr, hop⟩ := h.disciplined.exists_operand hs ho hcall
  obtain ⟨r, hr⟩ := h.registers t ht htr hop
  obtain ⟨j, hj⟩ := List.mem_iff_getElem?.1 ht
  rw [registerOf, find?, h.disciplined.distinct.last?_eq hj]
  dsimp only
  exact ⟨r, by rw [hr, require_some]⟩

theorem exists_left (hop : s.op = op) (hmerge : op.isMerge = false) (ho : s.left? = some o) :
    ∃ r, cx.left s = .ok r := by
  obtain ⟨r, hr⟩ := h.exists_registerOf hs (mem_uses_of_left? (hop ▸ hmerge) ho)
    fun _ => ho
  exact ⟨r, by rw [left, ho, require_some]; exact hr⟩

theorem exists_right (hop : s.op = op) (hmerge : op.isMerge = false) (hcall : op ≠ .call)
    (ho : s.right? = some o) :
    ∃ r, cx.right s = .ok r := by
  have hmem : o ∈ s.uses := by
    rw [uses, hop, hmerge, operands, ho]
    simp
  obtain ⟨r, hr⟩ := h.exists_registerOf hs hmem fun h => absurd (hop.symm.trans h) hcall
  exact ⟨r, by rw [right, ho, require_some]; exact hr⟩

theorem exists_dest (hop : s.op = op) (hvalue : op.definesValue = true) (harg : op ≠ .arg) :
    ∃ r, dest s = .ok r := by
  obtain ⟨r, hr⟩ := h.registers s hs (by rw [isTracked, hop, hvalue]; rfl) (hop ▸ harg)
  exact ⟨r, by rw [dest, hr, require_some]⟩

end

/-! ### Members -/

theorem exists_targetClass (hty : cx.body.type? o = some t) (hleft : s.left? = some o)
    (hp : cx.program.Places op t n) :
    ∃ name, cx.targetClass s = .ok name ∧
      if op = .call then (cx.program.methodSlot? name n).isSome = true
      else (cx.program.fieldOffset? name n).isSome = true := by
  obtain ⟨e, he, hclass, hplace⟩ := hp
  refine ⟨e.name, ?_, hplace⟩
  have htype : cx.operandType? s.left? = some t := by rw [hleft]; exact hty
  simp only [targetClass, htype, require_some, except_ok_bind, typeAt, he, if_pos hclass]
  rfl

theorem exists_fieldOffset (hty : cx.body.type? o = some t) (hleft : s.left? = some o)
    (hop : op ≠ .call) (hp : cx.program.Places op t n) :
    ∃ offset, cx.fieldOffset s n = .ok offset := by
  obtain ⟨name, hname, hplace⟩ := exists_targetClass hty hleft hp
  rw [if_neg hop] at hplace
  obtain ⟨offset, hoffset⟩ := isSome_iff_exists.1 hplace
  refine ⟨.ofNat offset, ?_⟩
  simp only [fieldOffset, hname, except_ok_bind, hoffset, require_some]
  rfl

section

variable (h : cx.Ready next)
include h

theorem exists_member (hs : s ∈ cx.body) (hop : s.op = .member) (hleft : s.left? = some o)
    (hname : s.payload = .name n) : ∃ code, cx.member s = .ok code := by
  obtain ⟨d, hd⟩ := h.exists_dest hs hop rfl (by decide)
  obtain ⟨target, htarget⟩ := h.exists_left hs hop rfl hleft
  obtain ⟨t, hty, hoffers⟩ := (h.provided s hs).target o n hleft (by
    rw [member?, hop, hname])
  have htype : cx.operandType? s.left? = some t := by rw [hleft]; exact hty
  have hn : s.name? = some n := by rw [name?, hname]
  simp only [member, hd, htarget, hn, htype, require_some, except_ok_bind]
  rcases hoffers with ⟨_, rfl, rfl⟩ | ⟨harray, hplaces⟩
  · exact ⟨_, rfl⟩
  · rw [if_neg fun heq => harray (some.inj heq)]
    obtain ⟨offset, hoffset⟩ := exists_fieldOffset hty hleft (by rw [hop]; decide) hplaces
    rw [hoffset]
    exact ⟨_, rfl⟩

theorem exists_assignMember (hs : s ∈ cx.body) (hop : s.op = .assignMember)
    (hleft : s.left? = some o) (hname : s.payload = .name n) :
    ∃ offset, cx.fieldOffset s n = .ok offset := by
  obtain ⟨t, hty, hoffers⟩ := (h.provided s hs).target o n hleft (by
    rw [member?, hop, hname])
  rcases hoffers with ⟨hmember, _⟩ | ⟨_, hplaces⟩
  · rw [hop] at hmember
    cases hmember
  · exact exists_fieldOffset hty hleft (by rw [hop]; decide) hplaces

theorem exists_call (hs : s ∈ cx.body) {args : List StmtId} (hop : s.op = .call)
    (hleft : s.left? = some o) (hcall : s.payload = .call n args) :
    ∃ code, cx.call s = .ok code := by
  obtain ⟨target, htarget⟩ := h.exists_left hs hop rfl hleft
  obtain ⟨t, hty, hoffers⟩ := (h.provided s hs).target o n hleft (by
    rw [member?, hop, hcall])
  rcases hoffers with ⟨hmember, _⟩ | ⟨_, hplaces⟩
  · rw [hop] at hmember
    cases hmember
  · obtain ⟨name, hname, hplace⟩ := exists_targetClass hty hleft hplaces
    rw [if_pos hop] at hplace
    obtain ⟨slot, hslot⟩ := isSome_iff_exists.1 hplace
    have hn : s.call? = some (n, args) := by rw [call?, hcall]
    simp only [call, htarget, hn, hname, require_some, except_ok_bind, hslot]
    exact ⟨_, rfl⟩

theorem exists_newObject (hs : s ∈ cx.body) (hop : s.op = .newObject)
    (hname : s.payload = .name n) :
    ∃ words, cx.program.objectSize? n = some words := by
  have hclass := (h.provided s hs).created hop n (by rw [name?, hname])
  obtain ⟨c, hc⟩ := isSome_iff_exists.1 hclass
  exact ⟨_, by rw [Program.objectSize?, hc]; rfl⟩

theorem exists_index (hs : s ∈ cx.body) (hop : s.op = .assignIndex)
    (hindex : s.payload = .index o) : ∃ r, cx.registerOf o = .ok r := by
  refine h.exists_registerOf hs ?_ fun hcall => ?_
  · rw [uses, hop, operands, hindex]
    simp [Op.isMerge, payloadOperands]
  · rw [hop] at hcall
    cases hcall

/-! ### Comparisons -/

theorem exists_typeAt (ht : cx.body.type? o = some t) : ∃ e, cx.typeAt t = .ok e := by
  obtain ⟨u, hu, ht⟩ := bind_eq_some_iff.1 ht
  rw [last?_eq_find?] at hu
  obtain ⟨t', ht', hget⟩ := (h.provided u (List.mem_reverse.1 (mem_of_find?_eq_some hu))).typed
  obtain rfl := mem_unique ht ht'
  obtain ⟨e, he⟩ := isSome_iff_exists.1 hget
  exact ⟨e, by rw [typeAt, he]⟩

theorem exists_sameKind : ∃ b, cx.sameKind s = .ok b := by
  rw [sameKind]
  split
  · next l r hl hr =>
    obtain ⟨o, _, hl⟩ := bind_eq_some_iff.1 hl
    obtain ⟨o', _, hr⟩ := bind_eq_some_iff.1 hr
    obtain ⟨e, he⟩ := h.exists_typeAt hl
    obtain ⟨e', he'⟩ := h.exists_typeAt hr
    rw [he, he']
    exact ⟨_, rfl⟩
  · exact ⟨true, rfl⟩

theorem exists_binary (hs : s ∈ cx.body) {op : BinOp} {o' : StmtId} (hop : s.op = .binary op)
    (hleft : s.left? = some o) (hright : s.right? = some o') :
    ∃ code, cx.binary s op = .ok code := by
  obtain ⟨d, hd⟩ := h.exists_dest hs hop rfl (by simp)
  obtain ⟨a, ha⟩ := h.exists_left hs hop rfl hleft
  obtain ⟨b, hb⟩ := h.exists_right hs hop rfl (by simp) hright
  obtain ⟨same, hsame⟩ := h.exists_sameKind (s := s)
  cases op with
  | add | sub | mul | lt | le | gt | ge =>
    simp only [binary, alu, hd, ha, hb]
    exact ⟨_, rfl⟩
  | and | or =>
    simp only [binary, logic, hd, ha, hb]
    exact ⟨_, rfl⟩
  | div | mod =>
    simp only [binary, divide, hd, ha, hb]
    exact ⟨_, rfl⟩
  | eq | ne =>
    simp only [binary, equality, hd, ha, hb, hsame]
    cases same <;> exact ⟨_, rfl⟩

/-! ### Statements -/

/-- **Every statement has code.** -/
theorem exists_stmt (hs : s ∈ cx.body) : ∃ code, cx.stmt s = .ok code := by
  have hshape := Statement.shape_of_isShaped (h.shaped s hs)
  generalize hop : s.op = op at hshape
  generalize hl : s.left? = left? at hshape
  generalize hr : s.right? = right? at hshape
  generalize hp : s.payload = payload at hshape
  rw [stmt, hop]
  cases hshape with
  | unify => exact ⟨_, rfl⟩
  | this | null | int | boolean =>
    obtain ⟨d, hd⟩ := h.exists_dest hs hop rfl (by decide)
    simp only [hd, hp]
    exact ⟨_, rfl⟩
  | parameter =>
    obtain ⟨d, hd⟩ := h.exists_dest hs hop rfl (by decide)
    simp only [hd, Statement.position?, hp, require_some, except_ok_bind]
    split <;> exact ⟨_, rfl⟩
  | arg =>
    obtain ⟨a, ha⟩ := h.exists_left hs hop rfl hl
    simp only [ha, Statement.position?, hp, require_some, except_ok_bind]
    split <;> exact ⟨_, rfl⟩
  | newObject =>
    obtain ⟨d, hd⟩ := h.exists_dest hs hop rfl (by decide)
    obtain ⟨words, hwords⟩ := h.exists_newObject hs hop hp
    simp only [hd, Statement.name?, hp, require_some, except_ok_bind, hwords]
    exact ⟨_, rfl⟩
  | newIntArray | assignVar | not =>
    obtain ⟨d, hd⟩ := h.exists_dest hs hop rfl (by decide)
    obtain ⟨a, ha⟩ := h.exists_left hs hop rfl hl
    simp only [hd, ha]
    exact ⟨_, rfl⟩
  | label | jump =>
    simp only [jumpLabel, Statement.label?, hp]
    exact ⟨_, rfl⟩
  | branchUnless =>
    obtain ⟨a, ha⟩ := h.exists_left hs hop rfl hl
    simp only [jumpLabel, Statement.label?, hp, ha]
    exact ⟨_, rfl⟩
  | call => exact h.exists_call hs hop hl hp
  | print | ret =>
    obtain ⟨a, ha⟩ := h.exists_left hs hop rfl hl
    simp only [ha]
    exact ⟨_, rfl⟩
  | member => exact h.exists_member hs hop hl hp
  | index =>
    obtain ⟨d, hd⟩ := h.exists_dest hs hop rfl (by decide)
    obtain ⟨a, ha⟩ := h.exists_left hs hop rfl hl
    obtain ⟨b, hb⟩ := h.exists_right hs hop rfl (by decide) hr
    simp only [hd, ha, hb]
    exact ⟨_, rfl⟩
  | store =>
    obtain ⟨a, ha⟩ := h.exists_left hs hop rfl hl
    simp only [ha, Statement.slot?, hp]
    exact ⟨_, rfl⟩
  | load =>
    obtain ⟨d, hd⟩ := h.exists_dest hs hop rfl (by decide)
    simp only [hd, Statement.slot?, hp]
    exact ⟨_, rfl⟩
  | assignMember =>
    obtain ⟨a, ha⟩ := h.exists_left hs hop rfl hl
    obtain ⟨b, hb⟩ := h.exists_right hs hop rfl (by decide) hr
    obtain ⟨offset, hoffset⟩ := h.exists_assignMember hs hop hl hp
    simp only [ha, hb, Statement.name?, hp, require_some, except_ok_bind, hoffset]
    exact ⟨_, rfl⟩
  | assignIndex =>
    obtain ⟨a, ha⟩ := h.exists_left hs hop rfl hl
    obtain ⟨b, hb⟩ := h.exists_right hs hop rfl (by decide) hr
    obtain ⟨c, hc⟩ := h.exists_index hs hop hp
    simp only [ha, hb, Statement.index?, hp, require_some, except_ok_bind, hc]
    exact ⟨_, rfl⟩
  | binary => exact h.exists_binary hs hop hl hr

end

end Ready

end EmitContext

/-! ## Programs -/

namespace Ssa

variable {ast : Ast.Program} {p q : Program} {cx : TypeContext} {k : Nat} {stats : List MethodStats}

theorem Method.Allocated.ready {bound : StmtId} {m : Method} (h : m.Allocated k bound m')
    (hk : k ≤ 22) (hshape : m.body.prepare.Shaped) (hprovided : m.body.Provided q)
    (frame : Frame) :
    ∃ next, EmitContext.Ready ⟨q, m'.label, frame, m'.body⟩ next := by
  obtain ⟨_, n, last, _, hall⟩ := h
  refine ⟨last, hall.disciplined, hall.shaped hshape, hall.provided hprovided.prepare,
    fun s hs htr hop => ?_⟩
  obtain ⟨r, hlt, hr⟩ := hall.exists_register hs htr hop
  obtain ⟨x, hx⟩ := Register.exists_ofColor? (Nat.lt_of_lt_of_le hlt (Nat.max_le.2 ⟨hk, by decide⟩))
  exact ⟨x, by rw [result?, hr]; exact hx⟩

theorem Checked.exists_allocated (hp : Lowered ast p) (h : Checked p p.check.1 cx)
    (hq : p.check.1.allocate k = (q, .ok stats)) (hm' : m' ∈ q.methods) :
    ∃ m : Method, m.Allocated k p.check.1.nextId m' ∧ m.body.prepare.Shaped ∧ m.body.Provided q := by
  obtain ⟨hmatches, htypes⟩ :=
    Program.matches_of_allocate (hp.disciplined_of_check (Or.inr rfl)) hq
  obtain ⟨m, hm, hall⟩ := exists_left_of_forall₂
    (hmatches.imp_mem (S := fun m m' => m ∈ p.check.1.methods ∧ m.Allocated k _ m')
      fun m hm m' hall => ⟨hm, hall⟩).methods hm'
  exact ⟨m, hall.2, hp.shaped_of_check (Or.inr rfl) m hm,
    h.provided hp (h.describes hmatches htypes) m hm⟩

/-- **A program that was checked and allocated has an assembly.** -/
theorem Checked.exists_emit (hp : Lowered ast p) (h : Checked p p.check.1 cx) (hk : k ≤ 22)
    (hq : p.check.1.allocate k = (q, .ok stats)) : ∃ asm, q.emit = .ok asm := by
  have hmethod : ∀ m ∈ q.methods, ∃ code, emitMethod q m = .ok code := by
    intro m' hm'
    obtain ⟨m, hall, hshape, hprovided⟩ := h.exists_allocated hp hq hm'
    obtain ⟨next, hready⟩ := hall.ready hk hshape hprovided (.ofBody m'.body)
    obtain ⟨code, hcode⟩ := exists_mapM_eq_ok fun s hs => hready.exists_stmt hs
    exact ⟨_, by rw [emitMethod]; exact except_bind_eq_ok.2 ⟨code, hcode, rfl⟩⟩
  obtain ⟨code, hcode⟩ := exists_mapM_eq_ok hmethod
  exact ⟨_, except_bind_eq_ok.2 ⟨code, hcode, rfl⟩⟩

end Ssa

/-! ## Compilations -/

def CompileError.IsOfSource : CompileError → Prop
  | .lexical _ | .parse _ | .structural _ | .type _ => True
  | .allocation _ | .emission _ => False

theorem CompileError.isOfSource_of_bind {β : Type} {x : Except CompileError α}
    {f : α → Except CompileError β} {e : CompileError} (h : x >>= f = .error e)
    (hx : ∀ e, x = .error e → e.IsOfSource)
    (hf : ∀ a, x = .ok a → f a = .error e → e.IsOfSource) :
    e.IsOfSource := by
  cases x with
  | error e' =>
    cases h
    exact hx _ rfl
  | ok a => exact hf a rfl h

theorem CompileError.isOfSource_of_mapError {ε : Type} {x : Except ε α} {f : ε → CompileError}
    {e : CompileError} (h : x.mapError f = .error e) (hf : ∀ e, (f e).IsOfSource) :
    e.IsOfSource := by
  cases x with
  | error e' =>
    cases h
    exact hf e'
  | ok a => cases h

theorem isOfSource_of_compileToCheckedSsa {source : String} {e : CompileError}
    (h : compileToCheckedSsa source = .error e) : e.IsOfSource := by
  refine CompileError.isOfSource_of_bind h (fun e h => ?_) fun p _ h => ?_
  · refine CompileError.isOfSource_of_bind h (fun e h => ?_) fun ast _ h => ?_
    · refine CompileError.isOfSource_of_bind h (fun e h => ?_) fun tokens _ h => ?_
      · exact CompileError.isOfSource_of_mapError h fun _ => trivial
      · exact CompileError.isOfSource_of_mapError h fun _ => trivial
    · exact CompileError.isOfSource_of_mapError h fun _ => trivial
  · split at h
    · cases h
    · next e' _ =>
      cases h
      cases e' <;> trivial

/-- **Accepted programs reach assembly.** With five to twenty-two registers, a program that passes the
check is allocated and emitted. So the compilation of a source fails only for what is wrong with the
source. -/
theorem accepted_programs_reach_assembly :
    (∀ (ast : Ast.Program) (p p' : Program) (k : Nat), Program.ofAst ast = .ok p →
      p.check = (p', .ok ()) → 5 ≤ k → k ≤ 22 →
        ∃ q stats asm, p'.allocate k = (q, .ok stats) ∧ q.emit = .ok asm) ∧
    ∀ (source : String) (e : CompileError), compileToAssembly source = .error e → e.IsOfSource := by
  have hemit : ∀ (ast : Ast.Program) (p p' : Program) (k : Nat), Program.ofAst ast = .ok p →
      p.check = (p', .ok ()) → 5 ≤ k → k ≤ 22 →
        ∃ q stats asm, p'.allocate k = (q, .ok stats) ∧ q.emit = .ok asm := by
    intro ast p p' k hp hcheck hle hge
    have hlow := lowered_of_ofAst hp
    obtain ⟨cx, hchecked⟩ := checked_of_check hcheck
    obtain rfl : p.check.1 = p' := by rw [hcheck]
    obtain ⟨stats, hstats⟩ :=
      Program.exists_allocate_ok (hlow.disciplined_of_check (Or.inr rfl)) hle
    obtain ⟨asm, hasm⟩ := hchecked.exists_emit hlow hge (Prod.ext rfl hstats)
    exact ⟨_, stats, asm, Prod.ext rfl hstats, hasm⟩
  refine ⟨hemit, fun source e h => ?_⟩
  refine CompileError.isOfSource_of_bind h (fun e => isOfSource_of_compileToCheckedSsa)
    fun p' hp' h => ?_
  obtain ⟨ast, p, _, hp, hcheck⟩ := compileToCheckedSsa_eq_ok.1 hp'
  obtain ⟨q, stats, asm, hq, hasm⟩ := hemit ast p p' machineRegisters hp hcheck
    (by decide) (Nat.le_refl _)
  rw [assemble_eq_ok.2 ⟨q, stats, hq, hasm⟩] at h
  cases h

/-- The source
`class M { public static void main(String[] a) { System.out.println(new A().f(3)); } }
class A { int[] x; public int f(int n) { x = new int[n]; x[0] = n; return x.length + x[0]; } }`
reaches assembly with five registers, and the source `class A` fails for what is wrong with it. -/
theorem accepted_programs_reach_assembly_arrays :
    (∃ ast p p' q stats asm,
      parse ("class M \x7b public static void main(String[] a) \x7b System.out.println(" ++
        "new A().f(3)); \x7d \x7d class A \x7b int[] x; public int f(int n) \x7b " ++
        "x = new int[n]; x[0] = n; return x.length + x[0]; \x7d \x7d") = .ok ast ∧
      Program.ofAst ast = .ok p ∧ p.check = (p', .ok ()) ∧
        p'.allocate 5 = (q, .ok stats) ∧ q.emit = .ok asm) ∧
    ∃ e, compileToAssembly "class A" = .error e ∧ e.IsOfSource := by
  constructor
  · obtain ⟨p', hp'⟩ := exists_eq_ok_of_isOk (x := compileToCheckedSsa
      ("class M \x7b public static void main(String[] a) \x7b System.out.println(" ++
        "new A().f(3)); \x7d \x7d class A \x7b int[] x; public int f(int n) \x7b " ++
        "x = new int[n]; x[0] = n; return x.length + x[0]; \x7d \x7d")) (by decide +kernel)
    obtain ⟨ast, p, hast, hp, hcheck⟩ := compileToCheckedSsa_eq_ok.1 hp'
    obtain ⟨q, stats, asm, hq, hasm⟩ :=
      accepted_programs_reach_assembly.1 ast p p' 5 hp hcheck (by decide) (by decide)
    exact ⟨ast, p, p', q, stats, asm, hast, hp, hcheck, hq, hasm⟩
  · have hfails : (compileToAssembly "class A").isOk = false := by decide +kernel
    cases h : compileToAssembly "class A" with
    | ok text =>
      rw [h] at hfails
      cases hfails
    | error e => exact ⟨e, rfl, accepted_programs_reach_assembly.2 _ e h⟩

end MiniJava
