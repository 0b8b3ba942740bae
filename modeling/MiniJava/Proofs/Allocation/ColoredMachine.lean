import MiniJava.Proofs.Allocation.RegisterSafety
import MiniJava.Proofs.Semantics.Simulation

/-!
# Running on registers

A colored body does the same on registers as on cells. Before each statement, the home of every cell
that is live holds what the cell holds: a value that is written goes to the home of its cell, and no
other cell with this home is live then.
-/

namespace MiniJava

open Ssa List Statement Option Body

/-! ## Control flow -/

theorem Ssa.Op.fallsThrough_of_definesValue {op : Op} (h : op.definesValue = true) :
    op.fallsThrough = true := by
  cases op <;> first | rfl | cases h

theorem Ssa.Op.definesValue_of_isJump {op : Op} (h : op.isJump = true) : op.definesValue = false := by
  cases op <;> first | rfl | cases h

namespace Ssa.Body

variable {body : Body} {pc c target : Nat} {s : Statement} {l : String}

theorem LiveAt.liveAfter_of_fallsThrough (h : body.LiveAt c (pc + 1)) (hs : body[pc]? = some s)
    (hf : s.op.fallsThrough = true) : body.LiveAfter c pc := by
  have hlt : pc + 1 < body.length := by
    cases h with
    | read ht _ _ => exact lt_of_getElem? ht
    | pass ht _ _ _ => exact lt_of_getElem? ht
  exact ⟨s, pc + 1, hs, succ_mem_successorsOf hf hlt, h⟩

theorem LiveAt.liveAfter_of_jump (h : body.LiveAt c target) (hs : body[pc]? = some s)
    (hj : s.op.isJump = true) (hl : s.payload = .label l)
    (ht : body.labelPosition? l = some target) : body.LiveAfter c pc := by
  have hlabel : s.label? = some l := by rw [label?, hl]
  exact ⟨s, target, hs, mem_successorsOf_of_jump hj hlabel ht, h⟩

theorem LiveAfter.liveAt (h : body.LiveAfter c pc) (hw : ¬ body.Writes pc c) : body.LiveAt c pc := by
  obtain ⟨s, j, hs, hj, hl⟩ := h
  exact .pass hs hw hj hl

end Ssa.Body

theorem mapM_option_congr {α β : Type} {f g : α → Option β} {as : List α}
    (h : ∀ a ∈ as, f a = g a) : as.mapM f = as.mapM g := by
  induction as with
  | nil => rfl
  | cons a as ih =>
    rw [mapM_cons, mapM_cons, h a mem_cons_self,
      ih fun b hb => h b (mem_cons_of_mem _ hb)]

theorem Ssa.Statement.reads_subset_uses (s : Statement) : s.reads ⊆ s.uses := by
  intro o ho
  rw [reads] at ho
  split at ho
  · next hop =>
    rw [uses, hop, if_neg (by decide), operands, append_assoc]
    exact mem_append_left _ ho
  · exact ho

/-! ## Places that keep cells apart -/

/-- Places for the cells of a body. Cells that hold values at the same time have different ones. -/
structure Apart {Q : Type} (body : Body) (place? : StmtId → Option Q) : Prop where
  exists_place : ∀ o c, body.cell? o = some c → ∃ q, place? o = some q
  congr : ∀ o o' c, body.cell? o = some c → body.cell? o' = some c → place? o = place? o'
  ne : ∀ o o' c d q, body.cell? o = some c → body.cell? o' = some d → body.Interferes c d →
    place? o = some q → place? o' ≠ some q

def LiveAgree {Q : Type} (body : Body) (place? : StmtId → Option Q) (pc : Nat) (σ : Store Nat)
    (τ : Store Q) : Prop :=
  τ.slots = σ.slots ∧ ∀ o c, body.cell? o = some c → body.LiveAt c pc →
    (place? o).bind τ.values = σ.values c

namespace LiveAgree

variable {Q : Type} {body : Body} {next : StmtId} {place? : StmtId → Option Q}
  {pc c target : Nat} {σ : Store Nat} {τ : Store Q} {s : Statement} {q : Q}

theorem of_liveAfter (h : LiveAgree body place? pc σ τ) (hs : body[pc]? = some s)
    (hd : s.op.definesValue = false) (hlive : ∀ c, body.LiveAt c target → body.LiveAfter c pc) :
    LiveAgree body place? target σ τ := by
  refine ⟨h.1, fun o c ho hl => h.2 o c ho ((hlive c hl).liveAt ?_)⟩
  rintro ⟨t, ht, hdt, _⟩
  obtain rfl := mem_unique hs ht
  rw [hd] at hdt
  cases hdt

theorem put [DecidableEq Q] (h : LiveAgree body place? pc σ τ) (hb : body.Disciplined next)
    (hp : Apart body place?) (hs : body[pc]? = some s) (hd : s.op.definesValue = true)
    (hc : body.cell? s.id = some c) (hq : place? s.id = some q) (v : Value) :
    LiveAgree body place? (pc + 1) (σ.put c v) (τ.put q v) := by
  have hf := Op.fallsThrough_of_definesValue hd
  have hw : body.Writes pc c := (hb.distinct.writes_iff hs hd).2 hc
  refine ⟨h.1, fun o d ho hl => ?_⟩
  have hafter := hl.liveAfter_of_fallsThrough hs hf
  by_cases hdc : d = c
  · subst hdc
    rw [hp.congr o s.id d ho hc, hq]
    simp [Store.put]
  · -- The other cell was live before, and it is somewhere else.
    have hbefore : body.LiveAt d pc := by
      refine hafter.liveAt fun hw' => hdc ?_
      exact some.inj (((hb.distinct.writes_iff hs hd).1 hw').symm.trans hc)
    have hinter : body.Interferes c d := ⟨Ne.symm hdc, pc, Or.inr hw, Or.inl hafter⟩
    obtain ⟨r, hr⟩ := hp.exists_place o d ho
    have hne : r ≠ q := by
      rintro rfl
      exact hp.ne s.id o c d r hc ho hinter hq hr
    have hold := h.2 o d ho hbefore
    rw [hr, bind_some] at hold ⊢
    simp [Store.put, hne, hdc, hold]

theorem save (h : LiveAgree body place? pc σ τ) (slot : Nat) (v : Value) :
    LiveAgree body place? pc (σ.save slot v) (τ.save slot v) := by
  refine ⟨?_, h.2⟩
  rw [Store.save, Store.save, h.1]

end LiveAgree

/-- **A machine with places that keep cells apart does what the cell machine does.** -/
theorem Apart.lockstep {Q : Type} [DecidableEq Q] {body : Body} {next : StmtId} {N : Machine Q}
    (h : Apart body N.place?) (hb : body.Disciplined next) (hcode : N.code.bare = body.bare) :
    (cellMachine body N.activation).Lockstep N (LiveAgree body N.place?) where
  activation := rfl
  length := by rw [← length_bare, hcode, length_bare]; rfl
  label := fun l => by rw [← labelPosition?_bare, hcode, labelPosition?_bare]; rfl
  stmt := by
    intro pc s hs
    obtain ⟨t, ht, hts⟩ := exists_of_getElem?_bare
      (hcode.symm ▸ getElem?_bare_of_getElem? hs : N.code.bare[pc]? = some s.bare)
    exact ⟨t, ht, (congrArg Statement.id hts).symm, (congrArg Statement.op hts).symm,
      (congrArg payload hts).symm⟩
  reads := by
    intro pc s t σ τ hs ht hr
    have hs' : body[pc]? = some s := hs
    have hts : t.bare.reads = s.bare.reads := by
      have hbare := getElem?_bare_of_getElem? ht
      rw [hcode, getElem?_bare_of_getElem? hs'] at hbare
      rw [some.inj hbare]
    rw [show t.reads = s.reads from hts]
    refine mapM_option_congr fun o ho => ?_
    have huse := s.reads_subset_uses ho
    obtain ⟨u, hu, rfl, htr⟩ := hb.exists_of_mem_uses hs huse
    obtain ⟨j, hj⟩ := List.mem_iff_getElem?.1 (mem_of_mem_take hu)
    have hcell := hb.distinct.cell?_eq hj htr
    rw [Machine.read?, hr.2 u.id _ hcell (.read hs huse hcell), Machine.read?]
    exact (congrArg (bind · σ.values) hcell).symm
  slots := fun _ _ _ hr => hr.1
  put := by
    intro pc s σ τ v hs hd hr
    have htr : s.isTracked = true := by rw [isTracked, hd, Bool.true_or]
    have hc := hb.distinct.cell?_eq hs htr
    obtain ⟨q, hq⟩ := h.exists_place s.id _ hc
    exact ⟨_, q, hc, hq, hr.put hb h hs hd hc hq v⟩
  save := by
    intro pc s σ τ slot v hs hop hr
    refine (hr.of_liveAfter hs (by rw [hop]; rfl) fun c hl => ?_).save slot v
    exact hl.liveAfter_of_fallsThrough hs (by rw [hop]; rfl)
  next := fun pc s σ τ hs hd hf hr =>
    hr.of_liveAfter hs hd fun c hl => hl.liveAfter_of_fallsThrough hs hf
  jump := by
    intro pc s σ τ l target hs hj hl ht hr
    exact hr.of_liveAfter hs (Op.definesValue_of_isJump hj)
      fun c hlive => hlive.liveAfter_of_jump hs hj hl ht

/-! ## Homes -/

theorem Ssa.Statement.home?_of_ne {s : Statement} (h : s.op ≠ .arg) :
    s.home? = s.register?.map .register := by
  rw [home?]
  split
  · next hop _ => exact absurd hop h
  · rfl

theorem Ssa.Statement.home?_of_arg {s : Statement} {n : Nat} (hop : s.op = .arg)
    (hpos : s.position? = some n) :
    s.home? = if n < 4 then s.register?.map .register else some (.outgoing n) := by
  rw [home?, hop, hpos]
  rfl

namespace Analyses

variable {body : Body} {next : StmtId} {a : Analysis} {k u v c d i j : Nat} {s t : Statement}

section

variable (h : Analyses body a) (hb : body.Disciplined next)
include h hb

theorem place?_registers (act : Activation) (hs : body[i]? = some s)
    (hc : body.cellAt? i = some c) (hv : body.cells[v]? = some c) :
    (registerMachine (body.assignRegisters a.vars (a.coloring k).colors) act).place? s.id =
      { s with register? := a.color? k v }.home? := by
  have hfinal : (body.assignRegisters a.vars (a.coloring k).colors)[i]? =
      some { s with register? := a.color? k v } := by
    rw [getElem?_assignRegisters, hs, h.numbers.at?_eq_some.2 ⟨c, hc, hv⟩]
    rfl
  have hdistinct := (hb.of_bare (body.bare_assignRegisters a.vars (a.coloring k).colors)).distinct
  have hlast := hdistinct.last?_eq hfinal
  rw [registerMachine]
  dsimp only at hlast ⊢
  rw [hlast, bind_some]

section

variable (hall : (a.coloring k).uncolored = [])
include hall

theorem exists_color_of_ne_arg (hs : body[i]? = some s) (hc : body.cell? s.id = some c)
    (hv : body.cells[v]? = some c) (hop : s.op ≠ .arg) :
    ∃ r < max k Register.arguments.length, a.color? k v = some r := by
  cases hpin : (a.problem k).pin? v with
  | none =>
    obtain ⟨r, hlt, hr⟩ := h.exists_color hall hv hpin
    exact ⟨r, Nat.lt_of_lt_of_le hlt (Nat.le_max_left ..), hr⟩
  | some p =>
    -- The statement that pins the cell has it for itself, so it is this one, a parameter.
    obtain ⟨t, ht, htc, htp⟩ := hb.exists_pinned (h.pin?_problem hv ▸ hpin)
    have hid := hb.eq_of_cell?_eq_transit ht (isTransit_of_fixedPin?_eq_some htp) htc hc
    obtain rfl := hb.eq_of_id_eq (mem_of_getElem? hs) ht hid
    obtain ⟨hpar, n, hpos, _⟩ := position?_of_fixedPin?_eq_some htp
    rw [fixedPin?, hpar.resolve_left hop, hpos] at htp
    dsimp only at htp
    split at htp
    · next hlt =>
      cases htp
      exact ⟨n, Nat.lt_of_lt_of_le hlt (Nat.le_max_right ..), h.color?_of_pin hv hpin⟩
    · cases htp

theorem exists_home (act : Activation) {o : StmtId} (hc : body.cell? o = some c)
    (hv : body.cells[v]? = some c) :
    ∃ q, (registerMachine (body.assignRegisters a.vars (a.coloring k).colors) act).place? o =
        some q ∧
      ((∃ r, a.color? k v = some r ∧ q = .register r) ∨
        ∃ s n, s ∈ body ∧ s.id = o ∧ s.op = .arg ∧ s.position? = some n ∧ q = .outgoing n) := by
  obtain ⟨i, s, hs, rfl, htr, hroot⟩ := cell?_eq_some hc
  rw [h.place?_registers hb act hs (hroot ▸ cellAt?_eq hs htr) hv]
  by_cases hop : s.op = .arg
  · have hpos := (hb.admits hs).arg hop
    have hpin := h.color?_of_pin hv (h.pin?_of_fixedPin? (k := k) hb hv (mem_of_getElem? hs)
      hc (fixedPin?_of_arg hop hpos))
    rw [home?_of_arg (s := { s with register? := a.color? k v }) hop hpos]
    split
    · next hlt =>
      rw [if_pos hlt] at hpin
      exact ⟨_, by rw [hpin]; rfl, Or.inl ⟨_, hpin, rfl⟩⟩
    · exact ⟨_, rfl, Or.inr ⟨s, _, mem_of_getElem? hs, rfl, hop, hpos, rfl⟩⟩
  · obtain ⟨r, _, hr⟩ := h.exists_color_of_ne_arg hb hall hs hc hv hop
    rw [home?_of_ne (s := { s with register? := a.color? k v }) hop]
    exact ⟨_, by rw [hr]; rfl, Or.inl ⟨r, hr, rfl⟩⟩

/-- **Homes keep cells apart.** -/
theorem apart_registers (act : Activation) : Apart body
      (registerMachine (body.assignRegisters a.vars (a.coloring k).colors) act).place? where
  exists_place := by
    intro o c hc
    obtain ⟨v, hv⟩ := Numbers.exists_number (mem_cells_of_cell? hc)
    obtain ⟨q, hq, _⟩ := h.exists_home hb hall act hc hv
    exact ⟨q, hq⟩
  congr := by
    intro o o' c hc hc'
    obtain ⟨v, hv⟩ := Numbers.exists_number (mem_cells_of_cell? hc)
    obtain ⟨q, hq, hhome⟩ := h.exists_home hb hall act hc hv
    obtain ⟨q', hq', hhome'⟩ := h.exists_home hb hall act hc' hv
    rw [hq, hq']
    -- An argument has its cell for itself.
    have harg : ∀ {s : Statement} {o : StmtId}, s ∈ body → s.op = .arg →
        body.cell? s.id = some c → body.cell? o = some c → o = s.id := fun hs hop =>
      hb.eq_of_cell?_eq_transit hs (by rw [hop]; rfl)
    rcases hhome with ⟨r, hr, rfl⟩ | ⟨s, n, hs, rfl, hop, _, _⟩
    · rcases hhome' with ⟨r', hr', rfl⟩ | ⟨s, n, hs, rfl, hop, _, _⟩
      · rw [some.inj (hr.symm.trans hr')]
      · rw [harg hs hop hc' hc, hq'] at hq
        exact hq.symm
    · rw [harg hs hop hc hc', hq] at hq'
      exact hq'
  ne := by
    intro o o' c d q hc hd hinter hq hq'
    obtain ⟨u, hu⟩ := Numbers.exists_number (mem_cells_of_cell? hc)
    obtain ⟨v, hv⟩ := Numbers.exists_number (mem_cells_of_cell? hd)
    obtain ⟨p, hp, hhome⟩ := h.exists_home hb hall act hc hu
    obtain ⟨p', hp', hhome'⟩ := h.exists_home hb hall act hd hv
    obtain rfl := mem_unique hp hq
    obtain rfl := mem_unique hp' hq'
    rcases hhome with ⟨r, hr, rfl⟩ | ⟨s, n, hs, rfl, hop, hpos, rfl⟩
    · rcases hhome' with ⟨r', hr', heq⟩ | ⟨_, _, _, _, _, _, heq⟩
      · cases heq
        exact h.color?_ne hb hu hv hinter hr hr'
      · cases heq
    · rcases hhome' with ⟨r', hr', heq⟩ | ⟨t, n', ht, rfl, hop', hpos', heq⟩
      · cases heq
      · -- Two arguments at one position are never on their way at the same time.
        cases heq
        obtain ⟨hne, i, hci, hdi⟩ := hinter
        have hso := hb.mem_pendingAt_of_occupies hs (by rw [hop]; rfl) hc hci
        have hto := hb.mem_pendingAt_of_occupies ht (by rw [hop']; rfl) hd hdi
        obtain rfl := hb.eq_of_position_eq hs ht (Or.inl hop) (Or.inl hop') hpos hpos' hso hto
        exact hne (mem_unique hc hd)

/-- **A colored body does the same on registers as on cells.** -/
theorem exec_registers (act : Activation) (budget : Nat) :
    (registerMachine (body.assignRegisters a.vars (a.coloring k).colors) act).exec budget =
      (cellMachine body act).exec budget := by
  have hstep := (h.apart_registers hb hall act).lockstep hb
    (body.bare_assignRegisters a.vars (a.coloring k).colors)
  refine (hstep.run_eq ⟨rfl, fun o c _ _ => ?_⟩).symm
  cases (registerMachine (body.assignRegisters a.vars (a.coloring k).colors) act).place? o <;> rfl

end

end

end Analyses

end MiniJava
