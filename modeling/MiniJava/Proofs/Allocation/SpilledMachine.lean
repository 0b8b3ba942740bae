import MiniJava.Proofs.Allocation.ColoredMachine
import MiniJava.Proofs.Allocation.SpilledLayout
import MiniJava.Proofs.Lowering.Shapes
import MiniJava.Proofs.Semantics.Trace

/-!
# Running spilled code

A spilled body does the same as the body. Where the body executes a statement, the spilled body
executes the group of the statement: its loads, the statement on what was loaded, and its store. At
the start of each group, live cells that are not spilled hold the same values in both runs, and the
slot of a live cell that is spilled holds the value of the cell. A jump goes to a label itself and
passes over the loads of its group, which does not matter, for a label has no use for operands.
-/

namespace MiniJava

open Ssa List Statement

variable {slot p v : Nat} {o : StmtId}

/-! ## Slots -/

theorem le_foldl_max {α : Type} (g : α → Nat) {as : List α} {a : α} {init : Nat}
    (h : g a ≤ init ∨ a ∈ as) : g a ≤ as.foldl (fun n a => max n (g a)) init := by
  induction as generalizing init with
  | nil => simpa using h
  | cons b as ih =>
    refine ih ?_
    rcases h with h | h
    · exact Or.inl (h.trans (Nat.le_max_left _ _))
    · rcases mem_cons.1 h with rfl | h
      · exact Or.inl (Nat.le_max_right _ _)
      · exact Or.inr h

theorem Ssa.Body.lt_nextFreeSlot {body : Body} {s : Statement} {slot : Nat} (hs : s ∈ body)
    (hop : s.op = .store ∨ s.op = .load) (hslot : s.slot? = some slot) :
    slot < body.nextFreeSlot := by
  refine le_foldl_max (· + 1) (Or.inr (mem_filterMap.2 ⟨s, hs, ?_⟩))
  rw [if_pos hop, hslot]

/-! ## Renamed statements -/

theorem perform_mapPayload (act : Activation) (f : StmtId → StmtId) (op : Op) (payload : Payload)
    (values : List Value) :
    perform act op (mapPayload f payload) values = perform act op payload values := by
  -- Operations look at up to three operands.
  cases payload <;> first
    | rfl
    | rcases values with _ | ⟨_, _ | ⟨_, _ | ⟨_, _ | _⟩⟩⟩ <;> cases op <;> rfl

theorem Action.of?_mapPayload (f : StmtId → StmtId) (op : Op) (payload : Payload)
    (values : List Value) :
    Action.of? op (mapPayload f payload) values = Action.of? op payload values := by
  cases payload <;> first
    | rfl
    | rcases values with _ | ⟨_, _ | ⟨_, _ | ⟨_, _ | _⟩⟩⟩ <;> cases op <;> rfl

namespace Ssa

namespace Statement

variable {s : Statement}

theorem reads_eq_uses (hs : s.isShaped = true) (hr : s.op = .assignVar → s.right? = none) :
    s.reads = s.uses := by
  rw [reads]
  split
  · next hop =>
    have hp : payloadOperands s.payload = [] := by
      obtain ⟨id, op, left?, right?, payload, _, _, _⟩ := s
      subst hop
      cases left? <;> cases payload <;> first | rfl | cases hs
    rw [uses, hop, if_neg (by decide), operands, hr hop, hp]
    simp
  · rfl

theorem inputs_eq_reads (hs : s.isShaped = true) : s.inputs = s.reads := by
  rw [inputs]
  split
  · next hop =>
    obtain ⟨id, op, left?, right?, payload, _, _, _⟩ := s
    cases op <;> first
      | exact absurd hop Bool.false_ne_true
      | rfl
      | cases left? <;> cases right? <;> cases payload <;> first
        | rfl
        | exact absurd hs Bool.false_ne_true
  · rfl

theorem inputs_subset_uses (s : Statement) : s.inputs ⊆ s.uses :=
  fun _ ho => s.reads_subset_uses (s.inputs_subset_reads ho)

theorem inputs_mapOperands (s : Statement) (f : StmtId → StmtId) :
    (s.mapOperands f).inputs = s.inputs.map f := by
  rw [inputs, inputs, mapOperands_op, reads, reads, mapOperands_op, uses_mapOperands]
  split
  · rfl
  · split
    · rw [mapOperands]
      cases s.left? <;> rfl
    · rfl

theorem isShaped_mapOperands (s : Statement) (f : StmtId → StmtId) :
    (s.mapOperands f).isShaped = s.isShaped := by
  obtain ⟨id, op, left?, right?, payload, _, _, _⟩ := s
  cases op <;> cases left? <;> cases right? <;> cases payload <;> rfl

end Statement

def Body.TakesAll (body : Body) : Prop := ∀ s ∈ body, s.uses ⊆ s.inputs

end Ssa

theorem mapM_eq_none_of_mem {α β : Type} {f : α → Option β} {as : List α} {x : α} (hx : x ∈ as)
    (h : f x = none) : as.mapM f = none := by
  cases hm : as.mapM f with
  | none => rfl
  | some bs =>
    have hmem := mem_map_of_mem (f := f) hx
    rw [mapM_eq_some_iff.1 hm, h] at hmem
    simp at hmem

namespace Spill

variable {body code : Body} {next : StmtId} {a : Analysis} {slots : Slots} {n' pc target : Nat}
  {act : Activation} {budget : Nat} {σ τ : Store Nat} {s : Statement} {c c' : Nat}
  {gs : List Body}

/-! ## Slots of their own -/

structure OwnSlots (body : Body) (slots : Slots) : Prop where
  unused : ∀ s ∈ body, s.op = .store ∨ s.op = .load → ∀ v slot, slots.lookup v = some slot →
    s.slot? ≠ some slot
  injective : ∀ u v slot, slots.lookup u = some slot → slots.lookup v = some slot → u = v

theorem FreshSlots.own (h : FreshSlots body slots) : OwnSlots body slots where
  unused := fun _ hs hop v slot hv hslot =>
    Nat.not_lt.2 (h.free v slot hv) (Body.lt_nextFreeSlot hs hop hslot)
  injective := h.injective

theorem bind_put_of_ne {c? : Option Nat} (h : c? ≠ some c) (v : Value) (τ : Store Nat) :
    c?.bind (τ.put c v).values = c?.bind τ.values := by
  cases c? with
  | none => rfl
  | some d =>
    have hne : d ≠ c := fun heq => h (congrArg some heq)
    simp [Store.put, hne]

/-- **What the loads of a group do.** If one of the slots is empty, nothing else matters. Otherwise
each load gets the value of its slot, and what the other statements have stays. -/
theorem run_loads (act : Activation) (budget : Nat) {vs : Variables} {es : List (Nat × StmtId)}
    (hcode : ∀ j < es.length, code[p + j]? = (es.map (loadOf body vs slots))[j]?)
    (hplace : ∀ e ∈ es, ∃ c, code.cell? e.2 = some c ∧ ∀ o, code.cell? o = some c → o = e.2)
    (hnodup : (es.map (·.2)).Nodup) (τ : Store Nat) :
    ((∃ e ∈ es, τ.slots ((slots.lookup e.1).getD 0) = none) ∧
      (cellMachine code act).runTraced budget p τ = traced (fault .unwritten)) ∨
    ∃ τ', (cellMachine code act).runTraced budget p τ =
        (cellMachine code act).runTraced budget (p + es.length) τ' ∧ τ'.slots = τ.slots ∧
      (∀ e ∈ es, (code.cell? e.2).bind τ'.values = τ.slots ((slots.lookup e.1).getD 0)) ∧
      ∀ o ∉ es.map (·.2), (code.cell? o).bind τ'.values = (code.cell? o).bind τ.values := by
  induction es generalizing p τ with
  | nil => exact Or.inr ⟨τ, rfl, rfl, by simp, by simp⟩
  | cons e es ih =>
    obtain ⟨c, hc, honly⟩ := hplace e mem_cons_self
    obtain ⟨hnotin, hnodup⟩ := nodup_cons.1 hnodup
    have hload : code[p]? = some (loadOf body vs slots e) := by
      simpa using hcode 0 (by simp)
    have hstep : (cellMachine code act).stepTraced τ (loadOf body vs slots e) =
        traced ((cellMachine code act).settle τ e.2 (.restore ((slots.lookup e.1).getD 0))) := rfl
    rw [Machine.runTraced_of_getElem? (M := cellMachine code act) hload, hstep, Machine.settle]
    cases hv : τ.slots ((slots.lookup e.1).getD 0) with
    | none => exact Or.inl ⟨⟨e, mem_cons_self, hv⟩, traced_fault_bind _ _⟩
    | some v =>
      have hput : (traced (do return (← (cellMachine code act).define τ e.2 v, Control.next)) >>=
          (cellMachine code act).resumeTraced budget p) =
            (cellMachine code act).runTraced budget (p + 1) (τ.put c v) := by
        rw [Machine.define, show (cellMachine code act).place? e.2 = some c from hc]
        rfl
      have hmore : ∀ j < es.length, code[p + 1 + j]? = (es.map (loadOf body vs slots))[j]? := by
        intro j hj
        have hcons := hcode (j + 1) (by simpa using hj)
        rw [map_cons, getElem?_cons_succ] at hcons
        rw [← hcons, Nat.add_assoc, Nat.add_comm 1 j]
      simp only [hput]
      rcases ih hmore (fun e he => hplace e (mem_cons_of_mem _ he)) hnodup (τ.put c v) with
        ⟨⟨e', he', hnone⟩, hrun⟩ | ⟨τ', hrun, hslots, hloaded, hkept⟩
      · exact Or.inl ⟨⟨e', mem_cons_of_mem _ he', hnone⟩, hrun⟩
      · refine Or.inr ⟨τ', ?_, hslots, ?_, ?_⟩
        · rw [hrun, length_cons, Nat.add_assoc, Nat.add_comm 1 es.length]
        · intro e' he'
          rcases mem_cons.1 he' with rfl | he'
          · rw [hkept _ hnotin, hc, hv]
            simp [Store.put]
          · exact hloaded e' he'
        · intro o ho
          rw [map_cons, mem_cons, not_or] at ho
          exact (hkept o ho.2).trans (bind_put_of_ne (fun hco => ho.1 (honly o hco)) v τ)

/-! ## The relation -/

theorem Inserted.cell_eq_of_spilled? (h : Inserted body next a slots code n') {o' : StmtId}
    (hv : spilled? a.vars slots o = some v) (hv' : spilled? a.vars slots o' = some v)
    (hc : body.cell? o = some c) (hc' : body.cell? o' = some c') : c = c' := by
  obtain ⟨d, hd, hcell⟩ := h.analyses.numbers.of?_eq_some.1 (spilled?_eq_some.1 hv).1
  obtain ⟨d', hd', hcell'⟩ := h.analyses.numbers.of?_eq_some.1 (spilled?_eq_some.1 hv').1
  obtain rfl := Option.mem_unique hc hd
  obtain rfl := Option.mem_unique hc' hd'
  exact Option.some.inj (hcell.symm.trans hcell')

theorem Inserted.storeSlot?_iff (h : Inserted body next a slots code n') (hs : body[pc]? = some s)
    (hd : s.op.definesValue = true) (hc : body.cell? s.id = some c) :
    storeSlot? a.live slots pc = some slot ↔ body.LiveAfter c pc ∧
      ∃ v, spilled? a.vars slots s.id = some v ∧ slots.lookup v = some slot := by
  rw [storeSlot?_eq_some h.analyses h.numbered.distinct hs]
  constructor
  · rintro ⟨_, d, v, hcd, hcell, hl, hslot⟩
    obtain rfl := Option.mem_unique hc hcd
    exact ⟨hl, v, spilled?_eq_some.2 ⟨h.analyses.numbers.of?_eq_some.2 ⟨c, hc, hcell⟩, slot, hslot⟩,
      hslot⟩
  · rintro ⟨hl, v, hv, hslot⟩
    obtain ⟨d, hcd, hcell⟩ := h.analyses.numbers.of?_eq_some.1 (spilled?_eq_some.1 hv).1
    obtain rfl := Option.mem_unique hc hcd
    exact ⟨hd, c, v, hc, hcell, hl, hslot⟩

/-- Stores at the start of a group. Slots that were not handed out are the same, live cells that are
not spilled hold the same values, and those that are spilled are in their slots. If operands may be
loaded that nobody has a use for, live cells hold values. -/
structure SpillAgree (body code : Body) (vs : Variables) (slots : Slots) (pc : Nat)
    (σ τ : Store Nat) : Prop where
  old : ∀ n, (∀ v, slots.lookup v ≠ some n) → τ.slots n = σ.slots n
  kept : ∀ o c, body.cell? o = some c → body.LiveAt c pc → spilled? vs slots o = none →
    (code.cell? o).bind τ.values = σ.values c
  spilled : ∀ o c v slot, body.cell? o = some c → body.LiveAt c pc → spilled? vs slots o = some v →
    slots.lookup v = some slot → τ.slots slot = σ.values c
  written : ¬ body.TakesAll → ∀ c, body.LiveAt c pc → σ.values c ≠ none

namespace SpillAgree

section

variable (h : SpillAgree body code a.vars slots pc σ τ)
include h

theorem of_liveAfter (hs : body[pc]? = some s) (hd : s.op.definesValue = false)
    (hlive : ∀ c, body.LiveAt c target → body.LiveAfter c pc) :
    SpillAgree body code a.vars slots target σ τ := by
  have hbefore : ∀ c, body.LiveAt c target → body.LiveAt c pc := by
    refine fun c hl => (hlive c hl).liveAt ?_
    rintro ⟨t, ht, hdt, _⟩
    obtain rfl := Option.mem_unique hs ht
    rw [hd] at hdt
    cases hdt
  exact ⟨h.old, fun o c ho hl => h.kept o c ho (hbefore c hl),
    fun o c v slot ho hl => h.spilled o c v slot ho (hbefore c hl),
    fun hall c hl => h.written hall c (hbefore c hl)⟩

theorem save (hslot : ∀ v, slots.lookup v ≠ some slot) (v : Value) :
    SpillAgree body code a.vars slots pc (σ.save slot v) (τ.save slot v) where
  old := by
    intro n hn
    simp only [Store.save, h.old n hn]
  kept := h.kept
  spilled := by
    intro o c w slot' ho hl hw hslot'
    have hne : slot' ≠ slot := by
      rintro rfl
      exact hslot w hslot'
    simp only [Store.save, if_neg hne]
    exact h.spilled o c w slot' ho hl hw hslot'
  written := h.written

theorem congr {τ' : Store Nat} (hslots : τ'.slots = τ.slots)
    (hvalues : ∀ o c, body.cell? o = some c → (code.cell? o).bind τ'.values = (code.cell? o).bind τ.values) :
    SpillAgree body code a.vars slots pc σ τ' where
  old := fun n hn => by rw [hslots, h.old n hn]
  kept := fun o c ho hl hn => by rw [hvalues o c ho, h.kept o c ho hl hn]
  spilled := fun o c v slot ho hl hv hslot => by rw [hslots, h.spilled o c v slot ho hl hv hslot]
  written := h.written

end

def stored (slot? : Option Nat) (v : Value) (τ : Store Nat) : Store Nat :=
  match slot? with
  | some slot => τ.save slot v
  | none => τ

/-- **A value that is written** reaches its cell, and its slot if the cell is spilled and live. -/
theorem put (h : SpillAgree body code a.vars slots pc σ τ)
    (hins : Inserted body next a slots code n') (hown : OwnSlots body slots)
    (hs : body[pc]? = some s) (hd : s.op.definesValue = true) (hc : body.cell? s.id = some c)
    (hc' : code.cell? s.id = some c') (v : Value) :
    SpillAgree body code a.vars slots (pc + 1) (σ.put c v)
      (stored (storeSlot? a.live slots pc) v (τ.put c' v)) := by
  have hf := Op.fallsThrough_of_definesValue hd
  have hvalues : (stored (storeSlot? a.live slots pc) v (τ.put c' v)).values =
      (τ.put c' v).values := by
    cases storeSlot? a.live slots pc <;> rfl
  -- Another cell that is live now was live before.
  have hbefore : ∀ d, d ≠ c → body.LiveAt d (pc + 1) → body.LiveAt d pc := by
    refine fun d hne hl => (hl.liveAfter_of_fallsThrough hs hf).liveAt fun hw => hne ?_
    exact Option.some.inj (((hins.numbered.distinct.writes_iff hs hd).1 hw).symm.trans hc)
  have hput : ∀ d, d ≠ c → (σ.put c v).values d = σ.values d := by
    intro d hne
    simp [Store.put, hne]
  constructor
  · intro n hn
    cases hslot : storeSlot? a.live slots pc with
    | none => exact h.old n hn
    | some slot =>
      obtain ⟨_, w, _, hlookup⟩ := (hins.storeSlot?_iff hs hd hc).1 hslot
      have hne : n ≠ slot := by
        rintro rfl
        exact hn w hlookup
      simp only [stored, Store.save, if_neg hne]
      exact h.old n hn
  · intro o d ho hl hn
    rw [hvalues]
    by_cases hdc : d = c
    · subst hdc
      simp [← hins.code_cell?_eq hc ho, hc', Store.put]
    · have hne : code.cell? o ≠ some c' := by
        intro hoc
        have heq := hins.cell?_eq hoc hc' (hins.lt_of_cell? ho) (hins.lt_of_cell? hc)
        rw [ho, hc] at heq
        exact hdc (Option.some.inj heq)
      rw [hput d hdc, bind_put_of_ne hne]
      exact h.kept o d ho (hbefore d hdc hl) hn
  · intro o d w slot ho hl hw hlookup
    by_cases hdc : d = c
    · subst hdc
      have hslot : storeSlot? a.live slots pc = some slot :=
        (hins.storeSlot?_iff hs hd hc).2 ⟨hl.liveAfter_of_fallsThrough hs hf, w,
          (spilled?_congr hins.analyses (hc.trans ho.symm)).trans hw, hlookup⟩
      simp [hslot, stored, Store.save, Store.put]
    · have hold := h.spilled o d w slot ho (hbefore d hdc hl) hw hlookup
      rw [hput d hdc, ← hold]
      cases hslot : storeSlot? a.live slots pc with
      | none => rfl
      | some slot' =>
        -- Variables have slots of their own.
        have hne : slot ≠ slot' := by
          rintro rfl
          obtain ⟨_, w', hw', hlookup'⟩ := (hins.storeSlot?_iff hs hd hc).1 hslot
          obtain rfl := hown.injective w w' slot hlookup hlookup'
          exact hdc (hins.cell_eq_of_spilled? hw hw' ho hc)
        simp only [stored, Store.save, if_neg hne]
        rfl
  · intro hall d hl
    by_cases hdc : d = c
    · simp [hdc, Store.put]
    · rw [hput d hdc]
      exact h.written hall d (hbefore d hdc hl)

end SpillAgree

/-! ## Groups -/

theorem SpillAgree.slot_eq (hag : SpillAgree body code a.vars slots pc σ τ)
    (h : Inserted body next a slots code n') (hs : body[pc]? = some s) (ho : o ∈ s.uses)
    (hv : spilled? a.vars slots o = some v) : ∃ c, body.cell? o = some c ∧
      body.LiveAt c pc ∧ τ.slots ((slots.lookup v).getD 0) = σ.values c := by
  obtain ⟨hof, slot, hlookup⟩ := spilled?_eq_some.1 hv
  obtain ⟨c, hc, _⟩ := h.analyses.numbers.of?_eq_some.1 hof
  have hl := Body.LiveAt.read hs ho hc
  refine ⟨c, hc, hl, ?_⟩
  rw [hlookup, Option.getD_some, hag.spilled o c v slot hc hl hv hlookup]

namespace Inserted

section

variable (h : Inserted body next a slots code n')
include h

theorem exists_load_cell {e : Nat × StmtId} (hload : code[p]? = some (loadOf body a.vars slots e))
    (hle : next ≤ e.2) :
    ∃ c, code.cell? e.2 = some c ∧ ∀ o, code.cell? o = some c → o = e.2 := by
  have hc := (h.groups.numbered h.numbered).distinct.cell?_eq hload rfl
  exact ⟨_, hc, fun o ho => h.eq_of_fresh hle hc ho⟩

theorem code_cell?_eq_none (hlt : o < next) (hc : body.cell? o = none) : code.cell? o = none := by
  by_contra hne
  obtain ⟨d, hd⟩ := Option.ne_none_iff_exists'.1 hne
  obtain ⟨c, hc'⟩ := h.exists_cell hd hlt
  rw [hc] at hc'
  cases hc'

/-- **An operand that is redirected** has the value that it had. -/
theorem read?_reloadOf (hs : body[pc]? = some s) {m : Nat} {loaded : List (Nat × StmtId)}
    (hr : Reloads a.vars slots s.uses m loaded) (hag : SpillAgree body code a.vars slots pc σ τ)
    (hloaded : ∀ e ∈ loaded, (code.cell? e.2).bind τ.values = τ.slots ((slots.lookup e.1).getD 0))
    (ho : o ∈ s.uses) :
    (cellMachine code act).read? τ (reloadOf a.vars slots loaded o) =
      (cellMachine body act).read? σ o := by
  change (code.cell? (reloadOf a.vars slots loaded o)).bind τ.values = (body.cell? o).bind σ.values
  cases hv : spilled? a.vars slots o with
  | none =>
    rw [Reloads.reloadOf_of_none hv]
    cases hc : body.cell? o with
    | some c => exact hag.kept o c hc (.read hs ho hc) hv
    | none =>
      rw [h.code_cell?_eq_none (h.numbered.use_lt s (mem_of_getElem? hs) o ho) hc]
      rfl
  | some v =>
    obtain ⟨id, hid⟩ := hr.lookup_of_spilled? ho hv
    obtain ⟨c, hc, _, hvalue⟩ := hag.slot_eq h hs ho hv
    rw [Reloads.reloadOf_of_lookup hv hid, hc, Option.bind_some, ← hvalue]
    exact hloaded (v, id) (Reloads.mem_of_lookup hid)

/-- **The loads of a group.** If a value is missing the statement could not be executed either.
Otherwise the renamed statement has the operands that the statement has. -/
theorem run_group_loads (act : Activation) (budget : Nat) (hs : body[pc]? = some s) {m : Nat}
    (hm : next ≤ m) {loaded : List (Nat × StmtId)} (hr : Reloads a.vars slots s.uses m loaded)
    (hcode : ∀ j < loaded.length, code[p + j]? = (loaded.reverse.map (loadOf body a.vars slots))[j]?)
    (hag : SpillAgree body code a.vars slots pc σ τ) :
    (s.inputs.mapM ((cellMachine body act).read? σ) = none ∧
      (cellMachine code act).runTraced budget p τ = traced (fault .unwritten)) ∨
    ∃ τ', (cellMachine code act).runTraced budget p τ =
        (cellMachine code act).runTraced budget (p + loaded.length) τ' ∧
      SpillAgree body code a.vars slots pc σ τ' ∧
      (s.mapOperands (reloadOf a.vars slots loaded)).inputs.mapM ((cellMachine code act).read? τ') =
        s.inputs.mapM ((cellMachine body act).read? σ) := by
  have hfresh : ∀ e ∈ loaded.reverse, next ≤ e.2 := fun e he =>
    Nat.le_trans hm (hr.le_of_mem (mem_reverse.1 he)).1
  have hplace : ∀ e ∈ loaded.reverse,
      ∃ c, code.cell? e.2 = some c ∧ ∀ o, code.cell? o = some c → o = e.2 := by
    intro e he
    obtain ⟨j, hj⟩ := mem_iff_getElem?.1 he
    have hlt : j < loaded.length := by
      simpa using lt_of_getElem? hj
    have hload : code[p + j]? = some (loadOf body a.vars slots e) := by
      rw [hcode j hlt, getElem?_map, hj]
      rfl
    exact h.exists_load_cell hload (hfresh e he)
  have hnodup : (loaded.reverse.map (·.2)).Nodup := by
    rw [hr.ids]
    exact nodup_range'
  rcases run_loads act budget (by simpa using hcode) hplace hnodup τ with
    ⟨⟨e, he, hnone⟩, hrun⟩ | ⟨τ', hrun, hslots, hloaded, hkept⟩
  · obtain ⟨o, ho, hv⟩ := hr.exists_operand (mem_reverse.1 he)
    obtain ⟨c, hc, hl, hvalue⟩ := hag.slot_eq h hs ho hv
    rw [hvalue] at hnone
    have hall : body.TakesAll := by
      by_contra hall
      exact hag.written hall c hl hnone
    have hread : (cellMachine body act).read? σ o = σ.values c :=
      congrArg (Option.bind · σ.values) hc
    exact Or.inl ⟨mapM_eq_none_of_mem (hall s (mem_of_getElem? hs) ho) (hread.trans hnone), hrun⟩
  · -- The numbers of loads are fresh, so the statements of the body keep what they have.
    have hold : ∀ o < next, (code.cell? o).bind τ'.values = (code.cell? o).bind τ.values := by
      refine fun o ho => hkept o fun hmem => ?_
      obtain ⟨e, he, rfl⟩ := mem_map.1 hmem
      exact absurd ho (Nat.not_lt.2 (hfresh e he))
    have hag' := hag.congr hslots fun o c hc => hold o (h.lt_of_cell? hc)
    refine Or.inr ⟨τ', by simpa using hrun, hag', ?_⟩
    rw [inputs_mapOperands, mapM_map]
    refine mapM_option_congr fun o ho =>
      h.read?_reloadOf hs hr hag' (fun e he => ?_) (s.inputs_subset_uses ho)
    rw [hslots, hloaded e (mem_reverse.2 he)]

end

end Inserted

theorem run_store {id : Nat} {v : Value} (hc' : code.cell? s.id = some c')
    (hcode : ∀ j < (storeOf? a.live slots pc s id).toList.length, code[p + j]? = (storeOf? a.live slots pc s id).toList[j]?)
    (τ : Store Nat) :
    (cellMachine code act).runTraced budget p (τ.put c' v) =
      (cellMachine code act).runTraced budget
        (p + (storeOf? a.live slots pc s id).toList.length)
        (SpillAgree.stored (storeSlot? a.live slots pc) v (τ.put c' v)) := by
  cases hslot : storeSlot? a.live slots pc with
  | none =>
    rw [storeOf?, hslot]
    rfl
  | some slot =>
    rw [storeOf?, hslot] at hcode ⊢
    have hread : [s.id].mapM ((cellMachine code act).read? (τ.put c' v)) = some [v] := by
      have hplace : (cellMachine code act).place? s.id = some c' := hc'
      simp [Machine.read?_put, hplace]
    have hstore := hcode 0 Nat.zero_lt_one
    rw [Nat.add_zero] at hstore
    rw [Machine.runTraced_of_getElem? (M := cellMachine code act) hstore,
      Machine.stepTraced_eq hread]
    rfl

/-- Where spilled code may be while the body is at a position: at the start of the group, or at a
label that was jumped to. -/
def At (body : Body) (gs : List Body) (pc pc' : Nat) : Prop :=
  pc' = startOf gs pc ∨ (∃ s, body[pc]? = some s ∧ s.op = .label) ∧ pc' = labelAt gs pc

namespace Laid

variable {m : Nat} {loaded : List (Nat × StmtId)}

theorem startOf_next (hg : gs[pc]? = some (groupOf body a.vars a.live slots pc s m loaded)) :
    startOf gs (pc + 1) = startOf gs pc + loaded.length + 1 +
      (storeOf? a.live slots pc s (m + loaded.length)).toList.length := by
  rw [startOf_succ hg, length_groupOf, Nat.add_assoc, Nat.add_assoc, Nat.add_assoc]

section

variable (hl : Laid body code next a slots gs) (h : Inserted body next a slots code n')
  (hown : OwnSlots body slots)
include hl h hown

section

variable (hs : body[pc]? = some s)
  (hg : gs[pc]? = some (groupOf body a.vars a.live slots pc s m loaded))
  (hag : SpillAgree body code a.vars slots pc σ τ)
include hs hg hag

theorem resume_define (hd : s.op.definesValue = true) (v : Value)
    (hnext : ∀ σ' τ', SpillAgree body code a.vars slots (pc + 1) σ' τ' → (cellMachine body act).runTraced budget (pc + 1) σ' = (cellMachine code act).runTraced budget (startOf gs (pc + 1)) τ') :
    (traced (do return (← (cellMachine body act).define σ s.id v, Control.next)) >>=
        (cellMachine body act).resumeTraced budget pc) =
      (traced (do return (← (cellMachine code act).define τ s.id v, Control.next)) >>=
        (cellMachine code act).resumeTraced budget (startOf gs pc + loaded.length)) := by
  have hc := h.numbered.distinct.cell?_eq hs (by rw [isTracked, hd, Bool.true_or])
  obtain ⟨c', hc'⟩ := h.exists_code_cell hc
  have hag' := hnext _ _ (hag.put h hown hs hd hc hc' v)
  rw [startOf_next hg, ← run_store hc' fun j hj => ?_] at hag'
  · rw [Machine.define, Machine.define, show (cellMachine body act).place? s.id = _ from hc,
      show (cellMachine code act).place? s.id = _ from hc']
    exact hag'
  · rw [Nat.add_assoc, Nat.add_assoc, ← Nat.add_assoc loaded.length,
      hl.getElem?_code hg (by rw [length_groupOf]; exact Nat.add_lt_add_left hj _),
      getElem?_groupOf_store]

/-- **Whatever a statement comes to**, its group and the statement go on alike. -/
theorem resume_settle {o : Outcome} (ho : o.Fits s.op s.payload)
    (hrun : ∀ budget' q q' σ' τ', budget' < budget ∨ budget' = budget ∧ pc < q → At body gs q q' ∧ SpillAgree body code a.vars slots q σ' τ' → (cellMachine body act).runTraced budget' q σ' = (cellMachine code act).runTraced budget' q' τ') :
    traced ((cellMachine body act).settle σ s.id o) >>=
        (cellMachine body act).resumeTraced budget pc =
      traced ((cellMachine code act).settle τ s.id o) >>=
        (cellMachine code act).resumeTraced budget (startOf gs pc + loaded.length) := by
  have hnext : ∀ σ' τ', SpillAgree body code a.vars slots (pc + 1) σ' τ' →
      (cellMachine body act).runTraced budget (pc + 1) σ' =
        (cellMachine code act).runTraced budget (startOf gs (pc + 1)) τ' := fun σ' τ' hag' =>
    hrun budget (pc + 1) _ σ' τ' (Or.inr ⟨rfl, Nat.lt_succ_self pc⟩) ⟨Or.inl rfl, hag'⟩
  -- Without a value there is nothing to store.
  have hskip : s.op.definesValue = false →
      startOf gs (pc + 1) = startOf gs pc + loaded.length + 1 := by
    intro hd
    rw [startOf_next hg, storeOf?, h.storeSlot?_eq_none hs hd]
    rfl
  -- The slots of the body are not handed out.
  have hfree : s.op = .store ∨ s.op = .load → ∀ slot, s.payload = .slot slot →
      ∀ v, slots.lookup v ≠ some slot := fun hop slot hslot v hv =>
    hown.unused s (mem_of_getElem? hs) hop v slot hv (by rw [slot?, hslot])
  cases o with
  | value v => exact hl.resume_define h hown hs hg hag ho.1 v hnext
  | nothing =>
    have hag' := hag.of_liveAfter hs ho.1 fun c hlive => hlive.liveAfter_of_fallsThrough hs ho.2.1
    exact (hnext _ _ hag').trans (by rw [hskip ho.1]; rfl)
  | leave v => rfl
  | save slot v =>
    have hd : s.op.definesValue = false := by rw [ho.1]; rfl
    have hag' := hag.of_liveAfter hs hd fun c hlive =>
      hlive.liveAfter_of_fallsThrough hs (by rw [ho.1]; rfl)
    exact (hnext _ _ (hag'.save (hfree (Or.inl ho.1) slot ho.2) v)).trans (by rw [hskip hd]; rfl)
  | restore slot =>
    rw [Machine.settle, Machine.settle, hag.old slot (hfree (Or.inr ho.1) slot ho.2)]
    cases σ.slots slot with
    | none => rfl
    | some v => exact hl.resume_define h hown hs hg hag (by rw [ho.1]; rfl) v hnext
  | jump l =>
    change (cellMachine body act).resumeTraced budget pc (σ, .jump l) =
      (cellMachine code act).resumeTraced budget (startOf gs pc + loaded.length) (τ, .jump l)
    refine Machine.resumeTraced_eq_resumeTraced (labelAt gs) (hl.labelPosition?_eq h) ?_ ?_ ?_
    · intro _ target htarget
      obtain ⟨t, ht, hop⟩ := Body.getElem?_of_labelPosition? htarget
      exact hl.labelAt_le_iff hs ho.1 hg ht hop
    · intro hc
      cases hc
    · intro l' target budget' hl' htarget hlater
      cases hl'
      exact hrun budget' target _ σ τ hlater
        ⟨Or.inr ⟨Body.getElem?_of_labelPosition? htarget, rfl⟩,
          hag.of_liveAfter hs (Op.definesValue_of_isJump ho.1)
            fun c hlive => hlive.liveAfter_of_jump hs ho.1 ho.2 htarget⟩

theorem runTraced_stmt
    (hvalues : (s.mapOperands (reloadOf a.vars slots loaded)).inputs.mapM ((cellMachine code act).read? τ) = s.inputs.mapM ((cellMachine body act).read? σ))
    (hrun : ∀ budget' q q' σ' τ', budget' < budget ∨ budget' = budget ∧ pc < q → At body gs q q' ∧ SpillAgree body code a.vars slots q σ' τ' → (cellMachine body act).runTraced budget' q σ' = (cellMachine code act).runTraced budget' q' τ') :
    (cellMachine body act).runTraced budget pc σ =
      (cellMachine code act).runTraced budget (startOf gs pc + loaded.length) τ := by
  rw [Machine.runTraced_of_getElem? (M := cellMachine body act) hs,
    Machine.runTraced_of_getElem? (M := cellMachine code act) (hl.getElem?_stmt hg)]
  cases hin : s.inputs.mapM ((cellMachine body act).read? σ) with
  | none =>
    rw [Machine.stepTraced_of_none hin, Machine.stepTraced_of_none (hvalues.trans hin),
      traced_fault_bind, traced_fault_bind]
  | some values =>
    rw [Machine.stepTraced_eq hin, Machine.stepTraced_eq (hvalues.trans hin)]
    simp only [bind_assoc]
    rw [show (s.mapOperands (reloadOf a.vars slots loaded)).payload =
      mapPayload (reloadOf a.vars slots loaded) s.payload from rfl,
      mapOperands_op, mapOperands_id, perform_mapPayload,
      Action.of?_mapPayload]
    refine congrArg (record _ >>= ·) (funext fun _ => ?_)
    exact traced_perform_bind_congr fun o ho => hl.resume_settle h hown hs hg hag ho hrun

end

/-- **A group does what its statement does**, from its start or from its label. -/
theorem runTraced_eq (hag : SpillAgree body code a.vars slots pc σ τ) :
    (cellMachine body act).runTraced budget pc σ =
      (cellMachine code act).runTraced budget (startOf gs pc) τ := by
  refine Machine.runTraced_eq_runTraced
    (R := fun q q' σ τ => At body gs q q' ∧ SpillAgree body code a.vars slots q σ τ)
    (fun budget pc pc' σ τ hle hr => ?_) (fun budget pc pc' s σ τ hs hr hrun => ?_)
    ⟨Or.inl rfl, hag⟩
  · rcases hr.1 with rfl | ⟨⟨s, hs, _⟩, _⟩
    · refine Machine.runTraced_of_length_le (Nat.le_of_eq ?_)
      rw [startOf_of_length_le (hl.length ▸ hle), ← hl.code]
      rfl
    · exact absurd (lt_of_getElem? hs) (Nat.not_lt.2 hle)
  · obtain ⟨m, loaded, hm, hr', hg⟩ := hl.group pc s hs
    obtain ⟨hat, hag⟩ := hr
    rcases hat with rfl | ⟨⟨t, ht, hop⟩, rfl⟩
    · have hloads : ∀ j < loaded.length, code[startOf gs pc + j]? =
          (loaded.reverse.map (loadOf body a.vars slots))[j]? := by
        intro j hj
        rw [hl.getElem?_code hg (by rw [length_groupOf]; omega), getElem?_groupOf_load hj]
      rcases h.run_group_loads act budget hs hm hr' hloads hag with
        ⟨hnone, hfault⟩ | ⟨τ', hgroup, hag', hvalues⟩
      · rw [hfault, Machine.runTraced_of_getElem? (M := cellMachine body act) hs,
          Machine.stepTraced_of_none hnone, traced_fault_bind]
      · rw [hgroup]
        exact hl.runTraced_stmt h hown hs hg hag' hvalues hrun
    · -- A label needs nothing that its loads would give.
      obtain rfl := Option.mem_unique ht hs
      rw [labelAt_eq hg hop]
      refine hl.runTraced_stmt h hown hs hg hag ?_ hrun
      rw [inputs_mapOperands, inputs_of_takesNothing (by rw [hop]; rfl)]
      rfl

end

end Laid

/-- **Spilled code does the same, with the same log.** -/
theorem Inserted.execTraced_code (h : Inserted body next a slots code n') (hown : OwnSlots body slots)
    (hlive : ¬ body.TakesAll → ∀ c, ¬ body.LiveAt c 0) (act : Activation) (budget : Nat) :
    (cellMachine code act).execTraced budget = (cellMachine body act).execTraced budget := by
  obtain ⟨gs, hl⟩ := h.exists_laid
  have hag : SpillAgree body code a.vars slots 0 .empty .empty := by
    refine ⟨fun _ _ => rfl, fun o c _ _ _ => ?_, fun _ _ _ _ _ _ _ _ => rfl,
      fun hall c hl => absurd hl (hlive hall c)⟩
    cases code.cell? o <;> rfl
  exact (hl.runTraced_eq h hown hag).symm

namespace Spilling

theorem shaped (h : Spilling body next a slots code n') (hshape : body.Shaped) : code.Shaped := by
  intro t ht
  cases h.groups.origin ht with
  | @kept s m loaded hs _ _ =>
    rw [isShaped_mapOperands]
    exact hshape s hs
  | load => rfl
  | store _ _ _ _ ht => rw [ht]; rfl

/-- **Spilled code does the same.** -/
theorem exec_code (h : Spilling body next a slots code n') (hfresh : FreshSlots body slots)
    (hshape : body.Shaped) (act : Activation) (budget : Nat) :
    (cellMachine code act).exec budget = (cellMachine body act).exec budget := by
  have htakes : body.TakesAll := by
    intro s hs
    rw [inputs_eq_reads (hshape s hs),
      reads_eq_uses (hshape s hs) (h.disciplined.copies s hs)]
    exact List.Subset.refl _
  have hcode : Erases ((cellMachine code act).execTraced budget) ((cellMachine code act).exec budget) :=
    Machine.erases_runTraced fun s hs => inputs_eq_reads (h.shaped hshape s hs)
  have hbody : Erases ((cellMachine body act).execTraced budget) ((cellMachine body act).exec budget) :=
    Machine.erases_runTraced fun s hs => inputs_eq_reads (hshape s hs)
  rw [h.inserted.execTraced_code hfresh.own (absurd htakes)] at hcode
  exact hcode.eq hbody

end Spilling

namespace Laid

theorem labelAt_eq_startOf (hl : Laid body code next a slots gs) (hshape : body.Shaped)
    (hs : body[pc]? = some s) (hop : s.op = .label) : labelAt gs pc = startOf gs pc := by
  have hshaped := hshape s (mem_of_getElem? hs)
  have huses : s.uses = [] := by
    rw [← reads_eq_uses hshaped (by simp [hop]), ← inputs_eq_reads hshaped]
    exact inputs_of_takesNothing (by rw [hop]; rfl)
  obtain ⟨m, loaded, _, hr, hg⟩ := hl.group pc s hs
  rw [huses] at hr
  rw [labelAt_eq hg hop, hr.eq_nil (by simp)]
  rfl

/-- **Labels are at the starts of their groups.** -/
theorem labels (hl : Laid body code next a slots gs) (h : Spilling body next a slots code n')
    (hshape : body.Shaped) : code.labels = body.labels.map fun e => (e.1, startOf gs e.2) := by
  rw [hl.labels_eq h.inserted]
  refine map_congr_left fun e he => ?_
  obtain ⟨s, hs, hop, _⟩ := Body.mem_labels.1 he
  rw [hl.labelAt_eq_startOf hshape hs hop]

theorem labelPosition? (hl : Laid body code next a slots gs)
    (h : Spilling body next a slots code n') (hshape : body.Shaped) (l : String) :
    code.labelPosition? l = (body.labelPosition? l).map (startOf gs) := by
  rw [hl.labelPosition?_eq h.inserted]
  refine Option.map_congr fun target htarget => ?_
  obtain ⟨s, hs, hop⟩ := Body.getElem?_of_labelPosition? htarget
  exact hl.labelAt_eq_startOf hshape hs hop

end Laid

end Spill

end MiniJava
