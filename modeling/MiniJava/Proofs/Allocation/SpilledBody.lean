import MiniJava.Proofs.Allocation.SpillDiscipline

/-!
# Spilled bodies

Statements with a cell in common in the spilled body had one before, and every load has a cell of its
own. A spilled variable is read by its stores only. So a spilled body is disciplined again, and there
is less left to spill.
-/

namespace MiniJava

open Ssa List Statement

theorem Ssa.Body.Disciplined.isTracked_mergeOperand {body : Body} {next : StmtId}
    (h : body.Disciplined next) {s : Statement} (hs : s ∈ body) {o : StmtId}
    (ho : o ∈ s.mergeOperands) : ∃ t ∈ body, t.id = o ∧ t.isTracked = true := by
  obtain ⟨i, hi⟩ := mem_iff_getElem?.1 hs
  obtain ⟨hmerge, hmem⟩ := of_mem_mergeOperands ho
  have hvalue := ((h.admits hi).merge hmerge).2 o hmem
  obtain ⟨t, ht, hid, htr, _⟩ := (h.describes i).values o hvalue
  exact ⟨t, mem_of_mem_take ht, hid, htr⟩

namespace Spill

variable {body : Body} {next : StmtId} {a : Analysis} {slots : Slots} {o : StmtId} {c n' : Nat}
  {s t : Statement} {code : Body}

structure Spilling (body : Body) (next : StmtId) (a : Analysis) (slots : Slots) (code : Body)
    (n' : Nat) : Prop where
  disciplined : body.Disciplined next
  analyses : Analyses body a
  choice : Choice body slots
  groups : Groups body a.vars a.live slots 0 next body code n'

namespace Spilling

section

variable (h : Spilling body next a slots code n')
include h

theorem distinct : code.DistinctIds :=
  h.groups.distinct h.disciplined.distinct h.disciplined.bounded

theorem bounded : ∀ s ∈ code, s.id < n' :=
  fun _ hs => h.groups.id_lt h.disciplined.bounded hs

theorem cell?_fresh (ho : next ≤ o) : body.cell? o = none := by
  by_contra hne
  obtain ⟨c, hc⟩ := Option.ne_none_iff_exists'.1 hne
  obtain ⟨i, s, hs, rfl, _⟩ := Body.cell?_eq_some hc
  exact absurd (h.disciplined.bounded s (mem_of_getElem? hs)) (Nat.not_lt.2 ho)

theorem cell?_eq_of_code {p q : StmtId} (hp : code.cell? p = some c) (hq : code.cell? q = some c) :
    p = q ∨ body.cell? p = body.cell? q ∧ body.cell? p ≠ none :=
  Body.cell?_eq_of_merges h.disciplined.distinct
    (fun s hs hne => h.groups.mem_of_isMerge hs (by
      obtain ⟨o, ho⟩ := exists_mem_of_ne_nil _ hne
      exact (of_mem_mergeOperands ho).1))
    (fun _ hs _ ho => h.disciplined.isTracked_mergeOperand hs ho) hp hq

theorem eq_of_cell?_eq_fresh {p : StmtId} (ho : next ≤ o) (hc : code.cell? o = some c)
    (hp : code.cell? p = some c) : p = o := by
  rcases h.cell?_eq_of_code hc hp with heq | ⟨_, hne⟩
  · exact heq.symm
  · exact absurd (h.cell?_fresh ho) hne

/-! ### What is read -/

theorem readOutside_of_code (ho : o < next) (hc : code.cell? o = some c) (hr : code.ReadOutside c) :
    spilled? a.vars slots o = none ∧ ∃ d, body.cell? o = some d ∧ body.ReadOutside d := by
  obtain ⟨t, ht, hop, o', ho', hc'⟩ := hr
  cases h.groups.origin ht with
  | @kept s m loaded hs hm hreloads =>
    rw [uses_mapOperands] at ho'
    obtain ⟨x, hx, rfl⟩ := mem_map.1 ho'
    rcases hreloads.reloadOf_eq_or_le x with ⟨heq, hx'⟩ | ⟨hle, _⟩
    · rw [heq] at hc'
      have hnone := hx'.resolve_right (not_not_intro hx)
      obtain ⟨i, hi⟩ := mem_iff_getElem?.1 hs
      obtain ⟨u, hu, hid, htr⟩ := h.disciplined.exists_of_mem_uses hi hx
      obtain ⟨j, hj⟩ := mem_iff_getElem?.1 (mem_of_mem_take hu)
      have hcell : body.cell? x = some (body.joined.root j) := by
        rw [← hid]
        exact h.disciplined.distinct.cell?_eq hj htr
      have hsame : body.cell? o = body.cell? x := by
        rcases h.cell?_eq_of_code hc hc' with rfl | ⟨hsame, _⟩
        · rfl
        · exact hsame
      refine ⟨(spilled?_congr h.analyses hsame).trans hnone, _, hsame.trans hcell, s, hs, hop, x, hx,
        hcell⟩
    · have heq := h.eq_of_cell?_eq_fresh (Nat.le_trans hm hle) hc' hc
      exact absurd ho (Nat.not_lt.2 (heq ▸ Nat.le_trans hm hle))
  | load => cases ho'
  | store _ _ _ _ ht => rw [ht] at hop; exact absurd rfl hop

theorem stored (ht : t ∈ code) (hop : t.op = .store) (ho : o ∈ t.uses)
    (hc : code.cell? o = some c) : ¬ code.ReadOutside c := by
  intro hr
  cases h.groups.origin ht with
  | @kept s m loaded hs hm hreloads =>
    rw [uses_mapOperands] at ho
    obtain ⟨x, hx, rfl⟩ := mem_map.1 ho
    have hnone := h.choice.spilled?_stored h.analyses h.disciplined hs hop hx
    rw [Reloads.reloadOf_of_none hnone] at hc
    obtain ⟨_, d, hd, hr'⟩ := h.readOutside_of_code (h.disciplined.lt_of_mem_uses hs hx) hc hr
    exact h.disciplined.stored s hs hop x hx d hd hr'
  | load => cases hop
  | @store j slot id s _ hs hslot _ _ ht =>
    subst ht
    obtain rfl : o = s.id := mem_singleton.1 ho
    rw [Nat.zero_add] at hslot
    obtain ⟨_, v, hv⟩ := spilled?_of_storeSlot? h.analyses h.disciplined hs hslot
    have hnone := (h.readOutside_of_code
      (h.disciplined.bounded s (mem_of_getElem? hs)) hc hr).1
    rw [hv] at hnone
    cases hnone

/-- **A spilled body is disciplined.** -/
theorem disciplined_code : code.Disciplined n' where
  distinct := h.distinct
  bounded := h.bounded
  flows := h.choice.flows_groups h.analyses h.disciplined h.groups (Nat.le_refl _) rfl
    ⟨rfl, rfl, rfl, rfl, fun _ ho => ho, fun _ ho _ => ho⟩
  stored := fun _ ht hop _ ho _ hc => h.stored ht hop ho hc
  pins := by
    intro t ht
    cases h.groups.origin ht with
    | @kept s m loaded hs _ _ =>
      rw [fixedPin?, mapOperands_position?]
      exact h.disciplined.pins s hs
    | load => rfl
    | store _ _ _ _ ht => rw [ht]; rfl
  copies := by
    intro t ht hop
    cases h.groups.origin ht with
    | @kept s m loaded hs _ _ =>
      rw [mapOperands_right?, h.disciplined.copies s hs hop]
      rfl
    | load => cases hop
    | store _ _ _ _ ht => rw [ht] at hop; cases hop

end

end Spilling

end Spill

/-! ## Progress -/

open Classical in
/-- The numbers of the values that other statements than stores read, apart from reloaded ones. -/
noncomputable def Ssa.Body.spillable (body : Body) : Finset StmtId :=
  ((body.filter fun s => decide (s.op.definesValue = true ∧ s.op ≠ .load ∧
    ∃ c, body.cell? s.id = some c ∧ body.ReadOutside c)).map (·.id)).toFinset

theorem Ssa.Body.mem_spillable {body : Body} {id : StmtId} :
    id ∈ body.spillable ↔ ∃ s ∈ body, s.id = id ∧ s.op.definesValue = true ∧ s.op ≠ .load ∧
      ∃ c, body.cell? s.id = some c ∧ body.ReadOutside c := by
  simp only [spillable, mem_toFinset, mem_map, mem_filter, decide_eq_true_eq]
  constructor
  · rintro ⟨s, ⟨hs, h⟩, hid⟩
    exact ⟨s, hs, hid, h⟩
  · rintro ⟨s, hs, hid, h⟩
    exact ⟨s, ⟨hs, h⟩, hid⟩

theorem Ssa.Body.card_spillable_le (body : Body) : body.spillable.card ≤ body.length := by
  refine (toFinset_card_le _).trans ?_
  rw [length_map]
  exact length_filter_le _ _

/-- **Spilling leaves less to spill.** -/
theorem Spill.Spilling.card_spillable_lt {body : Body} {next : StmtId} {a : Analysis} {slots : Slots}
    {code : Body} {n' v slot : Nat} (h : Spilling body next a slots code n')
    (hv : slots.lookup v = some slot) : code.spillable.card < body.spillable.card := by
  refine Finset.card_lt_card ⟨fun id hid => ?_, fun hsub => ?_⟩
  · obtain ⟨t, ht, rfl, hd, hop, c, hc, hr⟩ := Body.mem_spillable.1 hid
    cases h.groups.origin ht with
    | @kept s m loaded hs _ _ =>
      obtain ⟨_, d, hcell, hread⟩ := h.readOutside_of_code (h.disciplined.bounded s hs) hc hr
      exact Body.mem_spillable.2 ⟨s, hs, rfl, hd, hop, d, hcell, hread⟩
    | load => exact absurd rfl hop
    | store _ _ _ _ ht => rw [ht] at hd; cases hd
  · obtain ⟨c, hcv, hr, ⟨i, s, hs, hop, s', hs', hd, hcell⟩, _⟩ := h.choice.cell v slot hv
    obtain rfl := Option.mem_unique hs hs'
    rw [← h.disciplined.distinct.cell?_eq_cellAt? hs] at hcell
    have hmem := mem_of_getElem? hs
    obtain ⟨t, _, hid, _, _, d, hc, hr'⟩ := Body.mem_spillable.1
      (hsub (Body.mem_spillable.2 ⟨s, hmem, rfl, hd, hop, c, hcell, hr⟩))
    rw [hid] at hc
    have hnone := (h.readOutside_of_code (h.disciplined.bounded s hmem) hc hr').1
    have hsome := spilled?_eq_some.2 ⟨h.analyses.numbers.of?_eq_some.2 ⟨c, hcell, hcv⟩, slot, hv⟩
    rw [hnone] at hsome
    cases hsome

end MiniJava
