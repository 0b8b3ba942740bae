import Mathlib.Data.Finset.Max
import MiniJava.Proofs.Allocation.Colors
import MiniJava.Proofs.Allocation.Transit

/-!
# Register pressure

In a disciplined body pinned variables that interfere have different registers, although coloring
never compares them. And five registers are enough for what cannot be spilled: a reloaded value
competes with two other reloads or with four arguments or parameters, and a value that is only stored
competes with four parameters. So coloring leaves only spill candidates over.
-/

namespace MiniJava

open Ssa List Statement Option Variables

/-! ## Pins -/

namespace Ssa.Statement

variable {s : Statement} {p : Pin}

theorem position?_of_fixedPin?_eq_some (h : s.fixedPin? = some p) :
    (s.op = .arg ∨ s.op = .parameter) ∧ ∃ n, s.position? = some n ∧
      p = if n < 4 then .register n else .noRegister := by
  have hlen : Register.arguments.length = 4 := rfl
  rw [fixedPin?, hlen] at h
  split at h
  · next n hop hn =>
    split at h
    · next hlt =>
      cases h
      exact ⟨Or.inr hop, n, hn, (if_pos hlt).symm⟩
    · cases h
  · next n hop hn =>
    refine ⟨Or.inl hop, n, hn, ?_⟩
    rw [← apply_ite] at h
    exact (some.inj h).symm
  · cases h

theorem isTransit_of_fixedPin?_eq_some (h : s.fixedPin? = some p) : s.op.isTransit = true := by
  rcases (position?_of_fixedPin?_eq_some h).1 with hop | hop <;> rw [hop] <;> rfl

theorem position?_of_fixedPin?_eq_register {r : Nat} (h : s.fixedPin? = some (.register r)) :
    s.position? = some r ∧ r < 4 := by
  obtain ⟨_, n, hn, hp⟩ := position?_of_fixedPin?_eq_some h
  split at hp
  · cases hp
    exact ⟨hn, by assumption⟩
  · cases hp

end Ssa.Statement

def Ssa.Body.IsReload (body : Body) (c : Nat) : Prop :=
  ∃ s ∈ body, s.op = .load ∧ body.cell? s.id = some c

namespace Ssa.Body.Disciplined

variable {body : Body} {next : StmtId} {i j : Nat} {s t : Statement} {o : StmtId} {c d r : Nat}
  {p : Pin}

section

variable (h : body.Disciplined next)
include h

theorem exists_pinned (hp : (variableOf body.tracked c).pin? = some p) :
    ∃ s ∈ body, body.cell? s.id = some c ∧ s.fixedPin? = some p := by
  obtain ⟨i, s, hs, ht, rfl, hpin⟩ := pin?_variableOf_eq_some hp
  have hmem := mem_of_getElem? hs
  exact ⟨s, hmem, h.distinct.cell?_eq hs ht, h.pins s hmem ▸ hpin⟩

/-- **The pins of a variable agree.** -/
theorem exists_variables : ∃ vs, build body = .ok vs := by
  have hnone : conflict? body.tracked = none := by
    refine findSome?_eq_none_iff.2 ?_
    rintro ⟨s, i, r⟩ hmem
    obtain ⟨hs, ht, rfl⟩ := Body.mem_tracked.1 hmem
    dsimp only
    cases hp : s.pin? with
    | none => rfl
    | some p =>
      cases hv : (variableOf body.tracked (body.joined.root i)).pin? with
      | none => rfl
      | some q =>
        have hsmem := mem_of_getElem? hs
        have hfixed := h.pins s hsmem ▸ hp
        obtain ⟨t, htmem, htc, htpin⟩ := h.exists_pinned hv
        have heq := h.eq_of_cell?_eq_transit hsmem
          (isTransit_of_fixedPin?_eq_some hfixed) (h.distinct.cell?_eq hs ht) htc
        rw [h.eq_of_id_eq htmem hsmem heq, hfixed] at htpin
        obtain rfl := some.inj htpin
        exact if_pos rfl
  rw [build, hnone]
  exact ⟨_, rfl⟩

theorem exists_analysis : ∃ a, Analysis.of body = .ok a := by
  obtain ⟨vs, hvs⟩ := h.exists_variables
  rw [Analysis.of, hvs]
  exact ⟨_, rfl⟩

/-! ## What is on its way -/

theorem mem_loads (hs : s ∈ body) (hop : s.op = .load) (ho : s.id ∈ (body.pendingAt i).all) :
    s.id ∈ (body.pendingAt i).loads := by
  rcases h.of_mem_all hs ho with ⟨_, ho⟩ | ⟨hop', _⟩ | ⟨hop', _⟩
  · exact ho
  · rw [hop] at hop'
    cases hop'
  · rw [hop] at hop'
    cases hop'

theorem parameter_injective (hs : s ∈ body) (ht : t ∈ body) (hsop : s.op = .parameter)
    (htop : t.op = .parameter) (hpos : s.position? = t.position?) :
    s = t := by
  have hd := h.describes body.length
  rw [take_length] at hd
  exact hd.injective s hs t ht hsop htop hpos

/-- **Arguments or parameters on their way have different positions.** -/
theorem eq_of_position_eq (hs : s ∈ body) (ht : t ∈ body) (hsop : s.op = .arg ∨ s.op = .parameter)
    (htop : t.op = .arg ∨ t.op = .parameter) (hspos : s.position? = some r)
    (htpos : t.position? = some r) (hso : s.id ∈ (body.pendingAt i).all)
    (hto : t.id ∈ (body.pendingAt i).all) : s = t := by
  have hmixed : ∀ {n : Nat} {a b : StmtId}, (body.pendingAt i).args[n]? = some a →
      b ∉ (body.pendingAt i).params := by
    intro n a b hargs hparams
    rcases (h.describes i).exclusive with hnil | hnil
    · rw [hnil] at hargs
      cases hargs
    · rw [hnil] at hparams
      cases hparams
  rcases h.of_mem_all hs hso with ⟨hop, _⟩ | ⟨hop, n, hn, hsargs⟩ | ⟨hop, hsparams⟩
  · rw [hop] at hsop
    simp at hsop
  · rcases h.of_mem_all ht hto with ⟨hop, _⟩ | ⟨_, m, hm, htargs⟩ | ⟨_, htparams⟩
    · rw [hop] at htop
      simp at htop
    · rw [hspos] at hn
      rw [htpos] at hm
      cases hn
      cases hm
      exact h.eq_of_id_eq hs ht (mem_unique hsargs htargs)
    · exact absurd htparams (hmixed hsargs)
  · rcases h.of_mem_all ht hto with ⟨hop, _⟩ | ⟨_, _, _, htargs⟩ | ⟨htop, _⟩
    · rw [hop] at htop
      simp at htop
    · exact absurd hsparams (hmixed htargs)
    · exact h.parameter_injective hs ht hop htop (hspos.trans htpos.symm)

/-- **Values pinned to one register do not interfere.** -/
theorem not_interferes_pinned (hs : s ∈ body) (ht : t ∈ body)
    (hsp : s.fixedPin? = some (.register r)) (htp : t.fixedPin? = some (.register r))
    (hc : body.cell? s.id = some c) (hd : body.cell? t.id = some d) : ¬ body.Interferes c d := by
  rintro ⟨hne, i, hci, hdi⟩
  have hso := h.mem_pendingAt_of_occupies hs (isTransit_of_fixedPin?_eq_some hsp) hc hci
  have hto := h.mem_pendingAt_of_occupies ht (isTransit_of_fixedPin?_eq_some htp) hd hdi
  obtain rfl := h.eq_of_position_eq hs ht (position?_of_fixedPin?_eq_some hsp).1
    (position?_of_fixedPin?_eq_some htp).1
    (position?_of_fixedPin?_eq_register hsp).1
    (position?_of_fixedPin?_eq_register htp).1 hso hto
  exact hne (mem_unique hc hd)

/-! ## Cells that cannot be spilled -/

theorem exists_writes (hc : body.cellAt? i = some c) : ∃ j, body.Writes j c := by
  induction i using Nat.strongRecOn with
  | ind i ih =>
    obtain ⟨s, hs, ht, _⟩ := cellAt?_eq_some.1 hc
    rw [isTracked, Bool.or_eq_true] at ht
    rcases ht with hd | hmerge
    · exact ⟨i, s, hs, hd, hc⟩
    · -- A merge is in the cell of its operands, which are earlier.
      obtain ⟨hne, hvalues⟩ := (h.admits hs).merge hmerge
      obtain ⟨o, ho⟩ := exists_mem_of_ne_nil _ hne
      obtain ⟨t, ht, rfl, htr, _⟩ :=
        (h.describes i).values o (hvalues o (of_mem_mergeOperands ho).2)
      obtain ⟨j, hj⟩ := mem_iff_getElem?.1 ht
      rw [getElem?_take] at hj
      split at hj
      · next hlt =>
        refine ih j hlt ?_
        rw [← h.distinct.cell?_eq_cellAt? hj, cell?_mergeOperand h.distinct hs hj htr ho,
          h.distinct.cell?_eq_cellAt? hs, hc]
      · cases hj

theorem not_readOutside (hc : c ∈ body.cells)
    (hn : ¬ (body.ReadOutside c ∧ body.WrittenOutside c)) (hr : ¬ body.IsReload c) :
    ¬ body.ReadOutside c := by
  obtain ⟨i, hi⟩ := mem_cells.1 hc
  obtain ⟨j, s, hs, hd, hcell⟩ := h.exists_writes hi
  refine fun hread => hn ⟨hread, j, s, hs, fun hop => hr ?_, s, hs, hd, hcell⟩
  exact ⟨s, mem_of_getElem? hs, hop, by rw [h.distinct.cell?_eq_cellAt? hs, hcell]⟩

section

variable (hread : ¬ body.ReadOutside c) (hr : ¬ body.IsReload c) (hf : body.Free c)
include hread hr hf

theorem exists_writer_of_interferes (hi : body.Interferes c d) :
    ∃ i s, body[i]? = some s ∧ s.op ≠ .load ∧ s.op ≠ .arg ∧ body.Writes i c ∧
      body.Occupies d i := by
  obtain ⟨_, i, hci, hdi⟩ := hi
  have hw := h.writes_of_occupies hread hci
  obtain ⟨s, hs, hd, hcell⟩ := hw
  have hmem := mem_of_getElem? hs
  have hid : body.cell? s.id = some c := by rw [h.distinct.cell?_eq_cellAt? hs, hcell]
  exact ⟨i, s, hs, fun hop => hr ⟨s, hmem, hop, hid⟩, fun hop => h.fixedPin?_arg hmem hop
    (hf s hmem hid), ⟨s, hs, hd, hcell⟩, hdi⟩

/-- **A value that is only stored competes with no other value that cannot be spilled.** -/
theorem not_interferes_stored (hd : body.IsReload d ∨ ¬ body.ReadOutside d) :
    ¬ body.Interferes c d := by
  intro hi
  obtain ⟨i, s, hs, hload, _, hw, ho⟩ := h.exists_writer_of_interferes hread hr hf hi
  rcases hd with ⟨t, ht, hop, hcell⟩ | hread'
  · have hmem := h.mem_pendingAt_of_occupies ht (by rw [hop]; rfl) hcell ho
    have hloads := h.mem_loads ht hop hmem
    rw [pendingAt_succ hs, Pending.next_loads_of_ne hload] at hloads
    cases hloads
  · obtain ⟨_, _, _, hcd⟩ := h.writes_of_occupies hread' ho
    obtain ⟨_, _, _, hcc⟩ := hw
    exact hi.1 (mem_unique hcc hcd)

/-- **A value that is only stored competes with no argument.** -/
theorem parameter_of_interferes_stored (ht : t ∈ body) (hp : t.fixedPin? = some p)
    (hd : body.cell? t.id = some d) (hi : body.Interferes c d) : t.op = .parameter := by
  obtain ⟨i, s, hs, hload, harg, _, ho⟩ := h.exists_writer_of_interferes hread hr hf hi
  have hmem := h.mem_pendingAt_of_occupies ht (isTransit_of_fixedPin?_eq_some hp) hd ho
  rcases h.of_mem_all ht hmem with ⟨hop, _⟩ | ⟨_, n, _, hn⟩ | ⟨hop, _⟩
  · rcases (position?_of_fixedPin?_eq_some hp).1 with hop' | hop' <;>
      rw [hop] at hop' <;> cases hop'
  · rw [pendingAt_succ hs, Pending.next_args_of_ne hload harg] at hn
    cases hn
  · exact hop

end

/-- **A reloaded value competes only with what is on its way when it is loaded**, if other reloads are
earlier. -/
theorem mem_pendingAt_of_interferes_reload (hs : body[i]? = some s) (hop : s.op = .load)
    (hc : body.cell? s.id = some c) (ht : body[j]? = some t) (htop : t.op.isTransit = true)
    (hd : body.cell? t.id = some d) (hi : body.Interferes c d) (hlast : t.op = .load → j ≤ i) :
    t.id ∈ (body.pendingAt (i + 1)).all := by
  have hsmem := mem_of_getElem? hs
  have htmem := mem_of_getElem? ht
  obtain ⟨_, m, hcm, hdm⟩ := hi
  have hlen := Analyses.lt_length_of_occupies hcm
  have hsm := h.mem_pendingAt_of_occupies hsmem (by rw [hop]; rfl) hc hcm
  have htm := h.mem_pendingAt_of_occupies htmem htop hd hdm
  have him := h.lt_of_mem_all hs hsm
  have hjm := h.lt_of_mem_all ht htm
  rcases Nat.lt_or_ge i j with hij | hji
  · -- Whatever is sent off later, other than a reload, finds the reload read.
    have htload : t.op ≠ .load := fun hload => Nat.not_lt.2 (hlast hload) hij
    have hsj := h.mem_all_of_le hs (show i < j + 1 by omega) (show j + 1 ≤ m + 1 by omega)
      (by omega) hsm
    have hloads := h.mem_loads hsmem hop hsj
    rw [pendingAt_succ ht, Pending.next_loads_of_ne htload] at hloads
    cases hloads
  · exact h.mem_all_of_le ht (show j < i + 1 by omega) (show i + 1 ≤ m + 1 by omega) (by omega) htm

end

end Ssa.Body.Disciplined

/-! ## Coloring -/

def Analysis.problem (a : Analysis) (k : Nat) : ColoringProblem :=
  { graph := a.graph, pins := a.vars.pins, colors := k, candidates := a.candidates }

theorem Analysis.coloring_eq (a : Analysis) (k : Nat) : a.coloring k = (a.problem k).solve := rfl

namespace Analyses

variable {body : Body} {next : StmtId} {a : Analysis} {k u v c d r i : Nat} {s : Statement}

section

variable (h : Analyses body a)
include h

theorem size_graph : a.graph.size = body.cells.length := by
  rw [← h.numbers.size_eq, h.graph, InterferenceGraph.size, InterferenceGraph.build]
  simp

theorem exists_cell_of_mem_neighbours (hu : u ∈ a.graph.neighbours v) :
    ∃ c, body.cells[v]? = some c := by
  suffices hv : v < a.graph.size from ⟨_, getElem?_eq_getElem (h.size_graph ▸ hv)⟩
  by_contra hv
  rw [InterferenceGraph.neighbours, Array.getD_eq_getD_getElem?, Array.getElem?_eq_none
    (Nat.le_of_not_lt hv)] at hu
  cases hu

theorem lawful (k : Nat) : (a.problem k).Lawful where
  symm := by
    intro u v hu
    obtain ⟨c, hc⟩ := h.exists_cell_of_mem_neighbours hu
    obtain ⟨d, hd, hi⟩ := (h.mem_neighbours hc).1 hu
    exact (h.mem_neighbours hd).2 ⟨c, hc, hi.symm⟩
  irrefl := by
    intro v hv
    obtain ⟨c, hc⟩ := h.exists_cell_of_mem_neighbours hv
    obtain ⟨d, hd, hne, _⟩ := (h.mem_neighbours hc).1 hv
    exact hne (mem_unique hc hd)
  lt := by
    intro u v hu
    obtain ⟨c, hc⟩ := h.exists_cell_of_mem_neighbours hu
    obtain ⟨d, hd, _⟩ := (h.mem_neighbours hc).1 hu
    exact h.size_graph.symm ▸ lt_of_getElem? hd

theorem pin?_problem (hc : body.cells[v]? = some c) :
    (a.problem k).pin? v = (variableOf body.tracked c).pin? :=
  h.numbers.pins_eq hc

theorem free_of_pin?_eq_none (hb : body.Disciplined next) (hc : body.cells[v]? = some c)
    (hp : (a.problem k).pin? v = none) : body.Free c := by
  intro s hs hcell
  obtain ⟨i, hi⟩ := mem_iff_getElem?.1 hs
  rw [h.pin?_problem hc] at hp
  rw [hb.distinct.cell?_eq_cellAt? hi] at hcell
  obtain ⟨t, ht, htr, rfl⟩ := Body.cellAt?_eq_some.1 hcell
  obtain rfl := mem_unique hi ht
  cases hpin : s.pin? with
  | none => rw [← hb.pins s hs, hpin]
  | some p =>
    rw [h.numbers.agree i s p hi htr hpin] at hp
    cases hp

theorem exists_pinned_register (hb : body.Disciplined next) (hc : body.cells[v]? = some c)
    (hr : (a.problem k).pinnedRegister? v = some r) :
    ∃ s ∈ body, body.cell? s.id = some c ∧ s.fixedPin? = some (.register r) := by
  rw [ColoringProblem.pinnedRegister?, bind_eq_some_iff] at hr
  obtain ⟨p, hp, hr⟩ := hr
  rw [h.pin?_problem hc] at hp
  obtain ⟨s, hs, hcell, hpin⟩ := hb.exists_pinned hp
  cases p with
  | register n =>
    obtain rfl : n = r := some.inj hr
    exact ⟨s, hs, hcell, hpin⟩
  | noRegister => cases hr

end

theorem length_le_four (body : Body) (a : Analysis) (k : Nat) (Q : Statement → Prop) {l : List Nat}
    (hl : l.Nodup)
    (hQ : ∀ u ∈ l, ∃ d r s, body.cells[u]? = some d ∧ (a.problem k).pinnedRegister? u = some r ∧
      Q s ∧ body.cell? s.id = some d ∧ s.fixedPin? = some (.register r))
    (hinj : ∀ s t r, Q s → Q t → s.position? = some r → t.position? = some r → s = t) :
    l.length ≤ 4 := by
  have hnodup : (l.map (a.problem k).pinnedRegister?).Nodup := by
    refine hl.map_on fun u hu w hw heq => ?_
    obtain ⟨d, r, s, hd, hr, hs, hcell, hpin⟩ := hQ u hu
    obtain ⟨d', r', s', hd', hr', hs', hcell', hpin'⟩ := hQ w hw
    rw [hr, hr', some.injEq] at heq
    subst heq
    obtain rfl := hinj s s' r hs hs' (position?_of_fixedPin?_eq_register hpin).1
      (position?_of_fixedPin?_eq_register hpin').1
    obtain rfl := mem_unique hcell hcell'
    exact (getElem?_inj (lt_of_getElem? hd) body.nodup_cells).1
      (hd.trans hd'.symm)
  have hsub : l.map (a.problem k).pinnedRegister? ⊆ (range 4).map some := by
    intro x hx
    obtain ⟨u, hu, rfl⟩ := mem_map.1 hx
    obtain ⟨_, r, _, _, hr, _, _, hpin⟩ := hQ u hu
    rw [hr]
    exact mem_map_of_mem
      (mem_range.2 (position?_of_fixedPin?_eq_register hpin).2)
  simpa using hnodup.length_le_of_subset hsub

theorem nodup_neighbours (h : Analyses body a) (v : Nat) : (a.graph.neighbours v).Nodup := by
  by_cases hv : v < a.vars.size
  · have hrow : a.graph.neighbours v =
        InterferenceGraph.row (InterferenceGraph.cliques a.live) v := by
      rw [h.graph, InterferenceGraph.neighbours, InterferenceGraph.build]
      simp [hv]
    rw [hrow, InterferenceGraph.row]
    exact (VarSet.pairwise_toList _).imp fun hlt => Nat.ne_of_lt hlt
  · have hnil : a.graph.neighbours v = [] := by
      rw [h.graph, InterferenceGraph.neighbours, InterferenceGraph.build]
      simp [hv]
    rw [hnil]
    exact nodup_nil

def Stuck (a : Analysis) (k : Nat) (active : VarSet) : Prop :=
  ∀ v ∈ active, v < (a.problem k).graph.size ∧ (a.problem k).pin? v = none ∧
    v ∉ (a.problem k).candidates

section Stuck

variable {active : VarSet}

theorem Stuck.exists_cell (hs : Stuck a k active) (h : Analyses body a)
    (hb : body.Disciplined next) (hv : v ∈ active) :
    ∃ c, body.cells[v]? = some c ∧ body.Free c ∧ (¬ body.IsReload c → ¬ body.ReadOutside c) := by
  obtain ⟨hlt, hpin, hcand⟩ := hs v hv
  have hc := getElem?_eq_getElem (show v < body.cells.length from h.size_graph ▸ hlt)
  refine ⟨_, hc, h.free_of_pin?_eq_none hb hc hpin, fun hr => ?_⟩
  exact hb.not_readOutside (getElem_mem _) (fun hn => hcand ((h.mem_candidates hc).2 hn)) hr

section

variable (h : Analyses body a) (hb : body.Disciplined next)
include h hb

theorem mem_present (hc : body.cells[v]? = some c)
    (hu : u ∈ (a.graph.neighbours v).filter (active.union (a.problem k).pinnedToRegister).contains) :
    ∃ d, body.cells[u]? = some d ∧ body.Interferes c d ∧ (u ∈ active ∨ ∃ r s,
      (a.problem k).pinnedRegister? u = some r ∧ s ∈ body ∧ body.cell? s.id = some d ∧
        s.fixedPin? = some (.register r)) := by
  obtain ⟨hu, hpresent⟩ := mem_filter.1 hu
  obtain ⟨d, hd, hi⟩ := (h.mem_neighbours hc).1 hu
  refine ⟨d, hd, hi, (VarSet.mem_union.1 (VarSet.contains_iff.1 hpresent)).imp_right fun hp => ?_⟩
  obtain ⟨_, hsome⟩ := ColoringProblem.mem_pinnedToRegister.1 hp
  obtain ⟨r, hr⟩ := isSome_iff_exists.1 hsome
  obtain ⟨s, hs, hcell, hpin⟩ := h.exists_pinned_register hb hd hr
  exact ⟨r, s, hr, hs, hcell, hpin⟩

/-- **A value that is only stored competes with at most four parameters.** -/
theorem degree_le_of_stored (hs : Stuck a k active) (hv : v ∈ active)
    (hc : body.cells[v]? = some c) (hr : ¬ body.IsReload c) :
    (a.problem k).degree (active.union (a.problem k).pinnedToRegister) v ≤ 4 := by
  obtain ⟨c', hc', hfree, hread⟩ := hs.exists_cell h hb hv
  obtain rfl := mem_unique hc' hc
  refine length_le_four body a k (fun s => s ∈ body ∧ s.op = .parameter)
    ((h.nodup_neighbours v).filter _) (fun u hu => ?_) ?_
  · obtain ⟨d, hd, hi, hu | ⟨r, s, hreg, hsmem, hcell, hpin⟩⟩ := h.mem_present hb hc hu
    · obtain ⟨d', hd', _, hread'⟩ := hs.exists_cell h hb hu
      obtain rfl := mem_unique hd' hd
      refine absurd hi (hb.not_interferes_stored (hread hr) hr hfree ?_)
      by_cases hrd : body.IsReload d'
      · exact Or.inl hrd
      · exact Or.inr (hread' hrd)
    · have hop := hb.parameter_of_interferes_stored (hread hr) hr hfree hsmem hpin hcell hi
      exact ⟨d, r, s, hd, hreg, ⟨hsmem, hop⟩, hcell, hpin⟩
  · rintro s t r ⟨hs, hsop⟩ ⟨ht, htop⟩ hspos htpos
    exact hb.parameter_injective hs ht hsop htop (hspos.trans htpos.symm)

theorem exists_pending_of_reload (hc : body.cells[v]? = some c) (hs : body[i]? = some s)
    (hop : s.op = .load) (hcell : body.cell? s.id = some c)
    (hlast : ∀ u ∈ active, ∃ d j t, body.cells[u]? = some d ∧ body[j]? = some t ∧ t.op = .load ∧ body.cell? t.id = some d ∧ j ≤ i)
    (hu : u ∈ (a.graph.neighbours v).filter (active.union (a.problem k).pinnedToRegister).contains) :
    ∃ d t, body.cells[u]? = some d ∧ t ∈ body ∧ body.cell? t.id = some d ∧
      (t.id ∈ (body.pendingAt i).loads ∨ t.id ∈ (body.pendingAt (i + 1)).all ∧ ∃ r,
        (a.problem k).pinnedRegister? u = some r ∧ t.fixedPin? = some (.register r)) := by
  obtain ⟨d, hd, hi, hu | ⟨r, t, hreg, htmem, htcell, hpin⟩⟩ := h.mem_present hb hc hu
  · obtain ⟨d', j, t, hd', ht, htop, htcell, hji⟩ := hlast u hu
    obtain rfl := mem_unique hd' hd
    have htmem := mem_of_getElem? ht
    have hall := hb.mem_pendingAt_of_interferes_reload hs hop hcell ht (by rw [htop]; rfl) htcell hi
      fun _ => hji
    have hloads := hb.mem_loads htmem htop hall
    rw [Body.pendingAt_succ hs, Pending.next, if_pos hop, mem_append, mem_singleton]
      at hloads
    refine ⟨d', t, hd, htmem, htcell, Or.inl (hloads.resolve_right fun hid => hi.1 ?_)⟩
    rw [hid, hcell] at htcell
    exact some.inj htcell
  · obtain ⟨j, ht⟩ := mem_iff_getElem?.1 htmem
    have htr := isTransit_of_fixedPin?_eq_some hpin
    have hall := hb.mem_pendingAt_of_interferes_reload hs hop hcell ht htr htcell hi fun htop => by
      rcases (position?_of_fixedPin?_eq_some hpin).1 with hop' | hop' <;>
        rw [htop] at hop' <;> cases hop'
    exact ⟨d, t, hd, htmem, htcell, Or.inr ⟨hall, r, hreg, hpin⟩⟩

/-- **A reloaded value competes with at most two reloads or four arguments or parameters**, if no other
reload is later. -/
theorem degree_le_of_reload (hc : body.cells[v]? = some c) (hs : body[i]? = some s)
    (hop : s.op = .load) (hcell : body.cell? s.id = some c)
    (hlast : ∀ u ∈ active, ∃ d j t, body.cells[u]? = some d ∧ body[j]? = some t ∧ t.op = .load ∧ body.cell? t.id = some d ∧ j ≤ i) :
    (a.problem k).degree (active.union (a.problem k).pinnedToRegister) v ≤ 4 := by
  have hnodup := (h.nodup_neighbours v).filter
    (active.union (a.problem k).pinnedToRegister).contains
  have hwidth := ((hb.admits hs).load hop).2
  rw [Pending.width] at hwidth
  split at hwidth
  · next hnone =>
    -- Only reloads are on their way.
    have hsub : (a.graph.neighbours v).filter
        (active.union (a.problem k).pinnedToRegister).contains ⊆
          (body.pendingAt i).loads.filterMap a.vars.of? := by
      intro u hu
      obtain ⟨d, t, hd, htmem, htcell, hloads | ⟨hall, r, _, hpin⟩⟩ :=
        h.exists_pending_of_reload hb hc hs hop hcell hlast hu
      · exact mem_filterMap.2 ⟨t.id, hloads, h.numbers.of?_eq_some.2 ⟨d, htcell, hd⟩⟩
      · have hempty : (body.pendingAt (i + 1)).args = [] ∧ (body.pendingAt (i + 1)).params = [] := by
          rw [Body.pendingAt_succ hs, Pending.next]
          simp only [hop]
          exact hnone
        rcases hb.of_mem_all htmem hall with ⟨htop, _⟩ | ⟨_, n, _, hn⟩ | ⟨_, hparams⟩
        · rcases (position?_of_fixedPin?_eq_some hpin).1 with hop' | hop' <;>
            rw [htop] at hop' <;> cases hop'
        · rw [hempty.1] at hn
          cases hn
        · rw [hempty.2] at hparams
          cases hparams
    refine (hnodup.length_le_of_subset hsub).trans ?_
    exact (length_filterMap_le _ _).trans (by omega)
  · -- No other reload is on its way.
    have hnil : (body.pendingAt i).loads = [] := eq_nil_of_length_eq_zero (by omega)
    refine length_le_four body a k (fun t => t ∈ body ∧ (t.op = .arg ∨ t.op = .parameter) ∧
      t.id ∈ (body.pendingAt (i + 1)).all) hnodup (fun u hu => ?_) ?_
    · obtain ⟨d, t, hd, htmem, htcell, hloads | ⟨hall, r, hreg, hpin⟩⟩ :=
        h.exists_pending_of_reload hb hc hs hop hcell hlast hu
      · rw [hnil] at hloads
        cases hloads
      · exact ⟨d, r, t, hd, hreg,
          ⟨htmem, (position?_of_fixedPin?_eq_some hpin).1, hall⟩, htcell, hpin⟩
    · rintro s t r ⟨hs, hsop, hsall⟩ ⟨ht, htop, htall⟩ hspos htpos
      exact hb.eq_of_position_eq hs ht hsop htop hspos htpos hsall htall

/-- **Among variables that cannot be spilled, one has at most four neighbours.** -/
theorem exists_degree_le (hs : Stuck a k active) (hne : ∃ v, v ∈ active) :
    ∃ v ∈ active, (a.problem k).degree (active.union (a.problem k).pinnedToRegister) v ≤ 4 := by
  by_cases hstored : ∃ v ∈ active, ∃ c, body.cells[v]? = some c ∧ ¬ body.IsReload c
  · obtain ⟨v, hv, c, hc, hr⟩ := hstored
    exact ⟨v, hv, h.degree_le_of_stored hb hs hv hc hr⟩
  · -- Only reloads are left: take the last one.
    have hall : ∀ v ∈ active, ∃ (c j : Nat) (t : Statement), body.cells[v]? = some c ∧
        body[j]? = some t ∧ t.op = .load ∧ body.cell? t.id = some c := by
      intro v hv
      obtain ⟨c, hc, _⟩ := hs.exists_cell h hb hv
      have hr : body.IsReload c := by
        by_contra hr
        exact hstored ⟨v, hv, c, hc, hr⟩
      obtain ⟨t, ht, hop, hcell⟩ := hr
      obtain ⟨j, hj⟩ := mem_iff_getElem?.1 ht
      exact ⟨c, j, t, hc, hj, hop, hcell⟩
    choose! cell pos stmt hcells hpos hop hcell using hall
    obtain ⟨v₀, hv₀⟩ := hne
    obtain ⟨v, hv, hmax⟩ := Finset.exists_max_image active.toList.toFinset pos
      ⟨v₀, mem_toFinset.2 (VarSet.mem_toList.2 hv₀)⟩
    have hv := VarSet.mem_toList.1 (mem_toFinset.1 hv)
    refine ⟨v, hv, h.degree_le_of_reload hb (hcells v hv) (hpos v hv) (hop v hv) (hcell v hv)
      fun u hu => ⟨cell u, pos u, stmt u hu, hcells u hu, hpos u hu, hop u hu, hcell u hu, ?_⟩⟩
    exact hmax u (mem_toFinset.2 (VarSet.mem_toList.2 hu))

/-- **With five registers, coloring leaves only spill candidates over.** -/
theorem mem_candidates_of_uncolored (hk : 5 ≤ k) (hv : v ∈ (a.coloring k).uncolored) :
    v ∈ a.candidates := by
  refine ColoringProblem.mem_candidates_of_uncolored (h.lawful k) (fun active hne hs => ?_) hv
  obtain ⟨u, hu, hdegree⟩ := h.exists_degree_le hb hs hne
  exact ⟨u, hu, Nat.lt_of_le_of_lt hdegree hk⟩

end

end Stuck

end Analyses

end MiniJava
