import MiniJava.Proofs.Allocation.LiveSets
import MiniJava.Proofs.Allocation.Webs
import MiniJava.Proofs.Results

/-!
# Live ranges

A cell is live before a statement if some path from there reads it before it is written. The live sets
of a body are about the variables that number its cells, so paths can be used to say where a cell is live,
and the data-flow equations to say where it has to be.
-/

namespace MiniJava

open Ssa List Option

/-! ## Cells -/

namespace Ssa.Body

def Writes (body : Body) (i c : Nat) : Prop :=
  ∃ s, body[i]? = some s ∧ s.op.definesValue = true ∧ body.cellAt? i = some c

inductive LiveAt (body : Body) (c : Nat) : Nat → Prop
  | read {i : Nat} {s : Statement} {o : StmtId} (hs : body[i]? = some s) (ho : o ∈ s.uses)
    (hc : body.cell? o = some c) : LiveAt body c i
  | pass {i j : Nat} {s : Statement} (hs : body[i]? = some s) (hw : ¬ body.Writes i c)
    (hj : j ∈ body.successorsOf s i) (hl : LiveAt body c j) : LiveAt body c i

def LiveAfter (body : Body) (c i : Nat) : Prop :=
  ∃ s j, body[i]? = some s ∧ j ∈ body.successorsOf s i ∧ body.LiveAt c j

def Occupies (body : Body) (c i : Nat) : Prop := body.LiveAfter c i ∨ body.Writes i c

def Interferes (body : Body) (c d : Nat) : Prop :=
  c ≠ d ∧ ∃ i, body.Occupies c i ∧ body.Occupies d i

def ReadOutside (body : Body) (c : Nat) : Prop :=
  ∃ s ∈ body, s.op ≠ .store ∧ ∃ o ∈ s.uses, body.cell? o = some c

def WrittenOutside (body : Body) (c : Nat) : Prop :=
  ∃ i s, body[i]? = some s ∧ s.op ≠ .load ∧ body.Writes i c

theorem LiveAt.mem_cells {body : Body} {c i : Nat} (h : body.LiveAt c i) : c ∈ body.cells := by
  induction h with
  | read _ _ hc => exact mem_cells_of_cell? hc
  | pass _ _ _ _ ih => exact ih

theorem DistinctIds.writes_iff {body : Body} {i c : Nat} {s : Statement} (h : body.DistinctIds)
    (hs : body[i]? = some s) (hd : s.op.definesValue = true) :
    body.Writes i c ↔ body.cell? s.id = some c := by
  rw [h.cell?_eq_cellAt? hs]
  constructor
  · rintro ⟨_, _, _, hc⟩
    exact hc
  · exact fun hc => ⟨s, hs, hd, hc⟩

theorem Interferes.symm {body : Body} {c d : Nat} (h : body.Interferes c d) :
    body.Interferes d c := by
  obtain ⟨hne, i, hc, hd⟩ := h
  exact ⟨hne.symm, i, hd, hc⟩

end Ssa.Body

/-! ## Analyses -/

namespace Liveness

variable {body : Body} {vs : Variables} {i v c : Nat}

theorem getElem?_nodesOf (body : Body) (vs : Variables) (i : Nat) :
    (nodesOf body vs)[i]? = (body[i]?).map fun s =>
      { def? := if s.op.definesValue then vs.at? i else none
        uses := .ofList (s.uses.filterMap vs.of?)
        successors := body.successorsOf s i } := by
  rw [nodesOf, getElem?_map, Body.successors]
  cases h : body[i]? with
  | none =>
    have hlen : body.length ≤ i := getElem?_eq_none_iff.1 h
    rw [getElem?_eq_none (by simpa using hlen)]
    rfl
  | some s =>
    have hzip : body.zipIdx[i]? = some (s, i) := by simp [getElem?_zipIdx, h]
    have hsucc : (body.zipIdx.map fun e => body.successorsOf e.1 e.2)[i]? =
        some (body.successorsOf s i) := by
      rw [getElem?_map, hzip]
      rfl
    have hpair : (body.zipIdx.zip (body.zipIdx.map fun e => body.successorsOf e.1 e.2))[i]? =
        some ((s, i), body.successorsOf s i) :=
      getElem?_zip_eq_some.2 ⟨hzip, hsucc⟩
    rw [hpair]
    rfl

section

variable (hn : Numbers body vs)
include hn

theorem mem_uses_ofList {s : Statement} (hc : body.cells[v]? = some c) :
    v ∈ VarSet.ofList (s.uses.filterMap vs.of?) ↔ ∃ o ∈ s.uses, body.cell? o = some c := by
  rw [VarSet.mem_ofList, mem_filterMap]
  refine exists_congr fun o => and_congr_right fun _ => ?_
  rw [hn.of?_eq_some]
  constructor
  · rintro ⟨c', ho, hc'⟩
    rw [hc] at hc'
    cases hc'
    exact ho
  · exact fun ho => ⟨c, ho, hc⟩

theorem def?_eq_some {s : Statement} (hc : body.cells[v]? = some c) (hs : body[i]? = some s) :
    (if s.op.definesValue then vs.at? i else none) = some v ↔ body.Writes i c := by
  have hat : vs.at? i = some v ↔ body.cellAt? i = some c := by
    rw [hn.at?_eq_some]
    constructor
    · rintro ⟨c', hi, hc'⟩
      rw [hc] at hc'
      cases hc'
      exact hi
    · exact fun hi => ⟨c, hi, hc⟩
  constructor
  · intro h
    split at h
    · next hd => exact ⟨s, hs, hd, hat.1 h⟩
    · cases h
  · rintro ⟨t, ht, hd, hi⟩
    obtain rfl := mem_unique hs ht
    rw [if_pos hd]
    exact hat.2 hi

theorem needs_iff (hc : body.cells[v]? = some c) :
    Needs (nodesOf body vs) v i ↔ body.LiveAt c i := by
  constructor
  · intro h
    induction h with
    | read hi hu =>
      rw [getElem?_nodesOf, map_eq_some_iff] at hi
      obtain ⟨s, hs, rfl⟩ := hi
      obtain ⟨o, ho, hoc⟩ := (mem_uses_ofList hn hc).1 hu
      exact .read hs ho hoc
    | pass hi hd hj _ ih =>
      rw [getElem?_nodesOf, map_eq_some_iff] at hi
      obtain ⟨s, hs, rfl⟩ := hi
      exact .pass hs (fun hw => hd ((def?_eq_some hn hc hs).2 hw)) hj ih
  · intro h
    induction h with
    | read hs ho hoc =>
      refine .read (by rw [getElem?_nodesOf, hs]; rfl) ?_
      exact (mem_uses_ofList hn hc).2 ⟨_, ho, hoc⟩
    | pass hs hw hj _ ih =>
      refine .pass (by rw [getElem?_nodesOf, hs]; rfl) ?_ hj ih
      exact fun hd => hw ((def?_eq_some hn hc hs).1 hd)

theorem lt_of_mem_uses {node : FlowNode} (hi : (nodesOf body vs)[i]? = some node)
    (hv : v ∈ node.uses) : v < vs.size := by
  rw [getElem?_nodesOf, map_eq_some_iff] at hi
  obtain ⟨s, _, rfl⟩ := hi
  obtain ⟨o, _, ho⟩ := mem_filterMap.1 (VarSet.mem_ofList.1 hv)
  obtain ⟨d, _, hd⟩ := hn.of?_eq_some.1 ho
  rw [hn.size_eq]
  exact lt_of_getElem? hd

theorem lt_of_needs (h : Needs (nodesOf body vs) v i) : v < vs.size := by
  induction h with
  | read hi hu => exact lt_of_mem_uses hn hi hu
  | pass _ _ _ _ ih => exact ih

theorem mem_solve_nodesOf (hc : body.cells[v]? = some c) (i : Nat) :
    v ∈ (solve (nodesOf body vs) vs.size).liveIn.getD i .empty ↔ body.LiveAt c i := by
  rw [mem_solve fun _ _ _ hi hv => lt_of_mem_uses hn hi hv, needs_iff hn hc]

theorem liveOut_compute : (compute body vs).liveOut =
    (nodesOf body vs).map (after (solve (nodesOf body vs) vs.size).liveIn) :=
  liveOut_solve fun _ _ _ hi hv => lt_of_mem_uses hn hi hv

theorem mem_liveOut (hc : body.cells[v]? = some c) :
    v ∈ (compute body vs).liveOut.getD i .empty ↔ body.LiveAfter c i := by
  have hnodes : (compute body vs).liveOut[i]? = (body[i]?).map fun s =>
      after (solve (nodesOf body vs) vs.size).liveIn
        { def? := if s.op.definesValue then vs.at? i else none
          uses := .ofList (s.uses.filterMap vs.of?)
          successors := body.successorsOf s i } := by
    rw [liveOut_compute hn, getElem?_map, getElem?_nodesOf, Option.map_map]
    rfl
  rw [getD_eq_getElem?_getD, hnodes]
  cases hs : body[i]? with
  | none =>
    constructor
    · intro h
      exact absurd h (VarSet.not_mem_empty v)
    · rintro ⟨s, j, hs', _⟩
      rw [hs] at hs'
      cases hs'
  | some s =>
    rw [map_some, getD_some, mem_after]
    constructor
    · rintro ⟨j, hj, hv⟩
      exact ⟨s, j, hs, hj, (mem_solve_nodesOf hn hc j).1 hv⟩
    · rintro ⟨t, j, ht, hj, hl⟩
      obtain rfl := mem_unique hs ht
      exact ⟨j, hj, (mem_solve_nodesOf hn hc j).2 hl⟩

theorem isLiveAfter_iff (hc : body.cells[v]? = some c) :
    (compute body vs).isLiveAfter i v = true ↔ body.LiveAfter c i := by
  rw [isLiveAfter, VarSet.contains_iff, mem_liveOut hn hc]

end

theorem getElem?_defs (body : Body) (vs : Variables) (i : Nat) :
    (compute body vs).defs[i]? =
      (body[i]?).map fun s => if s.op.definesValue then vs.at? i else none := by
  rw [defs, compute, getElem?_map, getElem?_nodesOf, Option.map_map]
  rfl

theorem getElem?_uses (body : Body) (vs : Variables) (i : Nat) :
    (compute body vs).uses[i]? = (body[i]?).map fun s => .ofList (s.uses.filterMap vs.of?) := by
  rw [uses, compute, getElem?_map, getElem?_nodesOf, Option.map_map]
  rfl

/-! ### Exact live sets -/

theorem edge_nodesOf (vs : Variables) {j : Nat} :
    Edge (nodesOf body vs) i j ↔ j ∈ body.successors.getD i [] := by
  rw [Edge, getElem?_nodesOf, getD_eq_getElem?_getD, Body.successors, getElem?_map,
    getElem?_zipIdx]
  cases body[i]? with
  | none => simp
  | some s => simp

theorem mem_uses_compute : v ∈ (compute body vs).uses.getD i .empty ↔
    ∃ node, (nodesOf body vs)[i]? = some node ∧ v ∈ node.uses := by
  rw [uses, compute, getD_eq_getElem?_getD, getElem?_map]
  cases (nodesOf body vs)[i]? with
  | none => simp
  | some node => simp

theorem def_compute_ne : (compute body vs).defs.getD i none ≠ some v ↔
    ∀ node, (nodesOf body vs)[i]? = some node → node.def? ≠ some v := by
  rw [defs, compute, getD_eq_getElem?_getD, getElem?_map]
  cases (nodesOf body vs)[i]? with
  | none => simp
  | some node => simp

theorem mem_liveOut_iff_needs (hn : Numbers body vs) :
    v ∈ (compute body vs).liveOut.getD i .empty ↔
      ∃ j, Edge (nodesOf body vs) i j ∧ Needs (nodesOf body vs) v j := by
  rw [liveOut_compute hn, getD_eq_getElem?_getD, getElem?_map]
  simp only [Edge]
  cases (nodesOf body vs)[i]? with
  | none => simp
  | some node =>
    rw [map_some, getD_some, mem_after]
    simp only [mem_solve fun _ _ _ hi hv => lt_of_mem_uses hn hi hv, some.injEq,
      exists_eq_left']

theorem getD_liveIn_compute (body : Body) (vs : Variables) (i : Nat) :
    (compute body vs).liveIn.getD i .empty =
      (solve (nodesOf body vs) vs.size).liveIn.getD i .empty := by
  rw [compute, getD_eq_getElem?_getD, Array.getElem?_toList, Array.getD_eq_getD_getElem?]

theorem mem_liveIn (hn : Numbers body vs) (hc : body.cells[v]? = some c) :
    v ∈ (compute body vs).liveIn.getD i .empty ↔ body.LiveAt c i := by
  rw [getD_liveIn_compute, mem_solve_nodesOf hn hc]

theorem not_liveAt (hn : Numbers body vs)
    (h : (compute body vs).liveIn.getD i .empty = .empty) : ¬ body.LiveAt c i := by
  intro hl
  obtain ⟨v, hv⟩ := Numbers.exists_number hl.mem_cells
  have hmem := (mem_liveIn hn hv).2 hl
  rw [h] at hmem
  exact VarSet.not_mem_empty v hmem

theorem mem_liveIn_iff (hn : Numbers body vs) : v ∈ (compute body vs).liveIn.getD i .empty ↔
    v ∈ (compute body vs).uses.getD i .empty ∨
      v ∈ (compute body vs).liveOut.getD i .empty ∧ (compute body vs).defs.getD i none ≠ some v := by
  have hsol := solution_solve fun (i : Nat) node v hi hv => lt_of_mem_uses hn (i := i) hi hv
  have hout : (compute body vs).liveOut.getD i .empty =
      (solve (nodesOf body vs) vs.size).liveOut.getD i .empty := by
    rw [compute, getD_eq_getElem?_getD, Array.getElem?_toList, Array.getD_eq_getD_getElem?]
  rw [getD_liveIn_compute, hout, mem_uses_compute, def_compute_ne]
  cases hi : (nodesOf body vs)[i]? with
  | none =>
    have hle := getElem?_eq_none_iff.1 hi
    have hin : ¬ i < (solve (nodesOf body vs) vs.size).liveIn.size := by
      rw [hsol.size_liveIn]
      exact Nat.not_lt.2 hle
    have hout : ¬ i < (solve (nodesOf body vs) vs.size).liveOut.size := by
      rw [hsol.size_liveOut]
      exact Nat.not_lt.2 hle
    simp [Array.getD, hin, hout]
  | some node =>
    rw [hsol.liveIn_eq i node hi, mem_transfer]
    simp

/-- **Liveness is exact.** The rounds end by themselves, with the live sets. A variable is live after a
statement if and only if there is a path of one or more steps from there to a statement that reads it,
with no statement between them that writes it. It is live before a statement if and only if the statement
reads it, or if it is live after the statement and not written by it. -/
theorem live_iff_exists_path (h : Variables.build body = .ok vs) :
    (∃ sets, Settles (nodesOf body vs) (start (nodesOf body vs)) sets ∧
      compute body vs = ⟨nodesOf body vs, sets.liveIn.toList, sets.liveOut.toList⟩ ∧
      sets.liveIn.size = body.length ∧ sets.liveOut.size = body.length) ∧
    ∀ i v,
      (v ∈ (compute body vs).liveOut.getD i .empty ↔ ∃ path last,
        (i :: path ++ [last]).IsChain (fun a b => b ∈ body.successors.getD a []) ∧
          v ∈ (compute body vs).uses.getD last .empty ∧
          ∀ k ∈ path, (compute body vs).defs.getD k none ≠ some v) ∧
      (v ∈ (compute body vs).liveIn.getD i .empty ↔ v ∈ (compute body vs).uses.getD i .empty ∨
        v ∈ (compute body vs).liveOut.getD i .empty ∧
          (compute body vs).defs.getD i none ≠ some v) := by
  have hn := Variables.build_numbers h
  have hbound : ∀ (i : Nat) node v, (nodesOf body vs)[i]? = some node → v ∈ node.uses → v < vs.size :=
    fun i node v hi hv => lt_of_mem_uses hn hi hv
  have hlen : (nodesOf body vs).length = body.length := by simp [nodesOf, Body.successors]
  refine ⟨⟨solve (nodesOf body vs) vs.size, settles_solve hbound, rfl,
    hlen ▸ (solution_solve hbound).size_liveIn, hlen ▸ (solution_solve hbound).size_liveOut⟩,
    fun i v => ⟨?_, mem_liveIn_iff hn⟩⟩
  rw [mem_liveOut_iff_needs hn, ← exists_path_iff]
  simp only [mem_uses_compute, def_compute_ne, ← edge_nodesOf vs]

/-- Counts down from three and prints the last value, which stays live around the loop. -/
def countdown : Body := [
  ⟨0, .int, none, none, .int 3, none, none, none⟩,
  ⟨1, .label, none, none, .label "loop", none, none, none⟩,
  ⟨2, .int, none, none, .int 0, none, none, none⟩,
  ⟨3, .binary .lt, some 2, some 0, .none, none, none, none⟩,
  ⟨4, .branchUnless, some 3, none, .label "end", none, none, none⟩,
  ⟨5, .int, none, none, .int 1, none, none, none⟩,
  ⟨6, .binary .sub, some 0, some 5, .none, none, none, none⟩,
  ⟨7, .jump, none, none, .label "loop", none, none, none⟩,
  ⟨8, .label, none, none, .label "end", none, none, none⟩,
  ⟨9, .unify, some 0, some 6, .none, none, none, none⟩,
  ⟨10, .print, some 9, none, .none, none, none, none⟩]

/-- In `countdown` the value of the loop is live after the jump back, since the comparison reads it. -/
theorem live_iff_exists_path_countdown : ∃ vs, Variables.build countdown = .ok vs ∧
    (compute countdown vs).liveOut.map (·.toList) =
      [[0], [0], [0, 1], [0, 2], [0], [0, 3], [0], [0], [0], [0], []] ∧
    ∃ path last, (7 :: path ++ [last]).IsChain (fun a b => b ∈ countdown.successors.getD a []) ∧
      0 ∈ (compute countdown vs).uses.getD last .empty ∧
      ∀ k ∈ path, (compute countdown vs).defs.getD k none ≠ some 0 := by
  obtain ⟨vs, hvs, hlive⟩ := exists_eq_ok_of_map_toOption (x := Variables.build countdown)
    (f := fun vs => (compute countdown vs).liveOut.map (·.toList))
    (b := [[0], [0], [0, 1], [0, 2], [0], [0, 3], [0], [0], [0], [0], []]) (by decide +kernel)
  refine ⟨vs, hvs, hlive, ((live_iff_exists_path hvs).2 7 0).1.1 ?_⟩
  have hout := congrArg (·.getD 7 []) hlive
  simp only [getD_eq_getElem?_getD, getElem?_map] at hout
  rw [getD_eq_getElem?_getD, ← VarSet.mem_toList]
  cases hget : (compute countdown vs).liveOut[7]? with
  | none =>
    rw [hget] at hout
    cases hout
  | some out =>
    rw [hget] at hout
    exact (show out.toList = [0] from hout) ▸ mem_singleton_self 0

end Liveness

structure Analyses (body : Body) (a : Analysis) : Prop where
  numbers : Numbers body a.vars
  live : a.live = Liveness.compute body a.vars
  graph : a.graph = .build a.vars.size a.live
  candidates : a.candidates = Spill.candidates body a.live

theorem Analysis.of_analyses {body : Body} {a : Analysis} (h : Analysis.of body = .ok a) :
    Analyses body a := by
  rw [Analysis.of] at h
  cases hv : Variables.build body with
  | error e =>
    rw [hv] at h
    cases h
  | ok vs =>
    rw [hv] at h
    obtain rfl := Except.ok.inj h
    exact ⟨Variables.build_numbers hv, rfl, rfl, rfl⟩

namespace Analyses

variable {body : Body} {a : Analysis} {u v c d i : Nat}

theorem mem_getElem?_cliques (h : Analyses body a) {clique : VarSet}
    (hi : (InterferenceGraph.cliques a.live)[i]? = some clique) (hc : body.cells[v]? = some c) :
    v ∈ clique ↔ body.Occupies c i := by
  rw [InterferenceGraph.cliques, getElem?_map, map_eq_some_iff] at hi
  obtain ⟨⟨out, def?⟩, hpair, hclique⟩ := hi
  obtain ⟨hout, hdef⟩ := getElem?_zip_eq_some.1 hpair
  have hmem : v ∈ out ↔ body.LiveAfter c i := by
    rw [← Liveness.mem_liveOut h.numbers hc, ← h.live, getD_eq_getElem?_getD, hout]
    rfl
  rw [h.live, Liveness.getElem?_defs, map_eq_some_iff] at hdef
  obtain ⟨s, hs, hdef⟩ := hdef
  have hwrites := Liveness.def?_eq_some h.numbers hc hs
  rw [hdef] at hwrites
  rw [Body.Occupies, ← hmem, ← hwrites, ← hclique]
  cases def? with
  | none => simp
  | some w => simp [@eq_comm _ w]

theorem length_cliques (h : Analyses body a) :
    (InterferenceGraph.cliques a.live).length = body.length := by
  have hnodes : a.live.nodes.length = body.length := by
    rw [h.live]
    simp [Liveness.compute, Liveness.nodesOf, Body.successors]
  rw [InterferenceGraph.cliques, length_map, length_zip, Liveness.defs, length_map,
    hnodes]
  have hout : a.live.liveOut.length = body.length := by
    rw [h.live, Liveness.liveOut_compute h.numbers]
    simp [Liveness.nodesOf, Body.successors]
  rw [hout, Nat.min_self]

theorem lt_length_of_occupies (ho : body.Occupies c i) : i < body.length := by
  rcases ho with ⟨s, _, hs, _⟩ | ⟨s, hs, _⟩ <;> exact lt_of_getElem? hs

theorem exists_cell_of_mem_clique (h : Analyses body a) {clique : VarSet}
    (hi : (InterferenceGraph.cliques a.live)[i]? = some clique) (hv : v ∈ clique) :
    ∃ c, body.cells[v]? = some c := by
  suffices hlt : v < a.vars.size by
    rw [h.numbers.size_eq] at hlt
    exact ⟨_, getElem?_eq_getElem hlt⟩
  rw [InterferenceGraph.cliques, getElem?_map, map_eq_some_iff] at hi
  obtain ⟨⟨out, def?⟩, hpair, rfl⟩ := hi
  obtain ⟨hout, hdef⟩ := getElem?_zip_eq_some.1 hpair
  have hmem : v ∈ out → v < a.vars.size := by
    intro hv
    rw [h.live, Liveness.liveOut_compute h.numbers, getElem?_map, map_eq_some_iff] at hout
    obtain ⟨node, hnode, rfl⟩ := hout
    obtain ⟨j, _, hv⟩ := Liveness.mem_after.1 hv
    rw [Liveness.mem_solve fun _ _ _ hi hv => Liveness.lt_of_mem_uses h.numbers hi hv] at hv
    exact Liveness.lt_of_needs h.numbers hv
  rw [h.live, Liveness.getElem?_defs, map_eq_some_iff] at hdef
  obtain ⟨s, hs, hdef⟩ := hdef
  cases def? with
  | none => exact hmem hv
  | some w =>
    rcases VarSet.mem_insert.1 hv with hv | rfl
    · exact hmem hv
    · split at hdef
      · obtain ⟨d, _, hd⟩ := h.numbers.at?_eq_some.1 hdef
        rw [h.numbers.size_eq]
        exact lt_of_getElem? hd
      · cases hdef

/-- **Neighbours are the cells that hold values at the same time.** -/
theorem mem_neighbours (h : Analyses body a) (hc : body.cells[v]? = some c) :
    u ∈ a.graph.neighbours v ↔ ∃ d, body.cells[u]? = some d ∧ body.Interferes c d := by
  have hv : v < a.vars.size := by
    rw [h.numbers.size_eq]
    exact lt_of_getElem? hc
  have hrow : a.graph.neighbours v =
      InterferenceGraph.row (InterferenceGraph.cliques a.live) v := by
    rw [h.graph, InterferenceGraph.neighbours, InterferenceGraph.build]
    simp [hv]
  rw [hrow, InterferenceGraph.mem_row]
  constructor
  · rintro ⟨⟨clique, hmem, hvc, huc⟩, hne⟩
    obtain ⟨i, hi⟩ := mem_iff_getElem?.1 hmem
    obtain ⟨d, hd⟩ := h.exists_cell_of_mem_clique hi huc
    refine ⟨d, hd, fun hcd => hne ?_, i, (h.mem_getElem?_cliques hi hc).1 hvc,
      (h.mem_getElem?_cliques hi hd).1 huc⟩
    subst hcd
    exact (getElem?_inj (lt_of_getElem? hd) body.nodup_cells).1
      (hd.trans hc.symm)
  · rintro ⟨d, hd, hcd, i, hci, hdi⟩
    have hlt : i < (InterferenceGraph.cliques a.live).length := by
      rw [h.length_cliques]
      exact lt_length_of_occupies hci
    have hi := getElem?_eq_getElem hlt
    refine ⟨⟨_, getElem_mem hlt, (h.mem_getElem?_cliques hi hc).2 hci,
      (h.mem_getElem?_cliques hi hd).2 hdi⟩, ?_⟩
    rintro rfl
    exact hcd (mem_unique hc hd)

/-- **Candidates are the cells that are read and written by other code than spill code.** -/
theorem mem_candidates (h : Analyses body a) (hc : body.cells[v]? = some c) :
    v ∈ a.candidates ↔ body.ReadOutside c ∧ body.WrittenOutside c := by
  rw [h.candidates, Spill.candidates, VarSet.mem_inter]
  refine and_congr ?_ ?_
  · rw [Spill.readOutside, VarSet.mem_unions]
    simp only [mem_filterMap, Prod.exists]
    constructor
    · rintro ⟨uses, ⟨s, uses', hmem, hif⟩, hv⟩
      obtain ⟨i, hi⟩ := mem_iff_getElem?.1 hmem
      obtain ⟨hs, huses⟩ := getElem?_zip_eq_some.1 hi
      split at hif
      · cases hif
      · next hop =>
        cases hif
        rw [h.live, Liveness.getElem?_uses, hs, map_some, some.injEq] at huses
        rw [show uses = VarSet.ofList (s.uses.filterMap a.vars.of?) from huses.symm] at hv
        exact ⟨s, mem_of_getElem? hs, hop, (Liveness.mem_uses_ofList h.numbers hc).1 hv⟩
    · rintro ⟨s, hs, hop, ho⟩
      obtain ⟨i, hi⟩ := mem_iff_getElem?.1 hs
      refine ⟨_, ⟨s, .ofList (s.uses.filterMap a.vars.of?), ?_, if_neg hop⟩,
        (Liveness.mem_uses_ofList h.numbers hc).2 ho⟩
      refine mem_iff_getElem?.2 ⟨i, getElem?_zip_eq_some.2 ⟨hi, ?_⟩⟩
      rw [h.live, Liveness.getElem?_uses, hi]
      rfl
  · rw [Spill.writtenOutside, VarSet.mem_ofList]
    simp only [mem_filterMap, Prod.exists]
    constructor
    · rintro ⟨s, def?, hmem, hif⟩
      obtain ⟨i, hi⟩ := mem_iff_getElem?.1 hmem
      obtain ⟨hs, hdef⟩ := getElem?_zip_eq_some.1 hi
      split at hif
      · cases hif
      · next hop =>
        rw [h.live, Liveness.getElem?_defs, hs, map_some, some.injEq] at hdef
        subst hif
        exact ⟨i, s, hs, hop, (Liveness.def?_eq_some h.numbers hc hs).1 hdef⟩
    · rintro ⟨i, s, hs, hop, hw⟩
      refine ⟨s, some v, mem_iff_getElem?.2 ⟨i, getElem?_zip_eq_some.2 ⟨hs, ?_⟩⟩,
        if_neg hop⟩
      rw [h.live, Liveness.getElem?_defs, hs, map_some,
        (Liveness.def?_eq_some h.numbers hc hs).2 hw]

end Analyses

end MiniJava
