import Mathlib.Data.Finset.Card
import Mathlib.Data.Finset.Prod
import MiniJava.Liveness
import MiniJava.Proofs.Results

/-!
# The least solution of the data-flow equations

The sets before and after a statement change in place, and the set before it is left alone as long as
the set after it stays the same. So at no time does either side solve its equations. What holds all the
time is that the set before a statement belongs to the set after it, that the set after it is behind what
its successors need, and that nothing is live without a path that reads it. A round that changes nothing
shows that no set is behind any more, and there is such a round because sets only grow.
-/

namespace MiniJava.Liveness

open List

variable {a b : Array VarSet} {last : Sets}

variable {nodes : List FlowNode} {node : FlowNode} {sets : Sets} {i j v : Nat}

inductive Needs (nodes : List FlowNode) (v : Nat) : Nat → Prop
  | read {i : Nat} {node : FlowNode} (h : nodes[i]? = some node) (hu : v ∈ node.uses) :
    Needs nodes v i
  | pass {i j : Nat} {node : FlowNode} (h : nodes[i]? = some node) (hd : node.def? ≠ some v)
    (hj : j ∈ node.successors) (hn : Needs nodes v j) : Needs nodes v i

/-! ## Sets at positions -/

def Le (a b : Array VarSet) : Prop :=
  a.size = b.size ∧ ∀ i v, v ∈ a.getD i .empty → v ∈ b.getD i .empty

theorem Le.refl (a : Array VarSet) : Le a a := ⟨rfl, fun _ _ h => h⟩

theorem Le.trans {c : Array VarSet} (h : Le a b) (h' : Le b c) : Le a c :=
  ⟨h.1.trans h'.1, fun i v hv => h'.2 i v (h.2 i v hv)⟩

theorem getD_eq_getElem (h : i < a.size) : a.getD i .empty = a[i] := by
  simp [Array.getD, h]

theorem Le.antisymm (h : Le a b) (h' : Le b a) : a = b := by
  refine Array.ext h.1 fun i hi hi' => VarSet.ext fun v => ?_
  have hab := h.2 i v
  have hba := h'.2 i v
  rw [getD_eq_getElem hi, getD_eq_getElem hi'] at hab
  rw [getD_eq_getElem hi, getD_eq_getElem hi'] at hba
  exact ⟨hab, hba⟩

theorem getD_setIfInBounds (a : Array VarSet) (i : Nat) (x : VarSet) (j : Nat) :
    (a.setIfInBounds i x).getD j .empty = if i = j ∧ j < a.size then x else a.getD j .empty := by
  by_cases hj : j < a.size
  · by_cases hij : i = j
    · subst hij
      simp [Array.getD, hj]
    · simp [Array.getD, hj, hij]
  · simp [Array.getD, hj]

theorem le_setIfInBounds {x : VarSet} (h : ∀ v, v ∈ a.getD i .empty → v ∈ x) :
    Le a (a.setIfInBounds i x) := by
  refine ⟨by simp, fun j v hv => ?_⟩
  rw [getD_setIfInBounds]
  split
  · next hij =>
    obtain ⟨rfl, _⟩ := hij
    exact h v hv
  · exact hv

theorem mem_transfer {after : VarSet} :
    v ∈ transfer node after ↔ v ∈ node.uses ∨ v ∈ after ∧ node.def? ≠ some v := by
  rw [transfer]
  cases hd : node.def? with
  | none => simp
  | some w => simp [@eq_comm _ w]

theorem mem_after {liveIn : Array VarSet} :
    v ∈ after liveIn node ↔ ∃ j ∈ node.successors, v ∈ liveIn.getD j .empty := by
  simp [after]

theorem mem_after_mono (h : Le a b) (hv : v ∈ after a node) : v ∈ after b node := by
  obtain ⟨j, hj, hv⟩ := mem_after.1 hv
  exact mem_after.2 ⟨j, hj, h.2 j v hv⟩

/-! ## Updates -/

structure Invariant (nodes : List FlowNode) (sets : Sets) : Prop where
  size_liveIn : sets.liveIn.size = nodes.length
  size_liveOut : sets.liveOut.size = nodes.length
  /-- The set before a statement belongs to the set after it. -/
  liveIn_eq : ∀ i node, nodes[i]? = some node →
    sets.liveIn.getD i .empty = transfer node (sets.liveOut.getD i .empty)
  /-- The set after a statement is behind what the successors need. -/
  behind : ∀ i node v, nodes[i]? = some node → v ∈ sets.liveOut.getD i .empty →
    v ∈ after sets.liveIn node
  /-- Nothing is live without a path that reads it. -/
  sound : ∀ i v, v ∈ sets.liveIn.getD i .empty → Needs nodes v i

theorem invariant_start (nodes : List FlowNode) : Invariant nodes (start nodes) := by
  have hout : ∀ i, (start nodes).liveOut.getD i .empty = .empty := by
    intro i
    by_cases hi : i < nodes.length <;> simp [start, Array.getD, hi]
  have hin : ∀ i, (start nodes).liveIn.getD i .empty = (nodes[i]?.map (·.uses)).getD .empty := by
    intro i
    simp [start, Array.getD_eq_getD_getElem?]
  refine ⟨by simp [start], by simp [start], fun i node hi => ?_, fun i node v _ hv => ?_,
    fun i v hv => ?_⟩
  · rw [hin, hout, hi]
    refine VarSet.ext fun v => ?_
    simp [mem_transfer]
  · rw [hout] at hv
    exact absurd hv (VarSet.not_mem_empty v)
  · rw [hin] at hv
    cases hi : nodes[i]? with
    | none =>
      rw [hi] at hv
      exact absurd hv (VarSet.not_mem_empty v)
    | some node =>
      rw [hi] at hv
      exact .read hi hv

theorem update_of_eq (h : after sets.liveIn node = sets.liveOut.getD i .empty) (changed : Bool) :
    update i node (sets, changed) = (sets, changed) := if_pos h

theorem update_of_ne (h : after sets.liveIn node ≠ sets.liveOut.getD i .empty) (changed : Bool) :
    update i node (sets, changed) =
      (⟨sets.liveIn.setIfInBounds i (transfer node (after sets.liveIn node)),
        sets.liveOut.setIfInBounds i (after sets.liveIn node)⟩, true) := if_neg h

theorem Invariant.renew (h : Invariant nodes sets) (hi : nodes[i]? = some node) :
    Invariant nodes ⟨sets.liveIn.setIfInBounds i (transfer node (after sets.liveIn node)),
      sets.liveOut.setIfInBounds i (after sets.liveIn node)⟩ := by
  have hlt : i < nodes.length := lt_of_getElem? hi
  have hin : Le sets.liveIn
      (sets.liveIn.setIfInBounds i (transfer node (after sets.liveIn node))) := by
    refine le_setIfInBounds fun v hv => ?_
    rw [h.liveIn_eq i node hi] at hv
    refine mem_transfer.2 ((mem_transfer.1 hv).imp_right fun hv => ?_)
    exact ⟨h.behind i node v hi hv.1, hv.2⟩
  refine ⟨by simp [h.size_liveIn], by simp [h.size_liveOut], fun j node' hj => ?_,
    fun j node' v hj hv => mem_after_mono hin ?_, fun j v hv => ?_⟩
  · dsimp only
    rw [getD_setIfInBounds, getD_setIfInBounds, h.size_liveIn, h.size_liveOut]
    split
    · next hij =>
      obtain ⟨rfl, _⟩ := hij
      rw [hi] at hj
      cases hj
      rfl
    · exact h.liveIn_eq j node' hj
  · dsimp only at hv
    rw [getD_setIfInBounds] at hv
    split at hv
    · next hij =>
      obtain ⟨rfl, _⟩ := hij
      rw [hi] at hj
      cases hj
      exact hv
    · exact h.behind j node' v hj hv
  · dsimp only at hv
    rw [getD_setIfInBounds] at hv
    split at hv
    · next hij =>
      obtain ⟨rfl, _⟩ := hij
      rcases mem_transfer.1 hv with hv | ⟨hv, hd⟩
      · exact .read hi hv
      · obtain ⟨k, hk, hv⟩ := mem_after.1 hv
        exact .pass hi hd hk (h.sound k v hv)
    · exact h.sound j v hv

/-! ## Rounds -/

/-- What a round has done so far: sets have grown, and the flag is true only if one has. -/
structure Advances (nodes : List FlowNode) (first : Sets) (state : Sets × Bool) : Prop where
  invariant : Invariant nodes state.1
  le : Le first.liveOut state.1.liveOut
  changed : state.2 = true → state.1.liveOut ≠ first.liveOut

theorem Advances.update {first : Sets} {state : Sets × Bool} (h : Advances nodes first state)
    (hi : nodes[i]? = some node) : Advances nodes first (Liveness.update i node state) := by
  obtain ⟨sets, changed⟩ := state
  by_cases heq : after sets.liveIn node = sets.liveOut.getD i .empty
  · rw [update_of_eq heq]
    exact h
  · have hlt : i < sets.liveOut.size :=
      h.invariant.size_liveOut ▸ lt_of_getElem? hi
    have hle : Le sets.liveOut (sets.liveOut.setIfInBounds i (after sets.liveIn node)) :=
      le_setIfInBounds fun v hv => h.invariant.behind i node v hi hv
    rw [update_of_ne heq]
    refine ⟨h.invariant.renew hi, h.le.trans hle, fun _ hfirst => heq ?_⟩
    -- Had the sets come back to the first ones, they would have been these before.
    dsimp only at hfirst
    have hsame : sets.liveOut = sets.liveOut.setIfInBounds i (after sets.liveIn node) :=
      hle.antisymm (hfirst ▸ h.le)
    rw [hsame, getD_setIfInBounds, if_pos ⟨rfl, hlt⟩]

theorem round_induction {P : Sets × Bool → Prop} (h : P (sets, false))
    (hstep : ∀ state i node, nodes[i]? = some node → P state → P (update i node state)) :
    P (round nodes sets) := by
  have hfold : ∀ l : List (FlowNode × Nat), (∀ e ∈ l, nodes[e.2]? = some e.1) →
      P (l.foldr (fun e => update e.2 e.1) (sets, false)) := by
    intro l
    induction l with
    | nil => exact fun _ => h
    | cons e l ih =>
      intro hl
      exact hstep _ e.2 e.1 (hl e mem_cons_self)
        (ih fun e' he' => hl e' (mem_cons_of_mem _ he'))
  exact hfold _ fun e he => mem_zipIdx_iff_getElem?.1 he

theorem Invariant.advances_round (h : Invariant nodes sets) :
    Advances nodes sets (round nodes sets) :=
  round_induction ⟨h, .refl _, fun hf => by cases hf⟩ fun _ _ _ hi hst => hst.update hi

theorem round_eq_false (h : round nodes sets = (last, false)) :
    last = sets ∧ ∀ i node, nodes[i]? = some node →
      after sets.liveIn node = sets.liveOut.getD i .empty := by
  have hfold : ∀ (l : List (FlowNode × Nat)) (last : Sets),
      l.foldr (fun e => update e.2 e.1) (sets, false) = (last, false) →
      last = sets ∧ ∀ e ∈ l, after sets.liveIn e.1 = sets.liveOut.getD e.2 .empty := by
    intro l
    induction l with
    | nil =>
      intro last h
      cases h
      exact ⟨rfl, forall_mem_nil _⟩
    | cons e l ih =>
      intro last h
      change update e.2 e.1 (l.foldr (fun e => update e.2 e.1) (sets, false)) = _ at h
      rcases hrest : l.foldr (fun e => update e.2 e.1) (sets, false) with ⟨rest, changed⟩
      rw [hrest] at h
      by_cases heq : after rest.liveIn e.1 = rest.liveOut.getD e.2 .empty
      · rw [update_of_eq heq] at h
        cases h
        obtain ⟨rfl, hall⟩ := ih _ hrest
        exact ⟨rfl, forall_mem_cons.2 ⟨heq, hall⟩⟩
      · rw [update_of_ne heq] at h
        cases h
  obtain ⟨hlast, hall⟩ := hfold _ _ h
  exact ⟨hlast, fun i node hi => hall (node, i) (mem_zipIdx_iff_getElem?.2 hi)⟩

/-- Rounds up to one that changes nothing, without a limit on their number. -/
inductive Settles (nodes : List FlowNode) : Sets → Sets → Prop
  | last {sets last : Sets} (h : round nodes sets = (last, false)) : Settles nodes sets last
  | next {sets next last : Sets} (h : round nodes sets = (next, true))
    (hrest : Settles nodes next last) : Settles nodes sets last

structure Solution (nodes : List FlowNode) (sets : Sets) : Prop extends Invariant nodes sets where
  settled : ∀ i node, nodes[i]? = some node →
    after sets.liveIn node = sets.liveOut.getD i .empty

theorem Settles.solution (h : Settles nodes sets last) (hs : Invariant nodes sets) :
    Solution nodes last := by
  induction h with
  | last h =>
    obtain ⟨rfl, hall⟩ := round_eq_false h
    exact ⟨hs, hall⟩
  | next h _ ih =>
    have hnext := hs.advances_round.invariant
    rw [h] at hnext
    exact ih hnext

/-! ### The number of rounds -/

/-- The pairs of a position and a variable below `n` that is live there. -/
def livePairs (n : Nat) (live : Array VarSet) : Finset (Nat × Nat) :=
  (Finset.range live.size ×ˢ Finset.range n).filter fun p => p.2 ∈ live.getD p.1 .empty

theorem card_livePairs_le (n : Nat) (live : Array VarSet) :
    (livePairs n live).card ≤ live.size * n := by
  refine (Finset.card_filter_le ..).trans ?_
  rw [Finset.card_product, Finset.card_range, Finset.card_range]

theorem card_livePairs_lt {n : Nat} (h : Le a b) (hne : b ≠ a)
    (hb : ∀ i v, v ∈ b.getD i .empty → v < n) : (livePairs n a).card < (livePairs n b).card := by
  refine Finset.card_lt_card ⟨fun p hp => ?_, fun hsub => hne ?_⟩
  · obtain ⟨hp, hmem⟩ := Finset.mem_filter.1 hp
    rw [livePairs, Finset.mem_filter, ← h.1]
    exact ⟨hp, h.2 _ _ hmem⟩
  · refine Le.antisymm ⟨h.1.symm, fun i v hv => ?_⟩ h
    have hi : i < b.size := by
      by_contra hi
      simp [Array.getD, hi] at hv
    have hpair : (i, v) ∈ livePairs n b :=
      Finset.mem_filter.2 ⟨Finset.mem_product.2 ⟨by simpa using hi, by simpa using hb i v hv⟩, hv⟩
    exact (Finset.mem_filter.1 (hsub hpair)).2

theorem Invariant.exists_needs (h : Invariant nodes sets) (hv : v ∈ sets.liveOut.getD i .empty) :
    ∃ j, Needs nodes v j := by
  have hi : i < nodes.length := by
    by_contra hi
    rw [← h.size_liveOut] at hi
    simp [Array.getD, hi] at hv
  obtain ⟨j, _, hj⟩ := mem_after.1 (h.behind i _ v (getElem?_eq_getElem hi) hv)
  exact ⟨j, h.sound j v hj⟩

theorem settles_rounds {n : Nat} (hn : ∀ i v, Needs nodes v i → v < n) : ∀ (fuel : Nat)
    (sets : Sets), Invariant nodes sets →
    nodes.length * n < (livePairs n sets.liveOut).card + fuel →
    Settles nodes sets (rounds nodes fuel sets) := by
  intro fuel
  induction fuel with
  | zero =>
    intro sets hsets hlt
    have hle := card_livePairs_le n sets.liveOut
    rw [hsets.size_liveOut] at hle
    omega
  | succ fuel ih =>
    intro sets hsets hlt
    have hadvances := hsets.advances_round
    rw [rounds]
    split
    · next next heq =>
      rw [heq] at hadvances
      have hcard : (livePairs n sets.liveOut).card < (livePairs n next.liveOut).card := by
        refine card_livePairs_lt hadvances.le (hadvances.changed rfl) fun i v hv => ?_
        obtain ⟨j, hj⟩ := hadvances.invariant.exists_needs hv
        exact hn j v hj
      exact .next heq (ih next hadvances.invariant (by omega))
    · next last heq => exact .last heq

/-! ## The solution -/

theorem Solution.mem_liveIn (h : Solution nodes sets) :
    v ∈ sets.liveIn.getD i .empty ↔ Needs nodes v i := by
  refine ⟨h.sound i v, fun hn => ?_⟩
  induction hn with
  | read hi hu =>
    rw [h.liveIn_eq _ _ hi]
    exact mem_transfer.2 (Or.inl hu)
  | pass hi hd hj _ ih =>
    rw [h.liveIn_eq _ _ hi, ← h.settled _ _ hi]
    exact mem_transfer.2 (Or.inr ⟨mem_after.2 ⟨_, hj, ih⟩, hd⟩)

section Solve

variable {n : Nat} (hn : ∀ (i : Nat) (node : FlowNode) (v : Nat), nodes[i]? = some node →
  v ∈ node.uses → v < n)
include hn

/-- **The rounds end,** and the limit on their number is not reached. -/
theorem settles_solve : Settles nodes (start nodes) (solve nodes n) := by
  have hbound : ∀ i v, Needs nodes v i → v < n := by
    intro i v h
    induction h with
    | read hi hu => exact hn _ _ _ hi hu
    | pass _ _ _ _ ih => exact ih
  exact settles_rounds hbound _ _ (invariant_start nodes) (by omega)

theorem solution_solve : Solution nodes (solve nodes n) :=
  (settles_solve hn).solution (invariant_start nodes)

/-- **The live sets are given by paths.** -/
theorem mem_solve (i : Nat) : v ∈ (solve nodes n).liveIn.getD i .empty ↔ Needs nodes v i :=
  (solution_solve hn).mem_liveIn

theorem liveOut_solve : (solve nodes n).liveOut.toList = nodes.map (after (solve nodes n).liveIn) := by
  have hsol := solution_solve hn
  refine ext_getElem? fun i => ?_
  rw [Array.getElem?_toList, getElem?_map]
  cases hi : nodes[i]? with
  | none =>
    have hle : (solve nodes n).liveOut.size ≤ i :=
      hsol.size_liveOut ▸ getElem?_eq_none_iff.1 hi
    rw [Array.getElem?_eq_none hle]
    rfl
  | some node =>
    have hlt : i < (solve nodes n).liveOut.size :=
      hsol.size_liveOut ▸ lt_of_getElem? hi
    rw [Option.map_some, hsol.settled i node hi, getD_eq_getElem hlt, Array.getElem?_eq_getElem hlt]

end Solve

/-! ## Paths -/

def Edge (nodes : List FlowNode) (i j : Nat) : Prop :=
  ∃ node, nodes[i]? = some node ∧ j ∈ node.successors

/-- **A variable is read after a position** if and only if there is a path of one or more steps to a
statement that reads it, with no statement between them that writes it. -/
theorem exists_path_iff : (∃ path last, (i :: path ++ [last]).IsChain (Edge nodes) ∧
      (∃ node, nodes[last]? = some node ∧ v ∈ node.uses) ∧
      ∀ k ∈ path, ∀ node, nodes[k]? = some node → node.def? ≠ some v) ↔
    ∃ j, Edge nodes i j ∧ Needs nodes v j := by
  constructor
  · rintro ⟨path, last, hchain, ⟨node, hlast, hu⟩, hpath⟩
    induction path generalizing i with
    | nil => exact ⟨last, isChain_pair.1 hchain, .read hlast hu⟩
    | cons k path ih =>
      obtain ⟨hedge, hchain⟩ := isChain_cons_cons.1 hchain
      obtain ⟨hk, hpath⟩ := forall_mem_cons.1 hpath
      obtain ⟨j, ⟨nodek, hnodek, hj⟩, hneeds⟩ := ih hchain hpath
      exact ⟨k, hedge, .pass hnodek (hk nodek hnodek) hj hneeds⟩
  · rintro ⟨j, hedge, hneeds⟩
    induction hneeds generalizing i with
    | @read j node hj hu =>
      exact ⟨[], j, isChain_pair.2 hedge, ⟨node, hj, hu⟩, forall_mem_nil _⟩
    | @pass j k node hj hd hk _ ih =>
      obtain ⟨path, last, hchain, hlast, hpath⟩ := ih ⟨node, hj, hk⟩
      refine ⟨j :: path, last, isChain_cons_cons.2 ⟨hedge, hchain⟩, hlast,
        forall_mem_cons.2 ⟨fun node' hnode' => ?_, hpath⟩⟩
      rw [hj] at hnode'
      cases hnode'
      exact hd

end MiniJava.Liveness
