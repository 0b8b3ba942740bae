import Mathlib.Data.Finset.Powerset
import MiniJava.Proofs.Allocation.Colors

/-!
# Saturated variables

A coloring of any graph keeps pins, stays below the bound and gives neighbours different colors. A
coloring that left everything without color would do so too, so the second half of this file says when
a variable is left out. It has neighbours of all colors by then, and as colors never change afterwards,
also in the end. And no variable is left out if every set of variables has one with few neighbours:
then each removal is one of low degree, whatever the order.
-/

namespace MiniJava

open Ssa List

theorem mem_of_lowestFree?_eq_none {k c : Nat} {taken : List Nat} (h : lowestFree? k taken = none)
    (hc : c < k) : c ∈ taken := by
  have hlen : k ≤ taken.length := by
    by_contra hlt
    obtain ⟨d, hd⟩ := exists_lowestFree? (Nat.not_le.1 hlt)
    rw [h] at hd
    cases hd
  rw [lowestFree?, Nat.min_eq_left (by omega)] at h
  simpa using find?_eq_none.1 h c (mem_range.2 hc)

def Coloring.color? (c : Coloring) (v : Nat) : Option Nat := (c.colors[v]?).join

namespace ColoringProblem

variable {p : ColoringProblem} {done : List Nat} {colors : Array (Option Nat)} {u v : Nat}

theorem color?_solve (p : ColoringProblem) (v : Nat) :
    p.solve.color? v = (p.selection.foldl p.select p.pinColors).getD v none :=
  getD_colors_solve p v

/-! ## Lawful problems -/

theorem lawful_iff : p.Lawful ↔ ∀ v < p.graph.size, ∀ u ∈ p.graph.neighbours v,
    u < p.graph.size ∧ u ≠ v ∧ v ∈ p.graph.neighbours u := by
  constructor
  · intro h v _ u hu
    refine ⟨h.lt hu, ?_, h.symm hu⟩
    rintro rfl
    exact h.irrefl u hu
  · intro h
    have hlt : ∀ {u v}, u ∈ p.graph.neighbours v → v < p.graph.size := by
      intro u v hu
      by_contra hv
      rw [InterferenceGraph.neighbours, Array.getD_eq_getD_getElem?,
        Array.getElem?_eq_none (Nat.not_lt.1 hv)] at hu
      cases hu
    exact ⟨fun hu => (h _ (hlt hu) _ hu).2.2, fun v hv => (h v (hlt hv) v hv).2.1 rfl,
      fun hu => (h _ (hlt hu) _ hu).1⟩

instance (p : ColoringProblem) : Decidable p.Lawful := decidable_of_iff _ lawful_iff.symm

/-! ## Colorings that respect a problem -/

/-- A coloring that respects the pins, the bound and the graph of a problem, and that says which
variables it leaves out. Two pinned neighbours may have the same color. -/
structure Respects (p : ColoringProblem) (c : Coloring) : Prop where
  length : c.colors.length = p.graph.size
  register : ∀ v < p.graph.size, ∀ r, p.pin? v = some (.register r) → c.color? v = some r
  noRegister : ∀ v < p.graph.size, p.pin? v = some .noRegister → c.color? v = none
  bound : ∀ v r, p.pin? v = none → c.color? v = some r → r < p.colors
  ascending : c.uncolored.Pairwise (· < ·)
  uncolored : ∀ v, v ∈ c.uncolored ↔ v < p.graph.size ∧ p.pin? v = none ∧ c.color? v = none
  proper : ∀ u v r, u ∈ p.graph.neighbours v → p.pin? u = none ∨ p.pin? v = none →
    c.color? u = some r → c.color? v ≠ some r

theorem color?_of_pin? (hp : p.Lawful) (hv : v < p.graph.size) {pin : Pin}
    (h : p.pin? v = some pin) : p.solve.color? v = pin.register? := by
  rw [color?_solve, (solve_partial hp).pinned v hv (by rw [h]; exact Option.some_ne_none pin),
    pinnedRegister?, h]
  rfl

theorem pairwise_uncolored (p : ColoringProblem) : p.solve.uncolored.Pairwise (· < ·) :=
  (pairwise_lt_range.filter _).filter _

/-- **Colorings are sound on every graph,** for all pins, any number of colors and any candidates. -/
theorem coloring_respects_problem (p : ColoringProblem) (hp : p.Lawful) : p.Respects p.solve where
  length := by
    rw [solve, Array.length_toList]
    exact (solve_partial hp).size
  register := fun _ hv _ h => color?_of_pin? hp hv h
  noRegister := fun _ hv h => color?_of_pin? hp hv h
  bound := by
    intro v r hpin hr
    rw [color?_solve] at hr
    exact (solve_partial hp).bound v r hpin hr
  ascending := pairwise_uncolored p
  uncolored := fun _ => mem_uncolored
  proper := by
    intro u v r huv hpin hu
    rw [color?_solve] at hu ⊢
    exact (solve_partial hp).proper u v r huv hpin hu

/-- A triangle with a pinned corner, and a variable on the stack next to it. -/
def pinnedTriangle : ColoringProblem where
  graph := ⟨#[[1, 2], [0, 2, 3], [0, 1], [1]]⟩
  pins := [none, some (.register 1), none, some .noRegister]
  colors := 2
  candidates := .ofList [0, 2]

theorem coloring_respects_problem_pinnedTriangle :
    pinnedTriangle.Lawful ∧ pinnedTriangle.Respects pinnedTriangle.solve :=
  have h : pinnedTriangle.Lawful := by decide
  ⟨h, coloring_respects_problem pinnedTriangle h⟩

/-! ## Saturation -/

/-- The variables that were put back without getting a color have neighbours of all colors. -/
def Saturated (p : ColoringProblem) (done : List Nat) (colors : Array (Option Nat)) : Prop :=
  ∀ v ∈ done, colors.getD v none = none → ∀ c < p.colors,
    ∃ u ∈ p.graph.neighbours v, colors.getD u none = some c

theorem Saturated.select (h : p.Saturated done colors) (hpartial : p.Partial done colors)
    (hpin : p.pin? v = none) (hlt : v < p.graph.size) (hnew : v ∉ done) :
    p.Saturated (done ++ [v]) (p.select colors v) := by
  have hkeep : ∀ u c, colors.getD u none = some c → (p.select colors v).getD u none = some c := by
    intro u c hu
    rw [getD_select_of_ne, hu]
    rintro rfl
    rw [hpartial.undone v hpin hnew] at hu
    cases hu
  intro w hw hnone c hc
  rcases mem_append.1 hw with hw | hw
  · have hvw : v ≠ w := by
      rintro rfl
      exact hnew hw
    rw [getD_select_of_ne hvw] at hnone
    obtain ⟨u, hu, huc⟩ := h w hw hnone c hc
    exact ⟨u, hu, hkeep u c huc⟩
  · obtain rfl := mem_singleton.1 hw
    rw [getD_select, if_pos ⟨rfl, hpartial.size ▸ hlt⟩] at hnone
    obtain ⟨u, hu, huc⟩ := mem_filterMap.1 (mem_of_lowestFree?_eq_none hnone hc)
    exact ⟨u, hu, hkeep u c huc⟩

theorem Saturated.foldl_select (hp : p.Lawful) : ∀ (vs done : List Nat) (colors : Array (Option Nat)),
    p.Partial done colors → p.Saturated done colors →
    (∀ v ∈ vs, p.pin? v = none ∧ v < p.graph.size) → (done ++ vs).Nodup →
    p.Saturated (done ++ vs) (vs.foldl p.select colors) := by
  intro vs
  induction vs with
  | nil =>
    intro done colors _ h _ _
    rw [append_nil]
    exact h
  | cons v vs ih =>
    intro done colors hpartial h hvs hnodup
    obtain ⟨hpin, hlt⟩ := hvs v mem_cons_self
    have hnew : v ∉ done := fun hv =>
      disjoint_of_nodup_append hnodup hv mem_cons_self
    rw [append_cons] at hnodup ⊢
    exact ih (done ++ [v]) _ (hpartial.select hp hpin hlt) (h.select hpartial hpin hlt hnew)
      (fun u hu => hvs u (mem_cons_of_mem _ hu)) hnodup

theorem nodup_selection (p : ColoringProblem) : p.selection.Nodup := by
  have hperm : p.selection.Perm (p.removals.map (·.var)) := by
    rw [selection_eq]
    have hpotential : ((potentialVars p.removals).filter (!p.candidates.contains ·) ++
        (potentialVars p.removals).filter p.candidates.contains).Perm (potentialVars p.removals) :=
      perm_append_comm.trans (filter_append_perm p.candidates.contains _)
    refine ((reverse_perm _).append hpotential).trans ?_
    rw [lowVars, potentialVars, ← map_append]
    exact (filter_append_perm (·.low) p.removals).map _
  exact hperm.nodup_iff.2 (p.nodup_removalsFrom _)

theorem saturated_solve (hp : p.Lawful) :
    p.Saturated p.selection (p.selection.foldl p.select p.pinColors) := by
  have hnil : p.Saturated [] p.pinColors := fun v hv => absurd hv not_mem_nil
  have h := Saturated.foldl_select hp p.selection [] _ p.pinColors_partial hnil (fun v hv => by
    have := mem_unpinned.1 ((mem_selection p v).1 hv)
    exact ⟨this.2, this.1⟩) p.nodup_selection
  rwa [nil_append] at h

/-! ## Degenerate problems -/

/-- The number of neighbours that are in a set or pinned to a register. A row lists each once. -/
def crowd (p : ColoringProblem) (vs : Finset Nat) (v : Nat) : Nat :=
  (p.graph.neighbours v).countP fun u => decide (u ∈ vs) || (p.pinnedRegister? u).isSome

/-- Every set of variables without pin has one with fewer neighbours there and among those pinned to a
register than there are colors. -/
def Degenerate (p : ColoringProblem) : Prop :=
  ∀ vs : Finset Nat, vs.Nonempty → (∀ v ∈ vs, v < p.graph.size ∧ p.pin? v = none) →
    ∃ v ∈ vs, p.crowd vs v < p.colors

theorem degenerate_iff : p.Degenerate ↔
    ∀ vs ∈ p.unpinned.toFinset.powerset, vs.Nonempty → ∃ v ∈ vs, p.crowd vs v < p.colors := by
  have hsub : ∀ vs : Finset Nat, vs ∈ p.unpinned.toFinset.powerset ↔
      ∀ v ∈ vs, v < p.graph.size ∧ p.pin? v = none := by
    intro vs
    simp only [Finset.mem_powerset, Finset.subset_iff, mem_toFinset, mem_unpinned]
  simp only [Degenerate, hsub]
  exact forall_congr' fun vs => forall_comm

instance (p : ColoringProblem) : Decidable p.Degenerate := decidable_of_iff _ degenerate_iff.symm

theorem degree_eq_crowd (hp : p.Lawful) (active : VarSet) (v : Nat) :
    p.degree (active.union p.pinnedToRegister) v = p.crowd active.toList.toFinset v := by
  rw [degree, crowd, countP_eq_length_filter]
  congr 1
  refine filter_congr fun u hu => Bool.eq_iff_iff.2 ?_
  rw [VarSet.contains_iff, VarSet.mem_union, mem_pinnedToRegister, Bool.or_eq_true,
    decide_eq_true_iff, mem_toFinset, VarSet.mem_toList]
  exact or_congr Iff.rfl (and_iff_right (hp.lt hu))

theorem Degenerate.low_of_mem_removals (h : p.Degenerate) (hp : p.Lawful) {r : Removal}
    (hr : r ∈ p.removals) : r.low = true := by
  by_contra hlow
  obtain ⟨active, hactive, hpick⟩ := exists_pick?_of_mem_removalsFrom hr
  obtain ⟨v, hv, hfew⟩ := h active.toList.toFinset
    ⟨r.var, mem_toFinset.2 (VarSet.mem_toList.2 (mem_of_pick? hpick))⟩ fun v hv =>
      mem_unpinned.1 (VarSet.mem_ofList.1 (hactive v (VarSet.mem_toList.1 (mem_toFinset.1 hv))))
  rw [← degree_eq_crowd hp] at hfew
  exact Nat.not_lt.2 (colors_le_degree_of_pick? hpick (by simpa using hlow)
    (VarSet.mem_toList.1 (mem_toFinset.1 hv))) hfew

/-- **Variables are left without color only if they have to be.** Their neighbours hold all colors, and
there are none in a degenerate problem. -/
theorem uncolored_only_if_saturated (p : ColoringProblem) (hp : p.Lawful) :
    (∀ v ∈ p.solve.uncolored, ∀ c < p.colors,
      ∃ u ∈ p.graph.neighbours v, p.solve.color? u = some c) ∧
    (p.Degenerate → p.solve.uncolored = []) := by
  constructor
  · intro v hv c hc
    obtain ⟨hlt, hpin, hnone⟩ := mem_uncolored.1 hv
    rw [getD_colors_solve] at hnone
    simp only [color?_solve]
    exact saturated_solve hp v ((mem_selection p v).2 (mem_unpinned.2 ⟨hlt, hpin⟩)) hnone c hc
  · intro hdeg
    refine List.eq_nil_iff_forall_not_mem.2 fun v hv => ?_
    obtain ⟨hlt, hpin, hnone⟩ := mem_uncolored.1 hv
    have hmem : v ∈ p.removals.map (·.var) := by
      rw [removals, mem_removalsFrom, VarSet.mem_ofList, mem_unpinned]
      exact ⟨hlt, hpin⟩
    obtain ⟨r, hr, rfl⟩ := List.mem_map.1 hmem
    exact color_ne_none_of_low hp (mem_lowVars.2 ⟨r, hr, hdeg.low_of_mem_removals hp hr, rfl⟩) hnone

/-- A variable with more neighbours than there are colors, which are no neighbours of each other. -/
def star : ColoringProblem where
  graph := ⟨#[[1, 2, 3, 4], [0], [0], [0], [0]]⟩
  pins := [none, none, none, none, some (.register 0)]
  colors := 2
  candidates := .empty

theorem uncolored_only_if_saturated_star :
    (star.Lawful ∧ star.Degenerate ∧ star.solve.uncolored = []) ∧
    pinnedTriangle.Lawful ∧ ∃ v ∈ pinnedTriangle.solve.uncolored, ∀ c < 2,
      ∃ u ∈ pinnedTriangle.graph.neighbours v, pinnedTriangle.solve.color? u = some c := by
  have hstar : star.Lawful := by decide
  have hdeg : star.Degenerate := by decide +kernel
  have htriangle : pinnedTriangle.Lawful := by decide
  have hleft : 0 ∈ pinnedTriangle.solve.uncolored := by decide +kernel
  exact ⟨⟨hstar, hdeg, (uncolored_only_if_saturated star hstar).2 hdeg⟩, htriangle, 0, hleft,
    (uncolored_only_if_saturated pinnedTriangle htriangle).1 0 hleft⟩

end ColoringProblem

end MiniJava
