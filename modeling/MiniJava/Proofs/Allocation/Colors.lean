import Mathlib.Data.List.Nodup
import Mathlib.Data.List.Perm.Subperm
import MiniJava.Coloring

/-!
# Colorings

Variables are put back one by one and get the lowest color that no neighbour has. So neighbours get
different colors, except that two pinned variables keep their pins whatever these are. A variable of
low degree always finds a color, since the neighbours that have one by then are fewer than the colors.
-/

namespace MiniJava

open Ssa List

variable {k c : Nat} {taken : List Nat} {active : VarSet} {r : Removal} {removals : List Removal}

/-! ## Free colors -/

theorem lowestFree?_eq_some (h : lowestFree? k taken = some c) : c < k ∧ c ∉ taken := by
  have hmem := mem_of_find?_eq_some h
  have hfree := find?_some h
  rw [mem_range] at hmem
  exact ⟨by omega, by simpa using hfree⟩

theorem exists_lowestFree? (h : taken.length < k) : ∃ c, lowestFree? k taken = some c := by
  cases hfree : lowestFree? k taken with
  | some c => exact ⟨c, rfl⟩
  | none =>
    have hmin : min k (taken.length + 1) = taken.length + 1 := by omega
    have hsub : range (taken.length + 1) ⊆ taken := by
      intro c hc
      rw [lowestFree?, hmin] at hfree
      simpa using find?_eq_none.1 hfree c hc
    have hle := (nodup_range.subperm hsub).length_le
    rw [length_range] at hle
    omega

namespace ColoringProblem

/-- The graph is symmetric and irreflexive, over the variables of the problem. -/
structure Lawful (p : ColoringProblem) : Prop where
  symm : ∀ {u v}, u ∈ p.graph.neighbours v → v ∈ p.graph.neighbours u
  irrefl : ∀ v, v ∉ p.graph.neighbours v
  lt : ∀ {u v}, u ∈ p.graph.neighbours v → u < p.graph.size

/-- The variables of a list, without pin, may have colors. Colors are below the bound, and those of
neighbours differ unless both are pinned. -/
structure Partial (p : ColoringProblem) (done : List Nat) (colors : Array (Option Nat)) : Prop where
  size : colors.size = p.graph.size
  pinned : ∀ v < p.graph.size, p.pin? v ≠ none → colors.getD v none = p.pinnedRegister? v
  undone : ∀ v, p.pin? v = none → v ∉ done → colors.getD v none = none
  bound : ∀ v c, p.pin? v = none → colors.getD v none = some c → c < p.colors
  proper : ∀ u v c, u ∈ p.graph.neighbours v → p.pin? u = none ∨ p.pin? v = none →
    colors.getD u none = some c → colors.getD v none ≠ some c

variable {p : ColoringProblem} {done : List Nat} {colors : Array (Option Nat)} {u v : Nat}

theorem getD_select (p : ColoringProblem) (colors : Array (Option Nat)) (v u : Nat) :
    (p.select colors v).getD u none =
      if v = u ∧ u < colors.size then
        lowestFree? p.colors ((p.graph.neighbours v).filterMap fun u => colors.getD u none)
      else colors.getD u none := by
  rw [select]
  by_cases hu : u < colors.size
  · by_cases hvu : v = u
    · subst hvu
      simp [Array.getD, hu]
    · simp [Array.getD, hu, hvu]
  · simp [Array.getD, hu]

theorem pinColors_partial (p : ColoringProblem) : p.Partial [] p.pinColors := by
  have hget : ∀ v, p.pinColors.getD v none =
      if v < p.graph.size then p.pinnedRegister? v else none := by
    intro v
    rw [pinColors]
    by_cases hv : v < p.graph.size <;> simp [Array.getD, hv]
  have hnone : ∀ v, p.pin? v = none → p.pinColors.getD v none = none := by
    intro v hv
    have hreg : p.pinnedRegister? v = none := by rw [pinnedRegister?, hv]; rfl
    rw [hget, hreg, ite_self]
  refine ⟨by simp [pinColors], fun v hv _ => ?_, fun v hv _ => hnone v hv, fun v c hv hc => ?_,
    fun u v c _ hpin hu hv => ?_⟩
  · rw [hget, if_pos hv]
  · rw [hnone v hv] at hc
    cases hc
  · rcases hpin with hpin | hpin
    · rw [hnone u hpin] at hu
      cases hu
    · rw [hnone v hpin] at hv
      cases hv

theorem not_taken (hc : (p.select colors v).getD v none = some c) (hv : v < colors.size)
    (hu : u ∈ p.graph.neighbours v) : colors.getD u none ≠ some c := by
  rw [getD_select, if_pos ⟨rfl, hv⟩] at hc
  intro huc
  exact (lowestFree?_eq_some hc).2 (mem_filterMap.2 ⟨u, hu, huc⟩)

theorem getD_select_of_ne (h : v ≠ u) : (p.select colors v).getD u none = colors.getD u none := by
  rw [getD_select, if_neg fun hvu => h hvu.1]

theorem Partial.select (h : p.Partial done colors) (hp : p.Lawful) (hv : p.pin? v = none)
    (hlt : v < p.graph.size) : p.Partial (done ++ [v]) (p.select colors v) := by
  have hvlt : v < colors.size := h.size ▸ hlt
  refine ⟨?_, fun u hu hpin => ?_, fun u hpin hu => ?_, fun u c hpin hc => ?_,
    fun x y c hxy hpin hx hy => ?_⟩
  · rw [ColoringProblem.select, Array.size_setIfInBounds, h.size]
  · rw [getD_select_of_ne, h.pinned u hu hpin]
    rintro rfl
    exact hpin hv
  · rw [mem_append, mem_singleton, not_or] at hu
    rw [getD_select_of_ne (Ne.symm hu.2), h.undone u hpin hu.1]
  · by_cases hvu : v = u
    · subst hvu
      rw [getD_select, if_pos ⟨rfl, hvlt⟩] at hc
      exact (lowestFree?_eq_some hc).1
    · rw [getD_select_of_ne hvu] at hc
      exact h.bound u c hpin hc
  · by_cases hvx : v = x
    · subst hvx
      have hvy : v ≠ y := by
        rintro rfl
        exact hp.irrefl v hxy
      rw [getD_select_of_ne hvy] at hy
      exact not_taken hx hvlt (hp.symm hxy) hy
    · rw [getD_select_of_ne hvx] at hx
      by_cases hvy : v = y
      · subst hvy
        exact not_taken hy hvlt hxy hx
      · rw [getD_select_of_ne hvy] at hy
        exact h.proper x y c hxy hpin hx hy

theorem Partial.foldl_select (hp : p.Lawful) : ∀ (vs done : List Nat) (colors : Array (Option Nat)),
    p.Partial done colors → (∀ v ∈ vs, p.pin? v = none ∧ v < p.graph.size) →
    p.Partial (done ++ vs) (vs.foldl p.select colors) := by
  intro vs
  induction vs with
  | nil =>
    intro done colors h _
    rw [append_nil]
    exact h
  | cons v vs ih =>
    intro done colors h hvs
    obtain ⟨hv, hlt⟩ := hvs v mem_cons_self
    have happend : done ++ v :: vs = (done ++ [v]) ++ vs := by simp
    rw [happend]
    exact ih (done ++ [v]) _ (h.select hp hv hlt) fun u hu => hvs u (mem_cons_of_mem _ hu)

/-! ## The order of removals -/

theorem heaviest?_eq_none {weight : Nat → Nat} {vs : List Nat} (h : heaviest? weight vs = none) :
    vs = [] := by
  cases vs with
  | nil => rfl
  | cons v vs =>
    rw [heaviest?] at h
    split at h
    · split at h <;> cases h
    · cases h

theorem pick?_eq_none (h : p.pick? active = none) (v : Nat) : v ∉ active := by
  simp only [pick?] at h
  split at h
  · cases h
  · split at h
    · cases h
    · have hnil : active.toList = [] := heaviest?_eq_none (Option.map_eq_none_iff.1 h)
      rw [← VarSet.mem_toList, hnil]
      exact not_mem_nil

theorem degree_lt_of_pick? (h : p.pick? active = some r) (hlow : r.low = true) :
    p.degree (active.union p.pinnedToRegister) r.var < p.colors := by
  simp only [pick?] at h
  split at h
  · next v hv =>
    cases h
    simpa using find?_some hv
  · split at h
    · cases h
      cases hlow
    · obtain ⟨v, _, rfl⟩ := Option.map_eq_some_iff.1 h
      cases hlow

theorem colors_le_degree_of_pick? (h : p.pick? active = some r) (hlow : r.low = false)
    (hv : v ∈ active) :
    p.colors ≤ p.degree (active.union p.pinnedToRegister) v := by
  simp only [pick?] at h
  split at h
  · cases h
    cases hlow
  · next hfind =>
    have := find?_eq_none.1 hfind v (VarSet.mem_toList.2 hv)
    simpa using this

theorem not_mem_candidates_of_pick? (h : p.pick? active = some r) (hlow : r.low = false)
    (hc : r.var ∉ p.candidates) (hv : v ∈ active) : v ∉ p.candidates := by
  simp only [pick?] at h
  split at h
  · cases h
    cases hlow
  · split at h
    · next u hu =>
      cases h
      have := (mem_filter.1 (mem_of_heaviest? hu)).2
      exact absurd (VarSet.contains_iff.1 this) hc
    · next hnone =>
      intro hvc
      have : v ∈ active.toList.filter p.candidates.contains :=
        mem_filter.2 ⟨VarSet.mem_toList.2 hv, VarSet.contains_iff.2 hvc⟩
      rw [heaviest?_eq_none hnone] at this
      exact not_mem_nil this

theorem removalsFrom_of_none (h : p.pick? active = none) : p.removalsFrom active = [] := by
  rw [removalsFrom]
  split
  · rfl
  · next r hr =>
    rw [h] at hr
    cases hr

theorem removalsFrom_of_some (h : p.pick? active = some r) :
    p.removalsFrom active = r :: p.removalsFrom (active.erase r.var) := by
  rw [removalsFrom]
  split
  · next hr =>
    rw [h] at hr
    cases hr
  · next r' hr =>
    rw [h] at hr
    cases hr
    rfl

theorem removals_induction {P : VarSet → Prop} (hnil : ∀ active, p.pick? active = none → P active)
    (hcons : ∀ active r, p.pick? active = some r → P (active.erase r.var) → P active)
    (active : VarSet) : P active := by
  induction h : active.bits using Nat.strongRecOn generalizing active with
  | ind n ih =>
    cases hr : p.pick? active with
    | none => exact hnil active hr
    | some r =>
      exact hcons active r hr (ih _ (h ▸ VarSet.bits_erase_lt (mem_of_pick? hr)) _ rfl)

theorem mem_removalsFrom (p : ColoringProblem) (active : VarSet) (v : Nat) :
    v ∈ (p.removalsFrom active).map (·.var) ↔ v ∈ active := by
  induction active using p.removals_induction with
  | hnil active h =>
    rw [removalsFrom_of_none h]
    simpa using pick?_eq_none h v
  | hcons active r h ih =>
    rw [removalsFrom_of_some h, map_cons, mem_cons, ih, VarSet.mem_erase]
    constructor
    · rintro (rfl | hv)
      · exact mem_of_pick? h
      · exact hv.1
    · intro hv
      by_cases hvr : v = r.var
      · exact Or.inl hvr
      · exact Or.inr ⟨hv, hvr⟩

theorem nodup_removalsFrom (p : ColoringProblem) (active : VarSet) :
    ((p.removalsFrom active).map (·.var)).Nodup := by
  induction active using p.removals_induction with
  | hnil active h =>
    rw [removalsFrom_of_none h]
    exact nodup_nil
  | hcons active r h ih =>
    rw [removalsFrom_of_some h, map_cons, nodup_cons]
    refine ⟨?_, ih⟩
    rw [mem_removalsFrom, VarSet.mem_erase]
    simp

theorem exists_pick?_of_mem_removalsFrom (h : r ∈ p.removalsFrom active) :
    ∃ active', (∀ v ∈ active', v ∈ active) ∧ p.pick? active' = some r := by
  induction active using p.removals_induction with
  | hnil active hnone =>
    rw [removalsFrom_of_none hnone] at h
    cases h
  | hcons active r' hpick ih =>
    rw [removalsFrom_of_some hpick] at h
    rcases mem_cons.1 h with rfl | h
    · exact ⟨active, fun _ hv => hv, hpick⟩
    · obtain ⟨active', hsub, hpick'⟩ := ih h
      exact ⟨active', fun v hv => (VarSet.mem_erase.1 (hsub v hv)).1, hpick'⟩

def lowVars (removals : List Removal) : List Nat := (removals.filter (·.low)).map (·.var)

theorem mem_lowVars : v ∈ lowVars removals ↔ ∃ r ∈ removals, r.low = true ∧ r.var = v := by
  simp [lowVars, and_assoc]

theorem mem_pinnedToRegister :
    v ∈ p.pinnedToRegister ↔ v < p.graph.size ∧ (p.pinnedRegister? v).isSome = true := by
  simp [pinnedToRegister]

theorem length_taken_le {present : VarSet} (v : Nat)
    (h : ∀ u ∈ p.graph.neighbours v, colors.getD u none ≠ none → u ∈ present) :
    ((p.graph.neighbours v).filterMap fun u => colors.getD u none).length ≤ p.degree present v := by
  rw [degree, length_filterMap_eq_countP, ← countP_eq_length_filter]
  refine countP_mono_left fun u hu hsome => ?_
  exact VarSet.contains_iff.2 (h u hu (Option.isSome_iff_ne_none.1 hsome))

theorem Partial.present (h : p.Partial done colors) (hp : p.Lawful)
    (hdone : ∀ u ∈ done, u ∈ active) (u : Nat) (hu : u ∈ p.graph.neighbours v)
    (hsome : colors.getD u none ≠ none) : u ∈ active.union p.pinnedToRegister := by
  rw [VarSet.mem_union, mem_pinnedToRegister]
  by_cases hpin : p.pin? u = none
  · left
    by_contra hnot
    exact hsome (h.undone u hpin fun hmem => hnot (hdone u hmem))
  · right
    rw [h.pinned u (hp.lt hu) hpin] at hsome
    exact ⟨hp.lt hu, Option.isSome_iff_ne_none.2 hsome⟩

/-- **Variables of low degree find a color.** The induction is along the removals, so the variables
that have a color already were removed later and count for the degree. -/
theorem exists_color_of_low (hp : p.Lawful) (active : VarSet) :
    (∀ v ∈ active, p.pin? v = none ∧ v < p.graph.size) →
    ∀ v ∈ lowVars (p.removalsFrom active),
      ((lowVars (p.removalsFrom active)).reverse.foldl p.select p.pinColors).getD v none ≠ none := by
  induction active using p.removals_induction with
  | hnil active h =>
    rw [removalsFrom_of_none h]
    simp [lowVars]
  | hcons active r h ih =>
    intro hactive v hv
    have hrest : ∀ v ∈ active.erase r.var, p.pin? v = none ∧ v < p.graph.size := fun v hv =>
      hactive v (VarSet.mem_erase.1 hv).1
    have hlow := ih hrest
    rw [removalsFrom_of_some h] at hv ⊢
    cases hr : r.low with
    | false =>
      have heq : lowVars (r :: p.removalsFrom (active.erase r.var)) =
          lowVars (p.removalsFrom (active.erase r.var)) := by
        simp [lowVars, hr]
      rw [heq] at hv ⊢
      exact hlow v hv
    | true =>
      have heq : lowVars (r :: p.removalsFrom (active.erase r.var)) =
          r.var :: lowVars (p.removalsFrom (active.erase r.var)) := by
        simp [lowVars, hr]
      rw [heq] at hv ⊢
      rw [reverse_cons, foldl_append, foldl_cons, foldl_nil]
      by_cases hvr : r.var = v
      · subst hvr
        obtain ⟨hpin, hlt⟩ := hactive r.var (mem_of_pick? h)
        -- Whoever has a color by now is pinned or was removed later.
        have hdone : ∀ u ∈ (lowVars (p.removalsFrom (active.erase r.var))).reverse,
            u ∈ active.erase r.var := by
          intro u hu
          obtain ⟨r', hr', _, rfl⟩ := mem_lowVars.1 (mem_reverse.1 hu)
          exact (mem_removalsFrom p _ _).1 (mem_map_of_mem hr')
        have hpartial := Partial.foldl_select hp _ [] _ p.pinColors_partial
          fun u hu => hrest u (hdone u hu)
        rw [nil_append] at hpartial
        have hdegree := degree_lt_of_pick? h hr
        have htaken := length_taken_le r.var (hpartial.present hp fun u hu =>
          (VarSet.mem_erase.1 (hdone u hu)).1)
        obtain ⟨c, hc⟩ := exists_lowestFree? (Nat.lt_of_le_of_lt htaken hdegree)
        rw [getD_select, if_pos ⟨rfl, hpartial.size ▸ hlt⟩, hc]
        simp
      · rw [getD_select_of_ne hvr]
        rcases mem_cons.1 hv with rfl | hv
        · exact absurd rfl hvr
        · exact hlow v hv

/-! ## The solution -/

theorem mem_unpinned : v ∈ p.unpinned ↔ v < p.graph.size ∧ p.pin? v = none := by
  simp [unpinned]

def potentialVars (removals : List Removal) : List Nat :=
  (removals.filter (!·.low)).map (·.var)

theorem mem_potentialVars :
    v ∈ potentialVars removals ↔ ∃ r ∈ removals, r.low = false ∧ r.var = v := by
  simp [potentialVars, and_assoc]

theorem selection_eq (p : ColoringProblem) :
    p.selection = (lowVars p.removals).reverse ++
      ((potentialVars p.removals).filter (!p.candidates.contains ·) ++
        (potentialVars p.removals).filter p.candidates.contains) := by
  rw [selection, append_assoc]
  rfl

theorem mem_selection (p : ColoringProblem) (v : Nat) : v ∈ p.selection ↔ v ∈ p.unpinned := by
  have hsplit : v ∈ p.removals.map (·.var) ↔
      v ∈ lowVars p.removals ∨ v ∈ potentialVars p.removals := by
    rw [mem_map, mem_lowVars, mem_potentialVars]
    constructor
    · rintro ⟨r, hr, rfl⟩
      cases hlow : r.low
      · exact Or.inr ⟨r, hr, hlow, rfl⟩
      · exact Or.inl ⟨r, hr, hlow, rfl⟩
    · rintro (⟨r, hr, _, rfl⟩ | ⟨r, hr, _, rfl⟩) <;> exact ⟨r, hr, rfl⟩
  have hall : v ∈ p.removals.map (·.var) ↔ v ∈ p.unpinned := by
    rw [removals, mem_removalsFrom, VarSet.mem_ofList]
  rw [← hall, hsplit, selection_eq]
  simp only [mem_append, mem_reverse, mem_filter]
  cases p.candidates.contains v <;> simp

/-- **The colors of a solution.** -/
theorem solve_partial (hp : p.Lawful) :
    p.Partial p.selection (p.selection.foldl p.select p.pinColors) := by
  have h := Partial.foldl_select hp p.selection [] _ p.pinColors_partial fun v hv => by
    have := mem_unpinned.1 ((mem_selection p v).1 hv)
    exact ⟨this.2, this.1⟩
  rwa [nil_append] at h

theorem getD_colors_solve (p : ColoringProblem) (v : Nat) :
    (p.solve.colors[v]?).join = (p.selection.foldl p.select p.pinColors).getD v none := by
  rw [solve, Array.getElem?_toList]
  by_cases hv : v < (p.selection.foldl p.select p.pinColors).size <;> simp [Array.getD, hv]

theorem mem_uncolored :
    v ∈ p.solve.uncolored ↔
      v < p.graph.size ∧ p.pin? v = none ∧ (p.solve.colors[v]?).join = none := by
  rw [getD_colors_solve, solve, mem_filter, mem_unpinned, Option.isNone_iff_eq_none, and_assoc]

theorem color_ne_none_of_low (hp : p.Lawful) (hv : v ∈ lowVars p.removals) :
    (p.solve.colors[v]?).join ≠ none := by
  have hactive : ∀ v ∈ VarSet.ofList p.unpinned, p.pin? v = none ∧ v < p.graph.size := by
    intro v hv
    have := mem_unpinned.1 (VarSet.mem_ofList.1 hv)
    exact ⟨this.2, this.1⟩
  rw [getD_colors_solve, selection_eq, foldl_append]
  have hlow := exists_color_of_low hp (.ofList p.unpinned) hactive v hv
  -- What is put back afterwards is no variable of low degree.
  have hkeep : ∀ (vs : List Nat) (colors : Array (Option Nat)), v ∉ vs →
      (vs.foldl p.select colors).getD v none = colors.getD v none := by
    intro vs
    induction vs with
    | nil => exact fun _ _ => rfl
    | cons u vs ih =>
      intro colors hnot
      rw [mem_cons, not_or] at hnot
      rw [foldl_cons, ih _ hnot.2, getD_select_of_ne (Ne.symm hnot.1)]
  have hnot : v ∉ potentialVars p.removals := by
    intro hpot
    obtain ⟨r, hr, hrl, rfl⟩ := mem_lowVars.1 hv
    obtain ⟨r', hr', hrl', heq⟩ := mem_potentialVars.1 hpot
    have hrr : r' = r := inj_on_of_nodup_map (p.nodup_removalsFrom _) hr' hr heq
    rw [hrr, hrl] at hrl'
    cases hrl'
  rw [hkeep]
  · exact hlow
  · simp [hnot]

/-- **If among any variables that may not be spilled one has few neighbours, only candidates are left
without color.** -/
theorem mem_candidates_of_uncolored (hp : p.Lawful)
    (hfew : ∀ active : VarSet, (∃ v, v ∈ active) →
      (∀ v ∈ active, v < p.graph.size ∧ p.pin? v = none ∧ v ∉ p.candidates) →
      ∃ v ∈ active, p.degree (active.union p.pinnedToRegister) v < p.colors)
    (hv : v ∈ p.solve.uncolored) : v ∈ p.candidates := by
  obtain ⟨hlt, hpin, hnone⟩ := mem_uncolored.1 hv
  have hmem : v ∈ p.removals.map (·.var) := by
    rw [removals, mem_removalsFrom, VarSet.mem_ofList, mem_unpinned]
    exact ⟨hlt, hpin⟩
  obtain ⟨r, hr, rfl⟩ := mem_map.1 hmem
  have hlow : r.low = false := by
    by_contra hlow
    exact color_ne_none_of_low hp (mem_lowVars.2 ⟨r, hr, by simpa using hlow, rfl⟩) hnone
  by_contra hc
  -- It was removed when no candidate was left and all degrees were high.
  obtain ⟨active, hactive, hpick⟩ := exists_pick?_of_mem_removalsFrom hr
  obtain ⟨u, hu, hfew⟩ := hfew active ⟨r.var, mem_of_pick? hpick⟩ fun u hu => by
    obtain ⟨hlt, hpin⟩ := mem_unpinned.1 (VarSet.mem_ofList.1 (hactive u hu))
    exact ⟨hlt, hpin, not_mem_candidates_of_pick? hpick hlow hc hu⟩
  exact Nat.not_lt.2 (colors_le_degree_of_pick? hpick hlow hu) hfew

end ColoringProblem

end MiniJava
