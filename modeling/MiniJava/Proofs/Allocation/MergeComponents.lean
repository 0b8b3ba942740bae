import Mathlib.Combinatorics.SimpleGraph.Connectivity.Connected
import MiniJava.Proofs.Allocation.Webs
import MiniJava.Proofs.Results

/-!
# Variables are the components of merges

Merges are the edges of a graph on the positions of a body. Its components, less the statements that
neither define nor merge values, are the variables of the body. Such a statement may well hold a
component together: a merge may name a jump, and two merges that do are in one variable. It may also be
the root of the class in the forest, so variables are not in the order of their roots. They are in the
order of their first members, which is the order in which roots are met for the first time.
-/

namespace MiniJava

open Ssa List Body Variables

theorem pairwise_eraseDups {l : List (Nat × Nat)} (h : l.Pairwise (·.1 < ·.1)) :
    (l.map (·.2)).eraseDups.Pairwise fun c d => ∀ j, (j, d) ∈ l → ∃ i < j, (i, c) ∈ l := by
  induction hn : l.length using Nat.strongRecOn generalizing l with
  | ind n ih =>
    cases l with
    | nil => simp
    | cons e l =>
      obtain ⟨i, a⟩ := e
      obtain ⟨hlt, hrest⟩ := pairwise_cons.1 h
      -- What is left are the entries with other keys.
      have hfilter : (l.map (·.2)).filter (fun b => !b == a) =
          (l.filter fun e => !e.2 == a).map (·.2) := by
        rw [filter_map]
        rfl
      have hlen : (l.filter fun e => !e.2 == a).length < n := by
        have := length_filter_le (fun e => !e.2 == a) l
        rw [length_cons] at hn
        omega
      have hother : ∀ j d, d ≠ a → (j, d) ∈ (i, a) :: l → (j, d) ∈ l.filter fun e => !e.2 == a := by
        intro j d hd hmem
        rcases mem_cons.1 hmem with heq | hmem
        · exact absurd (congrArg Prod.snd heq) hd
        · exact mem_filter.2 ⟨hmem, by simpa using hd⟩
      have hkeys : ∀ d, d ∈ ((l.filter fun e => !e.2 == a).map (·.2)).eraseDups → d ≠ a := by
        intro d hd
        rw [mem_eraseDups, ← hfilter, mem_filter] at hd
        simpa using hd.2
      rw [map_cons, eraseDups_cons, hfilter, pairwise_cons]
      refine ⟨fun d hd j hj => ⟨i, ?_, mem_cons_self⟩, ?_⟩
      · exact hlt _ (mem_filter.1 (hother j d (hkeys d hd) hj)).1
      · refine (ih _ hlen (hrest.filter _) rfl).imp_of_mem fun {c d} _ hd hcd j hj => ?_
        obtain ⟨i', hi', hmem⟩ := hcd j (hother j d (hkeys d hd) hj)
        exact ⟨i', hi', mem_cons_of_mem _ (mem_filter.1 hmem).1⟩

/-! ## The graph of merges -/

namespace Ssa.Body

variable {body : Body} {i j c : Nat} {s t : Statement}

def Refers (body : Body) (i j : Nat) : Prop :=
  ∃ s t, body[i]? = some s ∧ body[j]? = some t ∧
    (s.op = .unify ∧ (s.left? = some t.id ∨ s.right? = some t.id) ∨
      s.op = .aliasOf ∧ s.left? = some t.id)

def mergeGraph (body : Body) : SimpleGraph Nat := .fromRel body.Refers

def HoldsValue (body : Body) (i : Nat) : Prop :=
  ∃ s, body[i]? = some s ∧ (s.op.definesValue = true ∨ s.op.isMerge = true)

/-- The statement at a position defines or merges values and has a pin. -/
def PinnedAt (body : Body) (i : Nat) (p : Pin) : Prop :=
  ∃ s, body[i]? = some s ∧ (s.op.definesValue = true ∨ s.op.isMerge = true) ∧ s.pin? = some p

def PinsAgree (body : Body) : Prop :=
  ∀ i j p q, body.mergeGraph.Reachable i j → body.PinnedAt i p → body.PinnedAt j q → p = q

theorem mem_mergeOperands_iff {o : StmtId} : o ∈ s.mergeOperands ↔
    s.op = .unify ∧ (s.left? = some o ∨ s.right? = some o) ∨ s.op = .aliasOf ∧ s.left? = some o := by
  rw [Statement.mergeOperands]
  split
  · next hop => simp [hop]
  · next hop => simp [hop]
  · next hunify halias =>
    have hunify : s.op ≠ .unify := hunify
    have halias : s.op ≠ .aliasOf := halias
    simp [hunify, halias]

theorem DistinctIds.mem_mergeEdges_iff (hd : body.DistinctIds) :
    (i, j) ∈ body.mergeEdges ↔ body.Refers i j := by
  rw [mem_mergeEdges]
  constructor
  · rintro ⟨s, o, hs, ho, hj⟩
    obtain ⟨t, ht, rfl⟩ := getElem?_of_lastPosition? hj
    exact ⟨s, t, hs, ht, mem_mergeOperands_iff.1 ho⟩
  · rintro ⟨s, t, hs, ht, ho⟩
    exact ⟨s, t.id, hs, mem_mergeOperands_iff.2 ho, hd.lastPosition?_eq ht⟩

/-- **Components are the classes of the forest.** -/
theorem DistinctIds.reachable_iff (hd : body.DistinctIds) :
    body.mergeGraph.Reachable i j ↔ body.joined.root i = body.joined.root j := by
  constructor
  · rintro ⟨walk⟩
    induction walk with
    | nil => rfl
    | @cons i j k hadj _ ih =>
      have hedge : ∀ {x y}, body.Refers x y → body.joined.root x = body.joined.root y := fun h =>
        (root_joined_iff body _ _).2 (.rel _ _ (hd.mem_mergeEdges_iff.2 h))
      rcases ((SimpleGraph.fromRel_adj _ _ _).1 hadj).2 with h | h
      · exact (hedge h).trans ih
      · exact (hedge h).symm.trans ih
  · intro h
    rw [root_joined_iff] at h
    induction h with
    | rel x y hedge =>
      by_cases hxy : x = y
      · rw [hxy]
      · refine SimpleGraph.Adj.reachable ((SimpleGraph.fromRel_adj _ _ _).2 ⟨hxy, Or.inl ?_⟩)
        exact hd.mem_mergeEdges_iff.1 hedge
    | refl => rfl
    | symm _ _ _ ih => exact ih.symm
    | trans _ _ _ _ _ ih₁ ih₂ => exact ih₁.trans ih₂

/-! ## Cells -/

theorem isTracked_iff : s.isTracked = true ↔ s.op.definesValue = true ∨ s.op.isMerge = true := by
  rw [Statement.isTracked, Bool.or_eq_true]

theorem holdsValue_iff : body.HoldsValue i ↔ body.cellAt? i = some (body.joined.root i) := by
  rw [cellAt?_eq_some]
  exact exists_congr fun s => and_congr_right fun _ => by rw [isTracked_iff, and_iff_left rfl]

theorem cellAt?_eq_some_iff : body.cellAt? i = some c ↔ body.HoldsValue i ∧ c = body.joined.root i := by
  rw [holdsValue_iff]
  constructor
  · intro h
    obtain ⟨s, hs, htr, rfl⟩ := cellAt?_eq_some.1 h
    exact ⟨h, rfl⟩
  · rintro ⟨h, rfl⟩
    exact h

theorem pairwise_cells (body : Body) :
    body.cells.Pairwise fun c d => ∀ j, body.cellAt? j = some d →
      ∃ i < j, body.cellAt? i = some c := by
  have hmem : ∀ i c, (i, c) ∈ body.tracked.map (·.2) ↔ body.cellAt? i = some c := by
    intro i c
    rw [mem_map, cellAt?_eq_some]
    constructor
    · rintro ⟨⟨s, _, _⟩, he, heq⟩
      cases heq
      exact ⟨s, mem_tracked.1 he⟩
    · rintro ⟨s, hs⟩
      exact ⟨(s, i, c), mem_tracked.2 hs, rfl⟩
  have hasc : (body.tracked.map (·.2)).Pairwise (·.1 < ·.1) :=
    pairwise_map.2 (pairwise_tracked body)
  have h := pairwise_eraseDups hasc
  rw [map_map] at h
  exact h.imp fun hcd j hj => by
    obtain ⟨i, hi, hc⟩ := hcd j ((hmem j _).2 hj)
    exact ⟨i, hi, (hmem i _).1 hc⟩

end Ssa.Body

/-! ## Variables -/

namespace Variables

variable {body : Body} {vs : Variables}

/-- **There are variables if and only if pins agree.** -/
theorem exists_build_iff (hd : body.DistinctIds) :
    (∃ vs, build body = .ok vs) ↔ body.PinsAgree := by
  constructor
  · rintro ⟨vs, h⟩ i j p q hreach ⟨s, hs, hstr, hp⟩ ⟨t, ht, httr, hq⟩
    have hn := build_numbers h
    have hi := hn.agree i s p hs (isTracked_iff.2 hstr) hp
    have hj := hn.agree j t q ht (isTracked_iff.2 httr) hq
    rw [hd.reachable_iff.1 hreach, hj] at hi
    exact (Option.some.inj hi).symm
  · intro hagree
    have hnone : conflict? body.tracked = none := by
      rw [conflict?, findSome?_eq_none_iff]
      rintro ⟨s, i, r⟩ hmem
      obtain ⟨hs, htr, rfl⟩ := mem_tracked.1 hmem
      cases hp : s.pin? with
      | none => simp [hp]
      | some q =>
        cases hv : (variableOf body.tracked (body.joined.root i)).pin? with
        | none => simp [hp, hv]
        | some p =>
          obtain ⟨j, t, ht, httr, hroot, htp⟩ := pin?_variableOf_eq_some hv
          have hpq := hagree j i p q (hd.reachable_iff.2 hroot.symm)
            ⟨t, ht, isTracked_iff.1 httr, htp⟩ ⟨s, hs, isTracked_iff.1 htr, hp⟩
          simp [hp, hv, hpq]
    rw [build, hnone]
    exact ⟨_, rfl⟩

/-- Variables that are the components of the graph of merges, less what holds no value. -/
structure AreComponents (body : Body) (vs : Variables) : Prop where
  connected : ∀ i j, body.HoldsValue i → body.HoldsValue j →
    ((∃ x ∈ vs.all, i ∈ x.members ∧ j ∈ x.members) ↔ body.mergeGraph.Reachable i j)
  covered : ∀ i, body.HoldsValue i → ∃! v : Nat, ∃ x, vs.all[v]? = some x ∧ i ∈ x.members
  values : ∀ x ∈ vs.all, ∀ i ∈ x.members, body.HoldsValue i
  inhabited : ∀ x ∈ vs.all, x.members ≠ []
  ascending : ∀ x ∈ vs.all, x.members.Pairwise (· < ·)
  numbered : vs.all.Pairwise fun x y => ∀ i j, x.members.head? = some i → y.members.head? = some j →
    i < j
  pinned : ∀ x ∈ vs.all, ∀ p, x.pin? = some p ↔ ∃ i ∈ x.members, body.PinnedAt i p
  byPosition : ∀ i v, vs.at? i = some v ↔ ∃ x, vs.all[v]? = some x ∧ i ∈ x.members
  byId : ∀ i s, body[i]? = some s → vs.of? s.id = vs.at? i
  unknown : ∀ id, (∀ s ∈ body, s.id ≠ id) → vs.of? id = none

end Variables

namespace Numbers

variable {body : Body} {vs : Variables} {i v : Nat}

theorem exists_cell (h : Numbers body vs) {x : Variable} (hx : x ∈ vs.all) :
    ∃ c ∈ body.cells, x = variableOf body.tracked c := by
  rw [h.all, mem_map] at hx
  obtain ⟨c, hc, rfl⟩ := hx
  exact ⟨c, hc, rfl⟩

theorem at?_eq_some_iff_mem (h : Numbers body vs) :
    vs.at? i = some v ↔ ∃ x, vs.all[v]? = some x ∧ i ∈ x.members := by
  rw [h.at?_eq_some]
  constructor
  · rintro ⟨c, hi, hv⟩
    refine ⟨variableOf body.tracked c, ?_, mem_members_variableOf.2 hi⟩
    rw [h.getElem?_all, hv]
    rfl
  · rintro ⟨x, hx, hi⟩
    rw [h.getElem?_all, Option.map_eq_some_iff] at hx
    obtain ⟨c, hv, rfl⟩ := hx
    exact ⟨c, mem_members_variableOf.1 hi, hv⟩

theorem pairwise_all (h : Numbers body vs) :
    vs.all.Pairwise fun x y => ∀ i j, x.members.head? = some i → y.members.head? = some j →
      i < j := by
  rw [h.all, pairwise_map]
  refine body.pairwise_cells.imp fun {c d} hcd i j hi hj => ?_
  obtain ⟨i', hlt, hi'⟩ := hcd j (mem_members_variableOf.1 (mem_of_mem_head? hj))
  have hle : i ≤ i' := by
    obtain ⟨rest, heq⟩ := head?_eq_some_iff.1 hi
    have hmem := mem_members_variableOf.2 hi'
    have hasc := pairwise_members_variableOf body c
    rw [heq] at hmem hasc
    rcases mem_cons.1 hmem with rfl | hmem
    · exact Nat.le_refl _
    · exact Nat.le_of_lt ((pairwise_cons.1 hasc).1 i' hmem)
  exact Nat.lt_of_le_of_lt hle hlt

theorem pin?_eq_some_iff (h : Numbers body vs) {c : Nat} {p : Pin} :
    (variableOf body.tracked c).pin? = some p ↔
      ∃ i ∈ (variableOf body.tracked c).members, body.PinnedAt i p := by
  constructor
  · intro hp
    obtain ⟨i, s, hs, htr, rfl, hsp⟩ := pin?_variableOf_eq_some hp
    exact ⟨i, mem_members_variableOf.2 (cellAt?_eq hs htr), s, hs,
      isTracked_iff.1 htr, hsp⟩
  · rintro ⟨i, hi, s, hs, htr, hp⟩
    obtain ⟨_, rfl⟩ := cellAt?_eq_some_iff.1 (mem_members_variableOf.1 hi)
    exact h.agree i s p hs (isTracked_iff.2 htr) hp

end Numbers

namespace Variables

/-- **Variables are the components of merges.** A body has variables if and only if no component has
two pins. Then every statement that defines or merges values is in one variable, two of them are in the
same one if and only if merges connect them, and variables are listed in order, with their members in
order, with the pins of these, and found by position and by number. -/
theorem variables_are_components (body : Body) (hd : body.DistinctIds) :
    ((∃ vs, build body = .ok vs) ↔ body.PinsAgree) ∧
      ∀ vs, build body = .ok vs → AreComponents body vs := by
  refine ⟨exists_build_iff hd, fun vs hvs => ?_⟩
  have h := build_numbers hvs
  have hmem : ∀ c i, i ∈ (variableOf body.tracked c).members ↔
      body.HoldsValue i ∧ c = body.joined.root i := fun c i =>
    mem_members_variableOf.trans Body.cellAt?_eq_some_iff
  have hcell : ∀ i, body.HoldsValue i → body.joined.root i ∈ body.cells := fun i hi =>
    Body.mem_cells.2 ⟨i, Body.holdsValue_iff.1 hi⟩
  constructor
  case connected =>
    intro i j hi hj
    rw [hd.reachable_iff]
    constructor
    · rintro ⟨x, hx, hix, hjx⟩
      obtain ⟨c, _, rfl⟩ := h.exists_cell hx
      exact ((hmem c i).1 hix).2.symm.trans ((hmem c j).1 hjx).2
    · intro hroot
      refine ⟨_, ?_, (hmem _ i).2 ⟨hi, rfl⟩, (hmem _ j).2 ⟨hj, hroot⟩⟩
      rw [h.all]
      exact mem_map_of_mem (hcell i hi)
  case covered =>
    intro i hi
    obtain ⟨v, hv⟩ := Numbers.exists_number (hcell i hi)
    have hat := h.at?_eq_some.2 ⟨_, Body.holdsValue_iff.1 hi, hv⟩
    refine ⟨v, h.at?_eq_some_iff_mem.1 hat, fun w hw => ?_⟩
    exact Option.some.inj ((h.at?_eq_some_iff_mem.2 hw).symm.trans hat)
  case values =>
    intro x hx i hi
    obtain ⟨c, _, rfl⟩ := h.exists_cell hx
    exact ((hmem c i).1 hi).1
  case inhabited =>
    intro x hx
    obtain ⟨c, hc, rfl⟩ := h.exists_cell hx
    obtain ⟨i, hi⟩ := Body.mem_cells.1 hc
    exact ne_nil_of_mem (mem_members_variableOf.2 hi)
  case ascending =>
    intro x hx
    obtain ⟨c, _, rfl⟩ := h.exists_cell hx
    exact pairwise_members_variableOf body c
  case numbered => exact h.pairwise_all
  case pinned =>
    intro x hx p
    obtain ⟨c, _, rfl⟩ := h.exists_cell hx
    exact h.pin?_eq_some_iff
  case byPosition => exact fun i v => h.at?_eq_some_iff_mem
  case byId =>
    intro i s hs
    rw [h.byId, h.byPosition, hd.cell?_eq_cellAt? hs]
  case unknown =>
    intro id hid
    rw [h.byId]
    cases hc : body.cell? id with
    | none => rfl
    | some c =>
      obtain ⟨_, s, hs, hsid, _⟩ := Body.cell?_eq_some hc
      exact absurd hsid (hid s (mem_of_getElem? hs))

/-- Two merges name one jump, which keeps a pinned value and a later one together. -/
def throughJump : Body := [
  { id := 4, op := .jump, payload := .label "next" },
  { id := 9, op := .int, payload := .int 1 },
  { id := 2, op := .parameter, payload := .position 0, pin? := some (.register 0) },
  { id := 7, op := .unify, left? := some 2, right? := some 4 },
  { id := 0, op := .int, payload := .int 2 },
  { id := 5, op := .label, payload := .label "next" },
  { id := 3, op := .unify, left? := some 4, right? := some 0 },
  { id := 6, op := .aliasOf, left? := some 9 }]

theorem variables_are_components_throughJump : throughJump.DistinctIds ∧ throughJump.PinsAgree ∧
    ∃ vs, build throughJump = .ok vs ∧
      vs.all = [⟨[1, 7], none⟩, ⟨[2, 3, 4, 6], some (.register 0)⟩] ∧
      AreComponents throughJump vs := by
  have hd : throughJump.DistinctIds := by unfold Body.DistinctIds; decide
  obtain ⟨hiff, hcomponents⟩ := variables_are_components throughJump hd
  have hall : (build throughJump).toOption.map (·.all) =
      some [⟨[1, 7], none⟩, ⟨[2, 3, 4, 6], some (.register 0)⟩] := by decide +kernel
  obtain ⟨vs, hvs, hall⟩ := exists_eq_ok_of_map_toOption hall
  exact ⟨hd, hiff.1 ⟨vs, hvs⟩, vs, hvs, hall, hcomponents vs hvs⟩

end Variables

end MiniJava
