import MiniJava.Proofs.DisjointSets
import MiniJava.Proofs.Results
import MiniJava.Proofs.Semantics.Machine

/-!
# Merges and the cells they make

The cells of a body are the classes of the equivalence that its merges generate. This file turns the
look-ups and the forest of `Body.joined` into that statement, and derives the two facts that
executions rest on: a merge shares its cell with its operands, and whatever all merges respect
separates cells.
-/

namespace MiniJava

open Ssa List Option

/-! ## Look-ups -/

namespace Ssa.Body

def DistinctIds (body : Body) : Prop := (body.map (·.id)).Nodup

variable {body : Body} {i j : Nat} {s t : Statement} {id : StmtId}

theorem DistinctIds.eq_of_id_eq (hd : body.DistinctIds) (hs : body[i]? = some s)
    (ht : body[j]? = some t) (h : s.id = t.id) : i = j := by
  have hi : i < (body.map (·.id)).length := by
    simpa using lt_of_getElem? hs
  exact (getElem?_inj hi hd).1 (by simp [hs, ht, h])

theorem getElem?_of_lastEntry? (h : body.lastEntry? id = some (s, i)) :
    body[i]? = some s ∧ s.id = id := by
  have hmem := mem_of_find?_eq_some h
  have hid := find?_some h
  simp only [mem_reverse, mem_zipIdx_iff_getElem?] at hmem
  exact ⟨hmem, by simpa using hid⟩

theorem DistinctIds.lastEntry?_eq (hd : body.DistinctIds) (hs : body[i]? = some s) :
    body.lastEntry? s.id = some (s, i) := by
  cases h : body.lastEntry? s.id with
  | none =>
    have hnot := find?_eq_none.1 h (s, i) (by
      simpa [mem_zipIdx_iff_getElem?] using hs)
    simp at hnot
  | some e =>
    obtain ⟨t, j⟩ := e
    obtain ⟨ht, hid⟩ := getElem?_of_lastEntry? h
    obtain rfl : j = i := hd.eq_of_id_eq ht hs hid
    rw [ht] at hs
    rw [some.inj hs]

theorem DistinctIds.lastPosition?_eq (hd : body.DistinctIds) (hs : body[i]? = some s) :
    body.lastPosition? s.id = some i := by
  rw [lastPosition?, hd.lastEntry?_eq hs]
  rfl

theorem DistinctIds.last?_eq (hd : body.DistinctIds) (hs : body[i]? = some s) :
    body.last? s.id = some s := by
  rw [last?, hd.lastEntry?_eq hs]
  rfl

theorem getElem?_of_lastPosition? (h : body.lastPosition? id = some i) :
    ∃ s, body[i]? = some s ∧ s.id = id := by
  obtain ⟨e, he, rfl⟩ := map_eq_some_iff.1 h
  exact ⟨e.1, getElem?_of_lastEntry? he⟩

theorem lt_length_of_lastPosition? (h : body.lastPosition? id = some i) : i < body.length := by
  obtain ⟨s, hs, _⟩ := getElem?_of_lastPosition? h
  exact lt_of_getElem? hs

theorem mem_labels {l : String} :
    (l, i) ∈ body.labels ↔ ∃ s, body[i]? = some s ∧ s.op = .label ∧ s.label? = some l := by
  simp only [labels, mem_filterMap, Prod.exists, mem_zipIdx_iff_getElem?]
  constructor
  · rintro ⟨s, j, hs, h⟩
    by_cases hop : s.op = .label
    · rw [if_pos hop] at h
      obtain ⟨l', hl', heq⟩ := map_eq_some_iff.1 h
      cases heq
      exact ⟨s, hs, hop, hl'⟩
    · rw [if_neg hop] at h
      cases h
  · rintro ⟨s, hs, hop, hl⟩
    exact ⟨s, i, hs, by rw [if_pos hop, hl]; rfl⟩

theorem getElem?_of_labelPosition? {l : String} (h : body.labelPosition? l = some i) :
    ∃ s, body[i]? = some s ∧ s.op = .label := by
  obtain ⟨⟨l', j⟩, hfind, rfl⟩ := map_eq_some_iff.1 h
  have hmem := mem_reverse.1 (mem_of_find?_eq_some hfind)
  obtain ⟨s, hs, hop, _⟩ := mem_labels.1 hmem
  exact ⟨s, hs, hop⟩

/-! ## Classes -/

theorem mem_mergeEdges :
    (i, j) ∈ body.mergeEdges ↔
      ∃ s o, body[i]? = some s ∧ o ∈ s.mergeOperands ∧ body.lastPosition? o = some j := by
  simp only [mergeEdges, mem_flatMap, Prod.exists, mem_zipIdx_iff_getElem?,
    List.mem_map, mem_filterMap, Prod.mk.injEq]
  constructor
  · rintro ⟨s, k, hs, l, ⟨o, ho, hl⟩, rfl, rfl⟩
    exact ⟨s, o, hs, ho, hl⟩
  · rintro ⟨s, o, hs, ho, hj⟩
    exact ⟨s, i, hs, j, ⟨o, ho, hj⟩, rfl, rfl⟩

theorem mergeEdges_lt {e : Nat × Nat} (h : e ∈ body.mergeEdges) :
    e.1 < body.length ∧ e.2 < body.length := by
  obtain ⟨s, o, hs, _, hj⟩ := mem_mergeEdges.1 h
  exact ⟨(lt_of_getElem? hs), lt_length_of_lastPosition? hj⟩

/-- **The classes of a body** are those of the equivalence that its merges generate. -/
theorem root_joined_iff (body : Body) (x y : Nat) :
    body.joined.root x = body.joined.root y ↔
      Relation.EqvGen (fun i j => (i, j) ∈ body.mergeEdges) x y := by
  let calls := body.mergeEdges.reverse.map fun e => Partition.Call.union e.1 e.2
  have hcalls : ∀ c ∈ calls, c.Below body.length := by
    intro c hc
    obtain ⟨e, he, rfl⟩ := mem_map.1 hc
    exact mergeEdges_lt (mem_reverse.1 he)
  have hjoined : body.joined = .after body.length calls := by
    rw [joined, foldl_eq_foldr_reverse, Partition.after, foldr_map]
    rfl
  rw [hjoined, ← (Partition.Represents.after hcalls).joined_iff, Partition.Joined]
  simp [calls]

/-! ## Cells -/

theorem mem_tracked {r : Nat} :
    (s, i, r) ∈ body.tracked ↔ body[i]? = some s ∧ s.isTracked = true ∧ r = body.joined.root i := by
  simp only [tracked, List.mem_map, mem_filter, Prod.exists, Prod.mk.injEq,
    mem_zipIdx_iff_getElem?]
  constructor
  · rintro ⟨t, k, ⟨ht, htr⟩, rfl, rfl, rfl⟩
    exact ⟨ht, htr, rfl⟩
  · rintro ⟨hs, htr, rfl⟩
    exact ⟨s, i, ⟨hs, htr⟩, rfl, rfl, rfl⟩

theorem cell?_eq_some {c : Nat} (h : body.cell? id = some c) :
    ∃ i s, body[i]? = some s ∧ s.id = id ∧ s.isTracked = true ∧ c = body.joined.root i := by
  obtain ⟨⟨s, i, r⟩, hfind, rfl⟩ := map_eq_some_iff.1 h
  have hid := find?_some hfind
  obtain ⟨hs, htr, hr⟩ := mem_tracked.1 (mem_reverse.1 (mem_of_find?_eq_some hfind))
  exact ⟨i, s, hs, by simpa using hid, htr, hr⟩

theorem DistinctIds.cell?_eq (hd : body.DistinctIds) (hs : body[i]? = some s)
    (htr : s.isTracked = true) : body.cell? s.id = some (body.joined.root i) := by
  cases h : body.cell? s.id with
  | none =>
    have hnot := find?_eq_none.1 (map_eq_none_iff.1 h) (s, i, body.joined.root i)
      (mem_reverse.2 (mem_tracked.2 ⟨hs, htr, rfl⟩))
    simp at hnot
  | some c =>
    obtain ⟨j, t, ht, hid, _, rfl⟩ := cell?_eq_some h
    rw [hd.eq_of_id_eq ht hs hid]

theorem cell?_mergeOperand (hd : body.DistinctIds) (hs : body[i]? = some s)
    (hj : body[j]? = some t) (ht : t.isTracked = true) (ho : t.id ∈ s.mergeOperands) :
    body.cell? t.id = body.cell? s.id := by
  have hmerge : s.isTracked = true := by
    unfold Statement.mergeOperands at ho
    split at ho <;> simp_all [Statement.isTracked, Op.isMerge]
  rw [hd.cell?_eq hs hmerge, hd.cell?_eq hj ht, some.injEq, root_joined_iff]
  exact .symm _ _ (.rel _ _ (mem_mergeEdges.2 ⟨s, t.id, hs, ho, hd.lastPosition?_eq hj⟩))

def Tied (body : Body) : Prop :=
  ∀ s ∈ body, ∀ o ∈ s.mergeOperands, body.cell? o = body.cell? s.id

theorem tied_of_tracked (hd : body.DistinctIds)
    (h : ∀ s ∈ body, ∀ o ∈ s.mergeOperands, ∃ t ∈ body, t.id = o ∧ t.isTracked = true) :
    body.Tied := by
  intro s hs o ho
  obtain ⟨t, ht, rfl, htr⟩ := h s hs o ho
  obtain ⟨i, hi⟩ := mem_iff_getElem?.1 hs
  obtain ⟨j, hj⟩ := mem_iff_getElem?.1 ht
  exact cell?_mergeOperand hd hi hj htr ho

theorem eq_of_root_eq {α : Type} {own : StmtId → Option α}
    (hown : ∀ s ∈ body, ∀ t ∈ body, t.id ∈ s.mergeOperands →
      own t.id = own s.id ∧ own s.id ≠ none)
    (hs : body[i]? = some s) (ht : body[j]? = some t)
    (hr : body.joined.root i = body.joined.root j) :
    i = j ∨ own s.id = own t.id ∧ own s.id ≠ none := by
  -- Walk along the merges from one statement to the other; the owner stays.
  have hwalk : ∀ x y, Relation.EqvGen (fun i j => (i, j) ∈ body.mergeEdges) x y → x = y ∨
      ∃ u v, body[x]? = some u ∧ body[y]? = some v ∧ own u.id = own v.id ∧ own u.id ≠ none := by
    intro x y h
    induction h with
    | rel x y h =>
      obtain ⟨u, o, hu, ho, hy⟩ := mem_mergeEdges.1 h
      obtain ⟨v, hv, rfl⟩ := getElem?_of_lastPosition? hy
      obtain ⟨hown, hne⟩ := hown u (mem_of_getElem? hu) v (mem_of_getElem? hv) ho
      exact Or.inr ⟨u, v, hu, hv, hown.symm, hne⟩
    | refl => exact Or.inl rfl
    | symm x y _ ih =>
      rcases ih with rfl | ⟨u, v, hu, hv, huv, hne⟩
      · exact Or.inl rfl
      · exact Or.inr ⟨v, u, hv, hu, huv.symm, huv ▸ hne⟩
    | trans x y z _ _ ih₁ ih₂ =>
      rcases ih₁ with rfl | ⟨u, v, hu, hv, huv, hne⟩
      · exact ih₂
      · rcases ih₂ with rfl | ⟨v', w, hv', hw, hvw, _⟩
        · exact Or.inr ⟨u, v, hu, hv, huv, hne⟩
        · obtain rfl := mem_unique hv hv'
          exact Or.inr ⟨u, w, hu, hw, huv.trans hvw, hne⟩
  rcases hwalk i j ((root_joined_iff body i j).1 hr) with rfl | ⟨u, v, hu, hv, huv, hne⟩
  · exact Or.inl rfl
  · obtain rfl := mem_unique hs hu
    obtain rfl := mem_unique ht hv
    exact Or.inr ⟨huv, hne⟩

theorem eq_of_cell?_eq {α : Type} {own : StmtId → Option α} {a b : StmtId} {c : Nat}
    (hown : ∀ s ∈ body, ∀ o ∈ s.mergeOperands, own o = own s.id ∧ own s.id ≠ none)
    (ha : body.cell? a = some c) (hb : body.cell? b = some c) :
    a = b ∨ own a = own b ∧ own a ≠ none := by
  obtain ⟨i, s, hs, rfl, _, rfl⟩ := cell?_eq_some ha
  obtain ⟨j, t, ht, rfl, _, hr⟩ := cell?_eq_some hb
  rcases eq_of_root_eq (fun u hu v _ ho => hown u hu v.id ho) hs ht hr with rfl | h
  · exact Or.inl (congrArg _ (mem_unique hs ht))
  · exact Or.inr h

theorem cell?_eq_of_merges {other : Body} {a b : StmtId} {c : Nat} (hd : other.DistinctIds)
    (hsub : ∀ s ∈ body, s.mergeOperands ≠ [] → s ∈ other)
    (htr : ∀ s ∈ other, ∀ o ∈ s.mergeOperands, ∃ t ∈ other, t.id = o ∧ t.isTracked = true)
    (ha : body.cell? a = some c) (hb : body.cell? b = some c) :
    a = b ∨ other.cell? a = other.cell? b ∧ other.cell? a ≠ none := by
  refine eq_of_cell?_eq (fun s hs o ho => ?_) ha hb
  have hmem := hsub s hs (ne_nil_of_mem ho)
  have hcell := tied_of_tracked hd htr s hmem o ho
  obtain ⟨t, ht, rfl, htt⟩ := htr s hmem o ho
  obtain ⟨j, hj⟩ := mem_iff_getElem?.1 ht
  refine ⟨hcell, ?_⟩
  rw [← hcell, hd.cell?_eq hj htt]
  exact some_ne_none _

/-! ## Classes of statements -/

variable {other : Body} {c : Nat}

/-- The class of the statement with a number, whether it holds a value or not. -/
def class? (body : Body) (id : StmtId) : Option Nat :=
  (body.lastPosition? id).map body.joined.root

theorem DistinctIds.class?_eq (hd : body.DistinctIds) (hs : body[i]? = some s) :
    body.class? s.id = some (body.joined.root i) := by
  rw [class?, hd.lastPosition?_eq hs]
  rfl

theorem DistinctIds.class?_of_cell? (hd : body.DistinctIds) (h : body.cell? id = some c) :
    body.class? id = some c := by
  obtain ⟨i, s, hs, rfl, _, rfl⟩ := cell?_eq_some h
  exact hd.class?_eq hs

theorem DistinctIds.class?_mergeOperand (hd : body.DistinctIds) {t : Statement} (hs : s ∈ body)
    (ht : t ∈ body) (ho : t.id ∈ s.mergeOperands) : body.class? t.id = body.class? s.id := by
  obtain ⟨i, hi⟩ := mem_iff_getElem?.1 hs
  obtain ⟨j, hj⟩ := mem_iff_getElem?.1 ht
  rw [hd.class?_eq hi, hd.class?_eq hj, some.injEq, root_joined_iff]
  exact .symm _ _ (.rel _ _ (mem_mergeEdges.2 ⟨s, t.id, hi, ho, hd.lastPosition?_eq hj⟩))

theorem class?_eq_of_merges {p q : StmtId} (hd : other.DistinctIds)
    (hsub : ∀ s ∈ body, s.mergeOperands ≠ [] → s ∈ other)
    (hmem : ∀ s ∈ body, ∀ t ∈ body, t.id ∈ s.mergeOperands → ∃ u ∈ other, u.id = t.id)
    (hp : body.cell? p = some c) (hq : body.cell? q = some c) :
    p = q ∨ other.class? p = other.class? q ∧ other.class? p ≠ none := by
  obtain ⟨i, s, hs, rfl, _, rfl⟩ := cell?_eq_some hp
  obtain ⟨j, t, ht, rfl, _, hr⟩ := cell?_eq_some hq
  have hown : ∀ s ∈ body, ∀ t ∈ body, t.id ∈ s.mergeOperands →
      other.class? t.id = other.class? s.id ∧ other.class? s.id ≠ none := by
    intro s hs t ht ho
    have hs' := hsub s hs (ne_nil_of_mem ho)
    obtain ⟨u, hu, hid⟩ := hmem s hs t ht ho
    obtain ⟨k, hk⟩ := mem_iff_getElem?.1 hs'
    refine ⟨hid ▸ hd.class?_mergeOperand hs' hu (hid.symm ▸ ho), ?_⟩
    rw [hd.class?_eq hk]
    exact some_ne_none _
  rcases eq_of_root_eq hown hs ht hr with rfl | h
  · exact Or.inl (congrArg _ (mem_unique hs ht))
  · exact Or.inr h

end Ssa.Body

end MiniJava
