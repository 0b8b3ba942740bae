import MiniJava.Allocation
import MiniJava.Proofs.Cells

/-!
# The variables of a body

`Variables.build` numbers the cells of a body in the order of their first members. So a variable is
its cell, and what allocation says about numbers of variables can be read as being about cells.
-/

namespace MiniJava

open Ssa List Body Variables

theorem idxOf?_eq_some_iff_getElem? {l : List Nat} (hd : l.Nodup) {a i : Nat} :
    l.idxOf? a = some i ↔ l[i]? = some a := by
  constructor
  · intro h
    obtain ⟨hi, rfl, _⟩ := List.idxOf?_eq_some_iff.1 h
    rw [getElem?_eq_getElem hi]
  · intro h
    obtain ⟨hi, ha⟩ := List.getElem?_eq_some_iff.1 h
    refine List.idxOf?_eq_some_iff.2 ⟨hi, ha, fun j hj heq => ?_⟩
    have hj' : j < l.length := Nat.lt_trans hj hi
    have hij : i = j := (getElem?_inj hi hd).1 (by
      rw [getElem?_eq_getElem hi, getElem?_eq_getElem hj', ha, heq])
    omega

theorem nodup_eraseDups (l : List Nat) : l.eraseDups.Nodup := by
  induction h : l.length using Nat.strongRecOn generalizing l with
  | ind n ih =>
    cases l with
    | nil => simp
    | cons a as =>
      rw [eraseDups_cons, nodup_cons]
      have hlt : (as.filter fun b => !b == a).length < n := by
        have := length_filter_le (fun b => !b == a) as
        rw [← h, length_cons]
        omega
      refine ⟨?_, ih _ hlt _ rfl⟩
      rw [mem_eraseDups]
      simp

theorem lookup_filterMap_map {α β : Type} {key : α → Nat} {g : α → Option β} {l : List α}
    (h : ∀ a ∈ l, (g a).isSome = true) (x : Nat) :
    (l.filterMap fun a => (g a).map (key a, ·)).lookup x = (l.find? (key · == x)).bind g := by
  induction l with
  | nil => rfl
  | cons a l ih =>
    have hl := ih fun b hb => h b (mem_cons_of_mem _ hb)
    obtain ⟨b, hb⟩ := Option.isSome_iff_exists.1 (h a mem_cons_self)
    by_cases hx : key a = x
    · simp [hb, hx]
    · have hx' : (x == key a) = false := by simpa using fun h => hx h.symm
      simp [hb, hx, hx', lookup_cons, hl]

namespace Ssa.Body

variable {body : Body} {i : Nat} {s : Statement} {c : Nat}

/-! ## Cells by position -/

def cellAt? (body : Body) (i : Nat) : Option Nat :=
  body[i]?.bind fun s => if s.isTracked then some (body.joined.root i) else none

def cells (body : Body) : List Nat := (body.tracked.map (·.2.2)).eraseDups

theorem cellAt?_eq_some :
    body.cellAt? i = some c ↔
      ∃ s, body[i]? = some s ∧ s.isTracked = true ∧ c = body.joined.root i := by
  rw [cellAt?]
  cases h : body[i]? with
  | none => simp
  | some s =>
    by_cases ht : s.isTracked = true
    · simp [ht, @eq_comm _ c]
    · simp [ht]

theorem cellAt?_eq (h : body[i]? = some s) (ht : s.isTracked = true) :
    body.cellAt? i = some (body.joined.root i) :=
  cellAt?_eq_some.2 ⟨s, h, ht, rfl⟩

theorem mem_cells : c ∈ body.cells ↔ ∃ i, body.cellAt? i = some c := by
  rw [cells, mem_eraseDups, mem_map]
  constructor
  · rintro ⟨⟨s, i, r⟩, hmem, rfl⟩
    obtain ⟨hs, ht, rfl⟩ := mem_tracked.1 hmem
    exact ⟨i, cellAt?_eq hs ht⟩
  · rintro ⟨i, hi⟩
    obtain ⟨s, hs, ht, rfl⟩ := cellAt?_eq_some.1 hi
    exact ⟨(s, i, _), mem_tracked.2 ⟨hs, ht, rfl⟩, rfl⟩

theorem nodup_cells (body : Body) : body.cells.Nodup := nodup_eraseDups _

theorem DistinctIds.cell?_eq_cellAt? (hd : body.DistinctIds) (h : body[i]? = some s) :
    body.cell? s.id = body.cellAt? i := by
  by_cases ht : s.isTracked = true
  · rw [hd.cell?_eq h ht, cellAt?_eq h ht]
  · have hnone : body.cellAt? i = none := by simp [cellAt?, h, ht]
    rw [hnone]
    cases hc : body.cell? s.id with
    | none => rfl
    | some c =>
      obtain ⟨j, t, htj, hid, htt, _⟩ := cell?_eq_some hc
      obtain rfl : j = i := hd.eq_of_id_eq htj h hid
      rw [h] at htj
      cases htj
      exact absurd htt ht

theorem mem_cells_of_cell? {id : StmtId} (h : body.cell? id = some c) : c ∈ body.cells := by
  obtain ⟨i, s, hs, _, ht, rfl⟩ := cell?_eq_some h
  exact mem_cells.2 ⟨i, cellAt?_eq hs ht⟩

end Ssa.Body

/-! ## Numbers of cells -/

structure Numbers (body : Body) (vs : Variables) : Prop where
  all : vs.all = body.cells.map (variableOf body.tracked)
  byPosition : ∀ i, vs.at? i = (body.cellAt? i).bind body.cells.idxOf?
  byId : ∀ id, vs.of? id = (body.cell? id).bind body.cells.idxOf?
  agree : ∀ i s p, body[i]? = some s → s.isTracked = true → s.pin? = some p →
    (variableOf body.tracked (body.joined.root i)).pin? = some p

namespace Variables

variable {body : Body} {vs : Variables}

theorem isSome_idxOf?_of_mem_tracked {e : Statement × Nat × Nat} (h : e ∈ body.tracked) :
    (body.cells.idxOf? e.2.2).isSome = true := by
  obtain ⟨s, i, r⟩ := e
  obtain ⟨hs, ht, rfl⟩ := mem_tracked.1 h
  have hmem : body.joined.root i ∈ body.cells := mem_cells.2 ⟨i, cellAt?_eq hs ht⟩
  rw [Option.isSome_iff_ne_none, Ne, idxOf?_eq_none_iff]
  exact not_not_intro hmem

theorem lookup_numbered_id (body : Body) (id : StmtId) :
    ((body.tracked.filterMap fun (s, i, root) => (body.cells.idxOf? root).map (s.id, i, ·)).map
      fun (id, _, v) => (id, v)).reverse.lookup id = (body.cell? id).bind body.cells.idxOf? := by
  have hlist : ((body.tracked.filterMap fun (s, i, root) =>
      (body.cells.idxOf? root).map (s.id, i, ·)).map fun (id, _, v) => (id, v)).reverse =
        body.tracked.reverse.filterMap fun e => (body.cells.idxOf? e.2.2).map (e.1.id, ·) := by
    rw [map_filterMap, filterMap_reverse]
    simp [Function.comp_def]
  rw [hlist, lookup_filterMap_map fun e he =>
    isSome_idxOf?_of_mem_tracked (mem_reverse.1 he), cell?, Option.bind_map]
  rfl

theorem lookup_numbered_position (body : Body) (i : Nat) :
    ((body.tracked.filterMap fun (s, i, root) => (body.cells.idxOf? root).map (s.id, i, ·)).map
      (·.2)).lookup i = (body.cellAt? i).bind body.cells.idxOf? := by
  have hlist : (body.tracked.filterMap fun (s, i, root) =>
      (body.cells.idxOf? root).map (s.id, i, ·)).map (·.2) =
        body.tracked.filterMap fun e => (body.cells.idxOf? e.2.2).map (e.2.1, ·) := by
    rw [map_filterMap]
    simp [Function.comp_def]
  rw [hlist, lookup_filterMap_map fun e he => isSome_idxOf?_of_mem_tracked he]
  cases h : body.tracked.find? (·.2.1 == i) with
  | none =>
    cases hc : body.cellAt? i with
    | none => rfl
    | some c =>
      obtain ⟨s, hs, ht, rfl⟩ := cellAt?_eq_some.1 hc
      have := find?_eq_none.1 h _ (mem_tracked.2 ⟨hs, ht, rfl⟩)
      simp at this
  | some e =>
    obtain ⟨s, j, r⟩ := e
    have hj := find?_some h
    obtain ⟨hs, ht, rfl⟩ := mem_tracked.1 (mem_of_find?_eq_some h)
    obtain rfl : j = i := by simpa using hj
    rw [cellAt?_eq hs ht]
    rfl

theorem mem_membersOf {c i : Nat} {s : Statement} :
    (s, i) ∈ membersOf body.tracked c ↔
      body[i]? = some s ∧ s.isTracked = true ∧ c = body.joined.root i := by
  simp only [membersOf, mem_filterMap, Prod.exists]
  constructor
  · rintro ⟨t, j, r, hmem, h⟩
    obtain ⟨ht, htr, rfl⟩ := mem_tracked.1 hmem
    split at h
    · next hr =>
      cases h
      exact ⟨ht, htr, hr.symm⟩
    · cases h
  · rintro ⟨hs, ht, rfl⟩
    exact ⟨s, i, _, mem_tracked.2 ⟨hs, ht, rfl⟩, if_pos rfl⟩

theorem mem_members_variableOf {c i : Nat} :
    i ∈ (variableOf body.tracked c).members ↔ body.cellAt? i = some c := by
  rw [variableOf, cellAt?_eq_some]
  simp only [mem_map, Prod.exists, exists_eq_right]
  exact exists_congr fun s => mem_membersOf

theorem pairwise_tracked (body : Body) : body.tracked.Pairwise (·.2.1 < ·.2.1) := by
  have hpositions : (body.zipIdx.map (·.2)).Pairwise (· < ·) := by
    rw [zipIdx_map_snd]
    exact pairwise_lt_range'
  rw [tracked, pairwise_map]
  exact (pairwise_map.1 hpositions).filter _

theorem pairwise_members_variableOf (body : Body) (c : Nat) :
    (variableOf body.tracked c).members.Pairwise (· < ·) := by
  rw [variableOf, pairwise_map]
  refine (pairwise_tracked body).filterMap _ ?_
  rintro ⟨s, i, r⟩ ⟨t, j, q⟩ hlt b hb b' hb'
  dsimp only at hb hb'
  split at hb
  · split at hb'
    · cases hb
      cases hb'
      exact hlt
    · cases hb'
  · cases hb

theorem nodup_members_variableOf (body : Body) (c : Nat) :
    (variableOf body.tracked c).members.Nodup :=
  (pairwise_members_variableOf body c).imp Nat.ne_of_lt

theorem pin?_variableOf_eq_some {c : Nat} {p : Pin}
    (h : (variableOf body.tracked c).pin? = some p) :
    ∃ i s, body[i]? = some s ∧ s.isTracked = true ∧ c = body.joined.root i ∧ s.pin? = some p := by
  obtain ⟨⟨s, i⟩, hmem, hp⟩ := exists_of_findSome?_eq_some h
  obtain ⟨hs, ht, hc⟩ := mem_membersOf.1 hmem
  exact ⟨i, s, hs, ht, hc, hp⟩

theorem pin?_of_conflict?_eq_none (h : conflict? body.tracked = none) {i : Nat} {s : Statement}
    {p : Pin} (hs : body[i]? = some s) (ht : s.isTracked = true) (hp : s.pin? = some p) :
    (variableOf body.tracked (body.joined.root i)).pin? = some p := by
  have hmem : (s, i) ∈ membersOf body.tracked (body.joined.root i) :=
    mem_membersOf.2 ⟨hs, ht, rfl⟩
  have hnone := findSome?_eq_none_iff.1 h _ (mem_tracked.2 ⟨hs, ht, rfl⟩)
  cases hv : (variableOf body.tracked (body.joined.root i)).pin? with
  | none =>
    have := findSome?_eq_none_iff.1 hv _ hmem
    rw [hp] at this
    cases this
  | some q =>
    by_cases hq : q = p
    · rw [hq]
    · simp [hp, hv, hq] at hnone

/-- **Variables number the cells of a body.** -/
theorem build_numbers (h : build body = .ok vs) : Numbers body vs := by
  rw [build] at h
  cases hc : conflict? body.tracked with
  | some c =>
    rw [hc] at h
    cases h
  | none =>
    rw [hc] at h
    obtain rfl := Except.ok.inj h
    refine ⟨rfl, fun i => ?_, fun id => lookup_numbered_id body id, fun i s p hs ht hp =>
      pin?_of_conflict?_eq_none hc hs ht hp⟩
    rw [← lookup_numbered_position, at?]
    by_cases hi : i < body.length
    · rw [getElem?_map, getElem?_range hi]
      rfl
    · have hnone : body.cellAt? i = none := by
        rw [cellAt?, getElem?_eq_none (Nat.not_lt.1 hi)]
        rfl
      rw [lookup_numbered_position, hnone, getElem?_eq_none (by simpa using hi)]
      rfl

end Variables

namespace Numbers

variable {body : Body} {vs : Variables} {id : StmtId} {i v c : Nat} {s : Statement}

theorem size_eq (h : Numbers body vs) : vs.size = body.cells.length := by
  rw [size, h.all, length_map]

theorem of?_eq_some (h : Numbers body vs) :
    vs.of? id = some v ↔ ∃ c, body.cell? id = some c ∧ body.cells[v]? = some c := by
  rw [h.byId, Option.bind_eq_some_iff]
  simp only [idxOf?_eq_some_iff_getElem? body.nodup_cells]

theorem at?_eq_some (h : Numbers body vs) :
    vs.at? i = some v ↔ ∃ c, body.cellAt? i = some c ∧ body.cells[v]? = some c := by
  rw [h.byPosition, Option.bind_eq_some_iff]
  simp only [idxOf?_eq_some_iff_getElem? body.nodup_cells]

theorem exists_number (hc : c ∈ body.cells) : ∃ v : Nat, body.cells[v]? = some c :=
  mem_iff_getElem?.1 hc

theorem getElem?_all (h : Numbers body vs) (v : Nat) :
    vs.all[v]? = (body.cells[v]?).map (variableOf body.tracked) := by
  rw [h.all, getElem?_map]

theorem pins_eq (h : Numbers body vs) (hc : body.cells[v]? = some c) :
    (vs.pins[v]?).join = (variableOf body.tracked c).pin? := by
  rw [pins, getElem?_map, h.getElem?_all, hc]
  rfl

end Numbers

end MiniJava
