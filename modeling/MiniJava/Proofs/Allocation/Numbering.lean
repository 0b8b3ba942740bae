import MiniJava.Proofs.Allocation.Rounds
import MiniJava.Proofs.Results

/-!
# Numbers of statements

Allocation hands out fresh numbers and redirects operands. It relies on little for this: the numbers
of a body are different, and all that the body mentions are below the next free number. Spilling keeps
this, and it keeps the order of definitions and references, for the loads of a statement stand right
before it and the store of its value right after.
-/

namespace MiniJava

open Ssa List Statement Body

/-! ## Bodies -/

namespace Ssa.Body

variable {body body' : Body} {next next' : StmtId} {seen : List StmtId} {s : Statement}

/-- The statements have different numbers, and all numbers that they mention are below a bound. -/
structure Numbered (body : Body) (next : StmtId) : Prop where
  distinct : body.DistinctIds
  id_lt : ∀ s ∈ body, s.id < next
  operand_lt : ∀ s ∈ body, ∀ o ∈ s.operands, o < next

/-- Every operand of a statement names a statement at an earlier position. -/
def Ordered (body : Body) : Prop :=
  ∀ i s, body[i]? = some s → ∀ o ∈ s.operands, ∃ t ∈ body.take i, t.id = o

/-- Every operand of a statement names an earlier statement or is one of those given. -/
def OrderedAfter : List StmtId → Body → Prop
  | _, [] => True
  | seen, s :: rest => (∀ o ∈ s.operands, o ∈ seen) ∧ OrderedAfter (seen ++ [s.id]) rest

theorem orderedAfter_append : OrderedAfter seen (body ++ body') ↔
    OrderedAfter seen body ∧ OrderedAfter (seen ++ body.map (·.id)) body' := by
  induction body generalizing seen with
  | nil => simp [OrderedAfter]
  | cons s rest ih =>
    rw [cons_append, OrderedAfter, OrderedAfter, ih, and_assoc, map_cons,
      ← append_cons]

theorem orderedAfter_iff : OrderedAfter seen body ↔ ∀ i s, body[i]? = some s →
    ∀ o ∈ s.operands, o ∈ seen ∨ ∃ t ∈ body.take i, t.id = o := by
  induction body generalizing seen with
  | nil => simp [OrderedAfter]
  | cons s rest ih =>
    rw [OrderedAfter, ih]
    constructor
    · rintro ⟨hs, hrest⟩ i t ht o ho
      cases i with
      | zero =>
        obtain rfl : s = t := Option.some.inj ht
        exact Or.inl (hs o ho)
      | succ i =>
        rcases hrest i t ht o ho with hmem | ⟨u, hu, hid⟩
        · rcases mem_append.1 hmem with hmem | hmem
          · exact Or.inl hmem
          · exact Or.inr ⟨s, by simp, (mem_singleton.1 hmem).symm⟩
        · exact Or.inr ⟨u, by simp [hu], hid⟩
    · intro h
      refine ⟨fun o ho => (h 0 s rfl o ho).resolve_right (by simp), fun i t ht o ho => ?_⟩
      rcases h (i + 1) t ht o ho with hmem | ⟨u, hu, hid⟩
      · exact Or.inl (mem_append_left _ hmem)
      · rw [take_succ_cons] at hu
        rcases mem_cons.1 hu with rfl | hu
        · exact Or.inl (by simp [hid])
        · exact Or.inr ⟨u, hu, hid⟩

theorem ordered_iff : body.Ordered ↔ OrderedAfter [] body := by
  rw [orderedAfter_iff]
  simp [Ordered]

theorem ordered_concat : Ordered (body ++ [s]) ↔
    body.Ordered ∧ ∀ o ∈ s.operands, o ∈ body.map (·.id) := by
  rw [ordered_iff, ordered_iff, orderedAfter_append, nil_append]
  simp [OrderedAfter]

/-! ### Changes of statements -/

theorem Ordered.of_forall₂ (h : body.Ordered)
    (hall : List.Forall₂ (fun s t : Statement => t.id = s.id ∧ t.operands ⊆ s.operands)
      body body') : body'.Ordered := by
  intro i t ht o ho
  have hi := lt_of_getElem? ht
  have hlen := hall.length_eq
  have hs : body[i]? = some body[i] := getElem?_eq_getElem (by omega)
  have hrel := (List.forall₂_iff_get.1 hall).2 i (by omega) hi
  obtain rfl : body'[i] = t := (List.getElem?_eq_some_iff.1 ht).2
  obtain ⟨u, hu, rfl⟩ := h i _ hs o (hrel.2 ho)
  obtain ⟨v, hv, huv⟩ := exists_right_of_forall₂ (forall₂_take i hall) hu
  exact ⟨v, hv, huv.1⟩

section Map

variable {f : Statement → Statement}

theorem map_id_map (hid : ∀ s, (f s).id = s.id) (body : Body) :
    (body.map f).map (·.id) = body.map (·.id) := by
  rw [map_map]
  exact map_congr_left fun s _ => hid s

theorem Numbered.map (h : body.Numbered next) (hid : ∀ s, (f s).id = s.id)
    (hop : ∀ s, (f s).operands ⊆ s.operands) : Numbered (body.map f) next := by
  refine ⟨?_, fun t ht => ?_, fun t ht o ho => ?_⟩
  · rw [DistinctIds, map_id_map hid]
    exact h.distinct
  · obtain ⟨s, hs, rfl⟩ := mem_map.1 ht
    rw [hid]
    exact h.id_lt s hs
  · obtain ⟨s, hs, rfl⟩ := mem_map.1 ht
    exact h.operand_lt s hs o (hop s ho)

theorem Ordered.map (h : body.Ordered) (hid : ∀ s, (f s).id = s.id)
    (hop : ∀ s, (f s).operands ⊆ s.operands) : Ordered (body.map f) :=
  h.of_forall₂ (forall₂_map_right_iff.2 (forall₂_same.2 fun s _ => ⟨hid s, hop s⟩))

end Map

theorem numbered_bare : body.bare.Numbered next ↔ body.Numbered next := by
  refine ⟨fun h => ⟨?_, fun s hs => ?_, fun s hs => ?_⟩, fun h =>
    h.map (fun _ => rfl) fun _ => List.Subset.refl _⟩
  · rw [DistinctIds, ← map_id_map id_bare]
    exact h.distinct
  · exact h.id_lt s.bare (mem_map_of_mem hs)
  · exact h.operand_lt s.bare (mem_map_of_mem hs)

theorem ordered_bare : body.bare.Ordered ↔ body.Ordered := by
  refine ⟨fun h i s hs o ho => ?_, fun h => h.map (fun _ => rfl) fun _ => List.Subset.refl _⟩
  obtain ⟨t, ht, hid⟩ := h i s.bare (getElem?_bare_of_getElem? hs) o ho
  rw [bare, ← map_take] at ht
  obtain ⟨u, hu, rfl⟩ := mem_map.1 ht
  exact ⟨u, hu, hid⟩

theorem Numbered.of_bare (h : body.Numbered next) (heq : body'.bare = body.bare) :
    body'.Numbered next := by
  rw [← numbered_bare, heq, numbered_bare]
  exact h

theorem Ordered.of_bare (h : body.Ordered) (heq : body'.bare = body.bare) : body'.Ordered := by
  rw [← ordered_bare, heq, ordered_bare]
  exact h

theorem Numbered.mono (h : body.Numbered next) (hle : next ≤ next') : body.Numbered next' :=
  ⟨h.distinct, fun s hs => Nat.lt_of_lt_of_le (h.id_lt s hs) hle,
    fun s hs o ho => Nat.lt_of_lt_of_le (h.operand_lt s hs o ho) hle⟩

theorem Numbered.use_lt (h : body.Numbered next) : ∀ s ∈ body, ∀ o ∈ s.uses, o < next :=
  fun s hs o ho => h.operand_lt s hs o (s.uses_subset ho)

theorem Ordered.numbered (h : body.Ordered) (hd : body.DistinctIds)
    (hlt : ∀ s ∈ body, s.id < next) : body.Numbered next := by
  refine ⟨hd, hlt, fun s hs o ho => ?_⟩
  obtain ⟨i, hi⟩ := mem_iff_getElem?.1 hs
  obtain ⟨t, ht, rfl⟩ := h i s hi o ho
  exact hlt t (mem_of_mem_take ht)

end Ssa.Body

/-! ## Spill code -/

namespace Spill

variable {body : Body} {vs : Variables} {live : Liveness} {slots : Slots} {i n n' : Nat}
  {rest code : Body} {seen seen' : List StmtId}

theorem reloadOf_eq_or_mem (vs : Variables) (slots : Slots) (loaded : List (Nat × StmtId))
    (o : StmtId) : reloadOf vs slots loaded o = o ∨
      reloadOf vs slots loaded o ∈ loaded.map (·.2) := by
  cases hv : (spilled? vs slots o).bind fun v => loaded.lookup v with
  | none =>
    refine Or.inl ?_
    rw [reloadOf, hv]
    rfl
  | some id =>
    refine Or.inr ?_
    obtain ⟨v, _, hl⟩ := Option.bind_eq_some_iff.1 hv
    rw [reloadOf, hv]
    exact mem_map.2 ⟨(v, id), Reloads.mem_of_lookup hl, rfl⟩

namespace Groups

theorem operand_lt (h : Groups body vs live slots i n rest code n')
    (hid : ∀ s ∈ rest, s.id < n) (hop : ∀ s ∈ rest, ∀ o ∈ s.operands, o < n) :
    ∀ t ∈ code, ∀ o ∈ t.operands, o < n' := by
  intro t ht o ho
  have hle := h.le
  induction h with
  | nil => cases ht
  | @cons i n n' s rest more loaded hr hg ih =>
    have hnext := hg.le
    have hloaded : n + loaded.length ≤ n' := by omega
    rcases mem_append.1 ht with ht | ht
    · rcases mem_append.1 ht with ht | ht
      · obtain ⟨e, _, rfl⟩ := mem_map.1 ht
        cases ho
      · rcases mem_cons.1 ht with rfl | ht
        · rw [operands_mapOperands] at ho
          obtain ⟨x, hx, rfl⟩ := mem_map.1 ho
          rcases hr.reloadOf_eq_or_le x with ⟨heq, _⟩ | ⟨_, hlt⟩
          · rw [heq]
            exact Nat.lt_of_lt_of_le (hop s mem_cons_self x hx) hle
          · exact Nat.lt_of_lt_of_le hlt hloaded
        · rw [Option.mem_toList, storeOf?, Option.map_eq_some_iff] at ht
          obtain ⟨slot, _, rfl⟩ := ht
          obtain rfl : o = s.id := mem_singleton.1 ho
          exact Nat.lt_of_lt_of_le (hid s mem_cons_self) hle
    · refine ih (fun u hu => ?_) (fun u hu x hx => ?_) ht hnext
      · exact Nat.lt_of_lt_of_le (hid u (mem_cons_of_mem _ hu)) (Nat.le_add_right _ _)
      · exact Nat.lt_of_lt_of_le (hop u (mem_cons_of_mem _ hu) x hx) (Nat.le_add_right _ _)

/-- **A spilled body is numbered.** -/
theorem numbered (h : Groups body vs live slots i n rest code n') (hrest : Body.Numbered rest n) :
    Body.Numbered code n' :=
  ⟨h.distinct hrest.distinct hrest.id_lt, fun _ ht => h.id_lt hrest.id_lt ht,
    h.operand_lt hrest.id_lt hrest.operand_lt⟩

theorem orderedAfter_groupOf {s : Statement} {loaded : List (Nat × StmtId)}
    (hop : ∀ o ∈ s.operands, o ∈ seen) :
    Body.OrderedAfter seen (groupOf body vs live slots i s n loaded) := by
  have hloads : ∀ (loads : List (Nat × StmtId)) (seen : List StmtId),
      Body.OrderedAfter seen (loads.map (loadOf body vs slots)) := by
    intro loads
    induction loads with
    | nil => exact fun _ => trivial
    | cons e loads ih => exact fun seen => ⟨fun o ho => absurd ho not_mem_nil, ih _⟩
  rw [groupOf, orderedAfter_append]
  refine ⟨hloads _ _, fun o ho => ?_, ?_⟩
  · rw [operands_mapOperands] at ho
    obtain ⟨x, hx, rfl⟩ := mem_map.1 ho
    rcases reloadOf_eq_or_mem vs slots loaded x with heq | hmem
    · rw [heq]
      exact mem_append_left _ (hop x hx)
    · refine mem_append_right _ ?_
      rw [map_map]
      obtain ⟨e, he, hid⟩ := mem_map.1 hmem
      exact mem_map.2 ⟨e, mem_reverse.2 he, hid⟩
  · rw [storeOf?]
    cases storeSlot? live slots i with
    | none => trivial
    | some slot =>
      refine ⟨fun o ho => ?_, trivial⟩
      obtain rfl : o = s.id := mem_singleton.1 ho
      simp

theorem orderedAfter (h : Groups body vs live slots i n rest code n')
    (hrest : Body.OrderedAfter seen rest) (hsub : seen ⊆ seen') :
    Body.OrderedAfter seen' code := by
  induction h generalizing seen seen' with
  | nil => trivial
  | @cons i n n' s rest more loaded hr hg ih =>
    rw [orderedAfter_append]
    refine ⟨orderedAfter_groupOf fun o ho => hsub (hrest.1 o ho), ih hrest.2 fun o ho => ?_⟩
    rcases mem_append.1 ho with ho | ho
    · exact mem_append_left _ (hsub ho)
    · obtain rfl := mem_singleton.1 ho
      exact mem_append_right _ (by simp [groupOf])

/-- **A spilled body is in order.** -/
theorem ordered (h : Groups body vs live slots i n rest code n') (hrest : Body.Ordered rest) :
    Body.Ordered code :=
  ordered_iff.2 (h.orderedAfter (ordered_iff.1 hrest) (List.Subset.refl _))

end Groups

/-! ### Cells -/

structure Inserted (body : Body) (next : StmtId) (a : Analysis) (slots : Slots) (code : Body)
    (n' : Nat) : Prop where
  numbered : body.Numbered next
  analyses : Analyses body a
  groups : Groups body a.vars a.live slots 0 next body code n'

namespace Inserted

variable {body code : Body} {next : StmtId} {a : Analysis} {slots : Slots} {n' c d : Nat}
  {p q : StmtId}

section

variable (h : Inserted body next a slots code n')
include h

theorem class?_eq_of_code (hp : code.cell? p = some c) (hq : code.cell? q = some c) :
    p = q ∨ body.class? p = body.class? q ∧ body.class? p ≠ none := by
  have hmerge : ∀ s ∈ code, s.mergeOperands ≠ [] → s ∈ body := by
    intro s hs hne
    obtain ⟨o, ho⟩ := exists_mem_of_ne_nil _ hne
    exact h.groups.mem_of_isMerge hs (of_mem_mergeOperands ho).1
  refine class?_eq_of_merges h.numbered.distinct hmerge (fun s hs t ht ho => ?_) hp hq
  -- What a merge ties is older than spill code.
  have hlt := h.numbered.operand_lt s (hmerge s hs (ne_nil_of_mem ho)) t.id
    (of_mem_mergeOperands ho).2
  obtain ⟨u, hu, hid, _⟩ := h.groups.exists_of_id_lt ht hlt
  exact ⟨u, hu, hid⟩

theorem code_class?_eq (hp : body.cell? p = some c) (hq : body.cell? q = some c) :
    p = q ∨ code.class? p = code.class? q ∧ code.class? p ≠ none := by
  refine class?_eq_of_merges (h.groups.numbered h.numbered).distinct (fun s hs hne => ?_)
    (fun s _ t ht _ => ?_) hp hq
  · obtain ⟨o, ho⟩ := exists_mem_of_ne_nil _ hne
    exact h.groups.kept_of_isMerge hs (of_mem_mergeOperands ho).1
  · obtain ⟨u, hu, hid, _⟩ := h.groups.exists_kept ht
    exact ⟨u, hu, hid⟩

theorem exists_cell (hp : code.cell? p = some c) (hlt : p < next) : ∃ d, body.cell? p = some d := by
  obtain ⟨i, t, ht, rfl, htr, _⟩ := cell?_eq_some hp
  obtain ⟨s, hs, hid, hop⟩ := h.groups.exists_of_id_lt (mem_of_getElem? ht) hlt
  obtain ⟨j, hj⟩ := mem_iff_getElem?.1 hs
  refine ⟨_, hid ▸ h.numbered.distinct.cell?_eq hj ?_⟩
  rwa [isTracked, hop]

theorem cell?_eq (hp : code.cell? p = some c) (hq : code.cell? q = some c) (hpn : p < next)
    (hqn : q < next) :
    body.cell? p = body.cell? q := by
  obtain ⟨d, hd⟩ := h.exists_cell hp hpn
  obtain ⟨e, he⟩ := h.exists_cell hq hqn
  rcases h.class?_eq_of_code hp hq with rfl | ⟨hclass, _⟩
  · rfl
  · rw [h.numbered.distinct.class?_of_cell? hd, h.numbered.distinct.class?_of_cell? he] at hclass
    rw [hd, he, hclass]

theorem lt_of_cell? (hp : body.cell? p = some c) : p < next := by
  obtain ⟨i, s, hs, rfl, _⟩ := cell?_eq_some hp
  exact h.numbered.id_lt s (mem_of_getElem? hs)

theorem exists_code_cell (hp : body.cell? p = some c) : ∃ d, code.cell? p = some d := by
  obtain ⟨i, s, hs, rfl, htr, _⟩ := cell?_eq_some hp
  obtain ⟨t, ht, hid, hop⟩ := h.groups.exists_kept (mem_of_getElem? hs)
  obtain ⟨j, hj⟩ := mem_iff_getElem?.1 ht
  refine ⟨_, hid ▸ (h.groups.numbered h.numbered).distinct.cell?_eq hj ?_⟩
  rwa [isTracked, hop]

theorem code_cell?_eq (hp : body.cell? p = some c) (hq : body.cell? q = some c) :
    code.cell? p = code.cell? q := by
  obtain ⟨d, hd⟩ := h.exists_code_cell hp
  obtain ⟨e, he⟩ := h.exists_code_cell hq
  have hcode := (h.groups.numbered h.numbered).distinct
  rcases h.code_class?_eq hp hq with rfl | ⟨hclass, _⟩
  · rfl
  · rw [hcode.class?_of_cell? hd, hcode.class?_of_cell? he] at hclass
    rw [hd, he, hclass]

theorem class?_fresh (hp : next ≤ p) : body.class? p = none := by
  by_contra hne
  obtain ⟨c, hc⟩ := Option.ne_none_iff_exists'.1 hne
  obtain ⟨j, hj, _⟩ := Option.map_eq_some_iff.1 hc
  obtain ⟨s, hs, rfl⟩ := getElem?_of_lastPosition? hj
  exact absurd (h.numbered.id_lt s (mem_of_getElem? hs)) (Nat.not_lt.2 hp)

theorem eq_of_fresh (hp : next ≤ p) (hc : code.cell? p = some c) (hq : code.cell? q = some c) :
    q = p := by
  rcases h.class?_eq_of_code hc hq with rfl | ⟨_, hne⟩
  · rfl
  · exact absurd (h.class?_fresh hp) hne

end

end Inserted

end Spill

end MiniJava
