import MiniJava.Proofs.Allocation.Numbering

/-!
# The layout of spilled code

Spilled code is a list of groups, one for each statement of the body. This file says at which positions
the groups and their labels are. The loads of a label, if it has any, stand before it, so a jump to the
label passes over them.
-/

namespace MiniJava

open Ssa List Option Body

namespace Spill

/-! ## Positions of groups -/

def startOf (gs : List Body) (i : Nat) : Nat := (gs.take i).flatten.length

section Positions

variable {gs : List Body} {g : Body} {i j m : Nat}

theorem startOf_cons_succ (g : Body) (gs : List Body) (i : Nat) :
    startOf (g :: gs) (i + 1) = g.length + startOf gs i := by
  simp [startOf]

theorem startOf_succ (h : gs[i]? = some g) : startOf gs (i + 1) = startOf gs i + g.length := by
  rw [startOf, take_add_one, h, startOf]
  simp

theorem startOf_mono (h : i ≤ j) : startOf gs i ≤ startOf gs j := by
  rw [startOf, startOf, ← Nat.min_eq_left h, ← take_take]
  exact List.Sublist.length_le (List.Sublist.flatten (take_sublist _ _))

theorem startOf_of_length_le (h : gs.length ≤ i) : startOf gs i = gs.flatten.length := by
  rw [startOf, take_of_length_le h]

theorem getElem?_flatten (h : gs[i]? = some g) (hm : m < g.length) :
    gs.flatten[startOf gs i + m]? = g[m]? := by
  obtain ⟨hi, rfl⟩ := List.getElem?_eq_some_iff.1 h
  have hsplit : gs.flatten = (gs.take i).flatten ++ (gs[i] ++ (gs.drop (i + 1)).flatten) := by
    rw [← flatten_cons, ← drop_eq_getElem_cons hi, ← flatten_append,
      take_append_drop]
  rw [hsplit, startOf, getElem?_append_right (Nat.le_add_right _ _), Nat.add_sub_cancel_left,
    getElem?_append_left hm]

def labelAt (gs : List Body) (i : Nat) : Nat :=
  startOf gs i + (gs.getD i []).findIdx (·.op == .label)

theorem labelAt_cons_zero (g : Body) (gs : List Body) :
    labelAt (g :: gs) 0 = g.findIdx (·.op == .label) :=
  Nat.zero_add _

theorem labelAt_cons_succ (g : Body) (gs : List Body) (i : Nat) :
    labelAt (g :: gs) (i + 1) = g.length + labelAt gs i := by
  rw [labelAt, startOf_cons_succ, Nat.add_assoc]
  rfl

theorem startOf_le_labelAt (gs : List Body) (i : Nat) : startOf gs i ≤ labelAt gs i :=
  Nat.le_add_right _ _

end Positions

theorem Groups.exists_list {body rest code : Body} {vs : Variables} {live : Liveness}
    {slots : Slots} {i n n' : Nat} (h : Groups body vs live slots i n rest code n') :
    ∃ gs : List Body, code = gs.flatten ∧ gs.length = rest.length ∧
      ∀ j s g, rest[j]? = some s → gs[j]? = some g → ∃ m loaded, n ≤ m ∧
        Reloads vs slots s.uses m loaded ∧ g = groupOf body vs live slots (i + j) s m loaded := by
  induction h with
  | nil => exact ⟨[], rfl, rfl, by simp⟩
  | @cons i n n' s rest more loaded hr _ ih =>
    obtain ⟨gs, rfl, hlen, hgroups⟩ := ih
    refine ⟨groupOf body vs live slots i s n loaded :: gs, by simp, by simp [hlen], ?_⟩
    intro j t g ht hg
    cases j with
    | zero =>
      cases ht
      cases hg
      exact ⟨n, loaded, Nat.le_refl _, hr, rfl⟩
    | succ j =>
      obtain ⟨m, loaded', hm, hr', rfl⟩ := hgroups j t g ht hg
      refine ⟨m, loaded', Nat.le_trans (Nat.le_add_right _ _) hm, hr', ?_⟩
      rw [Nat.add_assoc, Nat.add_comm 1 j]

end Spill

/-! ## Labels -/

namespace Ssa.Body

def labelsFrom (n : Nat) (body : Body) : List (String × Nat) :=
  (body.zipIdx n).filterMap fun (s, i) => if s.op = .label then s.label?.map (·, i) else none

theorem labels_eq (body : Body) : body.labels = body.labelsFrom 0 := rfl

theorem labelsFrom_append (n : Nat) (a b : Body) :
    labelsFrom n (a ++ b) = labelsFrom n a ++ labelsFrom (n + a.length) b := by
  rw [labelsFrom, zipIdx_append, filterMap_append]
  rfl

theorem labelsFrom_cons (n : Nat) (s : Statement) (body : Body) :
    labelsFrom n (s :: body) = labelsFrom n [s] ++ labelsFrom (n + 1) body := by
  rw [← singleton_append, labelsFrom_append]
  rfl

theorem labelsFrom_of_forall {n : Nat} {body : Body} (h : ∀ s ∈ body, s.op ≠ .label) :
    labelsFrom n body = [] := by
  refine filterMap_eq_nil_iff.2 fun e he => ?_
  obtain ⟨s, i⟩ := e
  exact if_neg (h s (fst_mem_of_mem_zipIdx he))

theorem le_of_mem_labelsFrom {n : Nat} {body : Body} {e : String × Nat}
    (h : e ∈ body.labelsFrom n) : n ≤ e.2 := by
  obtain ⟨⟨s, i⟩, hmem, he⟩ := mem_filterMap.1 h
  dsimp only at he
  split at he
  · obtain ⟨l, _, rfl⟩ := map_eq_some_iff.1 he
    exact (mem_zipIdx hmem).1
  · cases he

end Ssa.Body

namespace Spill

theorem labelsFrom_flatten {rest : Body} {gs : List Body}
    (h : List.Forall₂ (fun s g => ∀ n, labelsFrom n g =
      labelsFrom (n + g.findIdx (·.op == .label)) [s]) rest gs)
    (n i : Nat) : labelsFrom n gs.flatten =
      (rest.labelsFrom i).map fun e => (e.1, n + labelAt gs (e.2 - i)) := by
  induction h generalizing n i with
  | nil => rfl
  | @cons s g rest gs hg _ ih =>
    rw [flatten_cons, labelsFrom_append, labelsFrom_cons, map_append, hg,
      ih (n + g.length) (i + 1)]
    congr 1
    · by_cases hop : s.op = .label
      · cases hl : s.label? <;> simp [labelsFrom, hop, hl, labelAt_cons_zero]
      · simp [labelsFrom, hop]
    · refine map_congr_left fun e he => ?_
      have hle := le_of_mem_labelsFrom he
      obtain ⟨k, hk⟩ := Nat.exists_eq_add_of_le hle
      rw [hk, Nat.add_sub_cancel_left, Nat.add_assoc i, Nat.add_sub_cancel_left, Nat.add_comm 1 k,
        labelAt_cons_succ, Nat.add_assoc]

end Spill

/-! ## Groups -/

namespace Spill

variable {body code : Body} {next : StmtId} {a : Analysis} {slots : Slots} {n' pc target : Nat}
  {s : Statement} {gs : List Body}

structure Laid (body code : Body) (next : StmtId) (a : Analysis) (slots : Slots) (gs : List Body) :
    Prop where
  code : code = gs.flatten
  length : gs.length = body.length
  group : ∀ (i : Nat) (s : Statement), body[i]? = some s → ∃ m loaded, next ≤ m ∧
    Reloads a.vars slots s.uses m loaded ∧
      gs[i]? = some (groupOf body a.vars a.live slots i s m loaded)

theorem Inserted.exists_laid (h : Inserted body next a slots code n') :
    ∃ gs, Laid body code next a slots gs := by
  obtain ⟨gs, hcode, hlen, hgroup⟩ := h.groups.exists_list
  refine ⟨gs, hcode, hlen, fun i s hs => ?_⟩
  have hlt : i < gs.length := hlen ▸ lt_of_getElem? hs
  obtain ⟨m, loaded, hm, hr, heq⟩ := hgroup i s _ hs (getElem?_eq_getElem hlt)
  rw [Nat.zero_add] at heq
  exact ⟨m, loaded, hm, hr, by rw [getElem?_eq_getElem hlt, heq]⟩

section Group

variable {vs : Variables} {live : Liveness} {i j m : Nat} {loaded : List (Nat × StmtId)}

theorem length_groupOf : (groupOf body vs live slots i s m loaded).length =
    loaded.length + 1 + (storeOf? live slots i s (m + loaded.length)).toList.length := by
  rw [groupOf, length_append, length_map, length_reverse, length_cons,
    Nat.add_assoc, Nat.add_comm 1]

theorem getElem?_groupOf_load (hj : j < loaded.length) :
    (groupOf body vs live slots i s m loaded)[j]? =
      (loaded.reverse.map (loadOf body vs slots))[j]? := by
  rw [groupOf, getElem?_append_left (by simpa using hj)]

theorem getElem?_groupOf_stmt : (groupOf body vs live slots i s m loaded)[loaded.length]? =
    some (s.mapOperands (reloadOf vs slots loaded)) := by
  rw [groupOf, getElem?_append_right (by simp)]
  simp

theorem getElem?_groupOf_store : (groupOf body vs live slots i s m loaded)[loaded.length + 1 + j]? =
    (storeOf? live slots i s (m + loaded.length)).toList[j]? := by
  rw [groupOf, getElem?_append_right (by simp; omega), length_map, length_reverse,
    Nat.add_assoc, Nat.add_sub_cancel_left, Nat.add_comm 1 j, getElem?_cons_succ]

theorem findIdx_groupOf (hop : s.op = .label) :
    (groupOf body vs live slots i s m loaded).findIdx (·.op == .label) = loaded.length := by
  have hloads : (loaded.reverse.map (loadOf body vs slots)).findIdx (·.op == .label) =
      loaded.length := by
    rw [findIdx_eq_length_of_false fun t ht => ?_, length_map, length_reverse]
    obtain ⟨e, _, rfl⟩ := mem_map.1 ht
    rfl
  rw [groupOf, findIdx_append, hloads, length_map, length_reverse,
    if_neg (Nat.lt_irrefl _), findIdx_cons, Statement.mapOperands_op, hop]
  exact Nat.zero_add _

end Group

theorem Inserted.storeSlot?_eq_none (h : Inserted body next a slots code n')
    (hs : body[pc]? = some s) (hd : s.op.definesValue = false) :
    storeSlot? a.live slots pc = none := by
  by_contra hne
  obtain ⟨slot, hslot⟩ := ne_none_iff_exists'.1 hne
  rw [((storeSlot?_eq_some h.analyses h.numbered.distinct hs).1 hslot).1] at hd
  cases hd

theorem labelsFrom_groupOf (h : Inserted body next a slots code n') (hs : body[pc]? = some s) {m : Nat}
    {loaded : List (Nat × StmtId)} (n : Nat) :
    labelsFrom n (groupOf body a.vars a.live slots pc s m loaded) =
      labelsFrom
        (n + (groupOf body a.vars a.live slots pc s m loaded).findIdx (·.op == .label)) [s] := by
  have hloads : ∀ t ∈ loaded.reverse.map (loadOf body a.vars slots), t.op ≠ .label := by
    intro t ht
    obtain ⟨e, _, rfl⟩ := mem_map.1 ht
    simp [loadOf]
  by_cases hop : s.op = .label
  · rw [findIdx_groupOf hop, groupOf, storeOf?, h.storeSlot?_eq_none hs (by rw [hop]; rfl),
      labelsFrom_append, labelsFrom_of_forall hloads, length_map,
      length_reverse]
    simp [labelsFrom, filterMap_cons]
  · rw [labelsFrom_of_forall (fun t ht => ?_), labelsFrom_of_forall (by simpa using hop)]
    rw [groupOf, mem_append, mem_cons] at ht
    rcases ht with ht | rfl | ht
    · exact hloads t ht
    · exact hop
    · rw [storeOf?, mem_toList] at ht
      obtain ⟨slot, _, rfl⟩ := map_eq_some_iff.1 ht
      simp

namespace Laid

variable {g : Body} {i j m : Nat} {loaded : List (Nat × StmtId)}

section

variable (hl : Laid body code next a slots gs)
include hl

theorem getElem?_code (hg : gs[i]? = some g) (hj : j < g.length) :
    code[startOf gs i + j]? = g[j]? := by
  rw [hl.code, getElem?_flatten hg hj]

theorem getElem?_stmt (hg : gs[i]? = some (groupOf body a.vars a.live slots i s m loaded)) :
    code[startOf gs i + loaded.length]? = some (s.mapOperands (reloadOf a.vars slots loaded)) := by
  rw [hl.getElem?_code hg (by rw [length_groupOf]; omega), getElem?_groupOf_stmt]

/-- **Labels are in the groups of their statements.** -/
theorem labels_eq (h : Inserted body next a slots code n') :
    code.labels = body.labels.map fun e => (e.1, labelAt gs e.2) := by
  have hgroups : List.Forall₂ (fun s g => ∀ n, labelsFrom n g =
      labelsFrom (n + g.findIdx (·.op == .label)) [s]) body gs := by
    refine List.forall₂_iff_get.2 ⟨hl.length.symm, fun i hi hi' n => ?_⟩
    obtain ⟨m, loaded, _, _, hg⟩ := hl.group i _ (getElem?_eq_getElem hi)
    rw [get_eq_getElem, get_eq_getElem, (List.getElem?_eq_some_iff.1 hg).2]
    exact labelsFrom_groupOf h (getElem?_eq_getElem hi) n
  rw [hl.code, Body.labels_eq, labelsFrom_flatten hgroups 0 0, Body.labels_eq]
  simp only [Nat.zero_add, Nat.sub_zero]

theorem labelPosition?_eq (h : Inserted body next a slots code n') (l : String) :
    code.labelPosition? l = (body.labelPosition? l).map (labelAt gs) := by
  rw [labelPosition?, labelPosition?, hl.labels_eq h, ← map_reverse,
    find?_map, Option.map_map, Option.map_map]
  simp only [Function.comp_def]

end

theorem labelAt_eq
    (hg : gs[pc]? = some (groupOf body a.vars a.live slots pc s m loaded)) (hop : s.op = .label) :
    labelAt gs pc = startOf gs pc + loaded.length := by
  rw [labelAt, getD_eq_getElem?_getD, hg, getD_some, findIdx_groupOf hop]

theorem labelAt_le_iff (hl : Laid body code next a slots gs) (hs : body[pc]? = some s)
    (hj : s.op.isJump = true)
    (hg : gs[pc]? = some (groupOf body a.vars a.live slots pc s m loaded)) {t : Statement}
    (ht : body[target]? = some t) (hop : t.op = .label) :
    labelAt gs target ≤ startOf gs pc + loaded.length ↔ target ≤ pc := by
  have hnext := startOf_succ hg
  rw [length_groupOf] at hnext
  constructor
  · intro hle
    by_contra hlt
    have hmono : startOf gs (pc + 1) ≤ startOf gs target := startOf_mono (Nat.not_le.1 hlt)
    have hentry := startOf_le_labelAt gs target
    omega
  · intro hle
    have hne : target ≠ pc := by
      rintro rfl
      obtain rfl := mem_unique hs ht
      rw [hop] at hj
      cases hj
    obtain ⟨m', loaded', _, _, hg'⟩ := hl.group target t ht
    have hmono : startOf gs (target + 1) ≤ startOf gs pc :=
      startOf_mono (Nat.lt_of_le_of_ne hle hne)
    rw [startOf_succ hg', length_groupOf] at hmono
    rw [labelAt_eq hg' hop]
    omega

end Laid

end Spill

/-! ## Disciplined bodies -/

theorem Ssa.Body.Disciplined.numbered {body : Body} {next : StmtId} (h : body.Disciplined next) :
    body.Numbered next where
  distinct := h.distinct
  id_lt := h.bounded
  operand_lt := by
    intro s hs o ho
    by_cases hmerge : s.op.isMerge = true
    · obtain ⟨i, hi⟩ := mem_iff_getElem?.1 hs
      obtain ⟨t, ht, rfl, _⟩ := (h.describes i).values o (((h.admits hi).merge hmerge).2 o ho)
      exact h.bounded t (mem_of_mem_take ht)
    · exact h.lt_of_mem_uses hs (by rwa [Statement.uses, if_neg hmerge])

namespace Spill.Spilling

variable {body code : Body} {next : StmtId} {a : Analysis} {slots : Slots} {n' : Nat}

theorem inserted (h : Spilling body next a slots code n') : Inserted body next a slots code n' :=
  ⟨h.disciplined.numbered, h.analyses, h.groups⟩

theorem exists_laid (h : Spilling body next a slots code n') :
    ∃ gs, Laid body code next a slots gs := h.inserted.exists_laid

end Spill.Spilling

end MiniJava
