import MiniJava.Proofs.Assembly.LabelClashes
import MiniJava.Proofs.Lowering.Flows

/-!
# No value is read before it is written

On every path through a lowered method each variable is written before it is read, so nothing is live
at its start. Allocation keeps this, and on every path each slot is stored to before it is loaded.
-/

namespace MiniJava

open Ssa List Statement Option Body Variables

variable {vs : Variables} {live : Liveness} {ast : Ast.Program} {p : Program}

namespace Ssa.Body

variable {body : Body} {f : Statement → Statement} {reads writes : Nat → Prop} {n i c slot : Nat}

/-- No path from the start reads a cell before it is written or loads a slot before it is stored to. -/
structure Initialized (body : Body) : Prop where
  cells : ∀ c, ¬ body.LiveAt c 0
  slots : ∀ slot n, ¬ body.LoadedWithin slot n 0

/-! ## Changes of statements -/

theorem exposed_map (hf : KeepsTies f) :
    Exposed (body.map f) reads writes n i ↔ body.Exposed reads writes n i := by
  induction n generalizing i with
  | zero => exact Iff.rfl
  | succ n ih =>
    rw [Exposed, Exposed]
    constructor
    · rintro ⟨t, ht, hstep⟩
      rw [getElem?_map, map_eq_some_iff] at ht
      obtain ⟨s, hs, rfl⟩ := ht
      refine ⟨s, hs, hstep.imp_right fun ⟨hw, j, hj, hrest⟩ => ⟨hw, j, ?_, ih.1 hrest⟩⟩
      rwa [successorsOf_map hf] at hj
    · rintro ⟨s, hs, hstep⟩
      refine ⟨f s, by rw [getElem?_map, hs]; rfl,
        hstep.imp_right fun ⟨hw, j, hj, hrest⟩ => ⟨hw, j, ?_, ih.2 hrest⟩⟩
      rwa [successorsOf_map hf]

theorem writes_map (hf : KeepsTies f) : Writes (body.map f) i c ↔ body.Writes i c := by
  constructor
  · rintro ⟨t, ht, hd, hc⟩
    rw [getElem?_map, map_eq_some_iff] at ht
    obtain ⟨s, hs, rfl⟩ := ht
    rw [hf.op] at hd
    rw [cellAt?_map hf] at hc
    exact ⟨s, hs, hd, hc⟩
  · rintro ⟨s, hs, hd, hc⟩
    exact ⟨f s, by rw [getElem?_map, hs]; rfl, by rwa [hf.op], by rwa [cellAt?_map hf]⟩

theorem Initialized.map (h : body.Initialized) (hf : KeepsTies f)
    (huses : ∀ s, (f s).uses ⊆ s.uses) (hslot : ∀ s, (f s).slot? = s.slot?) :
    Initialized (body.map f) := by
  have hget : ∀ {i : Nat} {t}, (body.map f)[i]? = some t → ∃ s, body[i]? = some s ∧ f s = t := by
    intro i t ht
    rwa [getElem?_map, map_eq_some_iff] at ht
  refine ⟨fun c hlive => ?_, fun slot n hloaded => ?_⟩
  · obtain ⟨n, hn⟩ := liveAt_iff.1 hlive
    refine h.cells c (LiveWithin.liveAt (((exposed_map hf).1 hn).imp (fun i hr => ?_)
      fun i hw => (writes_map hf).2 hw))
    obtain ⟨t, o, ht, ho, hc⟩ := hr
    obtain ⟨s, hs, rfl⟩ := hget ht
    rw [cell?_map hf] at hc
    exact ⟨s, o, hs, huses s ho, hc⟩
  · refine h.slots slot n (((exposed_map hf).1 hloaded).imp (fun i hr => ?_) fun i hw => ?_)
    · obtain ⟨t, ht, hop, hs⟩ := hr
      obtain ⟨s, hs', rfl⟩ := hget ht
      exact ⟨s, hs', by rwa [hf.op] at hop, by rwa [hslot] at hs⟩
    · obtain ⟨s, hs, hop, hs'⟩ := hw
      exact ⟨f s, by rw [getElem?_map, hs]; rfl, by rwa [hf.op], by rwa [hslot]⟩

theorem initialized_bare : body.bare.Initialized ↔ body.Initialized := by
  refine ⟨fun h => ⟨fun c hlive => h.cells c (liveAt_bare.2 hlive), fun slot n hloaded => ?_⟩,
    fun h => h.map keepsTies_bare (fun _ => List.Subset.refl _) fun _ => rfl⟩
  refine h.slots slot n (((exposed_map keepsTies_bare).2 hloaded).imp (fun i hr => ?_)
    fun i hw => ?_)
  · obtain ⟨s, hs, hr⟩ := hr
    exact ⟨s.bare, getElem?_bare_of_getElem? hs, hr⟩
  · obtain ⟨t, ht, hw⟩ := hw
    obtain ⟨s, hs, rfl⟩ := exists_of_getElem?_bare ht
    exact ⟨s, hs, hw⟩

theorem Initialized.of_bare {body' : Body} (h : body.Initialized) (heq : body'.bare = body.bare) :
    body'.Initialized := by
  rw [← initialized_bare, heq]
  exact initialized_bare.2 h

theorem Initialized.prepare (h : body.Initialized) : body.prepare.Initialized := by
  rw [prepare_eq]
  refine h.map keepsTies_prepared uses_prepared_subset fun s => ?_
  obtain ⟨_, _, hs⟩ := s.prepared_eq
  rw [hs]
  rfl

end Ssa.Body

/-! ## Paths through groups -/

namespace Spill

variable {body code : Body} {next : StmtId} {a : Analysis} {slots : Slots} {n' n i j m : Nat}
  {s t : Statement} {gs : List Body} {g : Body} {reads writes : Nat → Prop} {c c' v slot : Nat}
  {loaded : List (Nat × StmtId)} {o : StmtId}

theorem getElem?_groupOf_cases (h : (groupOf body vs live slots i s m loaded)[j]? = some t) :
    (∃ e ∈ loaded, t = loadOf body vs slots e) ∨
      (j = loaded.length ∧ t = s.mapOperands (reloadOf vs slots loaded)) ∨
      loaded.length < j ∧ storeOf? live slots i s (m + loaded.length) = some t := by
  rcases Nat.lt_trichotomy j loaded.length with hlt | rfl | hlt
  · rw [getElem?_groupOf_load hlt] at h
    obtain ⟨e, he, rfl⟩ := mem_map.1 (mem_of_getElem? h)
    exact Or.inl ⟨e, mem_reverse.1 he, rfl⟩
  · rw [getElem?_groupOf_stmt] at h
    exact Or.inr (Or.inl ⟨rfl, (some.inj h).symm⟩)
  · obtain ⟨k, rfl⟩ := Nat.exists_eq_add_of_lt hlt
    rw [Nat.add_right_comm, getElem?_groupOf_store] at h
    exact Or.inr (Or.inr ⟨hlt, mem_toList.1 (mem_of_getElem? h)⟩)

theorem lookup_of_loadOf {e : Nat × StmtId} (hv : spilled? vs slots o = some e.1)
    (h : (loadOf body vs slots e).slot? = some slot) : slots.lookup e.1 = some slot := by
  obtain ⟨_, slot', hlookup⟩ := spilled?_eq_some.1 hv
  rw [loadOf, slot?, hlookup] at h
  rw [hlookup, ← some.inj h]
  rfl

namespace Laid

section

variable (hl : Laid body code next a slots gs)
include hl

theorem exists_getElem? (h : startOf gs i < code.length) : ∃ s, body[i]? = some s := by
  refine ⟨_, getElem?_eq_getElem (Nat.not_le.1 fun hle => ?_)⟩
  rw [startOf_of_length_le (hl.length ▸ hle), ← hl.code] at h
  exact Nat.lt_irrefl _ h

theorem exists_not_isJump (hg : gs[i]? = some (groupOf body a.vars a.live slots i s m loaded))
    (hj : j < (groupOf body a.vars a.live slots i s m loaded).length) (hne : j ≠ loaded.length) :
    ∃ t, code[startOf gs i + j]? = some t ∧ t.op.isJump = false := by
  have ht := getElem?_eq_getElem hj
  refine ⟨_, (hl.getElem?_code hg hj).trans ht, ?_⟩
  rcases getElem?_groupOf_cases ht with ⟨e, _, heq⟩ | ⟨hc, _⟩ | ⟨_, hstore⟩
  · rw [heq]
    rfl
  · exact absurd hc hne
  · obtain ⟨slot, _, heq⟩ := map_eq_some_iff.1 hstore
    rw [← heq]
    rfl

/-- **A path through a group.** It comes to a read in the group before it comes to a write, or it
leaves the group without a write, for the group of a statement that control may go to. -/
theorem exposed_cases (h : Spilling body next a slots code n') (hshape : body.Shaped)
    (hs : body[i]? = some s) (hg : gs[i]? = some (groupOf body a.vars a.live slots i s m loaded))
    (hexp : code.Exposed reads writes n (startOf gs i)) :
    (∃ j < (groupOf body a.vars a.live slots i s m loaded).length,
      reads (startOf gs i + j) ∧ ∀ k < j, ¬ writes (startOf gs i + k)) ∨
    (∀ j < (groupOf body a.vars a.live slots i s m loaded).length, ¬ writes (startOf gs i + j)) ∧
      ∃ k ∈ body.successorsOf s i, ∃ m < n, code.Exposed reads writes m (startOf gs k) := by
  have hline := fun j => hl.exists_not_isJump (j := j) hg
  have hend := startOf_succ hg
  rw [length_groupOf] at hline hend ⊢
  generalize hstore : (storeOf? a.live slots i s (m + loaded.length)).toList.length = k
    at hline hend ⊢
  -- First the loads, then the statement.
  rcases hexp.walk (l := loaded.length) fun j hj => hline j (by omega) (Nat.ne_of_lt hj) with
    ⟨j, hj, hread⟩ | ⟨hloads, n₁, hn₁, hexp⟩
  · exact Or.inl ⟨j, by omega, hread⟩
  rcases hexp.cases (hl.getElem?_stmt hg) with hread | ⟨hw, target, htarget, n₂, hn₂, hexp⟩
  · exact Or.inl ⟨loaded.length, by omega, hread, hloads⟩
  have hnot : ∀ j < loaded.length + 1, ¬ writes (startOf gs i + j) := by
    intro j hj
    rcases Nat.lt_succ_iff_lt_or_eq.1 hj with hj | rfl
    · exact hloads j hj
    · exact hw
  have hjoin : ∀ l, (∀ j < l, ¬ writes (startOf gs i + loaded.length + 1 + j)) →
      ∀ j < loaded.length + 1 + l, ¬ writes (startOf gs i + j) := by
    intro l hl' j hj
    rcases Nat.lt_or_ge j (loaded.length + 1) with hlt | hle
    · exact hnot j hlt
    · obtain ⟨d, rfl⟩ := Nat.exists_eq_add_of_le hle
      rw [← Nat.add_assoc, ← Nat.add_assoc]
      exact hl' d (by omega)
  rcases eq_of_mem_successorsOf htarget with ⟨hf, rfl⟩ | ⟨hjump, l, hlabel, hpos⟩
  · -- Then the store.
    have hrest : ∀ j < k, ∃ t, code[startOf gs i + loaded.length + 1 + j]? = some t ∧
        t.op.isJump = false := by
      intro j hj
      rw [Nat.add_assoc, Nat.add_assoc, ← Nat.add_assoc loaded.length]
      exact hline _ (by omega) (by omega)
    rcases hexp.walk hrest with ⟨j, hj, hread, hbefore⟩ | ⟨hafter, n₃, hn₃, hexp⟩
    · refine Or.inl ⟨loaded.length + 1 + j, by omega, ?_, hjoin j hbefore⟩
      rwa [← Nat.add_assoc, ← Nat.add_assoc]
    · rw [show startOf gs i + loaded.length + 1 + k = startOf gs (i + 1) by omega] at hexp
      obtain ⟨_, hnext⟩ := hl.exists_getElem? hexp.lt_length
      exact Or.inr ⟨hjoin k hafter, i + 1, succ_mem_successorsOf hf
        (lt_of_getElem? hnext), n₃, by omega, hexp⟩
  · -- A jump has no value, so there is no store behind it.
    have hnone : k = 0 := by
      rw [← hstore, storeOf?]
      cases hslot : storeSlot? a.live slots i with
      | none => rfl
      | some slot =>
        have hd := ((storeSlot?_eq_some h.analyses h.disciplined.distinct hs).1 hslot).1
        rw [Op.definesValue_of_isJump (show s.op.isJump = true from hjump)] at hd
        cases hd
    rw [mapOperands_label?] at hlabel
    rw [hl.labelPosition? h hshape, map_eq_some_iff] at hpos
    obtain ⟨target', htarget', rfl⟩ := hpos
    exact Or.inr ⟨fun j hj => hnot j (by omega), target',
      mem_successorsOf_of_jump hjump hlabel htarget', n₂, by omega, hexp⟩

/-- **What holds along paths through groups.** It holds where a group comes to a read before it comes
to a write, and it passes backwards through groups without a write. -/
theorem exposed_induction (h : Spilling body next a slots code n') (hshape : body.Shaped)
    {P : Nat → Prop}
    (hread : ∀ i s m loaded j t, body[i]? = some s → next ≤ m → Reloads a.vars slots s.uses m loaded → gs[i]? = some (groupOf body a.vars a.live slots i s m loaded) → (groupOf body a.vars a.live slots i s m loaded)[j]? = some t → code[startOf gs i + j]? = some t → reads (startOf gs i + j) → (∀ k < j, ¬ writes (startOf gs i + k)) → P i)
    (hpass : ∀ i s m loaded k, body[i]? = some s → gs[i]? = some (groupOf body a.vars a.live slots i s m loaded) → (∀ j < (groupOf body a.vars a.live slots i s m loaded).length, ¬ writes (startOf gs i + j)) → k ∈ body.successorsOf s i → P k → P i)
    (hexp : code.Exposed reads writes n (startOf gs i)) : P i := by
  induction n using Nat.strong_induction_on generalizing i with
  | _ n ih =>
    obtain ⟨s, hs⟩ := hl.exists_getElem? hexp.lt_length
    obtain ⟨m, loaded, hm, hr, hg⟩ := hl.group i s hs
    rcases hl.exposed_cases h hshape hs hg hexp with
      ⟨j, hj, hreads, hbefore⟩ | ⟨hnot, k, hk, n₁, hn₁, hrest⟩
    · have ht := getElem?_eq_getElem hj
      exact hread i s m loaded j _ hs hm hr hg ht ((hl.getElem?_code hg hj).trans ht) hreads hbefore
    · exact hpass i s m loaded k hs hg hnot hk (ih n₁ hn₁ hrest)

theorem writes_stmt (h : Spilling body next a slots code n')
    (hg : gs[i]? = some (groupOf body a.vars a.live slots i s m loaded))
    (hd : s.op.definesValue = true) (hc : code.cell? s.id = some c) :
    code.Writes (startOf gs i + loaded.length) c :=
  (h.distinct.writes_iff (hl.getElem?_stmt hg) hd).2 hc

end

theorem length_lt_groupOf : loaded.length < (groupOf body vs live slots i s m loaded).length := by
  rw [length_groupOf]
  omega

section

variable (hl : Laid body code next a slots gs) (h : Spilling body next a slots code n')
  (hshape : body.Shaped)
include hl h hshape

/-- **A cell that is live at the start of a group** was live before the statement. -/
theorem liveAt_of_liveWithin (hc : body.cell? o = some c) (hc' : code.cell? o = some c')
    (hlive : code.LiveWithin c' n (startOf gs i)) :
    body.LiveAt c i := by
  have hlt : o < next := Nat.not_le.1 fun hle => by simp [h.cell?_fresh hle] at hc
  refine hl.exposed_induction h hshape ?_ ?_ hlive
  · rintro i s m loaded j t hs hm hr hg ht htc ⟨t', x, ht', hx, hxc⟩ hbefore
    obtain rfl := mem_unique htc ht'
    rcases getElem?_groupOf_cases ht with ⟨e, _, rfl⟩ | ⟨_, rfl⟩ | ⟨hafter, hstore⟩
    · cases hx
    · -- An operand that is not redirected.
      rw [uses_mapOperands] at hx
      obtain ⟨y, hy, rfl⟩ := mem_map.1 hx
      rcases hr.reloadOf_eq_or_le y with ⟨heq, _⟩ | ⟨hle, _⟩
      · rw [heq] at hxc
        have hsame : body.cell? y = body.cell? o := by
          rcases h.cell?_eq_of_code hxc hc' with rfl | ⟨hsame, _⟩
          · rfl
          · exact hsame
        exact .read hs hy (hsame.trans hc)
      · have heq := h.eq_of_cell?_eq_fresh (Nat.le_trans hm hle) hxc hc'
        exact absurd hlt (Nat.not_lt.2 (heq ▸ Nat.le_trans hm hle))
    · -- What is stored has just been written.
      obtain ⟨slot, hslot, rfl⟩ := map_eq_some_iff.1 hstore
      obtain rfl : x = s.id := mem_singleton.1 hx
      have hd := ((storeSlot?_eq_some h.analyses h.disciplined.distinct hs).1 hslot).1
      exact absurd (hl.writes_stmt h hg hd hxc) (hbefore _ hafter)
  · intro i s m loaded k hs hg hnot hk hlive
    refine .pass hs (fun hw => hnot _ length_lt_groupOf ?_) hk hlive
    obtain ⟨u, hu, hd, _⟩ := id hw
    obtain rfl := mem_unique hs hu
    have hcell := (h.disciplined.distinct.writes_iff hs hd).1 hw
    exact hl.writes_stmt h hg hd ((h.inserted.code_cell?_eq hcell hc).trans hc')

theorem exists_loadedWithin (hfresh : FreshSlots body slots) (hslot : slot < body.nextFreeSlot)
    (hloaded : code.LoadedWithin slot n (startOf gs i)) :
    ∃ n, body.LoadedWithin slot n i := by
  refine hl.exposed_induction (P := fun i => ∃ n, body.LoadedWithin slot n i) h hshape ?_ ?_ hloaded
  · rintro i s m loaded j t hs _ hr _ ht htc ⟨t', ht', hop, hts⟩ _
    obtain rfl := mem_unique htc ht'
    rcases getElem?_groupOf_cases ht with ⟨e, he, rfl⟩ | ⟨_, rfl⟩ | ⟨_, hstore⟩
    · obtain ⟨_, _, hx⟩ := hr.exists_operand he
      have hle := hfresh.free e.1 slot (lookup_of_loadOf hx hts)
      exact absurd hslot (Nat.not_lt.2 hle)
    · rw [mapOperands_slot?] at hts
      exact ⟨1, s, hs, Or.inl ⟨s, hs, hop, hts⟩⟩
    · obtain ⟨_, _, rfl⟩ := map_eq_some_iff.1 hstore
      cases hop
  · rintro i s m loaded k hs hg hnot hk ⟨n, hn⟩
    refine ⟨n + 1, s, hs, Or.inr ⟨fun hw => hnot _ length_lt_groupOf ?_, k, hk, hn⟩⟩
    obtain ⟨u, hu, hop, hus⟩ := hw
    obtain rfl := mem_unique hs hu
    exact ⟨_, hl.getElem?_stmt hg, hop, by rwa [mapOperands_slot?]⟩

/-- **A variable whose slot may be loaded** is live. -/
theorem liveAt_of_loadedWithin (hfresh : FreshSlots body slots) (hv : slots.lookup v = some slot)
    (hcv : body.cells[v]? = some c) (hloaded : code.LoadedWithin slot n (startOf gs i)) :
    body.LiveAt c i := by
  refine hl.exposed_induction h hshape ?_ ?_ hloaded
  · rintro i s m loaded j t hs _ hr _ ht htc ⟨t', ht', hop, hts⟩ _
    obtain rfl := mem_unique htc ht'
    rcases getElem?_groupOf_cases ht with ⟨e, he, rfl⟩ | ⟨_, rfl⟩ | ⟨_, hstore⟩
    · -- A load of the slot is there for an operand of the cell.
      obtain ⟨x, hx, hxv⟩ := hr.exists_operand he
      obtain rfl := hfresh.injective e.1 v slot (lookup_of_loadOf hxv hts) hv
      obtain ⟨d, hd, hcd⟩ := h.analyses.numbers.of?_eq_some.1 (spilled?_eq_some.1 hxv).1
      obtain rfl := mem_unique hcd hcv
      exact .read hs hx hd
    · rw [mapOperands_slot?] at hts
      have hlt := lt_nextFreeSlot (mem_of_getElem? hs) (Or.inr hop) hts
      exact absurd hlt (Nat.not_lt.2 (hfresh.free v slot hv))
    · obtain ⟨_, _, rfl⟩ := map_eq_some_iff.1 hstore
      cases hop
  · intro i s m loaded k hs hg hnot hk hlive
    refine .pass hs (fun hw => ?_) hk hlive
    obtain ⟨u, hu, hd, _⟩ := id hw
    obtain rfl := mem_unique hs hu
    -- The cell is written and live, so it is stored.
    have hslot : storeSlot? a.live slots i = some slot :=
      (storeSlot?_eq_some h.analyses h.disciplined.distinct hs).2
        ⟨hd, c, v, (h.disciplined.distinct.writes_iff hs hd).1 hw, hcv, ⟨s, k, hs, hk, hlive⟩, hv⟩
    have hlen : loaded.length + 1 < (groupOf body a.vars a.live slots i s m loaded).length := by
      rw [length_groupOf, storeOf?, hslot]
      exact Nat.lt_succ_self _
    have hstore : (groupOf body a.vars a.live slots i s m loaded)[loaded.length + 1]? =
        storeOf? a.live slots i s (m + loaded.length) := by
      rw [← Nat.add_zero (loaded.length + 1), getElem?_groupOf_store, storeOf?, hslot]
      rfl
    rw [storeOf?, hslot] at hstore
    exact hnot _ hlen ⟨_, (hl.getElem?_code hg hlen).trans hstore, rfl, rfl⟩

end

end Laid

/-- **Spilling keeps bodies initialized.** -/
theorem Spilling.initialized (h : Spilling body next a slots code n') (hfresh : FreshSlots body slots)
    (hshape : body.Shaped) (hbody : body.Initialized) : code.Initialized := by
  obtain ⟨gs, hl⟩ := h.exists_laid
  refine ⟨fun c' hlive => ?_, fun slot n hloaded => ?_⟩
  · obtain ⟨n, hn⟩ := liveAt_iff.1 hlive
    obtain ⟨_, _, o, _, _, hc'⟩ := hlive.exists_reads
    obtain ⟨p, t, ht, rfl, htr, _⟩ := cell?_eq_some hc'
    have hmem := mem_of_getElem? ht
    cases h.groups.origin hmem with
    | @kept s m loaded hs _ _ =>
      obtain ⟨j, hj⟩ := mem_iff_getElem?.1 hs
      have hc := h.disciplined.distinct.cell?_eq hj htr
      exact hbody.cells _ (hl.liveAt_of_liveWithin h hshape hc hc' hn)
    | load =>
      -- Loads are read at once, and nothing is on its way at the start.
      have hpending := h.disciplined_code.mem_pendingAt_of_liveAt hmem rfl hc' hlive
      cases hpending
    | store _ _ _ _ heq =>
      rw [heq] at htr
      cases htr
  · by_cases hslot : slot < body.nextFreeSlot
    · obtain ⟨n', hn'⟩ := hl.exists_loadedWithin (i := 0) h hshape hfresh hslot hloaded
      exact hbody.slots slot n' hn'
    · obtain ⟨p, t, ht, hop, hts⟩ := Body.Exposed.exists_reads hloaded
      cases h.groups.origin (mem_of_getElem? ht) with
      | @kept s m loaded hs _ _ =>
        rw [mapOperands_slot?] at hts
        exact hslot (lt_nextFreeSlot hs (Or.inr hop) hts)
      | @load e s o _ _ _ _ hv =>
        have hlookup := lookup_of_loadOf hv hts
        obtain ⟨c, hcv, _⟩ := h.choice.cell e.1 slot hlookup
        exact hbody.cells c (hl.liveAt_of_loadedWithin h hshape hfresh hlookup hcv hloaded)
      | store _ _ _ _ heq =>
        rw [heq] at hop
        cases hop

end Spill

/-- **Allocation keeps bodies initialized.** -/
theorem Allocates.initialized {k : Nat} {body final : Body} {next last : StmtId}
    (h : Allocates k body next final last) (hshape : body.Shaped) (hbody : body.Initialized) :
    final.Initialized := by
  induction h with
  | colored => exact hbody.of_bare (by rw [bare_assignRegisters, bare_clearRegisters])
  | @spilled body code final next n' last a slots hs hfresh _ ih =>
    have hshape' := shaped_clearRegisters.2 hshape
    exact ih (hs.shaped hshape')
      (hs.initialized hfresh hshape' (hbody.of_bare body.bare_clearRegisters))

/-! ## Programs -/

namespace Ssa

theorem Body.Disciplined.tied_of_prepare {body : Body} {next : StmtId}
    (h : body.prepare.Disciplined next) : body.Tied := by
  have hprep := tied_of_tracked h.distinct fun _ hs _ ho => h.isTracked_mergeOperand hs ho
  intro s hs o ho
  have hsame := hprep s.prepared (mem_map_of_mem hs) o
    (by rwa [keepsTies_prepared.mergeOperands])
  rwa [prepare_eq, cell?_map keepsTies_prepared, cell?_map keepsTies_prepared,
    id_prepared] at hsame

theorem Lowered.initialized (h : Lowered ast p) (hids : ast.nodeIds.Nodup) :
    ∀ m ∈ p.methods, m.body.Initialized := by
  intro m hm
  have hdis := h.disciplined m hm
  have hd := hdis.distinct_of_prepare
  have htied := hdis.tied_of_prepare
  have hlabels := h.nodup_labelNames hids hm
  constructor
  · rcases mem_cons.1 hm with rfl | hm
    · obtain ⟨sc, sc', hmain, _⟩ := h.main
      exact not_liveAt_lowerMain hmain hd htied hlabels
    · obtain ⟨c, hc, hm⟩ := mem_flatMap.1 hm
      obtain ⟨_, _, decl, _, sc, sc', hmethod, _⟩ := h.exists_decl hc hm
      exact not_liveAt_lowerMethod hmethod hd htied hlabels
  · intro slot n hloaded
    obtain ⟨i, s, hs, hop, _⟩ := Body.Exposed.exists_reads hloaded
    exact (h.plain m hm s (mem_of_getElem? hs)).2.1 hop

theorem Lowered.initialized_prepare {p' : Program} (h : Lowered ast p) (hids : ast.nodeIds.Nodup)
    (hp' : p' = p ∨ p' = p.check.1) :
    ∀ m ∈ p'.methods, m.body.prepare.Initialized := by
  intro m hm
  rcases hp' with rfl | rfl
  · exact (h.initialized hids m hm).prepare
  · obtain ⟨m₀, hm₀, hsame⟩ := Program.exists_of_mem_check hm
    exact (h.initialized hids m₀ hm₀).prepare.of_bare hsame

theorem exists_variables_of_pins {body : Body} (h : ∀ s ∈ body, s.pin? = none) :
    ∃ vs, build body = .ok vs := by
  have hnone : conflict? body.tracked = none := by
    refine findSome?_eq_none_iff.2 ?_
    rintro ⟨s, i, r⟩ hmem
    dsimp only
    rw [h s (mem_of_getElem? (mem_tracked.1 hmem).1)]
    rfl
  rw [build, hnone]
  exact ⟨_, rfl⟩

/-- What is written before it is read. The analysis of live variables finds nothing at the start, and
on every path from the start each cell is written before it is read and each slot is stored to before
it is loaded. -/
structure Body.WrittenFirst (body : Body) : Prop where
  live : ∃ vs, build body = .ok vs ∧
    ∀ live, (Liveness.compute body vs).liveIn[0]? = some live → live = .empty
  cells : ∀ path i c, body.IsPath (path ++ [i]) → (path ++ [i]).head? = some 0 → body.Reads i c →
    ∃ j ∈ path, body.Writes j c
  slots : ∀ path i slot, body.IsPath (path ++ [i]) → (path ++ [i]).head? = some 0 →
    body.Loads i slot → ∃ j ∈ path, body.Stores j slot

theorem Body.Initialized.writtenFirst {body : Body} (h : body.Initialized)
    (hvs : ∃ vs, build body = .ok vs) : body.WrittenFirst where
  live := by
    obtain ⟨vs, hvs⟩ := hvs
    exact ⟨vs, hvs, fun live hlive =>
      Liveness.eq_empty_of_liveIn (build_numbers hvs) h.cells hlive⟩
  cells := by
    intro path i c hpath hhead hread
    have hlt : i < body.length := by
      obtain ⟨s, _, hs, _⟩ := hread
      exact lt_of_getElem? hs
    exact exists_write_of_path (fun n hn => h.cells c (LiveWithin.liveAt hn)) hpath hhead hread hlt
  slots := by
    intro path i slot hpath hhead hload
    have hlt : i < body.length := by
      obtain ⟨s, hs, _⟩ := hload
      exact lt_of_getElem? hs
    exact exists_write_of_path (h.slots slot) hpath hhead hload hlt

/-- **No value is read before it is written**, in a lowered program whose branches and loops are
numbered apart, and after any successful allocation of it, checked or not. -/
theorem written_before_read (ast : Ast.Program) (p : Program) (hids : ast.nodeIds.Nodup)
    (hp : Program.ofAst ast = .ok p) :
    (∀ m ∈ p.methods, m.body.WrittenFirst) ∧
      ∀ p' k q stats, p' = p ∨ p' = p.check.1 → p'.allocate k = (q, .ok stats) →
        ∀ m ∈ q.methods, m.body.WrittenFirst := by
  have hlow := lowered_of_ofAst hp
  constructor
  · intro m hm
    refine (hlow.initialized hids m hm).writtenFirst (exists_variables_of_pins fun s hs => ?_)
    exact (hlow.plain m hm s hs).2.2.1
  · intro p' k q stats hp' hq m' hm'
    obtain ⟨hmatches, _⟩ := Program.matches_of_allocate (hlow.disciplined_of_check hp') hq
    obtain ⟨m, hm, _, n, last, _, hall⟩ := exists_left_of_forall₂ hmatches.methods hm'
    have hfinal := hall.initialized (hlow.shaped_of_check hp' m hm)
      (hlow.initialized_prepare hids hp' m hm)
    exact hfinal.writtenFirst hall.disciplined.exists_variables

theorem written_before_read_sixSums : ∃ p q stats, Program.ofAst sixSums = .ok p ∧
    p.allocate 5 = (q, .ok stats) ∧ (∀ m ∈ p.methods, m.body.WrittenFirst) ∧
      ∀ m ∈ q.methods, m.body.WrittenFirst := by
  obtain ⟨p, hp⟩ := @exists_ofAst_ok sixSums (by cbv)
  obtain ⟨stats, hstats⟩ :=
    Program.exists_allocate_ok (lowered_of_ofAst hp).disciplined (Nat.le_refl 5)
  have hq : p.allocate 5 = ((p.allocate 5).1, .ok stats) := Prod.ext rfl hstats
  obtain ⟨hlowered, hallocated⟩ := written_before_read sixSums p (by decide) hp
  exact ⟨p, _, stats, hp, hq, hlowered, hallocated p 5 _ stats (Or.inl rfl) hq⟩

end Ssa

end MiniJava
