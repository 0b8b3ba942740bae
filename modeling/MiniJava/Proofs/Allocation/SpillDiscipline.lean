import MiniJava.Proofs.Allocation.SpillCode
import MiniJava.Proofs.Allocation.Transit

/-!
# Spilling keeps the discipline

The values in transit of a spilled body arrive as well: at the start of each group the same values are
on their way as before the statement, the loads of a group are not too many, and a store stands right
behind the statement whose value it stores.
-/

namespace MiniJava

open Ssa List Statement

variable {P : Pending} {slot : Nat} {store : Statement}

namespace Ssa.Body.Disciplined

variable {body : Body} {next : StmtId} {i : Nat} {s : Statement} {o : StmtId}

theorem exists_of_mem_uses (h : body.Disciplined next) (hs : body[i]? = some s) (ho : o ∈ s.uses) :
    ∃ t ∈ body.take i, t.id = o ∧ t.isTracked = true := by
  have hd := h.describes i
  rcases (h.admits hs).reads o ho with ho | ho | ⟨_, ho⟩ | ⟨_, ho⟩
  · obtain ⟨t, ht, hid, htr, _⟩ := hd.values o ho
    exact ⟨t, ht, hid, htr⟩
  · obtain ⟨t, ht, hid, hop⟩ := hd.loads o ho
    exact ⟨t, ht, hid, isTracked_of_isTransit (by rw [hop]; rfl)⟩
  · obtain ⟨m, hm⟩ := mem_iff_getElem?.1 ho
    obtain ⟨t, ht, hid, hop, _⟩ := hd.args m o hm
    exact ⟨t, ht, hid, isTracked_of_isTransit (by rw [hop]; rfl)⟩
  · obtain ⟨t, ht, hid, hop⟩ := hd.params o ho
    exact ⟨t, ht, hid, isTracked_of_isTransit (by rw [hop]; rfl)⟩

theorem exists_of_mem_operands (h : body.Disciplined next) (hs : s ∈ body) (ho : o ∈ s.operands) :
    ∃ t ∈ body, t.id = o := by
  obtain ⟨i, hi⟩ := mem_iff_getElem?.1 hs
  by_cases hmerge : s.op.isMerge = true
  · obtain ⟨t, ht, hid, _⟩ := (h.describes i).values o (((h.admits hi).merge hmerge).2 o ho)
    exact ⟨t, mem_of_mem_take ht, hid⟩
  · obtain ⟨t, ht, hid, _⟩ := h.exists_of_mem_uses hi (by rwa [uses, if_neg hmerge])
    exact ⟨t, mem_of_mem_take ht, hid⟩

theorem lt_of_mem_uses (h : body.Disciplined next) (hs : s ∈ body) (ho : o ∈ s.uses) : o < next := by
  obtain ⟨i, hi⟩ := mem_iff_getElem?.1 hs
  obtain ⟨t, ht, rfl, _⟩ := h.exists_of_mem_uses hi ho
  exact h.bounded t (mem_of_mem_take ht)

end Ssa.Body.Disciplined

/-! ## Reloads on their way -/

namespace Pending

def reloaded (P : Pending) (ids : List StmtId) : Pending :=
  { P with loads := P.loads ++ ids, last? := if ids = [] then P.last? else none }

theorem after_loads (P : Pending) (body : Body) (vs : Variables) (slots : Spill.Slots)
    (es : List (Nat × StmtId)) :
    P.after (es.map (Spill.loadOf body vs slots)) = P.reloaded (es.map (·.2)) := by
  induction es generalizing P with
  | nil => simp [reloaded]
  | cons e es ih =>
    rw [map_cons, after_cons, ih]
    simp [reloaded, next, Spill.loadOf, Op.isTransit, Op.definesValue, isTracked]

theorem Admits.of_load {s : Statement} (hop : s.op = .load) (hu : s.uses = [])
    (hlt : P.loads.length < P.width) : P.Admits s where
  reads := by simp [hu]
  width := by simp [hu]
  consumes := fun h => absurd hop h
  load := fun _ => ⟨hu, hlt⟩
  arg := by simp [hop]
  parameter := by simp [hop]
  store := by simp [hop]
  label := by simp [hop]
  merge := by simp [hop, Op.isMerge]
  target := by simp [hop]

theorem flows_loads (body : Body) (vs : Variables) (slots : Spill.Slots)
    {es : List (Nat × StmtId)} (h : es = [] ∨ P.loads.length + es.length ≤ P.width) :
    P.Flows (es.map (Spill.loadOf body vs slots)) := by
  induction es generalizing P with
  | nil => trivial
  | cons e es ih =>
    have hlen := h.resolve_left (cons_ne_nil _ _)
    rw [length_cons] at hlen
    refine ⟨.of_load rfl rfl (by omega), ih (Or.inr ?_)⟩
    change (P.loads ++ [e.2]).length + es.length ≤ P.width
    rw [length_append, length_singleton]
    omega

end Pending

/-! ## What is spilled -/

namespace Spill

structure Choice (body : Body) (slots : Slots) : Prop where
  cell : ∀ v slot, slots.lookup v = some slot → ∃ c, body.cells[v]? = some c ∧
    body.ReadOutside c ∧ body.WrittenOutside c ∧ body.Free c

variable {body : Body} {next : StmtId} {a : Analysis} {slots : Slots} {o : StmtId} {c v i n n' : Nat}
  {s t : Statement} {loaded : List (Nat × StmtId)} {code : Body}

theorem spilled?_congr (h : Analyses body a) {o' : StmtId} (ho : body.cell? o = body.cell? o') :
    spilled? a.vars slots o = spilled? a.vars slots o' := by
  rw [spilled?, spilled?, h.numbers.byId, h.numbers.byId, ho]

namespace Choice

section

variable (hc : Choice body slots) (h : Analyses body a)
include hc h

theorem exists_cell (hv : spilled? a.vars slots o = some v) :
    ∃ c, body.cells[v]? = some c ∧ body.cell? o = some c ∧ body.ReadOutside c ∧
      body.WrittenOutside c ∧ body.Free c := by
  obtain ⟨hof, slot, hslot⟩ := spilled?_eq_some.1 hv
  obtain ⟨c, hcv, hr, hw, hf⟩ := hc.cell v slot hslot
  obtain ⟨c', hco, hcv'⟩ := h.numbers.of?_eq_some.1 hof
  obtain rfl := Option.mem_unique hcv hcv'
  exact ⟨c, hcv, hco, hr, hw, hf⟩

theorem spilled?_load (hb : body.Disciplined next) (hs : s ∈ body) (hop : s.op = .load) :
    spilled? a.vars slots s.id = none := by
  by_contra hne
  obtain ⟨v, hv⟩ := Option.ne_none_iff_exists'.1 hne
  obtain ⟨c, _, hcell, _, ⟨i, t, ht, htop, hw⟩, _⟩ := hc.exists_cell h hv
  obtain ⟨_, _, _, hcell'⟩ := hw
  rw [← hb.distinct.cell?_eq_cellAt? ht] at hcell'
  have hid := hb.eq_of_cell?_eq_transit hs (by rw [hop]; rfl) hcell hcell'
  rw [hb.eq_of_id_eq (mem_of_getElem? ht) hs hid] at htop
  exact htop hop

theorem spilled?_arg (hb : body.Disciplined next) (hs : s ∈ body) (hop : s.op = .arg) :
    spilled? a.vars slots s.id = none := by
  by_contra hne
  obtain ⟨v, hv⟩ := Option.ne_none_iff_exists'.1 hne
  obtain ⟨c, _, hcell, _, _, hf⟩ := hc.exists_cell h hv
  exact hb.fixedPin?_arg hs hop (hf s hs hcell)

theorem spilled?_stored (hb : body.Disciplined next) (hs : s ∈ body) (hop : s.op = .store)
    (ho : o ∈ s.uses) : spilled? a.vars slots o = none := by
  by_contra hne
  obtain ⟨v, hv⟩ := Option.ne_none_iff_exists'.1 hne
  obtain ⟨c, _, hcell, hr, _⟩ := hc.exists_cell h hv
  exact hb.stored s hs hop o ho c hcell hr

end

end Choice

theorem storeSlot?_eq_some (h : Analyses body a) (hdistinct : body.DistinctIds)
    (hs : body[i]? = some s) :
    storeSlot? a.live slots i = some slot ↔ s.op.definesValue = true ∧ ∃ c v,
      body.cell? s.id = some c ∧ body.cells[v]? = some c ∧ body.LiveAfter c i ∧
        slots.lookup v = some slot := by
  have hdefs : (a.live.defs[i]?).join = if s.op.definesValue then a.vars.at? i else none := by
    rw [h.live, Liveness.getElem?_defs, hs]
    rfl
  have hat : ∀ v, a.vars.at? i = some v ↔
      ∃ c, body.cell? s.id = some c ∧ body.cells[v]? = some c := by
    intro v
    rw [h.numbers.at?_eq_some, hdistinct.cell?_eq_cellAt? hs]
  simp only [storeSlot?, hdefs, Option.bind_eq_bind, Option.bind_eq_some_iff]
  constructor
  · rintro ⟨v, hv, hslot⟩
    split at hv
    · next hd =>
      obtain ⟨c, hc, hcv⟩ := (hat v).1 hv
      split at hslot
      · next hl =>
        rw [h.live, Liveness.isLiveAfter_iff h.numbers hcv] at hl
        exact ⟨hd, c, v, hc, hcv, hl, hslot⟩
      · cases hslot
    · cases hv
  · rintro ⟨hd, c, v, hc, hcv, hl, hslot⟩
    refine ⟨v, ?_, ?_⟩
    · rw [if_pos hd]
      exact (hat v).2 ⟨c, hc, hcv⟩
    · rw [h.live, if_pos ((Liveness.isLiveAfter_iff h.numbers hcv).2 hl), hslot]

theorem spilled?_of_storeSlot? (h : Analyses body a) (hb : body.Disciplined next)
    (hs : body[i]? = some s) (hslot : storeSlot? a.live slots i = some slot) :
    s.op.definesValue = true ∧ ∃ v, spilled? a.vars slots s.id = some v := by
  obtain ⟨hd, c, v, hc, hcv, _, hv⟩ := (storeSlot?_eq_some h hb.distinct hs).1 hslot
  exact ⟨hd, v, spilled?_eq_some.2 ⟨h.numbers.of?_eq_some.2 ⟨c, hc, hcv⟩, slot, hv⟩⟩

theorem Choice.storeSlot?_parameter (hc : Choice body slots) (h : Analyses body a)
    (hb : body.Disciplined next) (hs : body[i]? = some s) (hop : s.op = .parameter)
    (hv : spilled? a.vars slots s.id = some v) : ∃ slot, storeSlot? a.live slots i = some slot := by
  obtain ⟨_, slot, hslot⟩ := spilled?_eq_some.1 hv
  obtain ⟨c, hcv, hcell, hr, _⟩ := hc.exists_cell h hv
  refine ⟨slot, (storeSlot?_eq_some h hb.distinct hs).2 ⟨by rw [hop]; rfl, c, v, hcell, hcv, ?_, hslot⟩⟩
  exact hb.liveAfter_of_parameter hs hop hcell hr

/-! ## Groups -/

structure Matches (vs : Variables) (slots : Slots) (P P' : Pending) : Prop where
  loads : P'.loads = P.loads
  args : P'.args = P.args
  params : P'.params = P.params.filter fun o => (spilled? vs slots o).isNone
  arity : P'.arity = P.arity
  values : ∀ o ∈ P.values, o ∈ P'.values
  last : ∀ o, P.last? = some o → spilled? vs slots o = none → P'.last? = some o

theorem Matches.width_le {vs : Variables} {P' : Pending} (h : Matches vs slots P P') :
    P.width ≤ P'.width := by
  rw [Pending.width, Pending.width, h.args, h.params]
  split
  · next hnil => simp [hnil.1, hnil.2]
  · split <;> omega

namespace Choice

section

variable (hc : Choice body slots) (h : Analyses body a) (hb : body.Disciplined next)
include hc h hb

theorem spilled?_of_mem_loads (ho : o ∈ (body.pendingAt i).loads) :
    spilled? a.vars slots o = none := by
  obtain ⟨t, ht, rfl, hop⟩ := (hb.describes i).loads o ho
  exact hc.spilled?_load h hb (mem_of_mem_take ht) hop

theorem spilled?_of_mem_args (ho : o ∈ (body.pendingAt i).args) :
    spilled? a.vars slots o = none := by
  obtain ⟨m, hm⟩ := mem_iff_getElem?.1 ho
  obtain ⟨t, ht, rfl, hop, _⟩ := (hb.describes i).args m o hm
  exact hc.spilled?_arg h hb (mem_of_mem_take ht) hop

/-- **There is room for the loads before a statement.** -/
theorem length_loaded_le (hs : body[i]? = some s) (hop : s.op ≠ .load)
    (hr : Reloads a.vars slots s.uses n loaded) :
    (body.pendingAt i).loads.length + loaded.length ≤ (body.pendingAt i).width := by
  have hdesc := hb.describes i
  -- Each load stands for an operand of its variable; none of these is on its way already.
  have hchoose : ∀ v ∈ loaded.map (·.1), ∃ o ∈ s.uses, spilled? a.vars slots o = some v := by
    intro v hv
    obtain ⟨e, he, rfl⟩ := mem_map.1 hv
    exact hr.exists_operand he
  choose! operand huses hspilled using hchoose
  have hnodup : ((body.pendingAt i).loads ++ (loaded.map (·.1)).map operand).Nodup := by
    refine nodup_append'.2 ⟨?_, ?_, ?_⟩
    · exact hdesc.sublist.nodup ((take_sublist i body).map _ |>.nodup hb.distinct)
    · refine hr.nodup.map_on fun u hu w hw heq => ?_
      have hu' := hspilled u hu
      rw [heq, hspilled w hw] at hu'
      exact (Option.some.inj hu').symm
    · intro o ho ho'
      obtain ⟨v, hv, rfl⟩ := mem_map.1 ho'
      have hsome := hspilled v hv
      rw [hc.spilled?_of_mem_loads h hb ho] at hsome
      cases hsome
  have hsub : (body.pendingAt i).loads ++ (loaded.map (·.1)).map operand ⊆
      s.uses.filter fun o => !(body.pendingAt i).args.contains o := by
    intro o ho
    rw [mem_filter, Bool.not_eq_true', ← Bool.not_eq_true, contains_iff_mem]
    rcases mem_append.1 ho with ho | ho
    · refine ⟨(hb.admits hs).consumes hop o ho, fun ho' => ?_⟩
      obtain ⟨t, ht, rfl, htop⟩ := hdesc.loads o ho
      obtain ⟨m, hm⟩ := mem_iff_getElem?.1 ho'
      obtain ⟨u, hu, hid, huop, _⟩ := hdesc.args m _ hm
      rw [hb.eq_of_id_eq (mem_of_mem_take hu) (mem_of_mem_take ht) hid, htop] at huop
      cases huop
    · obtain ⟨v, hv, rfl⟩ := mem_map.1 ho
      refine ⟨huses v hv, fun ho' => ?_⟩
      have hsome := hspilled v hv
      rw [hc.spilled?_of_mem_args h hb ho'] at hsome
      cases hsome
  have hlen := (hnodup.length_le_of_subset hsub).trans (hb.admits hs).width
  simpa using hlen

end

section Kept

variable {P' : Pending}

theorem reads_kept (hb : body.Disciplined next) (hs : body[i]? = some s)
    (hr : Reloads a.vars slots s.uses n loaded)
    (hm : Matches a.vars slots (body.pendingAt i) P') (ho : o ∈ s.uses) :
    reloadOf a.vars slots loaded o ∈ P'.values ∨
      reloadOf a.vars slots loaded o ∈ P'.loads ++ loaded.reverse.map (·.2) ∨
      (s.op = .call ∧ reloadOf a.vars slots loaded o ∈ P'.args) ∨
      (s.op = .assignVar ∨ s.op = .store) ∧ reloadOf a.vars slots loaded o ∈ P'.params := by
  cases hv : spilled? a.vars slots o with
  | some v =>
    obtain ⟨id, hid⟩ := hr.lookup_of_spilled? ho hv
    rw [Reloads.reloadOf_of_lookup hv hid]
    refine Or.inr (Or.inl (mem_append_right _ ?_))
    exact mem_map.2 ⟨(v, id), mem_reverse.2 (Reloads.mem_of_lookup hid), rfl⟩
  | none =>
    rw [Reloads.reloadOf_of_none hv]
    rcases (hb.admits hs).reads o ho with ho | ho | ⟨hop, ho⟩ | ⟨hop, ho⟩
    · exact Or.inl (hm.values o ho)
    · exact Or.inr (Or.inl (mem_append_left _ (hm.loads ▸ ho)))
    · exact Or.inr (Or.inr (Or.inl ⟨hop, hm.args.symm ▸ ho⟩))
    · rw [hm.params]
      exact Or.inr (Or.inr (Or.inr ⟨hop, mem_filter.2 ⟨ho, by rw [hv]; rfl⟩⟩))

theorem length_uses_kept_le (hc : Choice body slots) (h : Analyses body a)
    (hb : body.Disciplined next) (hs : body[i]? = some s) (loaded : List (Nat × StmtId))
    (hm : Matches a.vars slots (body.pendingAt i) P') :
    ((s.uses.map (reloadOf a.vars slots loaded)).filter fun o => !P'.args.contains o).length ≤
      P'.width := by
  refine Nat.le_trans ?_ (Nat.le_trans (hb.admits hs).width hm.width_le)
  rw [← countP_eq_length_filter, ← countP_eq_length_filter, countP_map, hm.args]
  refine countP_mono_left fun o _ ho => ?_
  rw [Function.comp_apply, Bool.not_eq_true', ← Bool.not_eq_true, contains_iff_mem] at ho
  rw [Bool.not_eq_true', ← Bool.not_eq_true, contains_iff_mem]
  intro hmem
  rw [Reloads.reloadOf_of_none (hc.spilled?_of_mem_args h hb hmem)] at ho
  exact ho hmem

/-- **A statement with redirected reads fits behind its loads.** -/
theorem admits_kept (hc : Choice body slots) (h : Analyses body a) (hb : body.Disciplined next)
    (hs : body[i]? = some s) (hr : Reloads a.vars slots s.uses n loaded)
    (hm : Matches a.vars slots (body.pendingAt i) P') :
    (P'.reloaded (loaded.reverse.map (·.2))).Admits
      (s.mapOperands (reloadOf a.vars slots loaded)) := by
  have hadm := hb.admits hs
  have hmem := mem_of_getElem? hs
  have huses := s.uses_mapOperands (reloadOf a.vars slots loaded)
  have hempty : s.uses = [] → loaded = [] := fun hu => hr.eq_nil (by simp [hu])
  constructor
  case reads =>
    intro o' ho'
    rw [huses] at ho'
    obtain ⟨o, ho, rfl⟩ := mem_map.1 ho'
    exact reads_kept hb hs hr hm ho
  case width =>
    rw [huses]
    have hlen := hc.length_uses_kept_le h hb hs loaded hm
    exact hlen
  case consumes =>
    intro hop o ho
    rw [huses]
    rcases mem_append.1 ho with ho | ho
    · rw [hm.loads] at ho
      exact mem_map.2 ⟨o, hadm.consumes hop o ho,
        Reloads.reloadOf_of_none (hc.spilled?_of_mem_loads h hb ho)⟩
    · obtain ⟨e, he, rfl⟩ := mem_map.1 ho
      have he := mem_reverse.1 he
      obtain ⟨o, ho, hv⟩ := hr.exists_operand he
      exact mem_map.2 ⟨o, ho, Reloads.reloadOf_of_lookup hv (hr.lookup_of_mem he)⟩
  case load =>
    intro hop
    obtain ⟨hu, hlt⟩ := hadm.load hop
    rw [huses, hu, hempty hu]
    refine ⟨rfl, ?_⟩
    change (P'.loads ++ []).length < P'.width
    rw [append_nil, hm.loads]
    exact Nat.lt_of_lt_of_le hlt hm.width_le
  case arg =>
    intro hop
    rw [mapOperands_position?, hadm.arg hop]
    exact congrArg (fun l => some l.length) hm.args.symm
  case parameter =>
    intro hop
    obtain ⟨hu, hpos⟩ := hadm.parameter hop
    rw [huses, hu, mapOperands_position?, hpos]
    exact ⟨rfl, congrArg some hm.arity.symm⟩
  case store =>
    intro hop
    obtain ⟨o, hlast, hu⟩ := hadm.store hop
    have hnone := hc.spilled?_stored h hb hmem hop (hu ▸ mem_singleton_self o)
    have hnil : loaded = [] := hr.eq_nil (by simp [hu, hnone])
    refine ⟨o, ?_, by rw [huses, hu, map_singleton, Reloads.reloadOf_of_none hnone]⟩
    rw [hnil]
    exact hm.last o hlast hnone
  case label =>
    intro hop
    obtain ⟨hu, hargs, hparams⟩ := hadm.label hop
    rw [huses, hu]
    refine ⟨rfl, hm.args.trans hargs, ?_⟩
    change P'.params = []
    rw [hm.params, hparams]
    rfl
  case merge =>
    intro hop
    have hu : s.uses = [] := if_pos hop
    rw [hu] at hr
    rw [mapOperands_eq_self fun o _ => hr.reloadOf_of_nil]
    obtain ⟨hne, hvalues⟩ := hadm.merge hop
    exact ⟨hne, fun o ho => hm.values o (hvalues o ho)⟩
  case target =>
    intro hop o' ho'
    have hop : s.op = .call := hop
    obtain ⟨o, ho, rfl⟩ := Option.map_eq_some_iff.1 ho'
    cases hv : spilled? a.vars slots o with
    | some v =>
      have huse : o ∈ s.uses := mem_uses_of_left? (by rw [hop]; rfl) ho
      obtain ⟨id, hid⟩ := hr.lookup_of_spilled? huse hv
      rw [Reloads.reloadOf_of_lookup hv hid]
      refine Or.inr (mem_append_right _ ?_)
      exact mem_map.2 ⟨(v, id), mem_reverse.2 (Reloads.mem_of_lookup hid), rfl⟩
    | none =>
      rw [Reloads.reloadOf_of_none hv]
      refine (hadm.target hop o ho).imp (hm.values o) fun hload => ?_
      exact mem_append_left _ (hm.loads ▸ hload)

theorem mem_params_kept (hm : Matches a.vars slots (body.pendingAt i) P')
    (ho : o ∈ ((P'.reloaded (loaded.reverse.map (·.2))).next
      (s.mapOperands (reloadOf a.vars slots loaded))).params) :
    spilled? a.vars slots o = none ∨ o = s.id ∧ s.op = .parameter := by
  have hold : o ∈ P'.params → spilled? a.vars slots o = none := by
    intro ho
    rw [hm.params, mem_filter] at ho
    exact Option.isNone_iff_eq_none.1 ho.2
  simp only [Pending.next, Pending.reloaded, mapOperands_op] at ho
  split at ho
  · exact Or.inl (hold ho)
  · next hop =>
    rcases mem_append.1 ho with ho | ho
    · exact Or.inl (hold ho)
    · exact Or.inr ⟨mem_singleton.1 ho, hop⟩
  · exact Or.inl (hold (mem_filter.1 ho).1)
  · exact Or.inl (hold (mem_filter.1 ho).1)
  · cases ho

theorem filter_params_kept (hb : body.Disciplined next) (hn : next ≤ n)
    (hr : Reloads a.vars slots s.uses n loaded)
    (hm : Matches a.vars slots (body.pendingAt i) P') :
    ((P'.reloaded (loaded.reverse.map (·.2))).next
      (s.mapOperands (reloadOf a.vars slots loaded))).params.filter
        (fun o => (spilled? a.vars slots o).isNone) =
      ((body.pendingAt i).next s).params.filter fun o => (spilled? a.vars slots o).isNone := by
  have hcopy : (P'.params.filter fun o =>
        !(s.mapOperands (reloadOf a.vars slots loaded)).uses.contains o).filter
          (fun o => (spilled? a.vars slots o).isNone) =
      ((body.pendingAt i).params.filter fun o => !s.uses.contains o).filter
        fun o => (spilled? a.vars slots o).isNone := by
    rw [hm.params, filter_filter, filter_filter, filter_filter]
    refine filter_congr fun o ho => ?_
    cases hv : spilled? a.vars slots o with
    | some v => simp
    | none =>
      -- A fresh number is not that of a parameter.
      have hiff : o ∈ (s.mapOperands (reloadOf a.vars slots loaded)).uses ↔ o ∈ s.uses := by
        rw [uses_mapOperands, mem_map]
        constructor
        · rintro ⟨x, hx, heq⟩
          rcases hr.reloadOf_eq_or_le x with ⟨hx', _⟩ | ⟨hle, _⟩
          · rwa [← heq, hx']
          · obtain ⟨t, ht, hid, _⟩ := (hb.describes i).params o ho
            have hlt := hb.bounded t (mem_of_mem_take ht)
            rw [hid] at hlt
            exact absurd (Nat.lt_of_lt_of_le hlt hn) (Nat.not_lt.2 (heq ▸ hle))
        · exact fun ho => ⟨o, ho, Reloads.reloadOf_of_none hv⟩
      have hcontains : (s.mapOperands (reloadOf a.vars slots loaded)).uses.contains o =
          s.uses.contains o := by
        rw [Bool.eq_iff_iff, contains_iff_mem, contains_iff_mem, hiff]
      rw [hcontains]
      simp
  simp only [Pending.next, Pending.reloaded, mapOperands_op, mapOperands_id]
  split
  · rw [hm.params, filter_filter]
    simp
  · rw [hm.params, filter_append, filter_append, filter_filter]
    simp
  · exact hcopy
  · exact hcopy
  · rfl

theorem matches_kept (hc : Choice body slots) (h : Analyses body a) (hb : body.Disciplined next)
    (hn : next ≤ n) (hs : body[i]? = some s) (hr : Reloads a.vars slots s.uses n loaded)
    (hm : Matches a.vars slots (body.pendingAt i) P') (hnone : storeSlot? a.live slots i = none) :
    Matches a.vars slots (body.pendingAt (i + 1))
      ((P'.reloaded (loaded.reverse.map (·.2))).next
        (s.mapOperands (reloadOf a.vars slots loaded))) := by
  rw [Body.pendingAt_succ hs]
  constructor
  case loads =>
    by_cases hop : s.op = .load
    · rw [hr.eq_nil (by simp [((hb.admits hs).load hop).1])]
      simp [Pending.next, Pending.reloaded, hop, hm.loads]
    · rw [Pending.next_loads_of_ne hop]
      exact Pending.next_loads_of_ne hop
  case args =>
    simp only [Pending.next, Pending.reloaded, mapOperands_op, mapOperands_id,
      hm.args]
  case params =>
    rw [← filter_params_kept hb hn hr hm]
    symm
    refine filter_eq_self.2 fun o ho => Option.isNone_iff_eq_none.2 ?_
    rcases mem_params_kept hm ho with hv | ⟨rfl, hop⟩
    · exact hv
    · by_contra hne
      obtain ⟨v, hv⟩ := Option.ne_none_iff_exists'.1 hne
      obtain ⟨slot, hslot⟩ := hc.storeSlot?_parameter h hb hs hop hv
      rw [hnone] at hslot
      cases hslot
  case arity =>
    simp only [Pending.next, Pending.reloaded, mapOperands_op, hm.arity]
  case values =>
    intro o ho
    rw [Pending.mem_values_next] at ho ⊢
    exact ho.imp_left (hm.values o)
  case last => exact fun o ho _ => ho

theorem op_of_storeSlot? (hc : Choice body slots) (h : Analyses body a)
    (hb : body.Disciplined next) (hs : body[i]? = some s)
    (hslot : storeSlot? a.live slots i = some slot) :
    s.op.definesValue = true ∧ s.op ≠ .load ∧ s.op ≠ .arg ∧
      ∃ v, spilled? a.vars slots s.id = some v := by
  obtain ⟨hd, v, hv⟩ := spilled?_of_storeSlot? h hb hs hslot
  have hmem := mem_of_getElem? hs
  refine ⟨hd, fun hop => ?_, fun hop => ?_, v, hv⟩
  · rw [hc.spilled?_load h hb hmem hop] at hv
    cases hv
  · rw [hc.spilled?_arg h hb hmem hop] at hv
    cases hv

/-- **A store fits behind the statement whose value it stores.** -/
theorem admits_store (hd : s.op.definesValue = true) (hload : s.op ≠ .load) (harg : s.op ≠ .arg)
    (hop : store.op = .store) (hu : store.uses = [s.id]) : (P.next s).Admits store where
  reads := by
    intro o ho
    rw [hu, mem_singleton] at ho
    subst ho
    by_cases hparam : s.op = .parameter
    · refine Or.inr (Or.inr (Or.inr ⟨Or.inr hop, ?_⟩))
      simp [Pending.next, hparam]
    · left
      have htr : s.op.isTransit = false := by
        revert hload harg hparam
        cases s.op <;> simp [Op.isTransit]
      simp [Pending.next, isTracked, hd, htr]
  width := by
    refine Nat.le_trans (length_filter_le _ _) ?_
    rw [hu, Pending.width]
    split <;> simp
  consumes := by simp [Pending.next_loads_of_ne hload]
  load := by simp [hop]
  arg := by simp [hop]
  parameter := by simp [hop]
  store := fun _ => ⟨s.id, by simp [Pending.next, hd, hload, harg], hu⟩
  label := by simp [hop]
  merge := by simp [hop, Op.isMerge]
  target := by simp [hop]

section

variable (hc : Choice body slots) (h : Analyses body a) (hb : body.Disciplined next)
include hc h hb

theorem matches_store (hn : next ≤ n) (hs : body[i]? = some s)
    (hr : Reloads a.vars slots s.uses n loaded) (hm : Matches a.vars slots (body.pendingAt i) P')
    (hslot : storeSlot? a.live slots i = some slot) (hop : store.op = .store)
    (hu : store.uses = [s.id]) :
    Matches a.vars slots (body.pendingAt (i + 1))
      (((P'.reloaded (loaded.reverse.map (·.2))).next
        (s.mapOperands (reloadOf a.vars slots loaded))).next store) := by
  obtain ⟨hd, hload, harg, v, hv⟩ := hc.op_of_storeSlot? h hb hs hslot
  rw [Body.pendingAt_succ hs]
  constructor
  case loads =>
    rw [Pending.next_loads_of_ne (by rw [hop]; nofun), Pending.next_loads_of_ne hload]
  case args =>
    rw [Pending.next_args_of_ne (by rw [hop]; nofun) (by rw [hop]; nofun),
      Pending.next_args_of_ne hload harg]
  case params =>
    have hstore : ∀ P : Pending, (P.next store).params = P.params.filter fun o => !([s.id].contains o) := by
      intro P
      simp only [Pending.next, hop, hu]
    rw [← filter_params_kept hb hn hr hm, hstore]
    refine filter_congr fun o ho => ?_
    rcases mem_params_kept hm ho with hnone | ⟨rfl, _⟩
    · have hne : o ≠ s.id := by
        rintro rfl
        rw [hnone] at hv
        cases hv
      simp [hnone, hne]
    · simp [hv]
  case arity =>
    simp [Pending.next, Pending.reloaded, hop, hm.arity]
  case values =>
    intro o ho
    rw [Pending.mem_values_next] at ho
    rw [Pending.mem_values_next, Pending.mem_values_next]
    exact Or.inl (ho.imp_left (hm.values o))
  case last =>
    intro o ho hnone
    simp only [Pending.next] at ho
    split at ho
    · obtain rfl := Option.some.inj ho
      rw [hv] at hnone
      cases hnone
    · cases ho

/-- **One group.** -/
theorem flows_group (hn : next ≤ n) (hs : body[i]? = some s)
    (hr : Reloads a.vars slots s.uses n loaded) (hm : Matches a.vars slots (body.pendingAt i) P') :
    P'.Flows (groupOf body a.vars a.live slots i s n loaded) ∧
      Matches a.vars slots (body.pendingAt (i + 1))
        (P'.after (groupOf body a.vars a.live slots i s n loaded)) := by
  have hloads : P'.Flows (loaded.reverse.map (loadOf body a.vars slots)) := by
    refine Pending.flows_loads body a.vars slots ?_
    by_cases hop : s.op = .load
    · left
      rw [hr.eq_nil (by simp [((hb.admits hs).load hop).1]), reverse_nil]
    · right
      rw [hm.loads, length_reverse]
      exact (hc.length_loaded_le h hb hs hop hr).trans hm.width_le
  have hkept := hc.admits_kept h hb hs hr hm
  rw [groupOf, Pending.flows_append, Pending.after_append, Pending.after_loads, Pending.after_cons,
    Pending.Flows]
  cases hslot : storeSlot? a.live slots i with
  | none =>
    have hnone : storeOf? a.live slots i s (n + loaded.length) = none := by
      rw [storeOf?, hslot]
      rfl
    rw [hnone]
    exact ⟨⟨hloads, hkept, trivial⟩, hc.matches_kept h hb hn hs hr hm hslot⟩
  | some slot =>
    obtain ⟨hd, hload, harg, _⟩ := hc.op_of_storeSlot? h hb hs hslot
    have hsome : storeOf? a.live slots i s (n + loaded.length) = some
        { id := n + loaded.length, op := .store, left? := some s.id, payload := .slot slot
          type? := s.type? } := by
      rw [storeOf?, hslot]
      rfl
    rw [hsome]
    refine ⟨⟨hloads, hkept, ?_, trivial⟩, hc.matches_store h hb hn hs hr hm hslot rfl rfl⟩
    exact admits_store hd hload harg rfl rfl

/-- **All groups.** -/
theorem flows_groups {rest : Body} (hg : Groups body a.vars a.live slots i n rest code n')
    (hn : next ≤ n) (hrest : body.drop i = rest) (hm : Matches a.vars slots (body.pendingAt i) P') :
    P'.Flows code := by
  induction hg generalizing P' with
  | nil => trivial
  | @cons i n n' s rest more loaded hr hg ih =>
    have hs : body[i]? = some s := by
      rw [← head?_drop, hrest]
      rfl
    obtain ⟨hflows, hm'⟩ := hc.flows_group h hb hn hs hr hm
    refine Pending.flows_append.2 ⟨hflows, ih (Nat.le_trans hn (Nat.le_add_right _ _)) ?_ hm'⟩
    rw [← tail_drop, hrest]
    rfl

end

end Kept

end Choice

end Spill

end MiniJava
