import MiniJava.Proofs.Allocation.Numbering
import MiniJava.Proofs.Allocation.RegisterSafety

/-!
# Call sequences

The arguments of a call are values on their way to it. Lowering emits them back to back right before
the call, and allocation puts nothing between them but loads: an argument is pinned, so its value is
neither spilled nor stored. So a call is never interrupted by another call, an allocation or an output.
-/

namespace MiniJava

open Ssa List Statement

namespace Ssa

/-! ## Arguments on their way -/

/-- Code that brings arguments to their calls, those given first. Arguments come in the order of their
positions, a call lists exactly those on their way, and otherwise only loads may stand between. -/
def Delivers : List StmtId → Body → Prop
  | args, [] => args = []
  | args, s :: rest =>
    match s.op with
    | .load => Delivers args rest
    | .arg => s.position? = some args.length ∧ Delivers (args ++ [s.id]) rest
    | .call => (∃ method, s.payload = .call method args) ∧ Delivers [] rest
    | _ => args = [] ∧ Delivers [] rest

section Delivers

variable {args : List StmtId} {body pre post rest : Body} {s call : Statement}

theorem delivers_load (hop : s.op = .load) : Delivers args (s :: rest) ↔ Delivers args rest := by
  rw [Delivers, hop]

theorem delivers_arg (hop : s.op = .arg) : Delivers args (s :: rest) ↔
    s.position? = some args.length ∧ Delivers (args ++ [s.id]) rest := by
  rw [Delivers, hop]

theorem delivers_call (hop : s.op = .call) : Delivers args (s :: rest) ↔
    (∃ method, s.payload = .call method args) ∧ Delivers [] rest := by
  rw [Delivers, hop]

theorem delivers_other (hl : s.op ≠ .load) (ha : s.op ≠ .arg) (hc : s.op ≠ .call) :
    Delivers args (s :: rest) ↔ args = [] ∧ Delivers [] rest := by
  rw [Delivers]
  split <;> simp_all

theorem delivers_map {f : Statement → Statement} (hid : ∀ s, (f s).id = s.id)
    (hop : ∀ s, (f s).op = s.op) (hpayload : ∀ s, (f s).payload = s.payload) :
    Delivers args (body.map f) ↔ Delivers args body := by
  induction body generalizing args with
  | nil => rfl
  | cons s rest ih =>
    simp only [map_cons, Delivers, hid, hop, hpayload, ih, Statement.position?]

theorem delivers_bare : Delivers args body.bare ↔ Delivers args body :=
  delivers_map (fun _ => rfl) (fun _ => rfl) fun _ => rfl

theorem delivers_prepare : Delivers args body.prepare ↔ Delivers args body := by
  refine delivers_map id_prepared op_prepared fun s => ?_
  obtain ⟨_, _, h⟩ := s.prepared_eq
  change s.prepared.payload = s.payload
  rw [h]

theorem delivers_loads (h : ∀ s ∈ pre, s.op = .load) :
    Delivers args (pre ++ rest) ↔ Delivers args rest := by
  induction pre with
  | nil => rfl
  | cons s pre ih =>
    rw [forall_mem_cons] at h
    rw [cons_append, delivers_load h.1, ih h.2]

/-! ## Sequences -/

/-- A call and the code before it from its first argument on: this code has exactly the arguments that
the call lists, at the positions from zero on in order, and otherwise only certain operations. -/
structure CallSequence (between : List Op) (seq : Body) (call : Statement) : Prop where
  lists : ∃ method, call.payload = .call method ((seq.filter (·.op = .arg)).map (·.id))
  positions : (seq.filter (·.op = .arg)).map (·.position?) =
    (range (seq.filter (·.op = .arg)).length).map some
  starts : ∀ s, seq.head? = some s → s.op = .arg
  only : ∀ s ∈ seq, s.op = .arg ∨ s.op ∈ between

/-- The beginning of a sequence, with the arguments that are on their way after it. -/
structure Underway (args : List StmtId) (seq : Body) : Prop where
  ids : (seq.filter (·.op = .arg)).map (·.id) = args
  positions : (seq.filter (·.op = .arg)).map (·.position?) = (range args.length).map some
  starts : ∀ s, seq.head? = some s → s.op = .arg
  only : ∀ s ∈ seq, s.op = .arg ∨ s.op ∈ [Op.load]

theorem Underway.nil : Underway [] [] := by
  constructor <;> simp

theorem Underway.load {seq : Body} (h : Underway args seq) (hne : seq ≠ []) (hop : s.op = .load) :
    Underway args (seq ++ [s]) := by
  refine ⟨by simp [h.ids, hop], by simp [h.positions, hop], fun t ht => ?_, ?_⟩
  · rw [head?_append_of_ne_nil _ hne] at ht
    exact h.starts t ht
  · exact forall_mem_append.2 ⟨h.only, forall_mem_singleton.2 (Or.inr (by simp [hop]))⟩

theorem Underway.arg {seq : Body} (h : Underway args seq) (hop : s.op = .arg)
    (hpos : s.position? = some args.length) : Underway (args ++ [s.id]) (seq ++ [s]) := by
  refine ⟨by simp [h.ids, hop], by simp [h.positions, hop, hpos, range_succ], fun t ht => ?_, ?_⟩
  · cases hseq : seq.head? with
    | none =>
      rw [head?_append, hseq] at ht
      obtain rfl : s = t := Option.some.inj ht
      exact hop
    | some u =>
      rw [head?_append, hseq] at ht
      obtain rfl : u = t := Option.some.inj ht
      exact h.starts u hseq
  · exact forall_mem_append.2 ⟨h.only, forall_mem_singleton.2 (Or.inl hop)⟩

/-- **Every call ends its sequence.** The sequence may have begun before the code. -/
theorem Delivers.exists_sequence (h : Delivers args (pre ++ call :: post)) (hop : call.op = .call)
    {seq : Body} (hseq : Underway args seq) :
    ∃ before last, seq ++ pre = before ++ last ∧ CallSequence [.load] last call := by
  induction pre generalizing args seq with
  | nil =>
    obtain ⟨⟨method, hpayload⟩, _⟩ := (delivers_call hop).1 h
    refine ⟨[], seq, by simp, ⟨method, hseq.ids ▸ hpayload⟩, ?_, hseq.starts, hseq.only⟩
    rw [hseq.positions, ← hseq.ids, length_map]
  | cons s pre ih =>
    -- What ends the sequence so far starts a new one.
    have hrestart : Delivers [] (pre ++ call :: post) →
        ∃ before last, seq ++ s :: pre = before ++ last ∧ CallSequence [.load] last call := by
      intro h
      obtain ⟨before, last, heq, hlast⟩ := ih h .nil
      exact ⟨seq ++ s :: before, last, by simpa using heq, hlast⟩
    rw [cons_append] at h
    by_cases hl : s.op = .load
    · rw [delivers_load hl] at h
      by_cases hne : seq = []
      · subst hne
        obtain rfl : args = [] := hseq.ids.symm
        exact hrestart h
      · simpa using ih h (hseq.load hne hl)
    · by_cases ha : s.op = .arg
      · obtain ⟨hpos, h⟩ := (delivers_arg ha).1 h
        simpa using ih h (hseq.arg ha hpos)
      · by_cases hc : s.op = .call
        · exact hrestart ((delivers_call hc).1 h).2
        · exact hrestart ((delivers_other hl ha hc).1 h).2

theorem Delivers.exists_suffix (h : Delivers args (pre ++ rest)) : ∃ args', Delivers args' rest := by
  induction pre generalizing args with
  | nil => exact ⟨args, h⟩
  | cons s pre ih =>
    rw [cons_append, Delivers] at h
    split at h
    · exact ih h
    · exact ih h.2
    · exact ih h.2
    · exact ih h.2

/-- **Every argument has a call** that lists it. -/
theorem Delivers.exists_call {id : StmtId} (h : Delivers args body) (hid : id ∈ args) :
    ∃ pre call post method ids, body = pre ++ call :: post ∧ call.op = .call ∧
      call.payload = .call method ids ∧ id ∈ ids := by
  induction body generalizing args with
  | nil =>
    rw [show args = [] from h] at hid
    cases hid
  | cons s rest ih =>
    have hlater : ∀ {args}, Delivers args rest → id ∈ args → ∃ pre call post method ids,
        s :: rest = pre ++ call :: post ∧ call.op = .call ∧
          call.payload = .call method ids ∧ id ∈ ids := by
      intro args h hid
      obtain ⟨pre, call, post, method, ids, rfl, hcall⟩ := ih h hid
      exact ⟨s :: pre, call, post, method, ids, rfl, hcall⟩
    by_cases hl : s.op = .load
    · exact hlater ((delivers_load hl).1 h) hid
    · by_cases ha : s.op = .arg
      · exact hlater ((delivers_arg ha).1 h).2 (mem_append_left _ hid)
      · by_cases hc : s.op = .call
        · obtain ⟨⟨method, hpayload⟩, _⟩ := (delivers_call hc).1 h
          exact ⟨[], s, rest, method, args, rfl, hc, hpayload, hid⟩
        · rw [((delivers_other hl ha hc).1 h).1] at hid
          cases hid

end Delivers

/-! ## Bodies -/

def Body.Lists (body : Body) (c : Nat) (id : StmtId) : Prop :=
  ∃ call method args, body[c]? = some call ∧ call.op = .call ∧
    call.payload = .call method args ∧ id ∈ args

/-- The calls of a body are not interrupted: right before each call there is the code of its arguments,
with nothing but certain operations in between, and each argument is listed by exactly one call. -/
structure Body.KeepsCalls (between : List Op) (body : Body) : Prop where
  sequence : ∀ (c : Nat) (call : Statement), body[c]? = some call → call.op = .call →
    ∃ first ≤ c, CallSequence between ((body.take c).drop first) call
  owner : ∀ (i : Nat) (s : Statement), body[i]? = some s → s.op = .arg → ∃! c, body.Lists c s.id

namespace Body

variable {body : Body} {between : List Op} {i c : Nat} {s : Statement}

theorem between_of_lists (hd : body.DistinctIds)
    (hseq : ∀ (c : Nat) (call : Statement), body[c]? = some call → call.op = .call →
      ∃ first ≤ c, CallSequence between ((body.take c).drop first) call)
    (hs : body[i]? = some s) (hc : body.Lists c s.id) : i < c ∧
      ∀ j t, i ≤ j → j < c → body[j]? = some t → t.op = .arg ∨ t.op ∈ between := by
  obtain ⟨call, method, args, hcall, hop, hpayload, hmem⟩ := hc
  obtain ⟨first, hfirst, h⟩ := hseq c call hcall hop
  obtain ⟨_, hlists⟩ := h.lists
  rw [hpayload, Payload.call.injEq] at hlists
  rw [hlists.2] at hmem
  obtain ⟨t, ht, hid⟩ := mem_map.1 hmem
  obtain ⟨j, hj⟩ := mem_iff_getElem?.1 (mem_filter.1 ht).1
  have hget : ∀ j, first + j < c → ((body.take c).drop first)[j]? = body[first + j]? := by
    intro j hj
    rw [getElem?_drop, getElem?_take_of_lt hj]
  have hlt : first + j < c := by
    have hlen := lt_of_getElem? hj
    rw [length_drop, length_take] at hlen
    omega
  rw [hget j hlt] at hj
  obtain rfl : i = first + j := hd.eq_of_id_eq hs hj hid.symm
  refine ⟨hlt, fun l u hle hl hu => h.only u ?_⟩
  refine mem_iff_getElem?.2 ⟨l - first, ?_⟩
  rw [hget _ (by omega), Nat.add_sub_cancel' (by omega), hu]

theorem eq_take_append_cons (h : body[i]? = some s) :
    body = body.take i ++ s :: body.drop (i + 1) := by
  obtain ⟨hlt, rfl⟩ := List.getElem?_eq_some_iff.1 h
  rw [← drop_eq_getElem_cons hlt, take_append_drop]

/-- **Code that brings arguments to their calls keeps calls together.** -/
theorem keepsCalls_of_delivers (h : Delivers [] body) (hd : body.DistinctIds) :
    body.KeepsCalls [.load] := by
  have hseq : ∀ (c : Nat) (call : Statement), body[c]? = some call → call.op = .call →
      ∃ first ≤ c, CallSequence [.load] ((body.take c).drop first) call := by
    intro c call hcall hop
    rw [eq_take_append_cons hcall] at h
    obtain ⟨before, last, heq, hlast⟩ := h.exists_sequence hop .nil
    rw [nil_append] at heq
    refine ⟨before.length, ?_, by rwa [heq, drop_left]⟩
    have hlen := congrArg length heq
    rw [length_append, length_take] at hlen
    omega
  -- Of two calls that list an argument, the first would stand between it and the second.
  have hunique : ∀ {i : Nat} {s : Statement} {c c' : Nat}, body[i]? = some s → body.Lists c s.id →
      body.Lists c' s.id → ¬ c < c' := by
    intro i s c c' hs hc hc' hlt
    obtain ⟨hi, _⟩ := between_of_lists hd hseq hs hc
    obtain ⟨_, honly⟩ := between_of_lists hd hseq hs hc'
    obtain ⟨call, _, _, hcall, hop, _⟩ := hc
    have hbetween := honly c call (Nat.le_of_lt hi) hlt hcall
    simp [hop] at hbetween
  refine ⟨hseq, fun i s hs hop => ?_⟩
  rw [eq_take_append_cons hs] at h
  obtain ⟨args, hsuffix⟩ := h.exists_suffix
  obtain ⟨pre, call, post, method, ids, hrest, hcall⟩ :=
    ((delivers_arg hop).1 hsuffix).2.exists_call (mem_append_right _ (mem_singleton_self _))
  have hlists : body.Lists (i + 1 + pre.length) s.id := by
    refine ⟨call, method, ids, ?_, hcall⟩
    rw [← getElem?_drop, hrest]
    simp
  refine ⟨_, hlists, fun c hc => ?_⟩
  exact Nat.le_antisymm (Nat.not_lt.1 (hunique hs hlists hc)) (Nat.not_lt.1 (hunique hs hc hlists))

theorem KeepsCalls.of_no_loads (h : body.KeepsCalls [.load]) (hl : ∀ s ∈ body, s.op ≠ .load) :
    body.KeepsCalls [] := by
  refine ⟨fun c call hcall hop => ?_, h.owner⟩
  obtain ⟨first, hfirst, hseq⟩ := h.sequence c call hcall hop
  refine ⟨first, hfirst, hseq.lists, hseq.positions, hseq.starts, fun s hs => Or.inl ?_⟩
  have hload := hl s (mem_of_mem_take (mem_of_mem_drop hs))
  exact (hseq.only s hs).resolve_right (by simpa using hload)

end Body

/-- **Lowered code brings arguments to their calls.** -/
theorem Written.delivers {labels : List String} {types : TypeName → Prop}
    {args params : List StmtId} {body : Body} (h : Written labels types args params body) :
    ∀ {rest : Body}, Delivers args rest → Delivers [] (body ++ rest) := by
  induction h with
  | nil => exact fun hrest => hrest
  | @alone body s _ _ hop _ _ ih =>
    intro rest hrest
    have hne : ∀ op : Op, op.isAlone = false → s.op ≠ op := by
      rintro _ hf rfl
      rw [hop] at hf
      cases hf
    rw [append_assoc]
    exact ih ((delivers_other (hne _ rfl) (hne _ rfl) (hne _ rfl)).2 ⟨rfl, hrest⟩)
  | arg id _ _ ih =>
    intro rest hrest
    rw [append_assoc]
    exact ih ((delivers_arg rfl).2 ⟨rfl, hrest⟩)
  | call id method _ _ ih =>
    intro rest hrest
    rw [append_assoc]
    exact ih ((delivers_call rfl).2 ⟨⟨method, rfl⟩, hrest⟩)
  | parameter _ _ ih | copy _ _ _ _ ih =>
    intro rest hrest
    rw [append_assoc]
    refine ih ((delivers_other ?_ ?_ ?_).2 ⟨rfl, hrest⟩) <;> simp

end Ssa

/-! ## Allocation -/

namespace Spill

variable {body code rest : Body} {next : StmtId} {a : Analysis} {slots : Slots} {i n n' : Nat}

/-- **Spilling brings arguments to their calls.** Arguments are neither reloaded nor stored. -/
theorem Groups.delivers (hg : Groups body a.vars a.live slots i n rest code n')
    (hc : Choice body slots) (h : Analyses body a) (hb : body.Disciplined next)
    (hrest : ∀ j, rest[j]? = body[i + j]?) {args : List StmtId}
    (hargs : ∀ o ∈ args, spilled? a.vars slots o = none) (hd : Delivers args rest) :
    Delivers args code := by
  induction hg generalizing args with
  | nil => exact hd
  | @cons i n n' s rest more loaded hr _ ih =>
    have hs : body[i]? = some s := (hrest 0).symm
    have hmore := fun {args : List StmtId} => @ih (fun j => by
      rw [Nat.add_right_comm]
      exact hrest (j + 1)) args
    have hstore : s.op = .load ∨ s.op = .arg →
        storeOf? a.live slots i s (n + loaded.length) = none := by
      intro hop
      cases hslot : storeSlot? a.live slots i with
      | none => rw [storeOf?, hslot]; rfl
      | some slot =>
        obtain ⟨_, hl, ha, _⟩ := hc.op_of_storeSlot? h hb hs hslot
        exact absurd hop (by simp [hl, ha])
    -- What follows a statement that leaves nothing on its way may start with a store.
    have hbehind : Delivers [] rest →
        Delivers [] ((storeOf? a.live slots i s (n + loaded.length)).toList ++ more) := by
      intro hd
      rw [storeOf?]
      cases storeSlot? a.live slots i with
      | none => exact hmore (by simp) hd
      | some slot => exact (delivers_other (by simp) (by simp) (by simp)).2 ⟨rfl, hmore (by simp) hd⟩
    have hop := s.mapOperands_op (reloadOf a.vars slots loaded)
    rw [groupOf, append_assoc, delivers_loads (forall_mem_map.2 fun _ _ => rfl),
      cons_append]
    by_cases hl : s.op = .load
    · rw [delivers_load (hop.trans hl), hstore (Or.inl hl)]
      exact hmore hargs ((delivers_load hl).1 hd)
    · by_cases ha : s.op = .arg
      · obtain ⟨hpos, hd⟩ := (delivers_arg ha).1 hd
        have hnone := hc.spilled?_arg h hb (mem_of_getElem? hs) ha
        rw [delivers_arg (hop.trans ha), hstore (Or.inr ha), mapOperands_position?]
        exact ⟨hpos, hmore (forall_mem_append.2
          ⟨hargs, forall_mem_singleton.2 hnone⟩) hd⟩
      · by_cases hcall : s.op = .call
        · obtain ⟨⟨method, hpayload⟩, hd⟩ := (delivers_call hcall).1 hd
          refine (delivers_call (hop.trans hcall)).2 ⟨⟨method, ?_⟩, hbehind hd⟩
          have hmap : args.map (reloadOf a.vars slots loaded) = args :=
            (map_congr_left fun o ho => Reloads.reloadOf_of_none (hargs o ho)).trans
              args.map_id'
          rw [mapOperands, hpayload, mapPayload, hmap]
        · obtain ⟨hnil, hnext⟩ := (delivers_other hl ha hcall).1 hd
          exact (delivers_other (hop ▸ hl) (hop ▸ ha) (hop ▸ hcall)).2 ⟨hnil, hbehind hnext⟩

end Spill

/-- **Allocated code brings arguments to their calls.** -/
theorem Allocates.delivers {k : Nat} {body final : Body} {next last : StmtId}
    (h : Allocates k body next final last) (hd : Delivers [] body) : Delivers [] final := by
  induction h with
  | colored =>
    rw [← delivers_bare, Body.bare_assignRegisters, Body.bare_clearRegisters, delivers_bare]
    exact hd
  | @spilled body _ _ _ _ _ _ _ hs _ _ ih =>
    rw [← delivers_bare, ← body.bare_clearRegisters, delivers_bare] at hd
    exact ih (hs.groups.delivers hs.choice hs.analyses hs.disciplined (by simp) (by simp) hd)

/-! ## Programs -/

namespace Ssa

theorem Lowered.delivers_of_check {ast : Ast.Program} {p p' : Program} (h : Lowered ast p)
    (hp' : p' = p ∨ p' = p.check.1) : ∀ m ∈ p'.methods, Delivers [] m.body ∧
      ∀ s ∈ m.body, s.op ≠ .load := by
  have hp : ∀ m ∈ p.methods, Delivers [] m.body ∧ ∀ s ∈ m.body, s.op ≠ .load := by
    intro m hm
    obtain ⟨_, sc, hsettled, _, hbody, _⟩ := h.settled hm
    rw [hbody]
    refine ⟨?_, fun s hs => (hsettled.code.plain s hs).2.1⟩
    simpa using hsettled.code.delivers (show Delivers [] [] from rfl)
  rcases hp' with rfl | rfl
  · exact hp
  · intro m' hm'
    obtain ⟨m, hm, hsame⟩ := Program.exists_of_mem_check hm'
    obtain ⟨hd, hl⟩ := hp m hm
    constructor
    · rw [← delivers_prepare, ← delivers_bare, hsame, delivers_bare, delivers_prepare]
      exact hd
    · intro s' hs'
      have hmem : s'.prepared.bare ∈ m.body.prepare.bare :=
        hsame ▸ mem_map_of_mem (mem_map_of_mem hs')
      obtain ⟨t, ht, heq⟩ := Body.exists_of_mem_bare hmem
      obtain ⟨s, hs, rfl⟩ := mem_map.1 ht
      have hop : s'.prepared.bare.op = s.prepared.bare.op := congrArg op heq
      rw [op_bare, op_bare, op_prepared, op_prepared] at hop
      exact hop ▸ hl s hs

/-- **Calls are never interrupted.** In lowered code, each call stands right behind the arguments that
it lists, in the order of their positions, and each argument belongs to exactly one call. In allocated
code only loads may stand between. -/
theorem calls_are_uninterrupted (ast : Ast.Program) (p p' : Program)
    (hp : Program.ofAst ast = .ok p) (hp' : p' = p ∨ p' = p.check.1) :
    (∀ m ∈ p'.methods, m.body.KeepsCalls []) ∧
      ∀ k q stats, p'.allocate k = (q, .ok stats) → ∀ m ∈ q.methods, m.body.KeepsCalls [.load] := by
  have hlow := lowered_of_ofAst hp
  have hdelivers := hlow.delivers_of_check hp'
  have hdis := hlow.disciplined_of_check hp'
  constructor
  · intro m hm
    obtain ⟨hd, hl⟩ := hdelivers m hm
    have hdistinct : m.body.DistinctIds := by
      have hd := (hdis m hm).distinct
      rwa [Body.DistinctIds, Body.prepare_eq, Body.map_id_map Statement.id_prepared] at hd
    exact (Body.keepsCalls_of_delivers hd hdistinct).of_no_loads hl
  · intro k q stats hq m' hm'
    obtain ⟨hmatches, _⟩ := Program.matches_of_allocate hdis hq
    obtain ⟨m, hm, _, _, _, _, hall⟩ := exists_left_of_forall₂ hmatches.methods hm'
    exact Body.keepsCalls_of_delivers (hall.delivers (delivers_prepare.2 (hdelivers m hm).1))
      hall.disciplined.distinct

/-- With five registers, values are reloaded between the arguments of `sixSum` and before the call. -/
theorem calls_are_uninterrupted_sixSums : ∃ p q stats, Program.ofAst sixSums = .ok p ∧
    (∀ m ∈ p.methods, m.body.KeepsCalls []) ∧ p.allocate 5 = (q, .ok stats) ∧
      ∀ m ∈ q.methods, m.body.KeepsCalls [.load] := by
  obtain ⟨p, hp⟩ := @exists_ofAst_ok sixSums (by cbv)
  obtain ⟨stats, hstats⟩ :=
    Program.exists_allocate_ok (lowered_of_ofAst hp).disciplined (Nat.le_refl 5)
  obtain ⟨hlowered, hallocated⟩ := calls_are_uninterrupted sixSums p p hp (Or.inl rfl)
  exact ⟨p, _, stats, hp, hlowered, Prod.ext rfl hstats, hallocated 5 _ stats (Prod.ext rfl hstats)⟩

end Ssa

end MiniJava
