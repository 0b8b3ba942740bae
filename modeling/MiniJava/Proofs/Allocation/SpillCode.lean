import Mathlib.Data.List.Nodup
import MiniJava.Allocation
import MiniJava.Proofs.Allocation.Webs

/-!
# The shape of spill code

A statement with spill code is a group: loads of the spilled variables that it reads, the statement
with its reads redirected to the loads, and possibly a store of its value. This file says so without
the fold that builds the group, and it says which statements and numbers the spilled body has.
-/

namespace MiniJava

open Ssa List Statement

variable {id : Nat} {e : Nat × StmtId} {done : List StmtId}

/-! ## Renaming -/

namespace Ssa.Statement

variable {s : Statement} {f g : StmtId → StmtId}

def mapPayload (f : StmtId → StmtId) : Payload → Payload
  | .call method args => .call method (args.map f)
  | .index id => .index (f id)
  | payload => payload

def mapOperands (s : Statement) (f : StmtId → StmtId) : Statement :=
  { s with left? := s.left?.map f, right? := s.right?.map f, payload := mapPayload f s.payload }

section

variable (s : Statement) (f : StmtId → StmtId)

@[simp] theorem mapOperands_id : (s.mapOperands f).id = s.id := rfl

@[simp] theorem mapOperands_op : (s.mapOperands f).op = s.op := rfl

@[simp] theorem mapOperands_right? : (s.mapOperands f).right? = s.right?.map f := rfl

@[simp] theorem mapOperands_position? : (s.mapOperands f).position? = s.position? := by
  rw [position?, position?, mapOperands]
  cases s.payload <;> rfl

@[simp] theorem mapOperands_label? : (s.mapOperands f).label? = s.label? := by
  rw [label?, label?, mapOperands]
  cases s.payload <;> rfl

@[simp] theorem mapOperands_slot? : (s.mapOperands f).slot? = s.slot? := by
  rw [slot?, slot?, mapOperands]
  cases s.payload <;> rfl

@[simp] theorem operands_mapOperands : (s.mapOperands f).operands = s.operands.map f := by
  have hpayload : payloadOperands (mapPayload f s.payload) = (payloadOperands s.payload).map f := by
    cases s.payload <;> rfl
  have htoList : ∀ o? : Option StmtId, (o?.map f).toList = o?.toList.map f := by
    intro o?
    cases o? <;> rfl
  rw [operands, operands, mapOperands, map_append, map_append, hpayload, htoList, htoList]

@[simp] theorem uses_mapOperands : (s.mapOperands f).uses = s.uses.map f := by
  rw [uses, uses, mapOperands_op, operands_mapOperands]
  split <;> rfl

@[simp] theorem mergeOperands_mapOperands :
    (s.mapOperands f).mergeOperands = s.mergeOperands.map f := by
  obtain ⟨_, op, left?, right?, _, _, _, _⟩ := s
  cases op <;> cases left? <;> cases right? <;> rfl

end

theorem mapOperands_congr (h : ∀ o ∈ s.operands, f o = g o) : s.mapOperands f = s.mapOperands g := by
  have hleft : s.left?.map f = s.left?.map g := by
    cases hl : s.left? with
    | none => rfl
    | some o => simp [h o (by simp [operands, hl])]
  have hright : s.right?.map f = s.right?.map g := by
    cases hr : s.right? with
    | none => rfl
    | some o => simp [h o (by simp [operands, hr])]
  have hpayload : mapPayload f s.payload = mapPayload g s.payload := by
    cases hp : s.payload with
    | call method args =>
      simp only [mapPayload, Payload.call.injEq, true_and]
      exact map_congr_left fun o ho => h o (by simp [operands, hp, payloadOperands, ho])
    | index o => simp [mapPayload, h o (by simp [operands, hp, payloadOperands])]
    | _ => rfl
  rw [mapOperands, mapOperands, hleft, hright, hpayload]

theorem mapOperands_eq_self (h : ∀ o ∈ s.operands, f o = o) : s.mapOperands f = s := by
  have hid : s.mapOperands (fun o => o) = s := by
    rw [mapOperands, Option.map_id', Option.map_id']
    cases hp : s.payload <;> simp [mapPayload, ← hp]
  exact (mapOperands_congr h).trans hid

theorem mapOperands_mapOperands (s : Statement) (f g : StmtId → StmtId) :
    (s.mapOperands f).mapOperands g = s.mapOperands fun o => g (f o) := by
  rw [mapOperands, mapOperands, mapOperands]
  cases hp : s.payload <;> simp [mapPayload, Function.comp_def]

theorem replaceUse_eq (s : Statement) (old new : StmtId) :
    s.replaceUse old new = s.mapOperands (redirect old new) := by
  rw [replaceUse, mapOperands]
  cases s.payload <;> rfl

end Ssa.Statement

namespace Spill

variable {body : Body} {vs : Variables} {live : Liveness} {slots : Slots}

def spilled? (vs : Variables) (slots : Slots) (o : StmtId) : Option Nat :=
  (vs.of? o).filter fun v => (slots.lookup v).isSome

theorem spilled?_eq_some {o : StmtId} {v : Nat} :
    spilled? vs slots o = some v ↔ vs.of? o = some v ∧ ∃ slot, slots.lookup v = some slot := by
  rw [spilled?, Option.filter_eq_some_iff, Option.isSome_iff_exists]

/-! ## Loads -/

def loadOf (body : Body) (vs : Variables) (slots : Slots) (e : Nat × StmtId) : Statement :=
  { id := e.2, op := .load, payload := .slot ((slots.lookup e.1).getD 0)
    type? := typeOf? body vs e.1 }

def reloadOf (vs : Variables) (slots : Slots) (loaded : List (Nat × StmtId)) (o : StmtId) : StmtId :=
  ((spilled? vs slots o).bind fun v => loaded.lookup v).getD o

/-- The loads of the spilled variables of some operands, last first, with numbers from `n` on. -/
structure Reloads (vs : Variables) (slots : Slots) (operands : List StmtId) (n : Nat)
    (loaded : List (Nat × StmtId)) : Prop where
  mem : ∀ v, (∃ id, loaded.lookup v = some id) ↔ ∃ o ∈ operands, spilled? vs slots o = some v
  ids : (loaded.reverse.map (·.2)) = range' n loaded.length
  nodup : (loaded.map (·.1)).Nodup

namespace Reloads

variable {operands : List StmtId} {n : Nat} {loaded : List (Nat × StmtId)} {o : StmtId} {v : Nat}

theorem nil : Reloads vs slots [] n [] := by
  constructor <;> simp

theorem mem_of_lookup (h : loaded.lookup v = some id) : (v, id) ∈ loaded := by
  obtain ⟨l₁, l₂, rfl, _⟩ := lookup_eq_some_iff.1 h
  simp

section

variable (h : Reloads vs slots operands n loaded)
include h

theorem le_of_mem (he : e ∈ loaded) : n ≤ e.2 ∧ e.2 < n + loaded.length := by
  have hmem : e.2 ∈ loaded.reverse.map (·.2) := mem_map_of_mem (mem_reverse.2 he)
  rw [h.ids, mem_range'_1] at hmem
  exact hmem

theorem lookup_of_spilled? (ho : o ∈ operands) (hv : spilled? vs slots o = some v) :
    ∃ id, loaded.lookup v = some id :=
  (h.mem v).2 ⟨o, ho, hv⟩

theorem lookup_of_mem (he : e ∈ loaded) : loaded.lookup e.1 = some e.2 := by
  cases hl : loaded.lookup e.1 with
  | none => exact absurd (lookup_eq_none_iff.1 hl _ he) (by simp)
  | some id =>
    have heq := inj_on_of_nodup_map h.nodup (mem_of_lookup hl) he rfl
    rw [← heq]

theorem exists_operand (he : e ∈ loaded) : ∃ o ∈ operands, spilled? vs slots o = some e.1 :=
  (h.mem e.1).1 ⟨e.2, h.lookup_of_mem he⟩

theorem eq_nil (ho : ∀ o ∈ operands, spilled? vs slots o = none) : loaded = [] := by
  refine eq_nil_iff_forall_not_mem.2 fun e he => ?_
  obtain ⟨o, hmem, hv⟩ := h.exists_operand he
  rw [ho o hmem] at hv
  cases hv

end

theorem reloadOf_of_none (hv : spilled? vs slots o = none) : reloadOf vs slots loaded o = o := by
  rw [reloadOf, hv]
  rfl

theorem reloadOf_of_lookup (hv : spilled? vs slots o = some v) (hl : loaded.lookup v = some id) :
    reloadOf vs slots loaded o = id := by
  rw [reloadOf, hv, Option.bind_some, hl]
  rfl

theorem reloadOf_eq_or_le (h : Reloads vs slots operands n loaded) (o : StmtId) :
    reloadOf vs slots loaded o = o ∧ (spilled? vs slots o = none ∨ o ∉ operands) ∨
      n ≤ reloadOf vs slots loaded o ∧ reloadOf vs slots loaded o < n + loaded.length := by
  cases hv : spilled? vs slots o with
  | none => exact Or.inl ⟨reloadOf_of_none hv, Or.inl rfl⟩
  | some v =>
    cases hl : loaded.lookup v with
    | none =>
      refine Or.inl ⟨by rw [reloadOf, hv, Option.bind_some, hl]; rfl, Or.inr fun ho => ?_⟩
      obtain ⟨id, hid⟩ := h.lookup_of_spilled? ho hv
      rw [hl] at hid
      cases hid
    | some id =>
      rw [reloadOf_of_lookup hv hl]
      exact Or.inr (h.le_of_mem (mem_of_lookup hl))

theorem reloadOf_of_nil (h : Reloads vs slots [] n loaded) : reloadOf vs slots loaded o = o := by
  rw [h.eq_nil (by simp), reloadOf]
  cases spilled? vs slots o <;> rfl

end Reloads

def reloading (body : Body) (vs : Variables) (slots : Slots) (s : Statement) (n : Nat)
    (done : List StmtId) (loaded : List (Nat × StmtId)) : Reloading where
  stmt := s.mapOperands fun o => if o ∈ done then reloadOf vs slots loaded o else o
  loads := loaded.reverse.map (loadOf body vs slots)
  loaded := loaded
  nextId := n + loaded.length

theorem redirect_reloadOf {n : Nat} {loaded loaded' : List (Nat × StmtId)} {o x : StmtId}
    {v : Nat} (h : Reloads vs slots done n loaded) (ho : o < n)
    (hv : spilled? vs slots o = some v) (hl : loaded'.lookup v = some id)
    (hsame : ∀ x ∈ done, reloadOf vs slots loaded' x = reloadOf vs slots loaded x) :
    redirect o id (if x ∈ done then reloadOf vs slots loaded x else x) =
      if x ∈ done ++ [o] then reloadOf vs slots loaded' x else x := by
  by_cases hx : x ∈ done
  · -- What was redirected before is not this operand: either it stays, or its number is fresh.
    have hne : reloadOf vs slots loaded x ≠ o := by
      rcases h.reloadOf_eq_or_le x with ⟨heq, hx' | hx'⟩ | ⟨hle, _⟩
      · rw [heq]
        rintro rfl
        rw [hx'] at hv
        cases hv
      · exact absurd hx hx'
      · exact Nat.ne_of_gt (Nat.lt_of_lt_of_le ho hle)
    rw [if_pos hx, if_pos (mem_append_left _ hx), hsame x hx, redirect, if_neg hne]
  · by_cases hxo : x = o
    · subst hxo
      rw [if_neg hx, if_pos (by simp), Reloads.reloadOf_of_lookup hv hl, redirect,
        if_pos rfl]
    · rw [if_neg hx, if_neg (by simp [hx, hxo]), redirect, if_neg hxo]

theorem reload_reloading {s : Statement} {n : Nat} {loaded : List (Nat × StmtId)} {o : StmtId}
    (h : Reloads vs slots done n loaded) (ho : o < n) :
    ∃ loaded', Reloads vs slots (done ++ [o]) n loaded' ∧
      reload body vs slots (reloading body vs slots s n done loaded) o =
        reloading body vs slots s n (done ++ [o]) loaded' := by
  have hmem : ∀ x, x ∈ done ++ [o] ↔ x ∈ done ∨ x = o := fun x => by simp
  cases hv : spilled? vs slots o with
  | none =>
    refine ⟨loaded, ⟨fun v => ?_, h.ids, h.nodup⟩, ?_⟩
    · rw [h.mem]
      simp only [hmem, or_and_right, exists_or, exists_eq_left, hv, reduceCtorEq, or_false]
    · have hreload : reload body vs slots (reloading body vs slots s n done loaded) o =
          reloading body vs slots s n done loaded := by
        rw [reload]
        cases hof : vs.of? o with
        | none => rfl
        | some v =>
          cases hslot : slots.lookup v with
          | none => simp only [hslot]
          | some slot =>
            rw [spilled?_eq_some.2 ⟨hof, slot, hslot⟩] at hv
            cases hv
      rw [hreload, reloading, reloading]
      congr 1
      refine mapOperands_congr fun x _ => ?_
      by_cases hx : x ∈ done
      · simp [hx]
      · by_cases hxo : x = o
        · subst hxo
          simp [hx, Reloads.reloadOf_of_none hv]
        · simp [hx, hxo]
  | some v =>
    obtain ⟨hof, slot, hslot⟩ := spilled?_eq_some.1 hv
    cases hl : loaded.lookup v with
    | some id =>
      refine ⟨loaded, ⟨fun w => ?_, h.ids, h.nodup⟩, ?_⟩
      · rw [h.mem]
        simp only [hmem, or_and_right, exists_or, exists_eq_left]
        refine ⟨Or.inl, fun hw => hw.elim (fun hw => hw) fun hw => ?_⟩
        rw [hv, Option.some.injEq] at hw
        subst hw
        exact (h.mem v).1 ⟨_, hl⟩
      · simp only [reload, reloading, hof, hslot, hl, replaceUse_eq,
          mapOperands_mapOperands, Reloading.mk.injEq, and_true]
        refine mapOperands_congr fun x _ => ?_
        exact redirect_reloadOf h ho hv hl fun _ _ => rfl
    | none =>
      have hcons : lookup v ((v, n + loaded.length) :: loaded) = some (n + loaded.length) := by
        simp
      have hne : ∀ {w : Nat}, w ≠ v →
          lookup w ((v, n + loaded.length) :: loaded) = loaded.lookup w := by
        intro w hw
        rw [lookup_cons, beq_eq_false_iff_ne.2 hw]
      refine ⟨(v, n + loaded.length) :: loaded, ⟨fun w => ?_, ?_, ?_⟩, ?_⟩
      · by_cases hw : w = v
        · subst hw
          exact ⟨fun _ => ⟨o, by simp, hv⟩, fun _ => ⟨_, hcons⟩⟩
        · rw [hne hw, h.mem]
          simp only [hmem, or_and_right, exists_or, exists_eq_left, hv, Option.some.injEq,
            Ne.symm hw, or_false]
      · rw [reverse_cons, map_append, h.ids, length_cons, range'_concat]
        simp
      · rw [map_cons, nodup_cons]
        refine ⟨fun hmem => ?_, h.nodup⟩
        obtain ⟨⟨w, id⟩, he, rfl⟩ := mem_map.1 hmem
        rw [lookup_eq_none_iff] at hl
        exact absurd (hl _ he) (by simp)
      · simp only [reload, reloading, hof, hslot, hl, replaceUse_eq,
          mapOperands_mapOperands, Reloading.mk.injEq, reverse_cons,
          map_append, map_singleton, length_cons, true_and]
        refine ⟨mapOperands_congr fun x _ => ?_, ?_, rfl⟩
        · refine redirect_reloadOf h ho hv hcons fun x hx => ?_
          cases hx' : spilled? vs slots x with
          | none => rw [Reloads.reloadOf_of_none hx', Reloads.reloadOf_of_none hx']
          | some w =>
            have hw : w ≠ v := by
              rintro rfl
              obtain ⟨id, hid⟩ := h.lookup_of_spilled? hx hx'
              rw [hl] at hid
              cases hid
            rw [reloadOf, reloadOf, hx', Option.bind_some, Option.bind_some, hne hw]
        · simp [loadOf, hslot]

/-- **The reads of a statement** are redirected to loads by renaming its operands. -/
theorem reloads_foldl (body : Body) {s : Statement} {n : Nat} (h : ∀ o ∈ s.uses, o < n) :
    ∃ loaded, Reloads vs slots s.uses n loaded ∧
      s.uses.foldl (reload body vs slots) ⟨s, [], [], n⟩ =
        ⟨s.mapOperands (reloadOf vs slots loaded), loaded.reverse.map (loadOf body vs slots), loaded,
          n + loaded.length⟩ := by
  have hfold : ∀ (todo done : List StmtId) (loaded : List (Nat × StmtId)), (∀ o ∈ todo, o < n) →
      Reloads vs slots done n loaded → ∃ loaded', Reloads vs slots (done ++ todo) n loaded' ∧
        todo.foldl (reload body vs slots) (reloading body vs slots s n done loaded) =
          reloading body vs slots s n (done ++ todo) loaded' := by
    intro todo
    induction todo with
    | nil =>
      intro done loaded _ hr
      rw [append_nil]
      exact ⟨loaded, hr, rfl⟩
    | cons o todo ih =>
      intro done loaded hlt hr
      obtain ⟨loaded₁, hr₁, heq⟩ := reload_reloading hr (hlt o mem_cons_self)
      rw [foldl_cons, heq, append_cons]
      exact ih (done ++ [o]) loaded₁ (fun o ho => hlt o (mem_cons_of_mem _ ho)) hr₁
  obtain ⟨loaded, hr, heq⟩ := hfold s.uses [] [] h .nil
  have hstart : reloading body vs slots s n [] [] = ⟨s, [], [], n⟩ := by
    rw [reloading]
    simp [mapOperands_eq_self]
  rw [hstart, nil_append] at heq
  rw [nil_append] at hr
  refine ⟨loaded, hr, heq.trans ?_⟩
  rw [reloading]
  congr 1
  refine mapOperands_congr fun o ho => ?_
  by_cases hmerge : s.op.isMerge = true
  · -- A merge reads nothing, so nothing is loaded.
    have huses : s.uses = [] := if_pos hmerge
    rw [huses] at hr ⊢
    rw [if_neg not_mem_nil, hr.reloadOf_of_nil]
  · rw [if_pos (by rwa [uses, if_neg hmerge])]

/-! ## Groups -/

def storeOf? (live : Liveness) (slots : Slots) (i : Nat) (s : Statement) (id : Nat) :
    Option Statement :=
  (storeSlot? live slots i).map fun slot =>
    { id, op := .store, left? := some s.id, payload := .slot slot, type? := s.type? }

def groupOf (body : Body) (vs : Variables) (live : Liveness) (slots : Slots) (i : Nat) (s : Statement)
    (n : Nat) (loaded : List (Nat × StmtId)) : Body :=
  loaded.reverse.map (loadOf body vs slots) ++ s.mapOperands (reloadOf vs slots loaded) ::
    (storeOf? live slots i s (n + loaded.length)).toList

/-- **The code of a statement is a group.** -/
theorem spillStmt_eq (body : Body) (vs : Variables) (live : Liveness) (slots : Slots) (i : Nat)
    {s : Statement} {n : Nat} (h : ∀ o ∈ s.uses, o < n) :
    ∃ loaded, Reloads vs slots s.uses n loaded ∧ spillStmt body vs live slots i n s =
      (groupOf body vs live slots i s n loaded,
        n + (loaded.length + (storeOf? live slots i s (n + loaded.length)).toList.length)) := by
  obtain ⟨loaded, hr, heq⟩ := reloads_foldl body h
  refine ⟨loaded, hr, ?_⟩
  rw [spillStmt, heq, groupOf, storeOf?]
  cases storeSlot? live slots i with
  | none => rfl
  | some slot => rfl

/-- The groups of statements from a position on make up code; fresh numbers are those from `n` to
`n'`. -/
inductive Groups (body : Body) (vs : Variables) (live : Liveness) (slots : Slots) :
    Nat → Nat → Body → Body → Nat → Prop
  | nil (i : Nat) (n : Nat) : Groups body vs live slots i n [] [] n
  | cons {i : Nat} {n n' : Nat} {s : Statement} {rest more : Body}
    {loaded : List (Nat × StmtId)} (hr : Reloads vs slots s.uses n loaded)
    (hg : Groups body vs live slots (i + 1)
      (n + (loaded.length + (storeOf? live slots i s (n + loaded.length)).toList.length))
      rest more n') :
    Groups body vs live slots i n (s :: rest) (groupOf body vs live slots i s n loaded ++ more) n'

/-- **A spilled body is made of groups.** -/
theorem groups_spillFrom {i : Nat} {n : Nat} {rest : Body} (h : ∀ s ∈ rest, ∀ o ∈ s.uses, o < n) :
    Groups body vs live slots i n rest (spillFrom body vs live slots i n rest).1
      (spillFrom body vs live slots i n rest).2 := by
  induction rest generalizing i n with
  | nil => exact .nil i n
  | cons s rest ih =>
    obtain ⟨loaded, hr, heq⟩ := spillStmt_eq body vs live slots i (h s mem_cons_self)
    rw [spillFrom, heq]
    refine .cons hr (ih fun t ht o ho => ?_)
    exact Nat.lt_of_lt_of_le (h t (mem_cons_of_mem _ ht) o ho) (Nat.le_add_right _ _)

theorem groups_spillBody {n n' : Nat} {code : Body} (h : ∀ s ∈ body, ∀ o ∈ s.uses, o < n)
    (hcode : spillBody body vs live slots n = (code, n')) :
    Groups body vs live slots 0 n body code n' := by
  have hgroups : Groups body vs live slots 0 n body (spillBody body vs live slots n).1
    (spillBody body vs live slots n).2 := groups_spillFrom h
  rwa [hcode] at hgroups

inductive Origin (body : Body) (vs : Variables) (live : Liveness) (slots : Slots) (i : Nat)
    (n n' : Nat) (rest : Body) : Statement → Prop
  | kept {s : Statement} {m : Nat} {loaded : List (Nat × StmtId)} (hs : s ∈ rest) (hm : n ≤ m)
    (hr : Reloads vs slots s.uses m loaded) :
    Origin body vs live slots i n n' rest (s.mapOperands (reloadOf vs slots loaded))
  | load {e : Nat × StmtId} {s : Statement} {o : StmtId} (hn : n ≤ e.2) (hn' : e.2 < n')
    (hs : s ∈ rest) (ho : o ∈ s.uses) (hv : spilled? vs slots o = some e.1) :
    Origin body vs live slots i n n' rest (loadOf body vs slots e)
  | store {j slot : Nat} {id : Nat} {s t : Statement} (hs : rest[j]? = some s)
    (hslot : storeSlot? live slots (i + j) = some slot) (hn : n ≤ id) (hn' : id < n')
    (ht : t = { id, op := .store, left? := some s.id, payload := .slot slot, type? := s.type? }) :
    Origin body vs live slots i n n' rest t

namespace Groups

variable {i : Nat} {n n' : Nat} {rest code : Body} {s t : Statement}

section

variable (h : Groups body vs live slots i n rest code n')
include h

theorem le : n ≤ n' := by
  induction h with
  | nil => exact Nat.le_refl _
  | cons _ _ ih => exact Nat.le_trans (Nat.le_add_right _ _) ih

theorem exists_group (hs : s ∈ rest) : ∃ j m loaded, n ≤ m ∧ Reloads vs slots s.uses m loaded ∧
      ∀ t ∈ groupOf body vs live slots j s m loaded, t ∈ code := by
  induction h with
  | nil => cases hs
  | @cons i n n' t rest more loaded hr _ ih =>
    rcases mem_cons.1 hs with rfl | hs
    · exact ⟨i, n, loaded, Nat.le_refl _, hr, fun t ht => mem_append_left _ ht⟩
    · obtain ⟨j, m, loaded', hm, hr', hmem⟩ := ih hs
      exact ⟨j, m, loaded', Nat.le_trans (Nat.le_add_right _ _) hm, hr',
        fun t ht => mem_append_right _ (hmem t ht)⟩

theorem exists_mem (hs : s ∈ rest) : ∃ m loaded, n ≤ m ∧ Reloads vs slots s.uses m loaded ∧
      s.mapOperands (reloadOf vs slots loaded) ∈ code := by
  obtain ⟨j, m, loaded, hm, hr, hmem⟩ := h.exists_group hs
  exact ⟨m, loaded, hm, hr, hmem _ (by simp [groupOf])⟩

/-- **The statements of a spilled body** are those of the body, loads and stores. -/
theorem origin (ht : t ∈ code) : Origin body vs live slots i n n' rest t := by
  induction h with
  | nil => cases ht
  | @cons i n n' s rest more loaded hr hg ih =>
    have hle := hg.le
    rcases mem_append.1 ht with ht | ht
    · rcases mem_append.1 ht with ht | ht
      · obtain ⟨e, he, rfl⟩ := mem_map.1 ht
        obtain ⟨hn, hlt⟩ := hr.le_of_mem (mem_reverse.1 he)
        obtain ⟨o, ho, hv⟩ := hr.exists_operand (mem_reverse.1 he)
        exact .load hn (Nat.lt_of_lt_of_le hlt (by omega)) mem_cons_self ho hv
      · rcases mem_cons.1 ht with rfl | ht
        · exact .kept mem_cons_self (Nat.le_refl _) hr
        · rw [Option.mem_toList, storeOf?, Option.map_eq_some_iff] at ht
          obtain ⟨slot, hslot, rfl⟩ := ht
          refine .store (j := 0) rfl hslot (Nat.le_add_right _ _) ?_ rfl
          rw [storeOf?, hslot] at hle
          exact Nat.lt_of_lt_of_le (by simp) hle
    · cases ih ht with
      | kept hs hm hr' =>
        exact .kept (mem_cons_of_mem _ hs) (Nat.le_trans (Nat.le_add_right _ _) hm) hr'
      | load hn hn' hs ho hv =>
        exact .load (Nat.le_trans (Nat.le_add_right _ _) hn) hn' (mem_cons_of_mem _ hs) ho hv
      | @store j slot _ _ _ hs hslot hn hn' ht =>
        refine .store (j := j + 1) hs ?_ (Nat.le_trans (Nat.le_add_right _ _) hn) hn' ht
        rwa [← Nat.add_assoc, Nat.add_right_comm]

theorem perm_ids : (code.map (·.id)).Perm (rest.map (·.id) ++ range' n (n' - n)) := by
  induction h with
  | nil => simp
  | @cons i n n' s rest more loaded hr hg ih =>
    have hle := hg.le
    have hgroup : (groupOf body vs live slots i s n loaded).map (·.id) =
        range' n loaded.length ++ s.id ::
          range' (n + loaded.length) (storeOf? live slots i s (n + loaded.length)).toList.length := by
      have hloads : (loaded.reverse.map (loadOf body vs slots)).map (·.id) =
          range' n loaded.length := by
        rw [map_map]
        exact hr.ids
      have hstore : (storeOf? live slots i s (n + loaded.length)).toList.map (·.id) =
          range' (n + loaded.length)
            (storeOf? live slots i s (n + loaded.length)).toList.length := by
        rw [storeOf?]
        cases storeSlot? live slots i <;> rfl
      rw [groupOf, map_append, hloads, map_cons, hstore]
      rfl
    generalize (storeOf? live slots i s (n + loaded.length)).toList.length = m at hgroup hle ih
    have hrange : range' n (n' - n) = range' n loaded.length ++
        (range' (n + loaded.length) m ++
          range' (n + (loaded.length + m)) (n' - (n + (loaded.length + m)))) := by
      have hlen : n' - n = loaded.length + (m + (n' - (n + (loaded.length + m)))) := by omega
      rw [hlen, ← range'_append_1, ← range'_append_1, Nat.add_assoc]
    rw [map_append, hgroup, map_cons, hrange, perm_iff_count]
    intro x
    simp only [count_append, count_cons, cons_append, ih.count_eq]
    omega

theorem distinct (hd : Body.DistinctIds rest) (hlt : ∀ s ∈ rest, s.id < n) :
    Body.DistinctIds code := by
  refine (h.perm_ids.nodup_iff).2 (nodup_append'.2 ⟨hd, nodup_range', ?_⟩)
  intro x hx hx'
  obtain ⟨s, hs, rfl⟩ := mem_map.1 hx
  rw [mem_range'_1] at hx'
  exact absurd (hlt s hs) (Nat.not_lt.2 hx'.1)

theorem id_lt (hlt : ∀ s ∈ rest, s.id < n) (ht : t ∈ code) : t.id < n' := by
  have hmem := h.perm_ids.mem_iff.1 (mem_map_of_mem ht)
  have hle := h.le
  rcases mem_append.1 hmem with hmem | hmem
  · obtain ⟨s, hs, hid⟩ := mem_map.1 hmem
    rw [← hid]
    exact Nat.lt_of_lt_of_le (hlt s hs) hle
  · rw [mem_range'_1] at hmem
    exact Nat.lt_of_lt_of_le hmem.2 (by omega)

theorem kept_of_isMerge (hs : s ∈ rest) (hop : s.op.isMerge = true) : s ∈ code := by
  obtain ⟨m, loaded, _, hr, hmem⟩ := h.exists_mem hs
  have hu : s.uses = [] := if_pos hop
  rw [hu] at hr
  rwa [mapOperands_eq_self fun o _ => hr.reloadOf_of_nil] at hmem

theorem mem_of_isMerge (ht : t ∈ code) (hop : t.op.isMerge = true) : t ∈ rest := by
  cases h.origin ht with
  | @kept s m loaded hs _ hr =>
    have hu : s.uses = [] := if_pos hop
    rw [hu] at hr
    rwa [mapOperands_eq_self fun o _ => hr.reloadOf_of_nil]
  | load => cases hop
  | store _ _ _ _ ht => rw [ht] at hop; cases hop

theorem exists_kept (hs : s ∈ rest) : ∃ t ∈ code, t.id = s.id ∧ t.op = s.op := by
  obtain ⟨_, _, _, _, hmem⟩ := h.exists_mem hs
  exact ⟨_, hmem, rfl, rfl⟩

theorem exists_of_id_lt (ht : t ∈ code) (hlt : t.id < n) :
    ∃ s ∈ rest, s.id = t.id ∧ s.op = t.op := by
  cases h.origin ht with
  | kept hs _ _ => exact ⟨_, hs, rfl, rfl⟩
  | load hn => exact absurd hlt (Nat.not_lt.2 hn)
  | store _ _ hn _ ht =>
    rw [ht] at hlt
    exact absurd hlt (Nat.not_lt.2 hn)

end

end Groups

/-! ## Properties of statements -/

/-- A property of statements that spilling keeps, when new statements get numbers from `next` on. -/
structure Keeps (next : StmtId) (P : Statement → Prop) : Prop where
  replaceUse : ∀ s old new, next ≤ new → P s → P (s.replaceUse old new)
  load : ∀ id slot type?, next ≤ id → P { id, op := .load, payload := .slot slot, type? }
  store : ∀ s id slot, next ≤ id → P s →
    P { id, op := .store, left? := some s.id, payload := .slot slot, type? := s.type? }

/-- The property of a statement whose reads are being redirected and of its loads. -/
structure Reloading.Keeps (next : StmtId) (P : Statement → Prop) (r : Reloading) : Prop where
  stmt : P r.stmt
  loads : ∀ t ∈ r.loads, P t
  loaded : ∀ e ∈ r.loaded, next ≤ e.2
  nextId : next ≤ r.nextId

namespace Keeps

variable {next : StmtId} {P : Statement → Prop}

theorem reload (h : Keeps next P) {r : Reloading} (hr : r.Keeps next P) (o : StmtId) :
    (Spill.reload body vs slots r o).Keeps next P := by
  rw [Spill.reload]
  split
  · exact hr
  · split
    · exact hr
    · split
      · next hl =>
        have hle := hr.loaded _ (Reloads.mem_of_lookup hl)
        exact { hr with stmt := h.replaceUse _ _ _ hle hr.stmt }
      · refine ⟨h.replaceUse _ _ _ hr.nextId hr.stmt, fun t ht => ?_, fun e he => ?_,
          Nat.le_succ_of_le hr.nextId⟩
        · rcases mem_append.1 ht with ht | ht
          · exact hr.loads t ht
          · obtain rfl := mem_singleton.1 ht
            exact h.load _ _ _ hr.nextId
        · rcases mem_cons.1 he with rfl | he
          · exact hr.nextId
          · exact hr.loaded e he

theorem foldl_reload (h : Keeps next P) {r : Reloading} (hr : r.Keeps next P) (os : List StmtId) :
    (os.foldl (Spill.reload body vs slots) r).Keeps next P := by
  induction os generalizing r with
  | nil => exact hr
  | cons o os ih => exact ih (h.reload hr o)

theorem spillStmt (h : Keeps next P) {i n : Nat} (hn : next ≤ n) {s : Statement} (hs : P s) :
    next ≤ (Spill.spillStmt body vs live slots i n s).2 ∧
      ∀ t ∈ (Spill.spillStmt body vs live slots i n s).1, P t := by
  have hr : (s.uses.foldl (Spill.reload body vs slots) ⟨s, [], [], n⟩).Keeps next P :=
    h.foldl_reload ⟨hs, by simp, by simp, hn⟩ _
  rw [Spill.spillStmt]
  dsimp only
  split
  · refine ⟨hr.nextId, fun t ht => ?_⟩
    rcases mem_append.1 ht with ht | ht
    · exact hr.loads t ht
    · exact mem_singleton.1 ht ▸ hr.stmt
  · refine ⟨Nat.le_succ_of_le hr.nextId, fun t ht => ?_⟩
    rcases mem_append.1 ht with ht | ht
    · exact hr.loads t ht
    · rcases mem_cons.1 ht with rfl | ht
      · exact hr.stmt
      · exact mem_singleton.1 ht ▸ h.store s _ _ hr.nextId hs

/-- **What spilling keeps holds of all spill code.** -/
theorem spillFrom (h : Keeps next P) {i n : Nat} (hn : next ≤ n) {rest : Body}
    (hall : ∀ s ∈ rest, P s) : next ≤ (Spill.spillFrom body vs live slots i n rest).2 ∧
      ∀ t ∈ (Spill.spillFrom body vs live slots i n rest).1, P t := by
  induction rest generalizing i n with
  | nil => exact ⟨hn, by simp [Spill.spillFrom]⟩
  | cons s rest ih =>
    have hstmt : next ≤ (Spill.spillStmt body vs live slots i n s).2 ∧
        ∀ t ∈ (Spill.spillStmt body vs live slots i n s).1, P t :=
      h.spillStmt hn (hall s mem_cons_self)
    obtain ⟨hle', hmore⟩ := ih (i := i + 1) hstmt.1 fun t ht => hall t (mem_cons_of_mem _ ht)
    exact ⟨hle', fun t ht => (mem_append.1 ht).elim (hstmt.2 t) (hmore t)⟩

theorem spillBody (h : Keeps next P) {n n' : Nat} (hn : next ≤ n) (hall : ∀ s ∈ body, P s)
    {code : Body} (hcode : Spill.spillBody body vs live slots n = (code, n')) :
    next ≤ n' ∧ ∀ t ∈ code, P t := by
  have hbody : next ≤ (Spill.spillBody body vs live slots n).2 ∧
    ∀ t ∈ (Spill.spillBody body vs live slots n).1, P t := h.spillFrom hn hall
  rwa [hcode] at hbody

end Keeps

end Spill

end MiniJava
