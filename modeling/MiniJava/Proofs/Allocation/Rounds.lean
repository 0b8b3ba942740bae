import MiniJava.Proofs.Allocation.Annotations
import MiniJava.Proofs.Allocation.Pressure
import MiniJava.Proofs.Allocation.SpilledBody

/-!
# Rounds of allocation

A round on a disciplined body colors it, or spills some of its candidates; with five registers or more
it never fails. A spilled body is disciplined again and has less to spill, so the rounds end. What a
successful allocation did is recorded by `Allocates`: any number of spillings and one coloring. What
is said about allocated bodies is proved by induction on it.
-/

namespace MiniJava

open Ssa List

namespace Ssa

/-! ## Registers are annotations -/

@[simp] theorem Body.bare_clearRegisters (body : Body) : body.clearRegisters.bare = body.bare := by
  rw [bare, bare, clearRegisters, map_map]
  refine map_congr_left fun s _ => ?_
  rw [Function.comp_apply]
  split <;> rfl

@[simp] theorem Body.bare_assignRegisters (body : Body) (vs : Variables)
    (colors : List (Option Nat)) : (body.assignRegisters vs colors).bare = body.bare := by
  rw [bare, bare, assignRegisters, map_map]
  conv_rhs => rw [← zipIdx_map_fst 0 body, map_map]
  refine map_congr_left fun e _ => ?_
  obtain ⟨s, i⟩ := e
  rw [Function.comp_apply, Function.comp_apply]
  dsimp only
  split <;> rfl

theorem Body.Disciplined.of_bare {body body' : Body} {next : StmtId} (h : body.Disciplined next)
    (heq : body'.bare = body.bare) : body'.Disciplined next := by
  rw [← disciplined_bare, heq, disciplined_bare]
  exact h

theorem Body.Disciplined.mono {body : Body} {next next' : StmtId} (h : body.Disciplined next)
    (hle : next ≤ next') : body.Disciplined next' :=
  { h with bounded := fun s hs => Nat.lt_of_lt_of_le (h.bounded s hs) hle }

theorem Body.spillable_bare (body : Body) : body.bare.spillable = body.spillable := by
  ext id
  rw [mem_spillable, mem_spillable]
  constructor
  · rintro ⟨t, ht, hid, hd, hop, c, hc, hr⟩
    obtain ⟨s, hs, rfl⟩ := exists_of_mem_bare ht
    exact ⟨s, hs, hid, hd, hop, c, by rwa [cell?_bare] at hc, readOutside_bare.1 hr⟩
  · rintro ⟨s, hs, hid, hd, hop, c, hc, hr⟩
    exact ⟨s.bare, mem_map_of_mem hs, hid, hd, hop, c, by rwa [cell?_bare],
      readOutside_bare.2 hr⟩

end Ssa

/-! ## Slots -/

namespace Spill

structure FreshSlots (body : Body) (slots : Slots) : Prop where
  free : ∀ v slot, slots.lookup v = some slot → body.nextFreeSlot ≤ slot
  injective : ∀ u v slot, slots.lookup u = some slot → slots.lookup v = some slot → u = v

theorem of_lookup_zipIdx {vs : List Nat} {n v slot : Nat}
    (h : (vs.zipIdx n).lookup v = some slot) : n ≤ slot ∧ vs[slot - n]? = some v := by
  have hmem := Reloads.mem_of_lookup h
  rw [mem_zipIdx_iff_le_and_getElem?_sub] at hmem
  exact hmem

theorem exists_lookup_zipIdx {vs : List Nat} {v : Nat} (n : Nat) (h : v ∈ vs) :
    ∃ slot, (vs.zipIdx n).lookup v = some slot := by
  cases hl : (vs.zipIdx n).lookup v with
  | some slot => exact ⟨slot, rfl⟩
  | none =>
    obtain ⟨i, hi⟩ := mem_iff_getElem?.1 h
    have hmem : (v, n + i) ∈ vs.zipIdx n := by
      rw [mem_zipIdx_iff_le_and_getElem?_sub]
      exact ⟨Nat.le_add_right n i, by rwa [Nat.add_sub_cancel_left]⟩
    exact absurd (lookup_eq_none_iff.1 hl _ hmem) (by simp)

theorem freshSlots_zipIdx (body : Body) (vs : List Nat) :
    FreshSlots body (vs.zipIdx body.nextFreeSlot) where
  free := fun _ _ h => (of_lookup_zipIdx h).1
  injective := fun _ _ _ hu hv =>
    Option.some.inj ((of_lookup_zipIdx hu).2.symm.trans (of_lookup_zipIdx hv).2)

end Spill

/-! ## One round -/

section Round

variable {k : Nat} {body : Body} {next : StmtId}

theorem Analyses.choice {a : Analysis} (h : Analyses body a) (hb : body.Disciplined next) (n : Nat) :
    Spill.Choice body
      (((a.coloring k).uncolored.filter a.candidates.contains).zipIdx n) where
  cell := by
    intro v slot hv
    obtain ⟨hmem, hcand⟩ := mem_filter.1 (mem_of_getElem? (Spill.of_lookup_zipIdx hv).2)
    obtain ⟨hlt, hpin, _⟩ := ColoringProblem.mem_uncolored.1 (a.coloring_eq k ▸ hmem)
    have hc := getElem?_eq_getElem (show v < body.cells.length from h.size_graph ▸ hlt)
    obtain ⟨hr, hw⟩ := (h.mem_candidates hc).1 (VarSet.contains_iff.1 hcand)
    exact ⟨_, hc, hr, hw, h.free_of_pin?_eq_none hb hc hpin⟩

inductive RoundEnds (method : String) (k : Nat) (body : Body) (next : StmtId) : Round → Prop
  | conflict {c : PinConflict} (ha : Analysis.of body = .error c) :
    RoundEnds method k body next (.failed (.conflictingPins c))
  | colored {a : Analysis} (ha : Analysis.of body = .ok a) (hall : (a.coloring k).uncolored = []) :
    RoundEnds method k body next (.colored (body.assignRegisters a.vars (a.coloring k).colors))
  | stuck {a : Analysis} (ha : Analysis.of body = .ok a) (hleft : (a.coloring k).uncolored ≠ [])
    (hnone : (a.coloring k).uncolored.filter a.candidates.contains = []) :
    RoundEnds method k body next (.failed (.insufficientRegisters method k))
  | spilled {a : Analysis} (ha : Analysis.of body = .ok a)
    (hsome : (a.coloring k).uncolored.filter a.candidates.contains ≠ []) {code : Body} {n' : StmtId}
    (hcode : Spill.spillBody body a.vars a.live (((a.coloring k).uncolored.filter
      a.candidates.contains).zipIdx body.nextFreeSlot) next = (code, n')) :
    RoundEnds method k body next (.spilled code n')

theorem roundEnds (method : String) (k : Nat) (body : Body) (next : StmtId) :
    RoundEnds method k body next (allocationRound method k body next) := by
  rw [allocationRound]
  cases ha : Analysis.of body with
  | error c => exact .conflict ha
  | ok a =>
    dsimp only
    split
    · next hall => exact .colored ha (isEmpty_iff.1 hall)
    · next hleft =>
      split
      · next hnone =>
        exact .stuck ha (fun hnil => hleft (isEmpty_iff.2 hnil)) (isEmpty_iff.1 hnone)
      · next hsome => exact .spilled ha (fun hnil => hsome (isEmpty_iff.2 hnil)) rfl

/-- **How a round on a disciplined body ends.** -/
theorem allocationRound_cases (method : String) (k : Nat) (hb : body.Disciplined next) :
    (∃ a, Analyses body a ∧ (a.coloring k).uncolored = [] ∧
      allocationRound method k body next =
        .colored (body.assignRegisters a.vars (a.coloring k).colors)) ∨
    (∃ e, k < 5 ∧ allocationRound method k body next = .failed e) ∨
    ∃ a slots code n', Spill.Spilling body next a slots code n' ∧ Spill.FreshSlots body slots ∧
      (∃ v slot, slots.lookup v = some slot) ∧
      allocationRound method k body next = .spilled code n' := by
  have hends := roundEnds method k body next
  generalize allocationRound method k body next = round at hends ⊢
  cases hends with
  | conflict hc =>
    obtain ⟨a, ha⟩ := hb.exists_analysis
    rw [hc] at ha
    cases ha
  | colored ha hall => exact Or.inl ⟨_, Analysis.of_analyses ha, hall, rfl⟩
  | stuck ha hleft hnone =>
    refine Or.inr (Or.inl ⟨_, Nat.not_le.1 fun hk => ?_, rfl⟩)
    -- Some variable is left, and with five registers it is a candidate.
    obtain ⟨v, hv⟩ := exists_mem_of_ne_nil _ hleft
    have hcand := (Analysis.of_analyses ha).mem_candidates_of_uncolored hb hk hv
    have hmem := mem_filter.2 ⟨hv, VarSet.contains_iff.2 hcand⟩
    rw [hnone] at hmem
    cases hmem
  | @spilled a ha hsome code n' hcode =>
    have h := Analysis.of_analyses ha
    obtain ⟨v, hv⟩ := exists_mem_of_ne_nil _ hsome
    obtain ⟨slot, hslot⟩ := Spill.exists_lookup_zipIdx body.nextFreeSlot hv
    have hgroups := Spill.groups_spillBody (fun s hs o ho => hb.lt_of_mem_uses hs ho) hcode
    exact Or.inr (Or.inr ⟨a, _, _, _, ⟨hb, h, h.choice hb _, hgroups⟩,
      Spill.freshSlots_zipIdx _ _, ⟨v, slot, hslot⟩, rfl⟩)

end Round

/-! ## Rounds -/

/-- A successful allocation of a body for `k` registers, from the first free number to the next. -/
inductive Allocates (k : Nat) : Body → StmtId → Body → StmtId → Prop
  | colored {body : Body} {next : StmtId} {a : Analysis} (hb : body.Disciplined next)
    (ha : Analyses body.clearRegisters a) (hall : (a.coloring k).uncolored = []) :
    Allocates k body next (body.clearRegisters.assignRegisters a.vars (a.coloring k).colors) next
  | spilled {body code final : Body} {next n' last : StmtId} {a : Analysis} {slots : Spill.Slots}
    (hs : Spill.Spilling body.clearRegisters next a slots code n')
    (hfresh : Spill.FreshSlots body.clearRegisters slots) (hrest : Allocates k code n' final last) :
    Allocates k body next final last

section Rounds

variable {method : String} {k n done : Nat} {body : Body} {next : StmtId}

/-- **What successful rounds did.** -/
theorem allocates_of_rounds (hb : body.Disciplined next) {rounds : Nat}
    (h : (allocationRounds method k n done body next).result = .ok rounds) :
    Allocates k body next (allocationRounds method k n done body next).body
      (allocationRounds method k n done body next).nextId := by
  induction n generalizing done body next with
  | zero => cases h
  | succ n ih =>
    have hclear := hb.of_bare body.bare_clearRegisters
    rw [allocationRounds] at h ⊢
    rcases allocationRound_cases method k hclear with
      ⟨a, ha, hall, heq⟩ | ⟨e, _, heq⟩ | ⟨a, slots, code, n', hs, hfresh, _, heq⟩
    · rw [heq] at h ⊢
      exact .colored hb ha hall
    · rw [heq] at h
      cases h
    · rw [heq] at h ⊢
      exact .spilled hs hfresh (ih hs.disciplined_code h)

/-- **Five registers are enough.** -/
theorem exists_rounds_ok (method : String) (done : Nat) (hk : 5 ≤ k) (hb : body.Disciplined next)
    (hn : body.spillable.card < n) :
    ∃ rounds, (allocationRounds method k n done body next).result = .ok rounds := by
  induction n generalizing done body next with
  | zero => exact absurd hn (Nat.not_lt_zero _)
  | succ n ih =>
    have hclear := hb.of_bare body.bare_clearRegisters
    rw [allocationRounds]
    rcases allocationRound_cases method k hclear with
      ⟨a, ha, hall, heq⟩ | ⟨e, hlt, heq⟩ | ⟨a, slots, code, n', hs, _, ⟨v, slot, hv⟩, heq⟩
    · rw [heq]
      exact ⟨_, rfl⟩
    · exact absurd hlt (Nat.not_lt.2 hk)
    · rw [heq]
      refine ih _ hs.disciplined_code ?_
      have hlt := hs.card_spillable_lt hv
      rw [← body.clearRegisters.spillable_bare, body.bare_clearRegisters, body.spillable_bare] at hlt
      omega

end Rounds

/-! ## Bodies -/

section Bodies

variable {method : String} {k : Nat} {body : Body} {next : StmtId}

theorem allocateBody_eq_of_ok {stats : MethodStats}
    (h : (allocateBody method k body next).result = .ok stats) : k ≠ 0 ∧ ∃ final last,
      allocateBody method k body next = ⟨final, last, .ok stats⟩ ∧
      allocationRounds method k (roundLimit body.prepare next) 0 body.prepare next =
        ⟨final, last, .ok stats.rounds⟩ ∧
      stats = ⟨method, final.registersUsed, final.nextFreeSlot, stats.rounds⟩ := by
  rw [allocateBody] at h ⊢
  by_cases hk : k = 0
  · rw [if_pos hk] at h
    cases h
  · rw [if_neg hk] at h ⊢
    dsimp only at h ⊢
    generalize allocationRounds method k (roundLimit body.prepare next) 0 body.prepare next = out at h ⊢
    obtain ⟨final, last, result⟩ := out
    cases result with
    | error e => cases h
    | ok rounds =>
      obtain rfl := Except.ok.inj h
      exact ⟨hk, final, last, rfl, rfl, rfl⟩

theorem allocates_of_allocateBody (hb : body.prepare.Disciplined next) {stats : MethodStats}
    (h : (allocateBody method k body next).result = .ok stats) :
    Allocates k body.prepare next (allocateBody method k body next).body
      (allocateBody method k body next).nextId := by
  obtain ⟨_, final, last, heq, hrounds, _⟩ := allocateBody_eq_of_ok h
  have hall := allocates_of_rounds hb (congrArg Allocated.result hrounds)
  rw [hrounds] at hall
  rw [heq]
  exact hall

theorem exists_allocateBody_ok (hk : 5 ≤ k) (hb : body.prepare.Disciplined next) :
    ∃ stats, (allocateBody method k body next).result = .ok stats := by
  have hlimit : body.prepare.spillable.card < roundLimit body.prepare next :=
    Nat.lt_of_le_of_lt body.prepare.card_spillable_le
      (Nat.lt_succ_of_le (Nat.le_add_left _ _))
  obtain ⟨rounds, hr⟩ := exists_rounds_ok method 0 hk hb hlimit
  rw [allocateBody, if_neg (by omega)]
  dsimp only
  rw [hr]
  exact ⟨_, rfl⟩

theorem Allocates.le {final : Body} {last : StmtId} (h : Allocates k body next final last) :
    next ≤ last := by
  induction h with
  | colored => exact Nat.le_refl _
  | spilled hs _ _ ih => exact Nat.le_trans hs.groups.le ih

theorem Allocates.disciplined {final : Body} {last : StmtId}
    (h : Allocates k body next final last) : final.Disciplined last := by
  induction h with
  | colored hb _ _ =>
    exact hb.of_bare (by rw [Body.bare_assignRegisters, Body.bare_clearRegisters])
  | spilled _ _ _ ih => exact ih

end Bodies

end MiniJava
