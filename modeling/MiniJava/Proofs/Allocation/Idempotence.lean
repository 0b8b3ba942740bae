import MiniJava.Proofs.Allocation.RegisterSafety
import MiniJava.Proofs.Allocation.Termination

/-!
# Allocating twice

An allocated body needs no allocation: to allocate it once more takes one round and changes nothing.
The second run pins what was pinned before and clears the registers again. What it then finds are the
variables of the last round with the same live ranges, for these do not depend on registers, so it
chooses the same colors. Nothing is assumed about the body.
-/

namespace MiniJava

open Ssa List Statement

/-! ## Preparing twice -/

namespace Ssa.Statement

variable {s t : Statement} {p : Pin}

/-- The statement is pinned where calling fixes it, and an assignment has forgotten the previous
value. -/
structure Pinned (s : Statement) : Prop where
  pin? : ∀ p, s.fixedPin? = some p → s.pin? = some p
  right? : s.op = .assignVar → s.right? = none

theorem pinned_prepared (s : Statement) : s.prepared.Pinned where
  pin? := by
    intro p hp
    rw [fixedPin?_prepared] at hp
    rw [prepared, pin_eq_fixedPin?, hp]
    dsimp only [Option.map_some, Option.getD_some]
    split <;> rfl
  right? := by
    intro hop
    obtain ⟨_, _, h⟩ := s.prepared_eq
    rw [h]
    exact if_pos (s.op_prepared.symm.trans hop)

theorem Pinned.prepared_eq_self (h : s.Pinned)
    (hreg : ∀ p, s.fixedPin? = some p → s.register? = p.register?) : s.prepared = s := by
  have hpin : s.pin = s := by
    rw [pin_eq_fixedPin?]
    cases hp : s.fixedPin? with
    | none => rfl
    | some p => rw [Option.map_some, Option.getD_some, ← h.pin? p hp, ← hreg p hp]
  rw [prepared, hpin]
  split
  · next hop => rw [← h.right? hop]
  · rfl

theorem Pinned.mapOperands (h : s.Pinned) (f : StmtId → StmtId) : (s.mapOperands f).Pinned where
  pin? := by
    intro p hp
    rw [fixedPin?, mapOperands_op, mapOperands_position?] at hp
    exact h.pin? p hp
  right? := by
    intro hop
    rw [mapOperands_right?, h.right? hop]
    rfl

theorem Pinned.of_bare (h : s.Pinned) (heq : t.bare = s.bare) : t.Pinned where
  pin? := fun p hp => (congrArg Statement.pin? heq).trans
    (h.pin? p ((congrArg fixedPin? heq).symm.trans hp))
  right? := fun hop => (congrArg Statement.right? heq).trans
    (h.right? ((congrArg op heq).symm.trans hop))

end Ssa.Statement

theorem Spill.keeps_pinned (next : StmtId) : Spill.Keeps next Statement.Pinned where
  replaceUse := fun s old new _ h => s.replaceUse_eq old new ▸ h.mapOperands _
  load := fun _ _ _ _ => ⟨nofun, nofun⟩
  store := fun _ _ _ _ _ => ⟨nofun, nofun⟩

namespace Ssa.Body

variable {body : Body} {vs : Variables} {colors : List (Option Nat)}

theorem pinned_of_bare {body' : Body} (h : ∀ s ∈ body, s.Pinned) (heq : body'.bare = body.bare) :
    ∀ t ∈ body', t.Pinned :=
  forall_of_bare (fun _ _ heq hs => hs.of_bare heq) h heq

theorem getElem?_clearRegisters (body : Body) (i : Nat) : body.clearRegisters[i]? =
    (body[i]?).map fun s => if s.pin?.isNone then { s with register? := none } else s :=
  getElem?_map ..

theorem assignRegisters_again (body : Body) {vs' : Variables} (hat : ∀ i, vs'.at? i = vs.at? i) :
    (body.clearRegisters.assignRegisters vs colors).clearRegisters.assignRegisters vs' colors =
      body.clearRegisters.assignRegisters vs colors := by
  refine ext_getElem? fun i => ?_
  simp only [getElem?_assignRegisters, getElem?_clearRegisters, Option.map_map, hat]
  refine Option.map_congr fun s _ => ?_
  simp only [Function.comp_apply]
  obtain ⟨_, _, _, _, _, _, _, pin?⟩ := s
  cases vs.at? i <;> cases pin? <;> rfl

end Ssa.Body

/-! ## The last round -/

section Rounds

variable {method : String} {k n done : Nat} {body : Body} {next : StmtId} {a : Analysis}

theorem exists_colored_of_rounds {rounds : Nat} (hb : ∀ s ∈ body, s.Pinned)
    (h : (allocationRounds method k n done body next).result = .ok rounds) :
    ∃ (last : Body) (a : Analysis), (∀ s ∈ last, s.Pinned) ∧ Analysis.of last.clearRegisters = .ok a ∧
      (a.coloring k).uncolored = [] ∧
      (allocationRounds method k n done body next).body =
        last.clearRegisters.assignRegisters a.vars (a.coloring k).colors := by
  induction n generalizing done body next with
  | zero => cases h
  | succ n ih =>
    rw [allocationRounds] at h ⊢
    have hends := roundEnds method k body.clearRegisters next
    generalize allocationRound method k body.clearRegisters next = round at hends h ⊢
    cases hends with
    | conflict => cases h
    | stuck => cases h
    | colored ha hall => exact ⟨body, _, hb, ha, hall, rfl⟩
    | spilled _ _ hcode =>
      have hclear := Body.pinned_of_bare hb body.bare_clearRegisters
      exact ih ((Spill.keeps_pinned next).spillBody (Nat.le_refl _) hclear hcode).2 h

theorem prepare_colored (hb : ∀ s ∈ body, s.Pinned) (ha : Analyses body a) :
    (body.assignRegisters a.vars (a.coloring k).colors).prepare =
      body.assignRegisters a.vars (a.coloring k).colors := by
  have hbare := body.bare_assignRegisters a.vars (a.coloring k).colors
  rw [Body.prepare_eq]
  refine (map_congr_left fun t ht => ?_).trans (map_id' _)
  refine (Body.pinned_of_bare hb hbare t ht).prepared_eq_self fun p hp => ?_
  obtain ⟨i, s, hs, hts, hreg⟩ := Body.exists_of_mem_assignRegisters ht
  have hfixed : s.fixedPin? = some p := (congrArg fixedPin? hts).symm.trans hp
  rw [hreg]
  exact ha.registerAt?_of_pin? hs
    (Body.Disciplined.isTracked_of_isTransit (isTransit_of_fixedPin?_eq_some hfixed))
    ((hb s (mem_of_getElem? hs)).pin? p hfixed)

theorem Analysis.matches_of_bare {body' : Body} (h : body'.bare = body.bare)
    (ha : Analysis.of body = .ok a) : ∃ a', Analysis.of body' = .ok a' ∧
      (∀ i, a'.vars.at? i = a.vars.at? i) ∧ a'.coloring k = a.coloring k := by
  have hmap : ∀ b : Body, (∃ c, Analysis.of b = .error c ∧ Analysis.of b.bare = .error c) ∨
      ∃ a a', Analysis.of b = .ok a ∧ Analysis.of b.bare = .ok a' ∧
        a.Matches Set.univ (fun id => id) a' := fun b =>
    keepsTies_bare.renumbers.analysis_map (fun s => (map_id' _).symm) (fun _ => rfl) b.within_univ
  rcases hmap body with ⟨_, hc, _⟩ | ⟨_, b, ha', hb, hmatch⟩
  · rw [hc] at ha
    cases ha
  · obtain rfl := Except.ok.inj (ha'.symm.trans ha)
    rcases hmap body' with ⟨_, _, hc⟩ | ⟨a', _, ha'', hb', hmatch'⟩
    · rw [h, hb] at hc
      cases hc
    · rw [h] at hb'
      obtain rfl := Except.ok.inj (hb'.symm.trans hb)
      exact ⟨a', ha'', fun i => (hmatch'.at? i).symm.trans (hmatch.at? i),
        (hmatch'.coloring k).symm.trans (hmatch.coloring k)⟩

theorem allocationRound_colored (ha : Analysis.of body.clearRegisters = .ok a)
    (hall : (a.coloring k).uncolored = []) :
    allocationRound method k
      (body.clearRegisters.assignRegisters a.vars (a.coloring k).colors).clearRegisters next =
      .colored (body.clearRegisters.assignRegisters a.vars (a.coloring k).colors) := by
  obtain ⟨a', ha', hat, hcoloring⟩ := Analysis.matches_of_bare (k := k)
    ((Body.bare_clearRegisters _).trans
      (body.clearRegisters.bare_assignRegisters a.vars (a.coloring k).colors)) ha
  rw [allocationRound, ha']
  dsimp only
  rw [hcoloring, hall, body.assignRegisters_again hat]
  rfl

end Rounds

/-! ## Methods -/

/-- **Allocation is idempotent.** What allocation made of a method is allocated in one round, whatever
numbers are free then: every statement stays as it is, no number is taken, and the same registers and
slots are in use. -/
theorem allocate_twice (m : Method) (k : Nat) {next : StmtId} {stats : MethodStats}
    (h : (allocateMethod m k next).result = .ok stats) (next' : StmtId) :
    allocateMethod { m with body := (allocateMethod m k next).body } k next' =
      ⟨(allocateMethod m k next).body, next', .ok { stats with rounds := 1 }⟩ := by
  obtain ⟨hk, final, last, heq, hrounds, hstats⟩ := allocateBody_eq_of_ok h
  have hpinned : ∀ s ∈ m.body.prepare, s.Pinned := by
    intro t ht
    rw [Body.prepare_eq] at ht
    obtain ⟨s, _, rfl⟩ := List.mem_map.1 ht
    exact s.pinned_prepared
  obtain ⟨body, a, hb, ha, hall, hbody⟩ :=
    exists_colored_of_rounds hpinned (congrArg Allocated.result hrounds)
  rw [hrounds] at hbody
  dsimp only at hbody
  have hprepare : final.prepare = final := by
    rw [hbody]
    exact prepare_colored (Body.pinned_of_bare hb body.bare_clearRegisters) (Analysis.of_analyses ha)
  have hround : allocationRound m.qualifiedName k final.clearRegisters next' = .colored final := by
    rw [hbody]
    exact allocationRound_colored ha hall
  rw [show allocateMethod m k next = ⟨final, last, .ok stats⟩ from heq]
  change allocateBody m.qualifiedName k final next' = _
  rw [allocateBody, if_neg hk]
  dsimp only
  rw [hprepare, roundLimit, allocationRounds, hround, hstats]
  rfl

/-- Three rounds of allocation for two registers leave nothing to do. -/
theorem allocate_twice_crowded :
    (allocateMethod crowded 2 10).result = .ok ⟨"crowded", 2, 3, 3⟩ ∧
    allocateMethod { crowded with body := (allocateMethod crowded 2 10).body } 2
      (allocateMethod crowded 2 10).nextId =
        { allocateMethod crowded 2 10 with result := .ok ⟨"crowded", 2, 3, 1⟩ } := by
  have h : (allocateMethod crowded 2 10).result = .ok ⟨"crowded", 2, 3, 3⟩ := by decide +kernel
  exact ⟨h, allocate_twice crowded 2 h _⟩

end MiniJava
