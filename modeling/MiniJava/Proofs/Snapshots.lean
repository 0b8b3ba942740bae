import MiniJava.Proofs.Assembly.Provision
import MiniJava.Proofs.Stages
import MiniJava.Snapshot

/-!
# When there is a snapshot

A snapshot lists the program that the last pass left, and a listing needs the name of every type that
a statement carries. Lowered code carries no types. A check that succeeds stores the table with all the
types it has found, and allocation only copies types from one statement to another. But a check that
fails leaves the types found so far on the statements and the table as it was: then classes have no
names, and a program in which some statement got a class for its type has no listing.
-/

namespace MiniJava

open Ssa List

variable {types : TypeTable} {t : TypeId} {s : Statement} {r : Reloading}

/-! ## Listings -/

theorem isSome_mapM_iff {α β : Type} {f : α → Option β} {as : List α} :
    (as.mapM f).isSome = true ↔ ∀ a ∈ as, (f a).isSome = true := by
  induction as with
  | nil => simp
  | cons a as ih =>
    rw [mapM_cons, forall_mem_cons, ← ih]
    cases f a <;> cases as.mapM f <;> simp

theorem TypeTable.isSome_name? : (types.name? t).isSome = true ↔ t < types.nextTypeId := by
  rw [name?, Option.isSome_map, get?, nextTypeId, isSome_getElem?]

namespace Ssa

def Body.TypedIn (types : TypeTable) (body : Body) : Prop :=
  ∀ s ∈ body, ∀ t, s.type? = some t → t < types.nextTypeId

def Program.TypesListed (p : Program) : Prop := ∀ m ∈ p.methods, m.body.TypedIn p.types

theorem Statement.isSome_line? :
    (s.line? types).isSome = true ↔ ∀ t, s.type? = some t → t < types.nextTypeId := by
  rw [line?]
  cases s.type? with
  | none => simp
  | some t => simp [TypeTable.isSome_name?]

theorem Method.isSome_lines? {m : Method} :
    (m.lines? types).isSome = true ↔ m.body.TypedIn types := by
  have hlines : (m.lines? types).isSome = (m.body.mapM (Statement.line? types)).isSome := by
    rw [lines?]
    cases m.body.mapM (Statement.line? types) <;> rfl
  rw [hlines, isSome_mapM_iff]
  exact forall₂_congr fun s _ => s.isSome_line?

theorem ClassDef.isSome_lines? {c : ClassDef} :
    (c.lines? types).isSome = true ↔ ∀ m ∈ c.methods, m.body.TypedIn types := by
  have hlines : (c.lines? types).isSome = (c.methods.mapM (Method.lines? types)).isSome := by
    rw [lines?]
    cases c.methods.mapM (Method.lines? types) <;> rfl
  rw [hlines, isSome_mapM_iff]
  exact forall₂_congr fun m _ => m.isSome_lines?

/-- **A program has a listing exactly if its types are listed.** -/
theorem Program.isSome_lines? {p : Program} : p.lines?.isSome = true ↔ p.TypesListed := by
  have hlines : p.lines?.isSome = true ↔ (p.main.lines? p.types).isSome = true ∧
      (p.classes.mapM (ClassDef.lines? p.types)).isSome = true := by
    rw [lines?]
    cases p.main.lines? p.types <;> cases p.classes.mapM (ClassDef.lines? p.types) <;> simp
  rw [hlines, isSome_mapM_iff, Method.isSome_lines?, TypesListed, methods, forall_mem_cons]
  refine and_congr_right fun _ => ?_
  simp only [ClassDef.isSome_lines?, forall_mem_flatMap]

/-! ## Allocation -/

namespace Body

variable {body body' body'' : Body}

def TypesFrom (body body' : Body) : Prop :=
  ∀ s' ∈ body', ∀ t, s'.type? = some t → ∃ s ∈ body, s.type? = some t

theorem TypesFrom.refl (body : Body) : body.TypesFrom body := fun s hs _ ht => ⟨s, hs, ht⟩

theorem TypesFrom.trans (h : body.TypesFrom body') (h' : body'.TypesFrom body'') :
    body.TypesFrom body'' := by
  intro s'' hs'' t ht
  obtain ⟨s', hs', ht'⟩ := h' s'' hs'' t ht
  exact h s' hs' t ht'

theorem TypesFrom.typedIn (h : body.TypesFrom body') (hb : body.TypedIn types) :
    body'.TypedIn types := by
  intro s' hs' t ht
  obtain ⟨s, hs, ht'⟩ := h s' hs' t ht
  exact hb s hs t ht'

theorem TypesFrom.append {code code' : Body} (h : body.TypesFrom code) (h' : body.TypesFrom code') :
    body.TypesFrom (code ++ code') :=
  fun s hs => (mem_append.1 hs).elim (h s) (h' s)

theorem typesFrom_map {f : Statement → Statement} (hf : ∀ s : Statement, (f s).type? = s.type?)
    (body : Body) : body.TypesFrom (body.map f) := by
  intro s' hs' t ht
  obtain ⟨s, hs, rfl⟩ := mem_map.1 hs'
  exact ⟨s, hs, (hf s).symm.trans ht⟩

theorem typesFrom_prepare (body : Body) : body.TypesFrom body.prepare := by
  refine typesFrom_map (fun s => ?_) body
  obtain ⟨_, _, heq⟩ := s.pin_eq
  dsimp only
  split <;> rw [heq]

theorem typesFrom_clearRegisters (body : Body) : body.TypesFrom body.clearRegisters :=
  typesFrom_map (fun s => by split <;> rfl) body

theorem typesFrom_assignRegisters (body : Body) (vs : Variables) (colors : List (Option Nat)) :
    body.TypesFrom (body.assignRegisters vs colors) := by
  intro s' hs' t ht
  obtain ⟨⟨s, i⟩, hs, rfl⟩ := mem_map.1 hs'
  refine ⟨s, (mem_zipIdx' hs).2 ▸ getElem_mem _, ?_⟩
  rw [← ht]
  dsimp only
  split <;> rfl

end Body

end Ssa

namespace Spill

variable {body : Body} {vs : Variables} {live : Liveness} {slots : Slots}

theorem exists_of_typeOf? {v : Nat} (h : typeOf? body vs v = some t) :
    ∃ s ∈ body, s.type? = some t := by
  obtain ⟨var, _, h⟩ := Option.bind_eq_some_iff.1 h
  obtain ⟨i, _, h⟩ := exists_of_findSome?_eq_some h
  obtain ⟨s, hs, h⟩ := Option.bind_eq_some_iff.1 h
  exact ⟨s, mem_of_getElem? hs, h⟩

variable (vs slots) in
theorem typesFrom_reload (h : body.TypesFrom (r.loads ++ [r.stmt])) (o : StmtId) :
    body.TypesFrom ((reload body vs slots r o).loads ++ [(reload body vs slots r o).stmt]) := by
  have hstmt : ∀ load, body.TypesFrom [r.stmt.replaceUse o load] := by
    intro load s hs t ht
    rw [mem_singleton.1 hs] at ht
    exact h r.stmt (by simp) t ht
  have hloads : body.TypesFrom r.loads := fun s hs => h s (mem_append_left _ hs)
  rw [reload]
  split
  · exact h
  · split
    · exact h
    · split
      · exact hloads.append (hstmt _)
      · refine (hloads.append fun s hs t ht => ?_).append (hstmt _)
        rw [mem_singleton.1 hs] at ht
        exact exists_of_typeOf? ht

variable (vs slots) in
theorem typesFrom_reloads (h : body.TypesFrom (r.loads ++ [r.stmt])) (os : List StmtId) :
    body.TypesFrom ((os.foldl (reload body vs slots) r).loads ++
      [(os.foldl (reload body vs slots) r).stmt]) := by
  induction os generalizing r with
  | nil => exact h
  | cons o os ih => exact ih (typesFrom_reload vs slots h o)

theorem typesFrom_spillStmt (hs : s ∈ body) (i : Nat) (n : StmtId) :
    body.TypesFrom (spillStmt body vs live slots i n s).1 := by
  have hstart : body.TypesFrom [s] := fun t ht => by
    rw [mem_singleton.1 ht]
    exact fun type htype => ⟨s, hs, htype⟩
  have hcode := typesFrom_reloads vs slots (r := ⟨s, [], [], n⟩) hstart s.uses
  rw [spillStmt]
  split
  · exact hcode
  · dsimp only
    rw [append_cons]
    refine hcode.append fun t ht type htype => ?_
    rw [mem_singleton.1 ht] at htype
    exact ⟨s, hs, htype⟩

theorem typesFrom_spillFrom {rest : Body} (h : ∀ s ∈ rest, s ∈ body) (i : Nat) (n : StmtId) :
    body.TypesFrom (spillFrom body vs live slots i n rest).1 := by
  induction rest generalizing i n with
  | nil => exact fun s hs => nomatch hs
  | cons s rest ih =>
    rw [spillFrom]
    exact (typesFrom_spillStmt (h s mem_cons_self) i n).append
      (ih (fun t ht => h t (mem_cons_of_mem _ ht)) _ _)

end Spill

theorem typesFrom_of_allocationRound {method : String} {k : Nat} {body code : Body} {next : StmtId}
    (h : allocationRound method k body next = .colored code ∨
      ∃ next', allocationRound method k body next = .spilled code next') : body.TypesFrom code := by
  rw [allocationRound] at h
  split at h
  · rcases h with h | ⟨_, h⟩ <;> cases h
  · dsimp only at h
    split at h
    · rcases h with h | ⟨_, h⟩ <;> cases h
      exact body.typesFrom_assignRegisters _ _
    · split at h
      · rcases h with h | ⟨_, h⟩ <;> cases h
      · rcases h with h | ⟨_, h⟩ <;> cases h
        exact Spill.typesFrom_spillFrom (fun _ hs => hs) _ _

theorem typesFrom_allocationRounds (method : String) (k n done : Nat) (body : Body) (next : StmtId) :
    body.TypesFrom (allocationRounds method k n done body next).body := by
  induction n generalizing done body next with
  | zero => exact .refl body
  | succ n ih =>
    have hclear := body.typesFrom_clearRegisters
    rw [allocationRounds]
    split
    · next hround => exact hclear.trans (typesFrom_of_allocationRound (.inl hround))
    · exact hclear
    · next hround =>
      exact (hclear.trans (typesFrom_of_allocationRound (.inr ⟨_, hround⟩))).trans (ih _ _ _)

namespace Ssa.Program

variable {ast : Ast.Program} {p q : Program}

theorem typesFrom_allocateNext (k : Nat) (state : StmtId × List MethodStats) (m : Method) :
    m.body.TypesFrom (allocateNext k state m).1.body := by
  change m.body.TypesFrom (allocateMethod m k state.1).body
  rw [allocateMethod, allocateBody]
  split
  · exact .refl _
  · exact m.body.typesFrom_prepare.trans (typesFrom_allocationRounds _ _ _ _ _ _)

theorem types_sweep {σ ε : Type} (f : σ → Method → Method × Except ε σ) (s : σ) (p : Program) :
    (p.sweep f s).1.types = p.types := by
  rw [Program.sweep]
  split <;> rfl

/-- **Allocation keeps types listed,** whether it succeeds or not. -/
theorem TypesListed.allocate (h : p.TypesListed) (k : Nat) : (p.allocate k).1.TypesListed := by
  have hsweep : (p.sweep (allocateNext k) (p.nextId, [])).1.TypesListed := by
    intro m' hm'
    have hfrom := (matches_sweep (R := fun m m' => m.body.TypesFrom m'.body)
      (fun m => .refl m.body) (typesFrom_allocateNext k) (p.nextId, []) p).methods
    obtain ⟨m, hm, hfrom⟩ := exists_left_of_forall₂ hfrom hm'
    rw [types_sweep]
    exact hfrom.typedIn (h m hm)
  rw [Program.allocate]
  split <;> next heq => rw [heq] at hsweep; exact hsweep

/-! ## Lowering and checking -/

def HasClassType (p : Program) : Prop :=
  ∃ m ∈ p.methods, ∃ s ∈ m.body, ∃ t, s.type? = some t ∧ TypeTable.builtin.nextTypeId ≤ t

theorem typesListed_iff_of_builtin (h : p.types = .builtin) : p.TypesListed ↔ ¬ p.HasClassType := by
  simp only [TypesListed, Body.TypedIn, HasClassType, h, not_exists, not_and, Nat.not_le]

theorem typesListed_of_lowered (h : Lowered ast p) : p.TypesListed := by
  intro m hm s hs t ht
  obtain ⟨_, _, _, hnone⟩ := h.plain m hm s hs
  rw [hnone] at ht
  cases ht

theorem types_of_check_error {e : CheckError} (h : p.check = (q, .error e)) : q.types = p.types := by
  rw [check] at h
  split at h
  · cases h
    rfl
  · next cx _ =>
    have htypes := types_sweep (fun _ => cx.checkMethod) () { p with classes := cx.classes }
    split at h
    · cases h
    · next heq =>
      cases h
      rw [heq] at htypes
      exact htypes

theorem typesListed_of_check (h : Lowered ast p) (hq : p.check = (q, .ok ())) : q.TypesListed := by
  obtain ⟨cx, hcx⟩ := checked_of_check hq
  have hdescribes : cx.Describes q := by
    refine ⟨hcx.types, (hcx.code.imp fun m m' hm => ?_).classes⟩
    obtain ⟨_, _, _, rfl⟩ := TypeContext.checkMethod_eq_ok.1 hm
    rfl
  intro m hm s hs t ht
  obtain ⟨t', ht', hget⟩ := (hcx.provided h hdescribes m hm s hs).typed
  cases ht.symm.trans ht'
  rwa [TypeTable.get?, isSome_getElem?] at hget

end Ssa.Program

/-! ## Snapshots -/

namespace CompilerRun

theorem program?_ofChecked (p : Program) (options : Options) :
    (ofChecked p options).program? = some p ∨
      ∃ k, (ofChecked p options).program? = some (p.allocate k).1 := by
  rw [ofChecked]
  split
  · refine Or.inr ⟨machineRegisters, ?_⟩
    split <;> next heq => rw [heq]
  · split
    · refine Or.inr ⟨options.registers, ?_⟩
      split <;> next heq => rw [heq]
    · exact Or.inl rfl

end CompilerRun

theorem exists_snapshot_iff {source : String} {options : Options} :
    (∃ snap, snapshot? source options = some snap) ↔
      ∀ p, (CompilerRun.ofSource source options).program? = some p → p.TypesListed := by
  rw [← Option.isSome_iff_exists, snapshot?]
  cases (CompilerRun.ofSource source options).program? with
  | none => simp
  | some p => simp [Program.isSome_lines?]

/-- **There is a snapshot except after a check that fails past a statement of a class type.** A source
text has a snapshot exactly if the types in the program that it lists are in the table of that program,
and the only run that leaves another type is one whose check fails after a statement got a class for
its type. -/
theorem snapshot_exists_iff (source : String) (options : Options) :
    ((∃ snap, snapshot? source options = some snap) ↔
      ∀ p, (CompilerRun.ofSource source options).program? = some p → p.TypesListed) ∧
    ((∃ snap, snapshot? source options = some snap) ↔
      ¬ ((options.typeCheck || options.allocate || options.emitAsm) = true ∧
        ∃ p q e, compileToSsa source = .ok p ∧ p.check = (q, .error e) ∧ q.HasClassType)) := by
  refine ⟨exists_snapshot_iff, exists_snapshot_iff.trans ?_⟩
  rw [CompilerRun.ofSource]
  cases hp : compileToSsa source with
  | error e => simp
  | ok p =>
    obtain ⟨ast, _, hast⟩ := except_bind_eq_ok.1 hp
    have hlowered := lowered_of_ofAst (mapError_eq_ok.1 hast)
    by_cases hcheck : (options.typeCheck || options.allocate || options.emitAsm) = true
    · simp only [hcheck, if_true, true_and, Except.ok.injEq]
      cases hq : p.check with
      | mk q result =>
        cases result with
        | error e =>
          have htypes := (Program.types_of_check_error hq).trans hlowered.types
          simp [Program.typesListed_iff_of_builtin htypes, hq]
        | ok u =>
          have hlisted := Program.typesListed_of_check hlowered hq
          simp only [↓existsAndEq, hq, Prod.mk.injEq, reduceCtorEq, and_false, false_and,
            exists_false, not_false_iff, iff_true]
          rcases CompilerRun.program?_ofChecked q options with hrun | ⟨k, hrun⟩ <;> rw [hrun]
          · simpa using hlisted
          · simpa using hlisted.allocate k
    · simp only [hcheck, Bool.false_eq_true, if_false, false_and, not_false_iff, iff_true]
      simpa using Program.typesListed_of_lowered hlowered

/-- **A program without a snapshot.** The object of class `A` has its type already when the check finds
that a truth value is printed. -/
theorem snapshot_missing : snapshot? ("class M \x7b public static void main(String[] a) \x7b new A(); " ++
    "System.out.println(true); \x7d \x7d class A \x7b \x7d") {} = none := by
  decide +kernel

end MiniJava
