import MiniJava.Proofs.Assembly.Emission
import MiniJava.Proofs.Assembly.WordMachine
import MiniJava.Proofs.Semantics.Simulation

/-!
# What the code of a statement does

Apart from jumps and calls, a statement puts a word into its register or into one place in memory, and
its code does this whatever registers the operands are in. Code of several instructions builds the word
up in the register itself or in the scratch register, so the order of reading and writing matters where
registers coincide.
-/

namespace MiniJava

open Ssa Statement Option

/-! ## Effects -/

inductive WordEffect where
  | nothing
  /-- A word goes to the register of the statement. -/
  | value (w : Int32)
  /-- The word at an address goes to the register of the statement. -/
  | load (address : Int32)
  | store (address w : Int32)

namespace WordEffect

def isResult : WordEffect → Bool
  | value _ | load _ => true
  | nothing | store .. => false

/-- The word that an effect puts somewhere, if it is known before memory is read. -/
def word? : WordEffect → Option Int32
  | value w | store _ w => some w
  | nothing | load _ => none

/-- Has an effect, with a register for a result. It fails without a word in memory at the address. -/
def enact? (m : MachineState) (d : Register) : WordEffect → Option MachineState
  | nothing => some m
  | value w => some (m.write d w)
  | load address => (m.memory address).map (m.write d)
  | store address w => m.store? address w

end WordEffect

/-- The result of an operation on words of the kinds that it is meant for. -/
def BinOp.onWords : BinOp → Int32 → Int32 → Int32
  | .add, a, b => a + b
  | .sub, a, b => a - b
  | .mul, a, b => a * b
  | .div, a, b => a / b
  | .mod, a, b => a % b
  | .lt, a, b => truthWord (a < b)
  | .le, a, b => truthWord (a ≤ b)
  | .gt, a, b => truthWord (a > b)
  | .ge, a, b => truthWord (a ≥ b)
  | .eq, a, b => truthWord (a = b)
  | .ne, a, b => truthWord (a ≠ b)
  | .and, a, b => truthWord (a = 1 && b = 1)
  | .or, a, b => truthWord (a = 1 || b = 1)

def elementAt (base index : Int32) : Int32 := base + 4 + 4 * index

namespace EmitContext

def register? (cx : EmitContext) (id? : Option StmtId) : Option Register := do
  (← cx.find? (← id?)).result?

def operand? (cx : EmitContext) (m : MachineState) (id? : Option StmtId) : Option Int32 :=
  (cx.register? id?).map m.read

def kind? (cx : EmitContext) (id? : Option StmtId) : Option ValueKind := do
  return (← cx.program.types.get? (← cx.operandType? id?)).kind

def fieldOffset? (cx : EmitContext) (id? : Option StmtId) (field : String) : Option Int32 := do
  let type ← cx.program.types.get? (← cx.operandType? id?)
  return .ofNat (← cx.program.fieldOffset? type.name field)

def effect? (cx : EmitContext) (m : MachineState) (s : Statement) : Option WordEffect :=
  match s.op, s.payload with
  | .unify, _ | .aliasOf, _ => some .nothing
  | .this, _ => some (.value (m.read .this))
  | .parameter, .position n => some <|
    match Register.arguments[n]? with
    | some r => .value (m.read r)
    | none => .load (m.read .fp + Frame.paramOffset n)
  | .arg, .position n => do
    let w ← cx.operand? m s.left?
    return if n < 4 then .value w else .store (m.read .sp + Frame.argOffset n) w
  | .null, _ => some (.value 0)
  | .int, .int n => some (.value n)
  | .boolean, .bool b => some (.value (truthWord b))
  | .member, .name field => do
    let base ← cx.operand? m s.left?
    -- The length of an array stands where objects have their header.
    if cx.operandType? s.left? = some .intArray then return .load base
    else return .load (base + (← cx.fieldOffset? s.left? field))
  | .index, _ => do
    return .load (elementAt (← cx.operand? m s.left?) (← cx.operand? m s.right?))
  | .store, .slot n => do return .store (m.read .fp + Frame.spillOffset n) (← cx.operand? m s.left?)
  | .load, .slot n => some (.load (m.read .fp + Frame.spillOffset n))
  | .assignVar, _ => do return .value (← cx.operand? m s.left?)
  | .assignMember, .name field => do
    return .store ((← cx.operand? m s.left?) + (← cx.fieldOffset? s.left? field))
      (← cx.operand? m s.right?)
  | .assignIndex, .index i => do
    return .store (elementAt (← cx.operand? m s.left?) (← cx.operand? m (some i)))
      (← cx.operand? m s.right?)
  | .not, _ => do return .value (truthWord ((← cx.operand? m s.left?) = 0))
  | .binary op, _ =>
    -- Operands of different kinds differ, whatever their words.
    if (op = .eq ∨ op = .ne) ∧ cx.kind? s.left? ≠ cx.kind? s.right? then
      some (.value (truthWord (op = .ne)))
    else do return .value (op.onWords (← cx.operand? m s.left?) (← cx.operand? m s.right?))
  | _, _ => none

end EmitContext

def Ssa.Op.isStraight : Op → Bool
  | label | jump | branchIf | branchUnless | ret | call | newObject | newIntArray | print => false
  | _ => true

namespace EmitContext

/-! ## Registers of operands -/

variable {cx : EmitContext} {m : MachineState} {s : Statement} {d r : Register} {o : StmtId}

theorem require_eq_ok {α : Type} {fault : EmitFault} {x : Option α} {a : α} :
    s.require fault x = .ok a ↔ x = some a := by
  cases x <;> simp [Statement.require, Statement.fault]

theorem dest_eq_ok : dest s = .ok d ↔ s.result? = some d := require_eq_ok

theorem registerOf_eq_ok : cx.registerOf o = .ok r ↔ cx.register? (some o) = some r := by
  rw [registerOf, register?, bind_eq_bind, bind_some]
  cases cx.find? o with
  | none => simp
  | some t => exact require_eq_ok

theorem left_eq_ok : cx.left s = .ok r ↔ cx.register? s.left? = some r := by
  cases hl : s.left? with
  | none => simp [left, hl, Statement.require, Statement.fault, bind, Except.bind, register?]
  | some o => rw [left, hl]; exact registerOf_eq_ok

theorem right_eq_ok : cx.right s = .ok r ↔ cx.register? s.right? = some r := by
  cases hr : s.right? with
  | none => simp [right, hr, Statement.require, Statement.fault, bind, Except.bind, register?]
  | some o => rw [right, hr]; exact registerOf_eq_ok

theorem of_result? (h : s.result? = some d) : d ≠ .zero ∧ d ≠ .scratch := by
  obtain ⟨c, _, hc⟩ := bind_eq_some_iff.1 h
  have hmem : ∀ r ∈ Register.allocatable, r ≠ .zero ∧ r ≠ .scratch := by decide
  exact hmem d (List.mem_of_getElem? hc)

theorem of_register? {id? : Option StmtId} (h : cx.register? id? = some r) :
    r ≠ .zero ∧ r ≠ .scratch := by
  obtain ⟨o, _, h⟩ := bind_eq_some_iff.1 h
  obtain ⟨t, _, h⟩ := bind_eq_some_iff.1 h
  exact of_result? h

/-! ## Code -/

open MachineState

/-- The code has the effect that the statement stands for, up to what code may use freely. It traps
exactly if there is no word in memory where the effect needs one. -/
def Realizes (cx : EmitContext) (m : MachineState) (s : Statement) (code : List AsmItem) : Prop :=
  ∃ effect d, cx.effect? m s = some effect ∧ (effect.isResult = true → s.result? = some d) ∧
    Option.Rel Alike (effect.enact? m d) (run? code m)

/-- Words that an operation is meant for: divisors other than zero, and truth values. -/
def Suits (cx : EmitContext) (m : MachineState) (s : Statement) : Prop :=
  match s.op with
  | .binary .div | .binary .mod => cx.operand? m s.right? ≠ some 0
  | .binary .and | .binary .or | .not =>
    ∀ id? ∈ [s.left?, s.right?], ∀ w ∈ cx.operand? m id?, w = 0 ∨ w = 1
  | _ => True

theorem Realizes.of_value {code : List AsmItem} {w : Int32} {m' : MachineState}
    (hd : s.result? = some d) (heffect : cx.effect? m s = some (.value w))
    (hrun : run? code m = some m') (halike : Alike (m.write d w) m') : cx.Realizes m s code := by
  refine ⟨_, d, heffect, fun _ => hd, ?_⟩
  rw [WordEffect.enact?, hrun]
  exact .some halike

theorem Realizes.of_load {code : List AsmItem} {address : Int32} {m' : MachineState}
    (hd : s.result? = some d) (heffect : cx.effect? m s = some (.load address))
    (hrun : run? code m = (m'.memory address).map (m'.write d)) (halike : Alike m m') :
    cx.Realizes m s code := by
  refine ⟨_, d, heffect, fun _ => hd, ?_⟩
  rw [WordEffect.enact?, hrun]
  exact halike.load? (of_result? hd).1 address

theorem Realizes.of_store {code : List AsmItem} {address w : Int32} {m' : MachineState}
    (heffect : cx.effect? m s = some (.store address w)) (hrun : run? code m = m'.store? address w)
    (halike : Alike m m') : cx.Realizes m s code := by
  refine ⟨_, .zero, heffect, nofun, ?_⟩
  rw [WordEffect.enact?, hrun]
  exact halike.store? address w

theorem operand?_eq {id? : Option StmtId} (h : cx.register? id? = some r) :
    cx.operand? m id? = some (m.read r) := by
  rw [operand?, h, map_some]

section Binary

variable {code : List AsmItem} {op : BinOp} {alu : AluOp}

section

variable (hop : s.op = .binary op)
include hop

theorem effect?_binary {a b : Register}
    (hkind : op = .eq ∨ op = .ne → cx.kind? s.left? = cx.kind? s.right?)
    (ha : cx.register? s.left? = some a) (hb : cx.register? s.right? = some b) :
    cx.effect? m s = some (.value (op.onWords (m.read a) (m.read b))) := by
  simp only [effect?, hop, operand?_eq ha, operand?_eq hb]
  rw [if_neg fun h => h.2 (hkind h.1)]
  rfl

theorem realizes_alu (hkind : op ≠ .eq ∧ op ≠ .ne) (h : cx.alu s alu = .ok code)
    (halu : ∀ a b, op.onWords a b = alu.apply a b) :
    cx.Realizes m s code := by
  simp only [EmitContext.alu, except_bind_eq_ok, dest_eq_ok, left_eq_ok, right_eq_ok] at h
  obtain ⟨d, hd, a, ha, b, hb, ⟨⟩⟩ := h
  refine .of_value hd (effect?_binary hop (fun h => ?_) ha hb) rfl ?_
  · exact absurd h (not_or.2 hkind)
  · rw [halu]
    exact .refl _

theorem realizes_logic {imm : Int32} (hkind : op ≠ .eq ∧ op ≠ .ne)
    (h : cx.logic s alu imm = .ok code)
    (hsuits : ∀ id? ∈ [s.left?, s.right?], ∀ w ∈ cx.operand? m id?, w = 0 ∨ w = 1)
    (halu : ∀ a b, (a = 0 ∨ a = 1) → (b = 0 ∨ b = 1) → op.onWords a b = alu.apply (a + b) imm) :
    cx.Realizes m s code := by
  simp only [logic, except_bind_eq_ok, dest_eq_ok, left_eq_ok, right_eq_ok] at h
  obtain ⟨d, hd, a, ha, b, hb, ⟨⟩⟩ := h
  refine .of_value hd (effect?_binary hop (fun h => ?_) ha hb) rfl ?_
  · exact absurd h (not_or.2 hkind)
  · rw [halu _ _ (hsuits _ (by simp) _ (operand?_eq ha)) (hsuits _ (by simp) _ (operand?_eq hb)),
      read_write_self (of_result? hd).1, write_write]
    exact .refl _

theorem realizes_divide {take : Register → Instr} {result : MachineState → Int32}
    (hkind : op ≠ .eq ∧ op ≠ .ne) (h : cx.divide s take = .ok code)
    (hsuits : cx.operand? m s.right? ≠ some 0)
    (htake : ∀ m d, (take d).exec? m = some (m.write d (result m)))
    (hresult : ∀ a b, op.onWords a b = result { m with lo := a / b, hi := a % b }) :
    cx.Realizes m s code := by
  simp only [divide, except_bind_eq_ok, dest_eq_ok, left_eq_ok, right_eq_ok] at h
  obtain ⟨d, hd, a, ha, b, hb, ⟨⟩⟩ := h
  have hzero : m.read b ≠ 0 := fun hzero => hsuits (by rw [operand?_eq hb, hzero])
  have hrun : run? [plain (.div a b), plain (take d)] m =
      some (({ m with lo := m.read a / m.read b, hi := m.read a % m.read b } : MachineState).write d
        (op.onWords (m.read a) (m.read b))) := by
    have hdiv : (Instr.div a b).exec? m =
        some { m with lo := m.read a / m.read b, hi := m.read a % m.read b } := if_neg hzero
    rw [run?_plain, hdiv, bind_some, run?_plain, htake, bind_some, run?_nil, hresult]
  refine .of_value hd (effect?_binary hop (fun h => ?_) ha hb) hrun ?_
  · exact absurd h (not_or.2 hkind)
  · have hdivided : Alike m { m with lo := m.read a / m.read b, hi := m.read a % m.read b } :=
      ⟨fun _ _ => rfl, rfl, rfl⟩
    exact hdivided.write (of_result? hd).1 _

theorem realizes_equality {different : Int32} {k k' : ValueKind} (hkind : op = .eq ∨ op = .ne)
    (hk : cx.kind? s.left? = some k) (hk' : cx.kind? s.right? = some k')
    (h : cx.equality s alu different = .ok code) (hsame : ∀ a b, op.onWords a b = alu.apply a b)
    (hdifferent : truthWord (op = .ne) = different) : cx.Realizes m s code := by
  obtain ⟨l, hl, e, he, rfl⟩ : ∃ l, cx.operandType? s.left? = some l ∧
      ∃ e, cx.program.types.get? l = some e ∧ e.kind = k := by
    simpa [kind?, bind_eq_some_iff] using hk
  obtain ⟨r, hr, e', he', rfl⟩ : ∃ r, cx.operandType? s.right? = some r ∧
      ∃ e, cx.program.types.get? r = some e ∧ e.kind = k' := by
    simpa [kind?, bind_eq_some_iff] using hk'
  have hkinds : cx.sameKind s = .ok (e.kind = e'.kind) := by
    simp only [sameKind, hl, hr, typeAt, he, he', except_ok_bind]
    rfl
  obtain ⟨d, hd, h⟩ := except_bind_eq_ok.1 h
  rw [dest_eq_ok] at hd
  rw [hkinds, except_ok_bind] at h
  by_cases heq : e.kind = e'.kind
  · simp only [heq, decide_true, if_true, except_bind_eq_ok, left_eq_ok, right_eq_ok] at h
    obtain ⟨a, ha, b, hb, ⟨⟩⟩ := h
    refine .of_value hd (effect?_binary hop (fun _ => by rw [hk, hk', heq]) ha hb) rfl ?_
    rw [hsame]
    exact .refl _
  · rw [if_neg (by simpa using heq)] at h
    cases h
    refine .of_value hd (w := truthWord (op = .ne)) ?_ rfl (hdifferent ▸ .refl _)
    simp only [effect?, hop, hk, hk']
    rw [if_pos ⟨hkind, fun h => heq (some.inj h)⟩]

/-- **The code of an operation.** -/
theorem realizes_binary {k k' : ValueKind} (hk : cx.kind? s.left? = some k)
    (hk' : cx.kind? s.right? = some k') (hsuits : cx.Suits m s) (h : cx.binary s op = .ok code) :
    cx.Realizes m s code := by
  rw [Suits, hop] at hsuits
  cases op with
  | add | sub | mul | lt | le | gt | ge => exact realizes_alu hop (by simp) h fun _ _ => rfl
  | div => exact realizes_divide hop (by simp) h hsuits (fun _ _ => rfl) fun _ _ => rfl
  | mod => exact realizes_divide hop (by simp) h hsuits (fun _ _ => rfl) fun _ _ => rfl
  | eq => exact realizes_equality hop (Or.inl rfl) hk hk' h (fun _ _ => rfl) rfl
  | ne => exact realizes_equality hop (Or.inr rfl) hk hk' h (fun _ _ => rfl) rfl
  | and =>
    refine realizes_logic hop (by simp) h hsuits ?_
    rintro a b (rfl | rfl) (rfl | rfl) <;> rfl
  | or =>
    refine realizes_logic hop (by simp) h hsuits ?_
    rintro a b (rfl | rfl) (rfl | rfl) <;> rfl

end

end Binary

section Statements

variable {code : List AsmItem} {a b : Register}

theorem run?_moveTo (d a : Register) :
    ∃ m', run? (moveTo d a) m = some m' ∧ (d ≠ .zero → Alike (m.write d (m.read a)) m') := by
  rw [moveTo]
  split
  · next heq =>
    refine ⟨m, rfl, fun hd => ⟨fun r _ => ?_, rfl, rfl⟩⟩
    by_cases hr : r = d
    · rw [hr, read_write_self hd, heq]
    · rw [read_write_of_ne hr]
  · exact ⟨_, rfl, fun _ => .refl _⟩

theorem realizes_moveTo (hd : s.result? = some d)
    (heffect : cx.effect? m s = some (.value (m.read a))) : cx.Realizes m s (moveTo d a) := by
  obtain ⟨m', hrun, halike⟩ := run?_moveTo d a
  exact .of_value hd heffect hrun (halike (of_result? hd).1)

theorem run?_elementAddress (ha : a ≠ .scratch) :
    ∃ m', (∀ code, run? (elementAddress a b ++ code) m = run? code m') ∧ Alike m m' ∧
      m'.read .scratch = elementAt (m.read a) (m.read b) := by
  have hscratch : Register.scratch ≠ .zero := by decide
  refine ⟨_, fun code => rfl, ((Alike.refl m).scratch _ |>.scratch _).scratch _, ?_⟩
  rw [read_write_self hscratch, read_write_self hscratch, read_write_self hscratch,
    read_write_of_ne ha, read_write_of_ne ha]
  change m.read b * 4 + 4 + m.read a = m.read a + 4 + 4 * m.read b
  rw [Int32.add_comm, Int32.add_comm (m.read b * 4), Int32.mul_comm, Int32.add_assoc]

structure Regular (cx : EmitContext) (s : Statement) : Prop where
  shaped : s.isShaped = true
  straight : s.op.isStraight = true
  argument : ∀ n, s.op = .arg → s.payload = .position n → s.result? = Register.arguments[n]?
  kinds : ∀ op, s.op = .binary op →
    ∃ k k', cx.kind? s.left? = some k ∧ cx.kind? s.right? = some k'

theorem fieldOffset?_of_ok {field : String} {offset : Int32} (h : cx.fieldOffset s field = .ok offset) :
    cx.fieldOffset? s.left? field = some offset := by
  obtain ⟨owner, howner, h⟩ := except_bind_eq_ok.1 h
  obtain ⟨place, hplace, h⟩ := except_bind_eq_ok.1 h
  cases h
  rw [require_eq_ok] at hplace
  obtain ⟨type, htype, howner⟩ := except_bind_eq_ok.1 howner
  rw [require_eq_ok] at htype
  obtain ⟨e, he, howner⟩ := except_bind_eq_ok.1 howner
  dsimp only at howner
  split at howner
  · cases howner
    have he : cx.program.types.get? type = some e := by
      rw [typeAt] at he
      split at he
      · next heq => rw [heq, Except.ok.inj he]
      · cases he
    simp [fieldOffset?, htype, he, hplace]
  · cases howner

theorem realizes_member {field : String} (hop : s.op = .member) (hname : s.payload = .name field)
    (h : cx.member s = .ok code) : cx.Realizes m s code := by
  simp only [member, except_bind_eq_ok, dest_eq_ok, left_eq_ok, require_eq_ok, name?, hname,
    some.injEq, exists_eq_left'] at h
  obtain ⟨d, hd, a, ha, h⟩ := h
  split at h
  · next harray =>
    split at h
    · cases h
      have heffect : cx.effect? m s = some (.load (m.read a)) := by
        simp only [effect?, hop, hname, operand?_eq ha, harray]
        rfl
      refine .of_load hd heffect ((run?_single ..).trans ?_) (.refl m)
      rw [Instr.exec?, Int32.add_zero]
    · cases h
  · next harray =>
    obtain ⟨offset, hoffset, h⟩ := except_bind_eq_ok.1 h
    cases h
    refine .of_load hd ?_ (run?_single ..) (.refl m)
    simp only [effect?, hop, hname, operand?_eq ha, if_neg harray, fieldOffset?_of_ok hoffset]
    rfl

/-- **The code of a statement has the effect of the statement.** -/
theorem Regular.realizes (hs : cx.Regular s) (hsuits : cx.Suits m s) (h : cx.stmt s = .ok code) :
    cx.Realizes m s code := by
  have hshape := shape_of_isShaped hs.shaped
  have hstraight := hs.straight
  generalize hop : s.op = op at hshape hstraight
  generalize hleft : s.left? = left? at hshape
  generalize hright : s.right? = right? at hshape
  generalize hpayload : s.payload = payload at hshape
  rw [stmt, hop] at h
  cases hshape with try
    simp only [except_bind_eq_ok, dest_eq_ok, left_eq_ok, right_eq_ok, registerOf_eq_ok, require_eq_ok,
      Statement.position?, slot?, name?, index?, hpayload, some.injEq, exists_eq_left'] at h
  | unify =>
    cases h
    refine ⟨.nothing, .zero, by rw [effect?, hop], fun hresult => ?_, .some (.refl m)⟩
    cases hresult
  | this =>
    obtain ⟨d, hd, ⟨⟩⟩ := h
    exact .of_value hd (by rw [effect?, hop]) rfl (.refl _)
  | null =>
    obtain ⟨d, hd, ⟨⟩⟩ := h
    refine .of_value hd (w := 0) ?_ rfl (.refl _)
    rw [effect?, hop]
  | int n =>
    obtain ⟨d, hd, ⟨⟩⟩ := h
    exact .of_value hd (by rw [effect?, hop, hpayload]) rfl (.refl _)
  | boolean b =>
    obtain ⟨d, hd, ⟨⟩⟩ := h
    refine .of_value hd (w := truthWord b) ?_ rfl (.refl _)
    rw [effect?, hop, hpayload]
  | parameter n =>
    obtain ⟨d, hd, h⟩ := h
    cases hr : Register.arguments[n]? with
    | some r =>
      rw [hr] at h
      cases h
      exact realizes_moveTo hd (by simp only [effect?, hop, hpayload, hr])
    | none =>
      rw [hr] at h
      cases h
      exact .of_load hd (by simp only [effect?, hop, hpayload, hr]) (run?_single ..) (.refl m)
  | arg o n =>
    obtain ⟨a, ha, h⟩ := h
    have hd := hs.argument n hop hpayload
    cases hr : Register.arguments[n]? with
    | some r =>
      rw [hr] at h hd
      cases h
      have hlt : n < 4 := lt_of_getElem? hr
      refine realizes_moveTo hd ?_
      simp only [effect?, hop, hpayload, operand?_eq ha, if_pos hlt]
      rfl
    | none =>
      rw [hr] at h
      cases h
      have hle : ¬ n < 4 := Nat.not_lt.2 (List.getElem?_eq_none_iff.1 hr)
      refine .of_store ?_ (run?_single ..) (.refl m)
      simp only [effect?, hop, hpayload, operand?_eq ha, if_neg hle]
      rfl
  | member o field => exact realizes_member hop hpayload h
  | index o o' =>
    obtain ⟨d, hd, a, ha, b, hb, ⟨⟩⟩ := h
    obtain ⟨m', hrun, halike, hscratch⟩ := run?_elementAddress (m := m) (b := b) (of_register? ha).2
    have heffect : cx.effect? m s = some (.load (elementAt (m.read a) (m.read b))) := by
      simp only [effect?, hop, operand?_eq ha, operand?_eq hb]
      rfl
    refine .of_load hd heffect (((hrun _).trans (run?_single ..)).trans ?_) halike
    rw [Instr.exec?, hscratch, Int32.add_zero]
  | store o slot =>
    obtain ⟨a, ha, ⟨⟩⟩ := h
    refine .of_store ?_ (run?_single ..) (.refl m)
    simp only [effect?, hop, hpayload, operand?_eq ha]
    rfl
  | load slot =>
    obtain ⟨d, hd, ⟨⟩⟩ := h
    exact .of_load hd (by rw [effect?, hop, hpayload]) (run?_single ..) (.refl m)
  | assignVar o o'? x =>
    obtain ⟨d, hd, a, ha, ⟨⟩⟩ := h
    refine realizes_moveTo hd ?_
    simp only [effect?, hop, operand?_eq ha]
    rfl
  | assignMember o o' field =>
    obtain ⟨a, ha, b, hb, offset, hoffset, ⟨⟩⟩ := h
    refine .of_store ?_ (run?_single ..) (.refl m)
    simp only [effect?, hop, hpayload, operand?_eq ha, operand?_eq hb, fieldOffset?_of_ok hoffset]
    rfl
  | assignIndex o o' i =>
    obtain ⟨a, ha, b, hb, c, hc, ⟨⟩⟩ := h
    obtain ⟨m', hrun, halike, hscratch⟩ := run?_elementAddress (m := m) (b := c) (of_register? ha).2
    have heffect : cx.effect? m s =
        some (.store (elementAt (m.read a) (m.read c)) (m.read b)) := by
      simp only [effect?, hop, hpayload, operand?_eq ha, operand?_eq hb, operand?_eq hc]
      rfl
    refine .of_store heffect (((hrun _).trans (run?_single ..)).trans ?_) halike
    rw [Instr.exec?, hscratch, Int32.add_zero, halike.read b (of_register? hb).2]
  | not o =>
    obtain ⟨d, hd, a, ha, ⟨⟩⟩ := h
    refine .of_value hd (w := truthWord (m.read a = 0)) ?_ rfl ?_
    · simp only [effect?, hop, operand?_eq ha]
      rfl
    · rw [AluOp.apply, read_zero]
      simp only [eq_comm]
      exact .refl _
  | binary op o o' =>
    obtain ⟨k, k', hk, hk'⟩ := hs.kinds op hop
    exact realizes_binary hop hk hk' hsuits h
  | label | jump | branchUnless | ret | call | newObject | newIntArray | print => cases hstraight

end Statements

end EmitContext

/-! ## Values -/

def Value.kind : Value → ValueKind
  | .int _ => .int
  | .bool _ => .boolean
  | .ref _ | .null => .reference

/-- The word that stands for a value where objects have the given addresses. -/
def Value.word (address : Nat → Int32) : Value → Int32
  | .int n => n
  | .bool b => truthWord b
  | .ref n => address n
  | .null => 0

def Ssa.Op.isComputed : Op → Bool
  | null | int | boolean | arg | assignVar | store | not | binary _ => true
  | _ => false

def Outcome.value? : Outcome → Option Value
  | value v | save _ v => some v
  | _ => none

structure Separates (address : Nat → Int32) (vs : List Value) : Prop where
  inj : ∀ m n, .ref m ∈ vs → .ref n ∈ vs → address m = address n → m = n
  ne_zero : ∀ n, .ref n ∈ vs → address n ≠ 0

section Values

variable {address : Nat → Int32} {a b v : Value} {w w' : World} {op : BinOp}

theorem truthWord_inj {p q : Bool} : truthWord p = truthWord q ↔ p = q := by
  cases p <;> cases q <;> decide

theorem truthWord_cases (p : Bool) : truthWord p = 0 ∨ truthWord p = 1 := by
  cases p <;> decide

theorem Value.word_inj (hab : Separates address [a, b]) (hkind : a.kind = b.kind) :
    a.word address = b.word address ↔ a = b := by
  refine ⟨fun h => ?_, fun h => by rw [h]⟩
  cases a with
  | int m =>
    cases b with
    | int n => exact congrArg Value.int h
    | _ => cases hkind
  | bool p =>
    cases b with
    | bool q => exact congrArg Value.bool (truthWord_inj.1 h)
    | _ => cases hkind
  | ref m =>
    cases b with
    | ref n => exact congrArg Value.ref (hab.inj m n (by simp) (by simp) h)
    | null => exact absurd h (hab.ne_zero m (by simp))
    | _ => cases hkind
  | null =>
    cases b with
    | ref n => exact absurd h.symm (hab.ne_zero n (by simp))
    | null => rfl
    | _ => cases hkind

theorem BinOp.onInts_eq_ok {f : Int32 → Int32 → Effect Value} (h : onInts f a b w = .ok v w') :
    ∃ m n, a = .int m ∧ b = .int n ∧ f m n w = .ok v w' := by
  cases a with
  | int m =>
    cases b with
    | int n => exact ⟨m, n, rfl, rfl, h⟩
    | _ => cases h
  | _ => cases h

theorem BinOp.division_eq_ok {f : Int32 → Int32 → Int32} (h : division f a b w = .ok v w') :
    ∃ m n, a = .int m ∧ b = .int n ∧ n ≠ 0 ∧ v = .int (f m n) := by
  obtain ⟨m, n, ha, hb, h⟩ := onInts_eq_ok h
  by_cases hn : n = 0
  · rw [if_pos hn] at h
    cases h
  · rw [if_neg hn] at h
    cases h
    exact ⟨m, n, ha, hb, hn, rfl⟩

theorem BinOp.onBools_eq_ok {f : Bool → Bool → Bool} (h : onBools f a b w = .ok v w') :
    ∃ p q, a = .bool p ∧ b = .bool q ∧ v = .bool (f p q) := by
  cases a with
  | bool p =>
    cases b with
    | bool q =>
      cases h
      exact ⟨p, q, rfl, rfl, rfl⟩
    | _ => cases h
  | _ => cases h

/-- **Operations on words are those on values.** -/
theorem BinOp.word_of_apply (hab : Separates address [a, b]) (h : op.apply a b w = .ok v w') :
    v.word address =
      if (op = .eq ∨ op = .ne) ∧ a.kind ≠ b.kind then truthWord (op = .ne)
      else op.onWords (a.word address) (b.word address) := by
  cases op with
  | add | sub | mul | lt | le | gt | ge =>
    obtain ⟨m, n, rfl, rfl, h⟩ := onInts_eq_ok h
    cases h
    rfl
  | div | mod =>
    obtain ⟨m, n, rfl, rfl, _, rfl⟩ := division_eq_ok h
    rfl
  | and | or =>
    obtain ⟨p, q, rfl, rfl, rfl⟩ := onBools_eq_ok h
    cases p <;> cases q <;> rfl
  | eq | ne =>
    cases h
    change truthWord _ = _
    by_cases hkind : a.kind = b.kind
    · simp [BinOp.onWords, hkind, Value.word_inj hab hkind]
    · have hne : a ≠ b := fun heq => hkind (congrArg Value.kind heq)
      simp [hkind, hne]

end Values

namespace EmitContext

structure Carries (cx : EmitContext) (m : MachineState) (address : Nat → Int32) (id : StmtId)
    (v : Value) : Prop where
  word : cx.operand? m (some id) = some (v.word address)
  kind : cx.kind? (some id) = some v.kind

theorem Carries.truth {cx : EmitContext} {m : MachineState} {address : Nat → Int32} {o : StmtId}
    {p : Bool} (h : cx.Carries m address o (.bool p)) : ∀ w ∈ cx.operand? m (some o), w = 0 ∨ w = 1 := by
  intro w hw
  obtain rfl := mem_unique h.word hw
  exact truthWord_cases p

section Perform

variable {cx : EmitContext} {m : MachineState} {s : Statement} {address : Nat → Int32} {o o' : StmtId}
  {a b v : Value} {w w' : World}

theorem effect?_of_negate (hop : s.op = .not) (hleft : s.left? = some o) (hright : s.right? = none)
    (ha : cx.Carries m address o a) (h : a.negate w = .ok v w') :
    cx.Suits m s ∧ cx.effect? m s = some (.value (v.word address)) := by
  obtain ⟨p, rfl, rfl⟩ : ∃ p, a = .bool p ∧ v = .bool (!p) := by
    cases a with
    | bool p =>
      cases h
      exact ⟨p, rfl, rfl⟩
    | _ => cases h
  constructor
  · rw [Suits, hop, hleft, hright]
    simpa [operand?, register?] using ha.truth
  · simp only [effect?, hop, hleft, ha.word]
    cases p <;> rfl

theorem effect?_of_apply {op : BinOp} (hab : Separates address [a, b]) (hop : s.op = .binary op)
    (hleft : s.left? = some o) (hright : s.right? = some o') (ha : cx.Carries m address o a)
    (hb : cx.Carries m address o' b) (h : op.apply a b w = .ok v w') :
    cx.Suits m s ∧ cx.effect? m s = some (.value (v.word address)) := by
  constructor
  · rw [Suits, hop, hleft, hright]
    cases op with
    | div | mod =>
      obtain ⟨_, n, _, rfl, hn, _⟩ := BinOp.division_eq_ok h
      exact fun hzero => hn (some.inj (hb.word.symm.trans hzero))
    | and | or =>
      obtain ⟨p, q, rfl, rfl, _⟩ := BinOp.onBools_eq_ok h
      simpa using And.intro ha.truth hb.truth
    | _ => trivial
  · simp only [effect?, hop, hleft, hright, ha.kind, hb.kind, ha.word, hb.word, ne_eq,
      some.injEq, BinOp.word_of_apply hab h]
    split <;> rfl

theorem Regular.effect?_of_perform (hs : cx.Regular s) (hcomputed : s.op.isComputed = true)
    {act : Activation} {vs : List Value} (hsep : Separates address vs)
    (hvs : List.Forall₂ (cx.Carries m address) s.reads vs) {out : Outcome} (h : perform act s.op s.payload vs w = .ok out w') (hv : out.value? = some v) :
    cx.Suits m s ∧ ∃ effect, cx.effect? m s = some effect ∧ effect.word? = some (v.word address) := by
  have hshape := shape_of_isShaped hs.shaped
  generalize hop : s.op = op at hshape hcomputed h
  generalize hleft : s.left? = left? at hshape
  generalize hright : s.right? = right? at hshape
  generalize hpayload : s.payload = payload at hshape h
  rw [reads, uses, operands, hop, hleft, hright, hpayload] at hvs
  cases hshape with
  | null t =>
    cases h
    cases hv
    exact ⟨by simp [Suits, hop], .value 0, by rw [effect?, hop], by cases t <;> rfl⟩
  | int n =>
    cases h
    cases hv
    exact ⟨by simp [Suits, hop], .value n, by rw [effect?, hop, hpayload], rfl⟩
  | boolean b =>
    cases h
    cases hv
    exact ⟨by simp [Suits, hop], .value (truthWord b), by rw [effect?, hop, hpayload], rfl⟩
  | arg o n =>
    obtain ⟨a, rfl, ha⟩ := of_forall₂_one hvs
    cases h
    cases hv
    refine ⟨by simp [Suits, hop], _, by simp only [effect?, hop, hpayload, hleft, ha.word]; rfl, ?_⟩
    split <;> rfl
  | store o n =>
    obtain ⟨a, rfl, ha⟩ := of_forall₂_one hvs
    cases h
    cases hv
    exact ⟨by simp [Suits, hop], _, by simp only [effect?, hop, hpayload, hleft, ha.word]; rfl, rfl⟩
  | assignVar o o'? x =>
    obtain ⟨a, rfl, ha⟩ := of_forall₂_one hvs
    cases h
    cases hv
    exact ⟨by simp [Suits, hop], _, by simp only [effect?, hop, hleft, ha.word]; rfl, rfl⟩
  | not o =>
    obtain ⟨a, rfl, ha⟩ := of_forall₂_one hvs
    obtain ⟨r, hr, rfl⟩ := Effect.map_eq_ok.1 h
    cases hv
    obtain ⟨hsuits, heffect⟩ := effect?_of_negate hop hleft hright ha hr
    exact ⟨hsuits, _, heffect, rfl⟩
  | binary op o o' =>
    obtain ⟨a, b, rfl, ha, hb⟩ := of_forall₂_two hvs
    obtain ⟨r, hr, rfl⟩ := Effect.map_eq_ok.1 h
    cases hv
    obtain ⟨hsuits, heffect⟩ := effect?_of_apply hsep hop hleft hright ha hb hr
    exact ⟨hsuits, _, heffect, rfl⟩
  | unify | this | parameter | member | index | load | assignMember | assignIndex | label | jump
  | branchUnless | ret | call | newObject | newIntArray | print => cases hcomputed

end Perform

/-! ## Allocated methods -/

theorem exists_kind {cx : EmitContext} {next : StmtId} {s : Statement} {o : StmtId}
    (hbody : cx.body.Disciplined next) (hprovided : cx.body.Provided cx.program) (hs : s ∈ cx.body)
    (ho : o ∈ s.uses) (hcall : s.op ≠ .call) : ∃ k, cx.kind? (some o) = some k := by
  obtain ⟨t, ht, rfl, _, _⟩ := hbody.exists_operand hs ho fun h => absurd h hcall
  obtain ⟨i, hi⟩ := List.mem_iff_getElem?.1 ht
  obtain ⟨type, htype, hget⟩ := (hprovided t ht).typed
  obtain ⟨e, he⟩ := isSome_iff_exists.1 hget
  have hfind : cx.find? t.id = some t := hbody.distinct.last?_eq hi
  exact ⟨e.kind, by simp [kind?, operandType?, hfind, htype, he]⟩

end EmitContext

namespace Ssa

variable {q : Program} {k : Nat} {bound : StmtId} {m m' : Method} {s : Statement}

theorem exists_operands_of_binary {op : BinOp} (h : s.isShaped = true) (hop : s.op = .binary op) :
    ∃ o o', s.left? = some o ∧ s.right? = some o' ∧ s.uses = [o, o'] := by
  have hshape := shape_of_isShaped h
  generalize hleft : s.left? = left? at hshape
  generalize hright : s.right? = right? at hshape
  generalize hpayload : s.payload = payload at hshape
  rw [hop] at hshape
  cases hshape with
  | binary _ o o' =>
    refine ⟨o, o', rfl, rfl, ?_⟩
    rw [uses, operands, hop, hleft, hright, hpayload]
    rfl

theorem Method.Allocated.regular (h : m.Allocated k bound m') (hshape : m.body.prepare.Shaped)
    (hprovided : m.body.Provided q) (frame : Frame) (hs : s ∈ m'.body)
    (hstraight : s.op.isStraight = true) : EmitContext.Regular ⟨q, m'.label, frame, m'.body⟩ s := by
  obtain ⟨_, n, last, _, hall⟩ := h
  obtain ⟨_, _, hsafe⟩ := hall.registerSafe
  have hshaped := hall.shaped hshape s hs
  refine ⟨hshaped, hstraight, fun n hop hpayload => ?_, fun op hop => ?_⟩
  · obtain ⟨p, hp, hr⟩ := hsafe.arguments s hs hop
    rw [Statement.position?, hpayload] at hp
    cases hp
    rw [result?, hr]
    split
    · next hlt => exact Register.ofColor?_eq_arguments hlt
    · next hle => exact (List.getElem?_eq_none (Nat.not_lt.1 hle)).symm
  · obtain ⟨o, o', hleft, hright, huses⟩ := exists_operands_of_binary hshaped hop
    have hkind : ∀ x ∈ [o, o'], ∃ k, EmitContext.kind? ⟨q, m'.label, frame, m'.body⟩ (some x) = some k :=
      fun x hx => EmitContext.exists_kind hall.disciplined (hall.provided hprovided.prepare) hs
        (huses ▸ hx) (by simp [hop])
    obtain ⟨k, hk⟩ := hkind o (by simp)
    obtain ⟨k', hk'⟩ := hkind o' (by simp)
    exact ⟨k, k', hleft ▸ hk, hright ▸ hk'⟩

end Ssa

/-- **Code does what statements say, whatever registers they got.** Take a statement of an allocated
program that neither jumps nor calls. With the registers of the machine it has code. On words that the
operation is meant for, the code puts one word into the register of the statement or into one place in
memory and changes nothing else but the scratch register, HI and LO. Where the operands hold words of
values, the operation is meant for them if it has a value, and the word is the one of this value. -/
theorem code_realizes_statements {ast : Ast.Program} {p p' q : Program} {k : Nat}
    {stats : List MethodStats} (hp : Program.ofAst ast = .ok p) (hcheck : p.check = (p', .ok ()))
    (hq : p'.allocate k = (q, .ok stats)) {m : Method} (hm : m ∈ q.methods) {s : Statement}
    (hs : s ∈ m.body) (hstraight : s.op.isStraight = true) {cx : EmitContext}
    (hcx : cx = ⟨q, m.label, .ofBody m.body, m.body⟩) :
    (k ≤ 22 → ∃ code, cx.stmt s = .ok code) ∧
    (∀ code state, cx.stmt s = .ok code → cx.Suits state s → cx.Realizes state s code) ∧
    ∀ state address act vs w w' out v, s.op.isComputed = true → Separates address vs →
      List.Forall₂ (cx.Carries state address) s.reads vs →
      perform act s.op s.payload vs w = .ok out w' → out.value? = some v →
        cx.Suits state s ∧
          ∃ effect, cx.effect? state s = some effect ∧ effect.word? = some (v.word address) := by
  subst hcx
  obtain ⟨tx, hchecked⟩ := checked_of_check hcheck
  obtain rfl : p.check.1 = p' := by rw [hcheck]
  obtain ⟨m₀, hall, hshape, hprovided⟩ := hchecked.exists_allocated (lowered_of_ofAst hp) hq hm
  have hregular := hall.regular hshape hprovided (.ofBody m.body) hs hstraight
  refine ⟨fun hk => ?_, fun code state hcode hsuits => hregular.realizes hsuits hcode, ?_⟩
  · obtain ⟨next, hready⟩ := hall.ready hk hshape hprovided (.ofBody m.body)
    exact hready.exists_stmt hs
  · intro state address act vs w w' out v hcomputed hsep hvs hperform hv
    exact hregular.effect?_of_perform hcomputed hsep hvs hperform hv

/-- A program with a method that overwrites a parameter with a conjunction. -/
def conjoining : Ast.Program where
  main := ⟨"Main", .print (.intLit 1)⟩
  classes := [⟨"Logic", none, [], [{
    returnType := .boolean
    name := "both"
    params := ["a", "b"].map fun x => ⟨.boolean, x⟩
    locals := []
    body := [.expr (.assign (.var "a") (.binary .and (.var "a") (.var "b")))]
    result := .var "a" }]⟩]

def MachineState.ones : MachineState := ⟨fun _ => 1, 0, 0, fun _ => none, fun _ => 0⟩

/-- In `conjoining`, the result of the conjunction has the register of its second operand. Its code works
where all registers hold the word of `true`. -/
theorem code_realizes_statements_conjoining : ∃ (p p' q : Program) (stats : List MethodStats),
    Program.ofAst conjoining = .ok p ∧ p.check = (p', .ok ()) ∧ p'.allocate 5 = (q, .ok stats) ∧
    ∃ m ∈ q.methods, ∃ s ∈ m.body, s.op = .binary .and ∧
      ∃ (cx : EmitContext) (code : List AsmItem), cx = ⟨q, m.label, .ofBody m.body, m.body⟩ ∧
        cx.register? s.right? = s.result? ∧ cx.stmt s = .ok code ∧ cx.Suits .ones s ∧
          cx.Realizes .ones s code := by
  have h : (Program.ofAst conjoining).toOption.map (fun p => (p.check.2.isOk,
      (p.check.1.allocate 5).2.isOk, (p.check.1.allocate 5).1.methods.any fun m =>
        m.body.any fun s => decide (s.op = .binary .and) &&
          decide (EmitContext.register? ⟨(p.check.1.allocate 5).1, m.label, .ofBody m.body, m.body⟩
            s.right? = s.result?))) = some (true, true, true) := by decide +kernel
  obtain ⟨p, hp, h⟩ := exists_eq_ok_of_map_toOption h
  obtain ⟨hcheck, h⟩ := Prod.mk.inj h
  obtain ⟨hstats, h⟩ := Prod.mk.inj h
  obtain ⟨_, hcheck⟩ := exists_eq_ok_of_isOk hcheck
  obtain ⟨stats, hstats⟩ := exists_eq_ok_of_isOk hstats
  obtain ⟨m, hm, h⟩ := List.any_eq_true.1 h
  obtain ⟨s, hs, h⟩ := List.any_eq_true.1 h
  rw [Bool.and_eq_true, decide_eq_true_eq, decide_eq_true_eq] at h
  have hresult := code_realizes_statements hp (Prod.ext rfl hcheck) (Prod.ext rfl hstats) hm hs
    (by rw [h.1]; rfl) rfl
  obtain ⟨code, hcode⟩ := hresult.1 (by decide)
  have hsuits : EmitContext.Suits ⟨(p.check.1.allocate 5).1, m.label, .ofBody m.body, m.body⟩
      .ones s := by
    rw [EmitContext.Suits, h.1]
    intro id? _ w hw
    obtain ⟨r, _, rfl⟩ := Option.map_eq_some_iff.1 hw
    rw [MachineState.read]
    split
    · exact Or.inl rfl
    · exact Or.inr rfl
  exact ⟨p, _, _, stats, hp, Prod.ext rfl hcheck, Prod.ext rfl hstats, m, hm, s, hs, h.1, _, code, rfl,
    h.2, hcode, hsuits, hresult.2.1 code _ hcode hsuits⟩

end MiniJava
