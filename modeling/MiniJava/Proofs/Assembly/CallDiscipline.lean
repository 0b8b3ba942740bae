import MiniJava.Proofs.Assembly.FrameAreas
import MiniJava.Proofs.Assembly.LabelClashes
import MiniJava.Proofs.Assembly.StatementCode

/-!
# The calling discipline

A call may change any register that its caller saves, and memory that is not the caller's. Code that
jumps away therefore stores these registers in the frame before and loads them again after it, except
for the one that takes the result. In return a method leaves the other registers as it found them: it
uses only those that its prologue has saved, and its statements do not write to the words that its
epilogue reads.

What is jumped to is not part of the code here. It may do anything that keeps what a call has to keep.
-/

namespace MiniJava

open Ssa MachineState List

/-- The registers that a call leaves as they were. -/
def Register.preserved : List Register := .sp :: .fp :: calleeSaved

/-- What a call leaves as it was, for the method with a frame: these registers, and the words of the
frame above the arguments of its calls. -/
structure Frame.KeptBy (f : Frame) (m m' : MachineState) : Prop where
  read : ∀ r ∈ Register.preserved, m'.read r = m.read r
  memory : ∀ n ≤ f.words - f.outgoing,
    m'.memory (m.read .fp + below n) = m.memory (m.read .fp + below n)

namespace Frame.KeptBy

variable {f : Frame} {m m₁ m' : MachineState}

theorem refl (f : Frame) (m : MachineState) : f.KeptBy m m := ⟨fun _ _ => rfl, fun _ _ => rfl⟩

theorem fp (h : f.KeptBy m m') : m'.read .fp = m.read .fp := h.read .fp (by decide)

theorem trans (h : f.KeptBy m m₁) (h' : f.KeptBy m₁ m') : f.KeptBy m m' := by
  refine ⟨fun r hr => (h'.read r hr).trans (h.read r hr), fun n hn => ?_⟩
  have hmem := h'.memory n hn
  rw [h.fp] at hmem
  exact hmem.trans (h.memory n hn)

end Frame.KeptBy

/-! ## Execution -/

/-- What is called: the address, and the states of the machine before and after. -/
abbrev Callee := Int32 → MachineState → MachineState → Prop

namespace Instr

/-- The register that an instruction writes. -/
@[simp] def written? : Instr → Option Register
  | .alu _ d _ _ | .aluImm _ d _ _ | .mflo d | .mfhi d | .move d _ | .li d _ | .la d _ | .lw d _ _ =>
    some d
  | _ => none

/-- The label that an instruction jumps to. -/
def jump? (m : MachineState) : Instr → Option String
  | .j label => some label
  | .beq a b label => if m.read a = m.read b then some label else none
  | .bne a b label => if m.read a ≠ m.read b then some label else none
  | _ => none

/-- Execution of an instruction up to the next one, in a method with a frame. What is called is given by
its address. Stores that are not relative to one of the two pointers do not meet the frame. -/
inductive Does (f : Frame) (callee : Callee) (m : MachineState) :
    Instr → MachineState → Prop
  | exec {i : Instr} {m' : MachineState} (h : i.exec? m = some m')
    (hheap : ∀ s offset base, i = .sw s offset base → base ≠ .fp → base ≠ .sp →
      ∀ n ≤ f.words, m.read base + offset ≠ m.read .fp + Frame.below n) : Does f callee m i m'
  | jal {label : String} {back : Int32} {m' : MachineState}
    (h : callee (m.labels label) (m.write .ra back) m') : Does f callee m (.jal label) m'
  | jalr {r : Register} {back : Int32} {m' : MachineState}
    (h : callee (m.read r) (m.write .ra back) m') : Does f callee m (.jalr r) m'
  | stay {i : Instr} {a b : Register} {label : String} (hi : i = .beq a b label ∨ i = .bne a b label)
    (h : i.jump? m = none) : Does f callee m i m

variable {i : Instr} {m m' : MachineState}

theorem exec?_eq_some (h : i.exec? m = some m') :
    (∃ s offset base, i = .sw s offset base ∧
      m.store? (m.read base + offset) (m.read s) = some m') ∨
    m'.memory = m.memory ∧ ∀ r, i.written? ≠ some r → m'.read r = m.read r := by
  have hwrite : ∀ {d : Register} {w : Int32}, (m.write d w).memory = m.memory ∧
      ∀ r, some d ≠ some r → (m.write d w).read r = m.read r := fun {d w} =>
    ⟨rfl, fun r hr => read_write_of_ne fun heq => hr (congrArg some heq.symm)⟩
  cases i with
  | sw s offset base => exact Or.inl ⟨s, offset, base, rfl, h⟩
  | div a b =>
    rw [exec?] at h
    split at h
    · cases h
    · cases h
      exact Or.inr ⟨rfl, fun _ _ => rfl⟩
  | lw d offset base =>
    obtain ⟨w, _, rfl⟩ := Option.map_eq_some_iff.1 h
    exact Or.inr hwrite
  | alu | aluImm | mflo | mfhi | move | li | la =>
    cases h
    exact Or.inr hwrite
  | beq | bne | j | jal | jalr | jr | syscall => cases h

end Instr

/-- Execution of code from its start to its end, without jumps. -/
def Executes (f : Frame) (callee : Callee) :
    List AsmItem → MachineState → MachineState → Prop
  | [], m, m' => m' = m
  | .instr i _ :: code, m, m' => ∃ m₁, i.Does f callee m m₁ ∧ Executes f callee code m₁ m'
  | _ :: code, m, m' => Executes f callee code m m'

/-- A step through the code of a method. The state of an execution is the code that is still ahead,
with what the machine holds. -/
inductive Step (f : Frame) (callee : Callee)
    (items : List AsmItem) : List AsmItem × MachineState → List AsmItem × MachineState → Prop
  | next {item : AsmItem} {code : List AsmItem} {m m' : MachineState}
    (h : Executes f callee [item] m m') : Step f callee items (item :: code, m) (code, m')
  | jump {i : Instr} {note? : Option String} {label : String} {code target : List AsmItem}
    {m : MachineState} (hi : i.jump? m = some label) (h : .label label :: target <:+ items) :
    Step f callee items (.instr i note? :: code, m) (.label label :: target, m)

/-- The lines that only go on to the next one. -/
def AsmItem.isStraight : AsmItem → Bool
  | .instr i _ => match i with
    | .beq .. | .bne .. | .j _ | .jal _ | .jalr _ | .jr _ | .syscall => false
    | _ => true
  | _ => true

/-- The lines that store, if at all, relative to the frame pointer. -/
def AsmItem.storesInFrame : AsmItem → Bool
  | .instr (.sw _ _ base) _ => base = .fp
  | _ => true

theorem Instr.jump?_eq_none {i : Instr} {note? : Option String} {m : MachineState}
    (h : (AsmItem.instr i note?).isStraight = true) : i.jump? m = none := by
  cases i <;> first | rfl | cases h

section Runs

variable {f : Frame} {callee : Callee} {m m' : MachineState}
  {xs ys : List AsmItem}

theorem executes_append :
    Executes f callee (xs ++ ys) m m' ↔ ∃ m₁, Executes f callee xs m m₁ ∧ Executes f callee ys m₁ m' := by
  induction xs generalizing m with
  | nil => exact ⟨fun h => ⟨m, rfl, h⟩, by rintro ⟨_, rfl, h⟩; exact h⟩
  | cons x xs ih =>
    cases x with
    | instr i note? =>
      constructor
      · rintro ⟨m₁, hi, h⟩
        obtain ⟨m₂, h₁, h₂⟩ := ih.1 h
        exact ⟨m₂, ⟨m₁, hi, h₁⟩, h₂⟩
      · rintro ⟨m₂, ⟨m₁, hi, h₁⟩, h₂⟩
        exact ⟨m₁, hi, ih.2 ⟨m₂, h₁, h₂⟩⟩
    | _ => exact ih

/-- Straight code runs as it does on its own. -/
theorem Executes.run? (h : Executes f callee xs m m') (hs : ∀ x ∈ xs, x.isStraight = true) :
    MachineState.run? xs m = some m' := by
  induction xs generalizing m with
  | nil => rw [h]; rfl
  | cons x xs ih =>
    obtain ⟨hx, hxs⟩ := forall_mem_cons.1 hs
    cases x with
    | instr i note? =>
      obtain ⟨m₁, hi, h⟩ := h
      cases hi with
      | exec hexec _ => exact Option.bind_eq_some_iff.2 ⟨m₁, hexec, ih h hxs⟩
      | jal | jalr => cases hx
      | stay hi => rcases hi with rfl | rfl <;> cases hx
    | _ => exact ih h hxs

/-- Straight code that stores only in the frame executes as it runs. -/
theorem executes_of_run? (hs : ∀ x ∈ xs, x.isStraight = true ∧ x.storesInFrame = true)
    (h : MachineState.run? xs m = some m') : Executes f callee xs m m' := by
  induction xs generalizing m with
  | nil => exact (Option.some.inj h).symm
  | cons x xs ih =>
    obtain ⟨⟨hx, hstore⟩, hxs⟩ := forall_mem_cons.1 hs
    cases x with
    | instr i note? =>
      obtain ⟨m₁, hi, h⟩ := Option.bind_eq_some_iff.1 h
      refine ⟨m₁, .exec hi ?_, ih hxs h⟩
      rintro s offset base rfl hne
      exact absurd (of_decide_eq_true hstore) hne
    | _ => exact ih hxs h

end Runs

/-! ## Calls -/

/-- Calls, and lines that only change registers that the caller saves. -/
def AsmItem.IsQuiet : AsmItem → Prop
  | .instr i _ => match i with
    | .sw .. | .beq .. | .bne .. | .j _ | .jr _ | .syscall => False
    | i => ∀ d ∈ i.written?, d ∈ Register.callerSaved
  | _ => True

section Calls

variable {f : Frame} {callee : Callee} {m m' : MachineState}

theorem keptBy_of_does (hcallee : ∀ a m m', callee a m m' → f.KeptBy m m') {i : Instr}
    {note? : Option String} (hq : (AsmItem.instr i note?).IsQuiet) (h : i.Does f callee m m') :
    f.KeptBy m m' := by
  have hapart : ∀ r ∈ Register.preserved, r ∉ Register.callerSaved ∧ r ≠ .ra := by decide
  have hcall : ∀ {a back}, callee a (m.write .ra back) m' → f.KeptBy m m' := by
    intro a back h
    obtain ⟨hread, hmem⟩ := hcallee _ _ _ h
    have hback : ∀ r ∈ Register.preserved, (m.write .ra back).read r = m.read r := fun r hr =>
      read_write_of_ne (hapart r hr).2
    rw [hback .fp (by decide)] at hmem
    exact ⟨fun r hr => (hread r hr).trans (hback r hr), hmem⟩
  cases h with
  | exec h _ =>
    rcases Instr.exec?_eq_some h with ⟨s, offset, base, rfl, _⟩ | ⟨hmem, hread⟩
    · exact hq.elim
    · refine ⟨fun r hr => hread r fun hw => (hapart r hr).1 ?_, fun n _ => by rw [hmem]⟩
      cases i <;> first | exact hq r hw | exact hq.elim
  | jal h => exact hcall h
  | jalr h => exact hcall h
  | stay => exact .refl f m

theorem keptBy_of_executes (hcallee : ∀ a m m', callee a m m' → f.KeptBy m m') {code : List AsmItem}
    (hq : ∀ x ∈ code, x.IsQuiet) (h : Executes f callee code m m') : f.KeptBy m m' := by
  induction code generalizing m with
  | nil => exact h ▸ .refl f m
  | cons x code ih =>
    obtain ⟨hx, hcode⟩ := forall_mem_cons.1 hq
    cases x with
    | instr i note? =>
      obtain ⟨m₁, hi, h⟩ := h
      exact (keptBy_of_does hcallee hx hi).trans (ih hcode h)
    | _ => exact ih hcode h

/-- The words of the registers that a caller saves are different ones. -/
theorem callerSaveOffset_inj {x y : Register × Nat} (hx : x ∈ f.callerSavedRegisters.zipIdx)
    (hy : y ∈ f.callerSavedRegisters.zipIdx)
    (h : f.callerSaveOffset x.2 = f.callerSaveOffset y.2) : x = y := by
  rw [mem_zipIdx_iff_getElem?] at hx hy
  have hlen : f.callerSavedRegisters.length ≤ 16 := by
    rw [Frame.callerSavedRegisters, length_take]
    exact Nat.min_le_right _ _
  have hlt := lt_of_getElem? hx
  have hlt' := lt_of_getElem? hy
  have hidx : x.2 = y.2 := by
    have := Frame.below_inj (by omega) (by omega) h
    omega
  rw [hidx, hy] at hx
  exact Prod.ext (Option.some.inj hx).symm hidx

theorem nodup_callerSavedRegisters (f : Frame) : f.callerSavedRegisters.Nodup :=
  (show Register.callerSaved.Nodup by decide).sublist (take_sublist _ _)

/-- **Code that jumps away keeps registers.** -/
theorem read_of_executes_preserving (hcallee : ∀ a m m', callee a m m' → f.KeptBy m m')
    {dest : Option Register} (hdest : ∀ d ∈ dest, d ∈ Register.allocatable) {code : List AsmItem}
    (hq : ∀ x ∈ code, x.IsQuiet) (h : Executes f callee (preserving f dest code) m m') {r : Register}
    (hr : r ∈ Register.calleeSaved ∨ r ∈ f.callerSavedRegisters) (hne : dest ≠ some r) :
    m'.read r = m.read r := by
  obtain ⟨m₃, h, hload⟩ := executes_append.1 h
  obtain ⟨m₂, h, htake⟩ := executes_append.1 h
  obtain ⟨m₁, hsave, hcode⟩ := executes_append.1 h
  have hkept := keptBy_of_executes hcallee hq hcode
  have hstraight : ∀ {i : Register × Nat → Instr} {xs : List (Register × Nat)},
      (∀ x, (plain (i x)).isStraight = true) → ∀ y ∈ xs.map fun x => plain (i x), y.isStraight = true := by
    intro i xs hi y hy
    obtain ⟨x, _, rfl⟩ := mem_map.1 hy
    exact hi x
  obtain ⟨hregs, _, hsaved⟩ := run?_saves (hsave.run? (hstraight fun _ => rfl))
  have hregs : ∀ r, m₁.read r = m.read r := fun r => read_eq_of_registers hregs
  have hsub : ∀ x ∈ f.callerSavedRegisters, x ∈ Register.callerSaved := fun x hx =>
    mem_of_mem_take hx
  have hapart : ∀ x ∈ Register.callerSaved, x ≠ .fp ∧ x ≠ .zero ∧ x ∉ Register.preserved := by decide
  have htaken : m₃.memory = m₂.memory ∧ ∀ r, dest ≠ some r → m₃.read r = m₂.read r := by
    cases dest with
    | none =>
      cases htake
      exact ⟨rfl, fun _ _ => rfl⟩
    | some d =>
      cases htake.run? (forall_mem_singleton.2 rfl)
      exact ⟨rfl, fun r hr => read_write_of_ne fun heq => hr (heq ▸ rfl)⟩
  have hfp : m₃.read .fp = m.read .fp := by
    rw [htaken.2 .fp fun heq => absurd (hdest _ heq) (by decide), hkept.fp, hregs]
  have hlisted : ∀ x ∈ f.callerSavedRegisters.zipIdx.filter fun x => some x.1 ≠ dest,
      x.1 ∈ Register.callerSaved := fun x hx =>
    hsub _ (fst_mem_of_mem_zipIdx (mem_of_mem_filter hx))
  obtain ⟨_, hrest, hloaded⟩ := run?_loads (hload.run? (hstraight fun _ => rfl))
    (fun x hx => (hapart _ (hlisted x hx)).1) (fun x hx => (hapart _ (hlisted x hx)).2.1)
  rcases hr with hr | hr
  · have hpres : r ∈ Register.preserved := mem_cons_of_mem _ (mem_cons_of_mem _ hr)
    rw [hrest r fun x hx heq => (hapart _ (hlisted x hx)).2.2 (heq ▸ hpres), htaken.2 r hne,
      hkept.read r hpres, hregs]
  · obtain ⟨i, hi⟩ := mem_iff_getElem?.1 hr
    have hmem : (r, i) ∈ f.callerSavedRegisters.zipIdx.filter fun x => some x.1 ≠ dest :=
      mem_filter.2 ⟨mem_zipIdx_iff_getElem?.2 hi, by simpa using hne.symm⟩
    have hsaved := hsaved (r, i) hmem fun y hy hoff => by
      rw [callerSaveOffset_inj (mem_of_mem_filter hy) (mem_of_mem_filter hmem) hoff]
    have hloaded := hloaded (r, i) hmem fun y hy hreg => by
      have hy := mem_zipIdx_iff_getElem?.1 (mem_of_mem_filter hy)
      rw [hreg, ← hi] at hy
      rw [getElem?_inj (lt_of_getElem? hi) (nodup_callerSavedRegisters f) |>.1
        hy.symm]
    have hword : f.spillSlots + 1 + i ≤ f.words - f.outgoing := by
      have hlt := lt_of_getElem? hi
      rw [Frame.callerSavedRegisters, length_take] at hlt
      rw [Frame.words]
      omega
    have hkeep := hkept.memory _ hword
    rw [hregs] at hkeep
    rw [hfp, htaken.1] at hloaded
    exact Option.some.inj (hloaded.symm.trans (hkeep.trans hsaved))

end Calls

/-- Whatever register a method uses is saved by it or left alone by the methods that it calls. -/
theorem mem_calleeSaved_or_callerSavedRegisters {body : Body} {r : Register}
    (h : r = .v0 ∨ ∃ c < body.registersUsed, Register.ofColor? c = some r) :
    r ∈ Register.calleeSaved ∨ r ∈ (Frame.ofBody body).callerSavedRegisters := by
  -- The registers in the order in which a caller saves them, and how many of them it saves.
  have hsaved : ∀ {i : Nat}, Register.callerSaved[i]? = some r →
      i < CallingConvention.callerSavedCount body.registersUsed →
      r ∈ (Frame.ofBody body).callerSavedRegisters := by
    intro i hi hlt
    refine mem_iff_getElem?.2 ⟨i, ?_⟩
    rw [Frame.callerSavedRegisters, getElem?_take, if_pos, hi]
    exact Nat.lt_min.2 ⟨hlt, (lt_of_getElem? hi)⟩
  have hcount : ∀ c, c < body.registersUsed →
      (c < 12 → c + 2 < CallingConvention.callerSavedCount body.registersUsed) ∧
      (20 ≤ c → c - 6 < CallingConvention.callerSavedCount body.registersUsed) := by
    unfold CallingConvention.callerSavedCount
    intro c hc
    split_ifs <;> omega
  have hsplit : ∀ c < 22, (c < 12 ∧ Register.ofColor? c = Register.callerSaved[c + 2]?) ∨
      (∀ x ∈ Register.ofColor? c, x ∈ Register.calleeSaved) ∨
      (20 ≤ c ∧ Register.ofColor? c = Register.callerSaved[c - 6]?) := by decide
  rcases h with rfl | ⟨c, hc, hr⟩
  · refine Or.inr (hsaved (show Register.callerSaved[0]? = _ from rfl) ?_)
    unfold CallingConvention.callerSavedCount
    split_ifs <;> omega
  · rcases hsplit c (lt_of_getElem? hr) with ⟨hlt, heq⟩ | hmem | ⟨hle, heq⟩
    · exact Or.inr (hsaved (heq ▸ hr) ((hcount c hc).1 hlt))
    · exact Or.inl (hmem r hr)
    · exact Or.inr (hsaved (heq ▸ hr) ((hcount c hc).2 hle))

namespace EmitContext

variable {cx : EmitContext} {s : Statement} {items : List AsmItem}

/-- The statements whose code jumps away. -/
theorem exists_preserving (hop : s.op ∈ [.call, .newObject, .newIntArray, .print])
    (h : cx.stmt s = .ok items) :
    ∃ dest code, items = preserving cx.frame dest code ∧ (∀ d ∈ dest, s.result? = some d) ∧
      ∀ x ∈ code, x.IsQuiet := by
  simp only [mem_cons, not_mem_nil, or_false] at hop
  rcases hop with hop | hop | hop | hop
  · rw [stmt, hop] at h
    obtain ⟨target, _, h⟩ := except_bind_eq_ok.1 h
    obtain ⟨_, _, h⟩ := except_bind_eq_ok.1 h
    obtain ⟨_, _, h⟩ := except_bind_eq_ok.1 h
    obtain ⟨_, _, h⟩ := except_bind_eq_ok.1 h
    cases h
    exact ⟨_, _, rfl, fun _ hd => hd, by simp [AsmItem.IsQuiet, plain, noted]; decide⟩
  · rw [stmt, hop] at h
    obtain ⟨d, hd, h⟩ := except_bind_eq_ok.1 h
    obtain ⟨_, _, h⟩ := except_bind_eq_ok.1 h
    obtain ⟨_, _, h⟩ := except_bind_eq_ok.1 h
    cases h
    refine ⟨_, _, rfl, fun _ heq => heq ▸ dest_eq_ok.1 hd, ?_⟩
    simp [AsmItem.IsQuiet, plain]; decide
  · rw [stmt, hop] at h
    obtain ⟨d, hd, h⟩ := except_bind_eq_ok.1 h
    obtain ⟨_, _, h⟩ := except_bind_eq_ok.1 h
    cases h
    refine ⟨_, _, rfl, fun _ heq => heq ▸ dest_eq_ok.1 hd, ?_⟩
    simp [AsmItem.IsQuiet, plain]; decide
  · rw [stmt, hop] at h
    obtain ⟨_, _, h⟩ := except_bind_eq_ok.1 h
    cases h
    refine ⟨_, _, rfl, fun _ hd => absurd hd (Option.not_mem_none _), ?_⟩
    simp [AsmItem.IsQuiet, plain]; decide

end EmitContext

/-! ## Methods -/

/-- Words that the code of statements writes to. -/
def Frame.Word.IsFree : Frame.Word → Prop
  | calleeSave _ | returnAddress => False
  | _ => True

/-- The registers that a method may change: it has saved them, or its caller has. -/
def Frame.MayChange (f : Frame) (r : Register) : Prop :=
  r ∈ Register.callerSaved ∨ r ∈ f.calleeSavedRegisters

/-- What the code of a statement may consist of, in a method that starts at a label. It writes to
registers that the method has saved or need not save, to memory outside the frame and to free words of
it, and does not jump to the start. -/
@[simp] def Instr.Tame (start : String) (f : Frame) : Instr → Prop
  | .sw _ offset base =>
    (base = .fp → ∃ w : Frame.Word, w.IsFree ∧ w.Fits f ∧ w.offset f = offset) ∧
    (base = .sp → ∃ w : Frame.Word, w.IsFree ∧ w.Fits f ∧ w.offset f = Frame.below f.words + offset)
  | .beq _ _ label | .bne _ _ label | .j label => label ≠ start
  | .jr _ | .syscall => False
  | i => ∀ d ∈ i.written?, f.MayChange d

/-- Lines with such instructions. -/
@[simp] def AsmItem.Tame (start : String) (f : Frame) : AsmItem → Prop
  | .instr i _ => i.Tame start f
  | _ => True

/-- What holds inside a method that was entered in a state. -/
structure Frame.Entered (f : Frame) (m₀ m : MachineState) : Prop where
  fp : m.read .fp = m₀.read .sp + byteOffset (-1)
  sp : m.read .sp = m.read .fp + below f.words
  outer : m.memory (m.read .fp) = some (m₀.read .fp)
  kept : ∀ k ∈ f.kept, m.memory (m.read .fp + k.2.offset f) = some (m₀.read k.1)
  unused : ∀ r ∈ Register.calleeSaved, r ∉ f.calleeSavedRegisters → m.read r = m₀.read r

namespace Frame

variable {f : Frame} {callee : Callee} {m₀ m m' : MachineState}

theorem not_mem_calleeSavedRegisters {r : Register} (h : r ∉ Register.calleeSaved) :
    r ∉ f.calleeSavedRegisters := fun hr => h (mem_of_mem_take hr)

theorem mem_kept {k : Register × Word} : k ∈ f.kept ↔
    k = (.ra, .returnAddress) ∨ ∃ i, f.calleeSavedRegisters[i]? = some k.1 ∧ k.2 = .calleeSave i := by
  obtain ⟨r, w⟩ := k
  simp only [kept, mem_cons, mem_map, mem_zipIdx_iff_getElem?, Prod.exists,
    Prod.mk.injEq]
  refine or_congr_right ⟨?_, ?_⟩
  · rintro ⟨_, i, hi, rfl, rfl⟩
    exact ⟨i, hi, rfl⟩
  · rintro ⟨i, hi, rfl⟩
    exact ⟨r, i, hi, rfl, rfl⟩

theorem fits_of_mem_kept {k : Register × Word} (h : k ∈ f.kept) : k.2.Fits f ∧ ¬ k.2.IsFree := by
  rcases mem_kept.1 h with rfl | ⟨i, hi, hw⟩
  · exact ⟨trivial, id⟩
  · rw [hw]
    have hlt := lt_of_getElem? hi
    rw [calleeSavedRegisters, length_take] at hlt
    exact ⟨Nat.lt_of_lt_of_le hlt (Nat.min_le_left _ _), id⟩

theorem ne_of_mem_kept {k : Register × Word} (h : k ∈ f.kept) :
    k.1 ≠ .fp ∧ k.1 ≠ .sp ∧ k.1 ≠ .zero := by
  have hne : ∀ r ∈ Register.ra :: Register.calleeSaved, r ≠ .fp ∧ r ≠ .sp ∧ r ≠ .zero := by decide
  refine hne k.1 (mem_cons.2 ?_)
  rcases mem_kept.1 h with rfl | ⟨i, hi, _⟩
  · exact Or.inl rfl
  · exact Or.inr (mem_of_mem_take (mem_of_getElem? hi))

/-- No two registers are saved in one word, and none in two. -/
theorem kept_inj {k k' : Register × Word} (hk : k ∈ f.kept) (hk' : k' ∈ f.kept) :
    k.1 = k'.1 ↔ k.2 = k'.2 := by
  have hnodup : f.calleeSavedRegisters.Nodup :=
    (show Register.calleeSaved.Nodup by decide).sublist (take_sublist _ _)
  have hra : ∀ i, f.calleeSavedRegisters[i]? ≠ some Register.ra := fun i hi =>
    not_mem_calleeSavedRegisters (by decide) (mem_of_getElem? hi)
  rcases mem_kept.1 hk with rfl | ⟨i, hi, hw⟩ <;> rcases mem_kept.1 hk' with rfl | ⟨j, hj, hw'⟩
  · simp
  · rw [hw']
    exact ⟨fun h => absurd (hj.trans (congrArg some h.symm)) (hra j), nofun⟩
  · rw [hw]
    exact ⟨fun h => absurd (hi.trans (congrArg some h)) (hra i), nofun⟩
  · rw [hw, hw', Word.calleeSave.injEq]
    constructor
    · intro h
      rw [h, ← hj] at hi
      exact (getElem?_inj (lt_of_getElem? (hi.trans hj)) hnodup).1 hi
    · rintro rfl
      exact Option.some.inj (hi.symm.trans hj)

/-- The words that hold what a method has to restore: that of the outer frame pointer and those of
further registers. -/
def Guards (f : Frame) (n : Nat) : Prop := n = 0 ∨ ∃ k ∈ f.kept, k.2.depth f = n

theorem Guards.le {n : Nat} (h : f.Guards n) : n ≤ f.words - f.outgoing := by
  rcases h with rfl | ⟨⟨r, w⟩, hk, rfl⟩
  · exact Nat.zero_le _
  · obtain ⟨hfits, hfree⟩ := fits_of_mem_kept hk
    cases w with
    | calleeSave | returnAddress => simp only [Word.Fits, Word.depth, words] at hfits ⊢; omega
    | _ => exact absurd trivial hfree

theorem Guards.ne_depth {n : Nat} (h : f.Guards n) {w : Word} (hw : w.IsFree) (hfits : w.Fits f) :
    w.depth f ≠ n := by
  rintro rfl
  rcases h with h | ⟨k, hk, h⟩
  · exact absurd (Word.depth_bounds hfits).1 (by omega)
  · obtain ⟨hkfits, hkfree⟩ := fits_of_mem_kept hk
    exact hkfree (Word.depth_inj hkfits hfits h ▸ hw)

/-- A method is still inside its frame if nothing has changed that it has to restore, or to restore it
with. -/
theorem Entered.of_agree (h : f.Entered m₀ m)
    (hread : ∀ r ∈ Register.preserved, r ∉ f.calleeSavedRegisters → m'.read r = m.read r)
    (hmem : ∀ n, f.Guards n →
      m'.memory (m.read .fp + below n) = m.memory (m.read .fp + below n)) : f.Entered m₀ m' := by
  have hfp : m'.read .fp = m.read .fp :=
    hread .fp (by decide) (not_mem_calleeSavedRegisters (by decide))
  have hsp : m'.read .sp = m.read .sp :=
    hread .sp (by decide) (not_mem_calleeSavedRegisters (by decide))
  refine ⟨hfp.trans h.fp, ?_, ?_, fun k hk => ?_, fun r hr hout => ?_⟩
  · rw [hsp, hfp, h.sp]
  · have hzero := hmem 0 (Or.inl rfl)
    rw [below_zero, Int32.add_zero] at hzero
    rw [hfp, hzero, h.outer]
  · rw [hfp, Word.offset_eq (fits_of_mem_kept hk).1, hmem _ (Or.inr ⟨k, hk, rfl⟩),
      ← Word.offset_eq (fits_of_mem_kept hk).1, h.kept k hk]
  · rw [hread r (mem_cons_of_mem _ (mem_cons_of_mem _ hr)) hout, h.unused r hr hout]

/-- **Inside a method, its code stays there.** -/
theorem Entered.does (h : f.Entered m₀ m) (hfit : f.words < 2 ^ 30)
    (hcallee : ∀ a m m', callee a m m' → f.KeptBy m m') {i : Instr} {start : String}
    (ht : i.Tame start f) (hd : i.Does f callee m m') :
    f.Entered m₀ m' := by
  have hcall : (plain i).IsQuiet → f.Entered m₀ m' := fun hq =>
    have hkept := keptBy_of_does hcallee hq hd
    h.of_agree (fun r hr _ => hkept.read r hr) fun n hn => hkept.memory n hn.le
  cases hd with
  | exec hexec hheap =>
    rcases Instr.exec?_eq_some hexec with ⟨s, offset, base, rfl, hstore⟩ | ⟨hmem, hread⟩
    · obtain ⟨hregs, _, hother⟩ := store?_eq_some hstore
      refine h.of_agree (fun r _ _ => read_eq_of_registers hregs) fun n hn => hother _ ?_
      have hfree : ∀ w : Word, w.IsFree → w.Fits f → m.read .fp + below n ≠ m.read .fp + w.offset f := by
        intro w hw hfits heq
        rw [Word.offset_eq hfits, Int32.add_right_inj] at heq
        have hle := hn.le
        have hb := (Word.depth_bounds hfits).2
        exact hn.ne_depth hw hfits (below_inj (by omega) (by omega) heq).symm
      by_cases hfp : base = .fp
      · obtain ⟨w, hw, hfits, rfl⟩ := ht.1 hfp
        exact hfp ▸ hfree w hw hfits
      · by_cases hsp : base = .sp
        · obtain ⟨w, hw, hfits, hoff⟩ := ht.2 hsp
          rw [hsp, h.sp, Int32.add_assoc, ← hoff]
          exact hfree w hw hfits
        · exact (hheap s offset base rfl hfp hsp n (hn.le.trans (Nat.sub_le _ _))).symm
    · refine h.of_agree (fun r hr hout => hread r fun hw => ?_) fun n _ => by rw [hmem]
      have hwritten : f.MayChange r := by
        cases i <;> first | exact ht r hw | cases hw
      have hapart : ∀ r ∈ Register.preserved, r ∉ Register.callerSaved := by decide
      exact hwritten.elim (hapart r hr) hout
  | jal => exact hcall nofun
  | jalr => exact hcall nofun
  | stay => exact h

theorem isStraight_prologue (f : Frame) : ∀ x ∈ prologue f, x.isStraight = true := by
  simp only [prologue_eq, forall_mem_cons, forall_mem_map]
  exact ⟨rfl, rfl, rfl, rfl, fun _ _ => rfl⟩

/-- A prologue takes the machine inside the method. -/
theorem entered_of_prologue (hfit : f.words < 2 ^ 30) (h : m.run? (prologue f) = some m') :
    f.Entered m m' := by
  obtain ⟨m₁, hsaves, hfp, hsp, houter, hread⟩ := run?_prologue h
  obtain ⟨hregs, hmem, hsaved⟩ := run?_saves hsaves
  have hregs : ∀ r, m'.read r = m₁.read r := fun r => read_eq_of_registers hregs
  have hne : ∀ r ∈ Register.calleeSaved, r ≠ .fp ∧ r ≠ .sp := by decide
  refine ⟨(hregs _).trans hfp, ?_, ?_, fun k hk => ?_, fun r hr _ => ?_⟩
  · rw [hregs, hregs, hsp]
  · rw [hregs, hmem _ fun k hk heq => ?_, houter]
    obtain ⟨hfits, _⟩ := fits_of_mem_kept hk
    have hb := Word.depth_bounds hfits
    have hzero : m₁.read .fp + below 0 = m₁.read .fp + below (k.2.depth f) := by
      rw [below_zero, Int32.add_zero, ← Word.offset_eq hfits]
      exact heq
    have := below_inj (by omega) (by omega) ((Int32.add_right_inj _).1 hzero)
    omega
  · obtain ⟨hfits, _⟩ := fits_of_mem_kept hk
    obtain ⟨h₁, h₂, _⟩ := ne_of_mem_kept hk
    rw [hregs, hsaved k hk fun k' hk' hoff => ?_, hread _ h₁ h₂]
    exact (kept_inj hk' hk).2 (Word.offset_inj hfit (fits_of_mem_kept hk').1 hfits hoff)
  · rw [hregs, hread r (hne r hr).1 (hne r hr).2]

/-- The code at the end of a method, up to the jump back. -/
def restores (f : Frame) : List AsmItem :=
  ((f.kept.rotate 1).map fun k => plain (.lw k.1 (k.2.offset f) .fp)) ++
    [plain (.move .sp .fp), plain (.lw .fp 0 .sp), plain (.bumpSp (byteOffset 1))]

theorem epilogue_eq (f : Frame) : epilogue f = f.restores ++ [plain (.jr .ra)] := by
  simp only [epilogue, restores, kept, Instr.pop, rotate_cons_succ, rotate_zero,
    map_append, map_map, append_assoc, map_cons, map_nil]
  rfl

theorem isStraight_restores (f : Frame) : ∀ x ∈ f.restores, x.isStraight = true := by
  simp only [restores, forall_mem_append, forall_mem_map]
  exact ⟨fun _ _ => rfl, by decide⟩

/-- An epilogue restores what the method found. -/
theorem Entered.restored (h : f.Entered m₀ m) (hrun : m.run? f.restores = some m') :
    m'.read .ra = m₀.read .ra ∧ ∀ r ∈ Register.preserved, m'.read r = m₀.read r := by
  rw [restores, run?_append] at hrun
  obtain ⟨m₁, hloads, hrun⟩ := Option.bind_eq_some_iff.1 hrun
  have hne : ∀ k ∈ f.kept, k.1 ≠ .fp ∧ k.1 ≠ .sp ∧ k.1 ≠ .zero := fun k hk =>
    ne_of_mem_kept hk
  obtain ⟨hmem, hrest, hloaded⟩ := run?_loads hloads
    (fun k hk => (hne k (mem_rotate.1 hk)).1) fun k hk => (hne k (mem_rotate.1 hk)).2.2
  have hkept : ∀ k ∈ f.kept, m₁.read k.1 = m₀.read k.1 := by
    intro k hk
    have hword := hloaded k (mem_rotate.2 hk) fun k' hk' hreg => by
      rw [(kept_inj (mem_rotate.1 hk') hk).1 hreg]
    exact Option.some.inj (hword.symm.trans (h.kept k hk))
  have hfp : m₁.read .fp = m.read .fp :=
    hrest .fp fun k hk => (hne k (mem_rotate.1 hk)).1.symm
  rw [run?_plain, exec?_move, Option.bind_some, run?_plain] at hrun
  obtain ⟨m₂, h₂, hrun⟩ := Option.bind_eq_some_iff.1 hrun
  obtain ⟨w, hw, rfl⟩ := Option.map_eq_some_iff.1 h₂
  rw [run?_plain, exec?_bumpSp, Option.bind_some] at hrun
  cases hrun
  have hother : ∀ r ∈ Register.ra :: Register.calleeSaved, ∀ u v,
      (((m₁.write .sp u).write .fp w).write .sp v).read r = m₁.read r := by
    have hne : ∀ r ∈ Register.ra :: Register.calleeSaved, r ≠ .fp ∧ r ≠ .sp := by decide
    intro r hr u v
    rw [read_write_of_ne (hne r hr).2, read_write_of_ne (hne r hr).1,
      read_write_of_ne (hne r hr).2]
  rw [hfp, memory_write, hmem, read_write_self (by decide), Int32.add_zero,
    h.outer] at hw
  cases hw
  refine ⟨(hother _ (by decide) _ _).trans (hkept (.ra, .returnAddress) mem_cons_self),
    fun r hr => ?_⟩
  rcases mem_cons.1 hr with rfl | hr
  · rw [read_write_self (by decide), read_write_of_ne (by decide),
      read_write_self (by decide), hfp, h.fp, Int32.add_assoc, byteOffset_add]
    exact Int32.add_zero _
  rcases mem_cons.1 hr with rfl | hr
  · rw [read_write_of_ne (by decide), read_write_self (by decide)]
  · rw [hother r (mem_cons_of_mem _ hr)]
    by_cases hsaved : r ∈ f.calleeSavedRegisters
    · obtain ⟨i, hi⟩ := mem_iff_getElem?.1 hsaved
      exact hkept (r, .calleeSave i) (mem_kept.2 (Or.inr ⟨i, hi, rfl⟩))
    · rw [hrest r fun k hk heq => ?_, h.unused r hr hsaved]
      rcases mem_kept.1 (mem_rotate.1 hk) with rfl | ⟨i, hi, _⟩
      · exact absurd (heq ▸ hr) (by decide)
      · exact hsaved (heq ▸ mem_of_getElem? hi)

end Frame

/-! ## Statements -/

namespace EmitContext

variable {cx : EmitContext} {s : Statement}

/-- The result of a statement goes to a register that the method has saved or need not save. -/
theorem mem_of_result? {body : Body} (hs : s ∈ body) {d : Register} (h : s.result? = some d) :
    (Frame.ofBody body).MayChange d := by
  obtain ⟨c, hc, hd⟩ := Option.bind_eq_some_iff.1 h
  have hused : c + 1 ≤ body.registersUsed :=
    le_foldl_max (· + 1) (Or.inr (mem_filterMap.2 ⟨s, hs, hc⟩))
  have hsplit : ∀ c < 22, (∀ x ∈ Register.ofColor? c, x ∈ Register.callerSaved) ∨
      (12 ≤ c ∧ c < 20 ∧ Register.ofColor? c = Register.calleeSaved[c - 12]?) := by decide
  rcases hsplit c (lt_of_getElem? hd) with hmem | ⟨hle, hlt, heq⟩
  · exact Or.inl (hmem d hd)
  · refine Or.inr (mem_iff_getElem?.2 ⟨c - 12, ?_⟩)
    rw [Frame.calleeSavedRegisters, getElem?_take, if_pos, ← heq, hd]
    exact Nat.lt_min.2 ⟨by omega, show c - 12 < 8 by omega⟩

theorem ne_of_register? {id? : Option StmtId} {r : Register} (h : cx.register? id? = some r) :
    r ≠ .fp ∧ r ≠ .sp := by
  obtain ⟨_, _, h⟩ := Option.bind_eq_some_iff.1 h
  obtain ⟨_, _, h⟩ := Option.bind_eq_some_iff.1 h
  obtain ⟨_, _, h⟩ := Option.bind_eq_some_iff.1 h
  have hne : ∀ r ∈ Register.allocatable, r ≠ .fp ∧ r ≠ .sp := by decide
  exact hne r (mem_of_getElem? h)

section Code

variable {start : String} {f : Frame} {d a : Register}

theorem tame_of_isQuiet {x : AsmItem} (h : x.IsQuiet) : x.Tame start f := by
  cases x with
  | instr i note? => cases i <;> first | exact h.elim | exact fun d hd => Or.inl (h d hd)
  | _ => trivial

@[simp] theorem forall_mem_moveTo {P : AsmItem → Prop} :
    (∀ x ∈ moveTo d a, P x) ↔ (d ≠ a → P (plain (.move d a))) := by
  rw [moveTo]
  split <;> simp [*]

theorem tame_preserving {dest : Option Register} {code : List AsmItem}
    (hdest : ∀ d ∈ dest, f.MayChange d) (hcode : ∀ x ∈ code, x.IsQuiet) :
    ∀ x ∈ preserving f dest code, x.Tame start f := by
  simp only [preserving, forall_mem_append, saveCaller, restoreCaller, forall_mem_map]
  refine ⟨⟨⟨fun k hk => ?_, fun x hx => tame_of_isQuiet (hcode x hx)⟩, ?_⟩, fun k hk => ?_⟩
  · have hi := mem_zipIdx_iff_getElem?.1 (mem_of_mem_filter hk)
    have hlt := lt_of_getElem? hi
    rw [Frame.callerSavedRegisters, length_take] at hlt
    have hfits : (Frame.Word.callerSave k.2).Fits f := Nat.lt_of_lt_of_le hlt (Nat.min_le_left _ _)
    exact ⟨fun _ => ⟨.callerSave k.2, trivial, hfits, rfl⟩, fun h => absurd h (by decide)⟩
  · cases dest with
    | none => exact forall_mem_nil _
    | some d => exact forall_mem_singleton.2 fun _ h => Option.some.inj h ▸ hdest d rfl
  · intro d hd
    cases hd
    exact Or.inl (mem_of_mem_take (fst_mem_of_mem_zipIdx (mem_of_mem_filter hk)))

end Code

/-- All that an emission can give is code of a statement. -/
def Tames (cx : EmitContext) (x : Except EmitError (List AsmItem)) : Prop :=
  ∀ items, x = .ok items → ∀ y ∈ items, y.Tame cx.label cx.frame

@[simp] theorem tames_ok {items : List AsmItem} :
    cx.Tames (.ok items) ↔ ∀ y ∈ items, y.Tame cx.label cx.frame :=
  ⟨fun h => h items rfl, fun h _ heq => Except.ok.inj heq ▸ h⟩

@[simp] theorem tames_pure {items : List AsmItem} :
    cx.Tames (pure items) ↔ ∀ y ∈ items, y.Tame cx.label cx.frame := tames_ok

@[simp] theorem tames_fault (e : EmitFault) : cx.Tames (s.fault e) := by
  rintro _ ⟨⟩

@[simp] theorem tames_bind {α : Type} {x : Except EmitError α}
    {f : α → Except EmitError (List AsmItem)} :
    cx.Tames (x >>= f) ↔ ∀ a, x = .ok a → cx.Tames (f a) := by
  refine ⟨fun h a ha items hf => h items ?_, fun h items hx => ?_⟩
  · rw [ha]
    exact hf
  · obtain ⟨a, ha, hf⟩ := except_bind_eq_ok.1 hx
    exact h a ha items hf

@[simp] theorem tames_ite {c : Prop} [Decidable c] {x y : Except EmitError (List AsmItem)} :
    cx.Tames (if c then x else y) ↔ (c → cx.Tames x) ∧ (¬ c → cx.Tames y) := by
  split <;> simp [*]

/-- **The code of statements keeps to the frame.** -/
theorem tames_stmt (hframe : cx.frame = .ofBody cx.body) (hs : s ∈ cx.body) : cx.Tames (cx.stmt s) := by
  by_cases hcall : s.op ∈ [.call, .newObject, .newIntArray, .print]
  · intro items h
    obtain ⟨dest, code, rfl, hdest, hcode⟩ := exists_preserving hcall h
    exact tame_preserving (fun d hd => hframe ▸ mem_of_result? hs (hdest d hd)) hcode
  have hd : ∀ {d}, dest s = .ok d → cx.frame.MayChange d :=
    fun h => hframe ▸ mem_of_result? hs (dest_eq_ok.1 h)
  have hfree : cx.frame.MayChange .scratch ∧ cx.frame.MayChange .result :=
    ⟨Or.inl (by decide), Or.inl (by decide)⟩
  have hbase : ∀ {r}, cx.left s = .ok r → r ≠ .fp ∧ r ≠ .sp := fun h =>
    ne_of_register? (left_eq_ok.1 h)
  have hjump : ∀ {l}, cx.jumpLabel s = .ok l → l ≠ cx.label := by
    intro l hl
    obtain ⟨name, _, rfl⟩ := cx.jumpLabel_eq_ok s hl
    exact underscore_ne_self cx.label name
  have hscratch : Register.scratch ≠ .fp ∧ Register.scratch ≠ .sp := by decide
  cases hop : s.op <;> rw [stmt, hop]
  case call | newObject | newIntArray | print => exact absurd (by rw [hop]; decide) hcall
  case store =>
    simp only [tames_bind, tames_pure, forall_mem_singleton]
    intro value _ slot hslot
    have hused : (Frame.Word.spill slot).UsedBy cx.body := ⟨s, hs, Or.inl hop, require_eq_ok.1 hslot⟩
    exact ⟨fun _ => ⟨.spill slot, trivial, hframe ▸ hused.fits, rfl⟩, fun h => absurd h (by decide)⟩
  case arg =>
    simp only [tames_bind]
    intro value _ position hposition
    split
    · next hr =>
      have harguments : ∀ r ∈ Register.arguments, r ∈ Register.callerSaved := by decide
      simp [plain, Frame.MayChange, harguments _ (mem_of_getElem? hr)]
    · next hr =>
      have hused : (Frame.Word.argument position).UsedBy cx.body :=
        ⟨s, hs, hop, require_eq_ok.1 hposition, getElem?_eq_none_iff.1 hr⟩
      rw [tames_pure, forall_mem_singleton]
      exact ⟨fun h => absurd h (by decide), fun _ => ⟨.argument position, trivial, hframe ▸ hused.fits, rfl⟩⟩
  case parameter | int | boolean =>
    simp only [tames_bind]
    intro d h
    intros
    split <;> simp [plain, noted, hd h]
  case binary op =>
    cases op <;>
      simp +contextual [-bind_pure_comp, binary, alu, logic, divide, equality, plain, noted, hd]
  all_goals
    simp +contextual [-bind_pure_comp, member, elementAddress, plain, noted, hd, hfree, hbase, hjump,
      hscratch, returnLabel_ne_self]

end EmitContext

/-! ## Runs -/

/-- The code after the statements of a method. -/
def closing (start : String) (f : Frame) : List AsmItem :=
  .label (returnLabel start) :: (f.restores ++ [plain (.jr .ra), .blank])

/-- The code of a method around that of its statements. -/
def framed (start : String) (f : Frame) (body : List AsmItem) : List AsmItem :=
  .label start :: prologue f ++ (body ++ closing start f)

theorem emitMethod_eq_ok {p : Program} {m : Method} {items : List AsmItem}
    (h : emitMethod p m = .ok items) :
    ∃ code, m.body.mapM (EmitContext.stmt ⟨p, m.label, .ofBody m.body, m.body⟩) = .ok code ∧
      items = framed m.label (.ofBody m.body) code.flatten := by
  obtain ⟨code, hcode, h⟩ := except_bind_eq_ok.1 h
  cases h
  refine ⟨code, hcode, ?_⟩
  simp [framed, closing, Frame.epilogue_eq]

/-- Where a run of a method can be that was entered in a state: in straight code after which it is
somewhere again, in the code of a statement, or at the jump back. -/
inductive RunsIn (start : String) (f : Frame) (body : List AsmItem) (m₀ : MachineState) :
    List AsmItem → MachineState → Prop
  | straight {xs rest : List AsmItem} {m : MachineState} (hxs : ∀ x ∈ xs, x.isStraight = true)
    (h : ∀ m', m.run? xs = some m' → RunsIn start f body m₀ rest m') :
    RunsIn start f body m₀ (xs ++ rest) m
  | inside {xs : List AsmItem} {m : MachineState} (hxs : xs <:+ body) (h : f.Entered m₀ m) :
    RunsIn start f body m₀ (xs ++ closing start f) m
  | done {rest : List AsmItem} {m : MachineState} (hra : m.read .ra = m₀.read .ra)
    (h : ∀ r ∈ Register.preserved, m.read r = m₀.read r) :
    RunsIn start f body m₀ (plain (.jr .ra) :: rest) m

namespace RunsIn

variable {start : String} {f : Frame} {callee : Callee}
  {body code code' rest : List AsmItem} {m₀ m m' : MachineState}

/-- Jumps stay inside the method. -/
theorem of_label {l : String} (hl : l ≠ start) (h : f.Entered m₀ m)
    (hcode : .label l :: code <:+ framed start f body) :
    RunsIn start f body m₀ (.label l :: code) m := by
  have hnone : ∀ {items : List AsmItem}, l ∉ labelsOf items → .label l ∉ items := fun hl h =>
    hl (mem_filterMap.2 ⟨_, h, rfl⟩)
  have hprologue : .label l ∉ .label start :: prologue f := hnone (by
    simp [Frame.prologue_eq, hl])
  have hclosing : .label l ∉ f.restores ++ [plain (.jr .ra), .blank] := hnone (by
    simp [Frame.restores, -map_rotate])
  rcases suffix_or_suffix_of_suffix hcode (suffix_append _ _) with hcode | ⟨zs, hzs⟩
  · rcases suffix_or_suffix_of_suffix hcode (suffix_append _ _) with hcode | ⟨zs, hzs⟩
    · rcases suffix_cons_iff.1 hcode with heq | hcode
      · exact heq ▸ .inside (nil_suffix) h
      · exact absurd (hcode.subset mem_cons_self) hclosing
    · rw [← hzs] at hcode ⊢
      exact .inside ((suffix_append_self_iff).1 hcode) h
  · rw [← hzs] at hcode
    cases zs with
    | nil => exact hzs ▸ .inside (suffix_refl _) h
    | cons z zs =>
      cases hzs
      exact absurd ((suffix_append_self_iff.1 hcode).subset mem_cons_self) hprologue

/-- **Every step of a run leads to a place where it can be.** -/
theorem step (hfit : f.words < 2 ^ 30) (hcallee : ∀ a m m', callee a m m' → f.KeptBy m m')
    (hbody : ∀ x ∈ body, x.Tame start f) (h : RunsIn start f body m₀ code m)
    (hstep : Step f callee (framed start f body) (code, m) (code', m')) :
    RunsIn start f body m₀ code' m' := by
  induction h with
  | @straight xs rest m hxs h ih =>
    cases xs with
    | nil => exact ih m rfl hstep
    | cons x xs =>
      obtain ⟨hx, hxs'⟩ := forall_mem_cons.1 hxs
      cases hstep with
      | next hexec =>
        have hrun := hexec.run? (forall_mem_singleton.2 hx)
        refine .straight hxs' fun m₁ hm₁ => h m₁ ?_
        rw [← singleton_append, run?_append, hrun]
        exact hm₁
      | jump hi => cases hi.symm.trans (Instr.jump?_eq_none hx)
  | @inside xs m hxs h =>
    cases xs with
    | nil =>
      cases hstep with
      | next hexec =>
        cases hexec
        exact .straight f.isStraight_restores fun m' hm' =>
          .done (h.restored hm').1 (h.restored hm').2
    | cons x xs =>
      have hx := hbody x (hxs.subset mem_cons_self)
      have hrest := (suffix_cons x xs).trans hxs
      cases hstep with
      | next hexec =>
        refine .inside hrest ?_
        cases x with
        | instr i note? =>
          obtain ⟨_, hi, rfl⟩ := hexec
          exact h.does hfit hcallee hx hi
        | _ => exact hexec ▸ h
      | @jump i _ l _ _ _ hi hsuffix =>
        refine of_label ?_ h hsuffix
        cases i with
        | j => cases hi; exact hx
        | beq a b l' | bne a b l' =>
          rw [Instr.jump?] at hi
          split at hi
          · cases hi; exact hx
          · cases hi
        | _ => cases hi
  | done =>
    cases hstep with
    | next hexec =>
      obtain ⟨_, hi, _⟩ := hexec
      cases hi with
      | exec h => cases h
      | stay hi => rcases hi with hi | hi <;> cases hi
    | jump hi => cases hi

/-- At the jump back everything is restored. -/
theorem restored (hbody : ∀ x ∈ body, x.Tame start f)
    (h : RunsIn start f body m₀ (plain (.jr .ra) :: rest) m) :
    m.read .ra = m₀.read .ra ∧ ∀ r ∈ Register.preserved, m.read r = m₀.read r := by
  generalize hcode : plain (.jr .ra) :: rest = code at h
  induction h with
  | @straight xs _ m hxs _ ih =>
    cases xs with
    | nil => exact ih m rfl hcode
    | cons x xs =>
      cases hcode
      exact nomatch (hxs _ mem_cons_self)
  | @inside xs _ hxs _ =>
    cases xs with
    | nil => cases hcode
    | cons x xs =>
      cases hcode
      exact (hbody _ (hxs.subset mem_cons_self)).elim
  | done hra h => exact ⟨hra, h⟩

end RunsIn

/-- **Calls preserve registers.** -/
theorem calls_preserve_registers {p : Program} {method : Method} {f : Frame}
    {callee : Callee} (hf : f = .ofBody method.body)
    (hcallee : ∀ address m m', callee address m m' → f.KeptBy m m') :
    (∀ s ∈ method.body, s.op ∈ [.call, .newObject, .newIntArray, .print] →
      ∀ code, EmitContext.stmt ⟨p, method.label, f, method.body⟩ s = .ok code →
      ∀ m m', Executes f callee code m m' →
      ∀ r, (r = .v0 ∨ ∃ c < method.body.registersUsed, Register.ofColor? c = some r) →
        s.result? ≠ some r → m'.read r = m.read r) ∧
    ∀ items, emitMethod p method = .ok items → wordSize * f.words < 2 ^ 32 →
      ∀ m m' rest, Relation.ReflTransGen (Step f callee items) (items, m) (plain (.jr .ra) :: rest, m') →
        m'.read .ra = m.read .ra ∧ ∀ r ∈ Register.preserved, m'.read r = m.read r := by
  subst hf
  refine ⟨fun s _ hop code hcode m m' hexec r hr hne => ?_, fun items hitems hfit m m' rest hrun => ?_⟩
  · obtain ⟨dest, inner, rfl, hdest, hquiet⟩ := EmitContext.exists_preserving hop hcode
    refine read_of_executes_preserving hcallee (fun d hd => ?_) hquiet hexec
      (mem_calleeSaved_or_callerSavedRegisters hr) fun heq => hne (hdest r heq)
    obtain ⟨c, _, hc⟩ := Option.bind_eq_some_iff.1 (hdest d hd)
    exact mem_of_getElem? hc
  · obtain ⟨code, hcode, rfl⟩ := emitMethod_eq_ok hitems
    have hfit : (Frame.ofBody method.body).words < 2 ^ 30 := by
      rw [wordSize] at hfit
      omega
    have hbody : ∀ x ∈ code.flatten, x.Tame method.label (.ofBody method.body) := by
      intro x hx
      obtain ⟨items, hitems, hx⟩ := List.mem_flatten.1 hx
      obtain ⟨s, hs, hstmt⟩ := exists_left_of_forall₂ (mapM_eq_ok_iff.1 hcode) hitems
      exact EmitContext.tames_stmt rfl hs items hstmt x hx
    have hstart : RunsIn method.label (.ofBody method.body) code.flatten m
        (framed method.label (.ofBody method.body) code.flatten) m := by
      refine .straight (List.forall_mem_cons.2 ⟨rfl, Frame.isStraight_prologue _⟩) fun m₁ hm₁ => ?_
      exact .inside (suffix_refl _) (Frame.entered_of_prologue hfit hm₁)
    suffices h : ∀ x, Relation.ReflTransGen (Step (.ofBody method.body) callee _) _ x →
        RunsIn method.label (.ofBody method.body) code.flatten m x.1 x.2 from
      (h _ hrun).restored hbody
    intro x hrun
    induction hrun with
    | refl => exact hstart
    | tail _ hstep ih => exact ih.step hfit hcallee hbody hstep

/-- A method that prints a number. The service that it calls overwrites the register of the receiver. -/
theorem calls_preserve_registers_printing :
    ∃ (p : Program) (method : Method) (f : Frame) (callee : Callee) (s : Statement)
      (code : List AsmItem) (m m' : MachineState), f = .ofBody method.body ∧
      (∀ address m m', callee address m m' → f.KeptBy m m') ∧ s ∈ method.body ∧ s.op = .print ∧
      EmitContext.stmt ⟨p, method.label, f, method.body⟩ s = .ok code ∧ Executes f callee code m m' ∧
      m'.read .v0 = m.read .v0 := by
  let s : Statement := { id := 1, op := .print, left? := some 0 }
  let method : Method :=
    ⟨"main", none, [], none, [{ id := 0, op := .int, payload := .int 7, register? := some 0 }, s], [], none⟩
  let p : Program := ⟨method, [], .builtin, 2⟩
  let callee : Callee := fun _ m m' => m' = m.write .v0 0
  have hcallee : ∀ address m m', callee address m m' → (Frame.ofBody method.body).KeptBy m m' := by
    rintro _ m _ rfl
    have hne : ∀ r ∈ Register.preserved, r ≠ .v0 := by decide
    exact ⟨fun r hr => read_write_of_ne (hne r hr), fun _ _ => rfl⟩
  let f := Frame.ofBody method.body
  let m : MachineState := ⟨fun _ => 5, 0, 0, fun _ => some 0, fun _ => 0⟩
  let called (m : MachineState) := ((m.write .a0 (m.read .a0)).write .ra 0).write .v0 0
  have hrun : ((m.run? (saveCaller f none)).bind fun m =>
      (called m).run? (restoreCaller f none)).isSome = true := by decide +kernel
  obtain ⟨m', hrun⟩ := Option.isSome_iff_exists.1 hrun
  obtain ⟨m₁, hsaves, hloads⟩ := Option.bind_eq_some_iff.1 hrun
  have hexec : Executes f callee (callService f printLabel none [.move .a0 .a0]) m m' := by
    rw [callService, preserving]
    refine executes_append.2 ⟨called m₁, executes_append.2 ⟨_, executes_append.2 ⟨m₁, ?_, ?_⟩, rfl⟩, ?_⟩
    · exact executes_of_run? (by decide) hsaves
    · refine ⟨_, .exec rfl ?_, _, .jal rfl, rfl⟩
      rintro _ _ _ ⟨⟩
    · exact executes_of_run? (by decide) hloads
  have hs : s ∈ method.body := mem_cons_of_mem _ mem_cons_self
  have hcode : EmitContext.stmt ⟨p, method.label, f, method.body⟩ s =
      .ok (callService f printLabel none [.move .a0 .a0]) := rfl
  exact ⟨p, method, f, callee, s, _, m, m', rfl, hcallee, hs, rfl, hcode, hexec,
    (calls_preserve_registers rfl hcallee).1 s hs (by decide) _ hcode m m' hexec .v0 (Or.inl rfl)
      fun h => by cases h⟩

end MiniJava
