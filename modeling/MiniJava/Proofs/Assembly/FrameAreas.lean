import MiniJava.Proofs.Allocation.SpilledMachine
import MiniJava.Proofs.Assembly.WordMachine

/-!
# The areas of a frame

The sizes of the areas of a frame come from separate passes over the body. Counted in words from the
frame pointer down, each area starts where the one above it ends, so no word has two uses. Only the
arguments of calls are found the other way round: they are counted up from the stack pointer, which is
at the last word of the frame. For the called method the same words are above its own frame pointer.
-/

namespace MiniJava

open Ssa List

theorem byteOffset_add (a b : Int) : byteOffset a + byteOffset b = byteOffset (a + b) := by
  rw [byteOffset, byteOffset, byteOffset, Int.mul_add, Int32.ofInt_add]

namespace Frame

theorem below_zero : below 0 = 0 := rfl

theorem below_inj {n n' : Nat} (hn : n < n' + 2 ^ 30) (hn' : n' < n + 2 ^ 30)
    (h : below n = below n') : n = n' := by
  have h := congrArg Int32.toInt h
  have hsize : (Int32.size : Int) = 2 ^ 32 := rfl
  simp only [below, byteOffset, wordSize, Int32.toInt_ofInt, Int.bmod_def, hsize] at h
  omega

/-! ## Words -/

/-- The words of frames, by what they are for. -/
inductive Word where
  | spill (slot : Nat)
  | callerSave (index : Nat)
  | calleeSave (index : Nat)
  | returnAddress
  /-- An argument of a call that does not fit into the registers. -/
  | argument (position : Nat)
  deriving DecidableEq

namespace Word

/-- The offset of a word from the frame pointer. Arguments are addressed from the stack pointer, which
is as far below the frame pointer as the frame has words. -/
def offset (f : Frame) : Word → Int32
  | spill slot => spillOffset slot
  | callerSave index => f.callerSaveOffset index
  | calleeSave index => f.calleeSaveOffset index
  | returnAddress => f.returnOffset
  | argument position => below f.words + argOffset position

/-- The words that the code of a method with this body uses. -/
def UsedBy (body : Body) : Word → Prop
  | spill slot => ∃ s ∈ body, (s.op = .store ∨ s.op = .load) ∧ s.slot? = some slot
  | callerSave index => index < (ofBody body).callerSaved
  | calleeSave index => index < (ofBody body).calleeSaved
  | returnAddress => True
  | argument position => ∃ s ∈ body, s.op = .arg ∧ s.position? = some position ∧ 4 ≤ position

def Fits (f : Frame) : Word → Prop
  | spill slot => slot < f.spillSlots
  | callerSave index => index < f.callerSaved
  | calleeSave index => index < f.calleeSaved
  | returnAddress => True
  | argument position => 4 ≤ position ∧ position < 4 + f.outgoing

def depth (f : Frame) : Word → Nat
  | spill slot => slot + 1
  | callerSave index => f.spillSlots + 1 + index
  | calleeSave index => f.spillSlots + f.callerSaved + 1 + index
  | returnAddress => f.spillSlots + f.callerSaved + f.calleeSaved + 1
  | argument position => f.words + 4 - position

variable {f : Frame} {w w' : Word} {body : Body}

theorem UsedBy.fits (h : w.UsedBy body) : w.Fits (ofBody body) := by
  cases w with
  | spill slot =>
    obtain ⟨s, hs, hop, hslot⟩ := h
    exact Body.lt_nextFreeSlot hs hop hslot
  | callerSave | calleeSave | returnAddress => exact h
  | argument position =>
    obtain ⟨s, hs, hop, hposition, hle⟩ := h
    have hlast : position + 1 - 4 ≤ outgoingWords body := by
      refine le_foldl_max (fun p => p + 1 - 4) (Or.inr (mem_filterMap.2 ⟨s, hs, ?_⟩))
      rw [if_pos hop, hposition]
    exact ⟨hle, by change _ < 4 + outgoingWords body; omega⟩

theorem depth_bounds (h : w.Fits f) : 0 < w.depth f ∧ w.depth f ≤ f.words := by
  cases w <;> simp only [Fits, depth, words] at h ⊢ <;> omega

theorem depth_inj (h : w.Fits f) (h' : w'.Fits f) (heq : w.depth f = w'.depth f) : w = w' := by
  cases w <;> cases w' <;> simp only [Fits, depth, words] at h h' heq <;>
    first
      | omega
      | rfl
      | congr 1; omega

theorem offset_eq (h : w.Fits f) : w.offset f = below (w.depth f) := by
  cases w with
  | argument position =>
    obtain ⟨hle, hlt⟩ := h
    have hwords : position ≤ f.words + 4 := by
      rw [words]
      omega
    rw [offset, depth, below, argOffset, byteOffset_add, below]
    congr 1
    omega
  | _ => rfl

theorem offset_inj (hfit : f.words < 2 ^ 30) (h : w.Fits f) (h' : w'.Fits f)
    (heq : w.offset f = w'.offset f) : w = w' := by
  rw [offset_eq h, offset_eq h'] at heq
  have hb := (depth_bounds h).2
  have hb' := (depth_bounds h').2
  exact depth_inj h h' (below_inj (by omega) (by omega) heq)

end Word

end Frame

/-! ## Saving and restoring -/

namespace MachineState

variable {α : Type} {as : List α} {reg : α → Register} {off : α → Int32} {base : Register}
  {m m' : MachineState}

theorem store?_eq_some {address w : Int32} (h : m.store? address w = some m') :
    m'.registers = m.registers ∧ m'.memory address = some w ∧
      ∀ x, x ≠ address → m'.memory x = m.memory x := by
  obtain ⟨_, _, rfl⟩ := Option.map_eq_some_iff.1 h
  exact ⟨rfl, if_pos rfl, fun x hx => if_neg hx⟩

theorem read_eq_of_registers {r : Register} (h : m'.registers = m.registers) :
    m'.read r = m.read r := by rw [read, read, h]

/-- What a sequence of stores does. A word that is written more than once gets the same value. -/
theorem run?_saves (h : run? (as.map fun a => plain (.sw (reg a) (off a) base)) m = some m') :
    m'.registers = m.registers ∧
      (∀ x, (∀ a ∈ as, x ≠ m.read base + off a) → m'.memory x = m.memory x) ∧
      ∀ a ∈ as, (∀ b ∈ as, off b = off a → reg b = reg a) →
        m'.memory (m.read base + off a) = some (m.read (reg a)) := by
  induction as generalizing m with
  | nil =>
    cases h
    exact ⟨rfl, fun _ _ => rfl, nofun⟩
  | cons a as ih =>
    obtain ⟨m₁, h₁, h⟩ := Option.bind_eq_some_iff.1 h
    obtain ⟨hreg₁, hself, hother⟩ := store?_eq_some h₁
    have hread : ∀ r, m₁.read r = m.read r := fun r => read_eq_of_registers hreg₁
    obtain ⟨hreg, hout, hin⟩ := ih h
    simp only [hread] at hout hin
    refine ⟨hreg.trans hreg₁, fun x hx => ?_, fun b hb hsame => ?_⟩
    · obtain ⟨hxa, hx⟩ := forall_mem_cons.1 hx
      rw [hout x hx, hother x hxa]
    · by_cases hlater : ∃ c ∈ as, off c = off b
      · obtain ⟨c, hc, hcb⟩ := hlater
        have hcreg := hsame c (mem_cons_of_mem _ hc) hcb
        rw [← hcb, ← hcreg]
        refine hin c hc fun d hd hdc => ?_
        rw [hsame d (mem_cons_of_mem _ hd) (hdc.trans hcb), hcreg]
      · obtain rfl | hb := mem_cons.1 hb
        · rw [hout _ fun c hc heq => hlater ⟨c, hc, (Int32.add_right_inj _).1 heq.symm⟩, hself]
        · exact absurd ⟨b, hb, rfl⟩ hlater

theorem run?_loads (h : run? (as.map fun a => plain (.lw (reg a) (off a) base)) m = some m')
    (hbase : ∀ a ∈ as, reg a ≠ base) (hzero : ∀ a ∈ as, reg a ≠ .zero) :
    m'.memory = m.memory ∧ (∀ r, (∀ a ∈ as, r ≠ reg a) → m'.read r = m.read r) ∧
      ∀ a ∈ as, (∀ b ∈ as, reg b = reg a → off b = off a) →
        m.memory (m.read base + off a) = some (m'.read (reg a)) := by
  induction as generalizing m with
  | nil =>
    cases h
    exact ⟨rfl, fun _ _ => rfl, nofun⟩
  | cons a as ih =>
    obtain ⟨m₁, h₁, h⟩ := Option.bind_eq_some_iff.1 h
    obtain ⟨w, hw, rfl⟩ := Option.map_eq_some_iff.1 h₁
    obtain ⟨ha, hbase⟩ := forall_mem_cons.1 hbase
    obtain ⟨hz, hzero⟩ := forall_mem_cons.1 hzero
    obtain ⟨hmem, hout, hin⟩ := ih h hbase hzero
    rw [read_write_of_ne ha.symm] at hin
    refine ⟨hmem, fun r hr => ?_, fun b hb hsame => ?_⟩
    · obtain ⟨hra, hr⟩ := forall_mem_cons.1 hr
      rw [hout r hr, read_write_of_ne hra]
    · by_cases hlater : ∃ c ∈ as, reg c = reg b
      · obtain ⟨c, hc, hcb⟩ := hlater
        have hcoff := hsame c (mem_cons_of_mem _ hc) hcb
        rw [← hcb, ← hcoff]
        refine hin c hc fun d hd hdc => ?_
        rw [hsame d (mem_cons_of_mem _ hd) (hdc.trans hcb), hcoff]
      · obtain rfl | hb := mem_cons.1 hb
        · rw [hout _ fun c hc heq => hlater ⟨c, hc, heq.symm⟩, read_write_self hz]
          exact hw
        · exact absurd ⟨b, hb, rfl⟩ hlater

theorem run?_append (xs ys : List AsmItem) (m : MachineState) :
    run? (xs ++ ys) m = (run? xs m).bind (run? ys) := by
  induction xs generalizing m with
  | nil => rfl
  | cons x xs ih =>
    cases x with
    | instr i _ =>
      change (i.exec? m).bind _ = ((i.exec? m).bind _).bind _
      rw [Option.bind_assoc]
      exact congrArg _ (funext ih)
    | _ => exact ih m

end MachineState

namespace Frame

/-- The registers that a method saves at its start, and the words for them. -/
def kept (f : Frame) : List (Register × Word) :=
  (.ra, .returnAddress) :: f.calleeSavedRegisters.zipIdx.map fun (r, i) => (r, .calleeSave i)

theorem prologue_eq (f : Frame) : prologue f =
    plain (.bumpSp (byteOffset (-1))) :: plain (.sw .fp 0 .sp) :: plain (.move .fp .sp) ::
      plain (.bumpSp (below f.words)) :: f.kept.map fun k => plain (.sw k.1 (k.2.offset f) .fp) := by
  simp only [prologue, Instr.push, kept, map_cons, map_nil, map_map]
  rfl

variable {f : Frame} {m m' : MachineState}

theorem exec?_bumpSp (m : MachineState) (delta : Int32) :
    (Instr.bumpSp delta).exec? m = some (m.write .sp (m.read .sp + delta)) := rfl

theorem exec?_move (m : MachineState) (d s : Register) :
    (Instr.move d s).exec? m = some (m.write d (m.read s)) := rfl

theorem run?_prologue (h : m.run? (prologue f) = some m') :
    ∃ m₁ : MachineState, m₁.run? (f.kept.map fun k => plain (.sw k.1 (k.2.offset f) .fp)) = some m' ∧
      m₁.read .fp = m.read .sp + byteOffset (-1) ∧ m₁.read .sp = m₁.read .fp + below f.words ∧
      m₁.memory (m₁.read .fp) = some (m.read .fp) ∧
      ∀ r, r ≠ .fp → r ≠ .sp → m₁.read r = m.read r := by
  rw [prologue_eq, MachineState.run?_plain, exec?_bumpSp, Option.bind_some, MachineState.run?_plain] at h
  obtain ⟨m₂, h₂, h⟩ := Option.bind_eq_some_iff.1 h
  rw [MachineState.run?_plain, exec?_move, Option.bind_some, MachineState.run?_plain, exec?_bumpSp,
    Option.bind_some] at h
  obtain ⟨hreg, hself, _⟩ := MachineState.store?_eq_some h₂
  have hread : ∀ r, r ≠ .sp → m₂.read r = m.read r := fun r hr =>
    (MachineState.read_eq_of_registers hreg).trans (MachineState.read_write_of_ne hr)
  have hsp : m₂.read .sp = m.read .sp + byteOffset (-1) :=
    (MachineState.read_eq_of_registers hreg).trans (MachineState.read_write_self (by decide))
  have hfp : ∀ w, ((m₂.write .fp (m₂.read .sp)).write .sp w).read .fp = m₂.read .sp := fun w =>
    (MachineState.read_write_of_ne (by decide)).trans (MachineState.read_write_self (by decide))
  refine ⟨_, h, (hfp _).trans hsp, ?_, ?_, fun r hrfp hrsp => ?_⟩
  · rw [hfp, MachineState.read_write_self (by decide), MachineState.read_write_of_ne (by decide)]
  · rw [hfp, MachineState.memory_write, MachineState.memory_write, hsp]
    rw [Int32.add_zero, MachineState.read_write_self (by decide),
      MachineState.read_write_of_ne (by decide)] at hself
    exact hself
  · rw [MachineState.read_write_of_ne hrsp, MachineState.read_write_of_ne hrfp, hread r hrsp]

end Frame

/-- **The areas of a frame never overlap.** The words that the code of a method uses have different
offsets, below the saved frame pointer and not below the stack pointer, and a called method finds its
parameters where its caller has put the arguments. -/
theorem frame_areas_are_apart {body : Body} {f : Frame} (hf : f = .ofBody body)
    (hfit : wordSize * f.words ≤ 2 ^ 31) :
    (∀ w w' : Frame.Word, w.UsedBy body → w'.UsedBy body → w.offset f = w'.offset f → w = w') ∧
    (∀ w : Frame.Word, w.UsedBy body →
      -(wordSize * f.words : Int) ≤ (w.offset f).toInt ∧ (w.offset f).toInt < 0) ∧
    ∀ (callee : Frame) (m m' : MachineState), m.run? (prologue callee) = some m' →
      m'.read .sp = m'.read .fp + Frame.below callee.words ∧
      ∀ position, m'.read .fp + Frame.paramOffset position = m.read .sp + Frame.argOffset position := by
  have hwords : f.words < 2 ^ 30 := by
    rw [wordSize] at hfit
    omega
  subst hf
  refine ⟨fun w w' hw hw' => Frame.Word.offset_inj hwords hw.fits hw'.fits, fun w hw => ?_,
    fun callee m m' h => ?_⟩
  · rw [Frame.Word.offset_eq hw.fits]
    have hsize : (Int32.size : Int) = 2 ^ 32 := rfl
    have hdepth := Frame.Word.depth_bounds hw.fits
    simp only [Frame.below, byteOffset, wordSize, Int32.toInt_ofInt, Int.bmod_def, hsize] at hfit ⊢
    omega
  · obtain ⟨m₁, hsaves, hfp, hsp, _⟩ := Frame.run?_prologue h
    have hread := fun r => MachineState.read_eq_of_registers (MachineState.run?_saves hsaves).1 (r := r)
    rw [hread, hread]
    refine ⟨hsp, fun position => ?_⟩
    rw [hfp, Int32.add_assoc, Frame.paramOffset, Frame.argOffset, byteOffset_add]
    congr 2
    omega

/-- A frame of 21 words, all of whose areas are in use. -/
theorem frame_areas_are_apart_with_all_areas :
    ∃ body f, f = Frame.ofBody body ∧ f = ⟨2, 14, 2, 2⟩ ∧ (Frame.Word.spill 1).UsedBy body ∧
      (Frame.Word.argument 5).UsedBy body ∧
      Frame.Word.offset f (.spill 1) ≠ Frame.Word.offset f (.argument 5) ∧
      -84 ≤ (Frame.Word.offset f (.argument 5)).toInt ∧
      ∃ m m' : MachineState, m.run? (prologue f) = some m' ∧
        m'.read .fp + Frame.paramOffset 5 = m.read .sp + Frame.argOffset 5 := by
  let body : Body :=
    [{ id := 0, op := .int, payload := .int 7, register? := some 13 },
      { id := 1, op := .store, left? := some 0, payload := .slot 1 },
      { id := 2, op := .arg, left? := some 0, payload := .position 5 }]
  have hspill : (Frame.Word.spill 1).UsedBy body :=
    ⟨_, mem_cons_of_mem _ mem_cons_self, Or.inl rfl, rfl⟩
  have hargument : (Frame.Word.argument 5).UsedBy body :=
    ⟨_, mem_cons_of_mem _ (mem_cons_of_mem _ mem_cons_self), rfl, rfl, by decide⟩
  let m : MachineState := ⟨fun _ => 0, 0, 0, fun _ => some 0, fun _ => 0⟩
  obtain ⟨hapart, hbounds, hcalls⟩ := @frame_areas_are_apart body _ rfl (by decide)
  have hrun : (m.run? (prologue (.ofBody body))).isSome = true := by decide +kernel
  obtain ⟨m', hm'⟩ := Option.isSome_iff_exists.1 hrun
  refine ⟨body, _, rfl, rfl, hspill, hargument, fun h => ?_, (hbounds _ hargument).1, m, m', hm',
    (hcalls _ m m' hm').2 5⟩
  cases hapart _ _ hspill hargument h

end MiniJava
