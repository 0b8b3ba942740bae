import MiniJava.Emit
import MiniJava.Proofs.Lowering.Evolution
import MiniJava.Proofs.Results

/-!
# The labels of an assembly

Which labels an assembly has can be read off the program: the dispatch tables, the services, and for
each method its start, the labels of its statements and its end. All other lines are without label.
Instructions refer to labels by name, and dispatch tables list labels of methods.
-/

namespace MiniJava

open Ssa List

def AsmItem.label? : AsmItem → Option String
  | .label name => some name
  | _ => none

def labelsOf (items : List AsmItem) : List String := items.filterMap (·.label?)

def Assembly.labels (asm : Assembly) : List String := labelsOf asm.items

@[simp] theorem labelsOf_nil : labelsOf [] = [] := rfl

@[simp] theorem labelsOf_label (name : String) (items : List AsmItem) :
    labelsOf (.label name :: items) = name :: labelsOf items := rfl

@[simp] theorem labelsOf_plain (i : Instr) (items : List AsmItem) :
    labelsOf (plain i :: items) = labelsOf items := rfl

@[simp] theorem labelsOf_noted (i : Instr) (comment : String) (items : List AsmItem) :
    labelsOf (noted i comment :: items) = labelsOf items := rfl

@[simp] theorem labelsOf_directive (text : String) (items : List AsmItem) :
    labelsOf (.directive text :: items) = labelsOf items := rfl

@[simp] theorem labelsOf_blank (items : List AsmItem) :
    labelsOf (.blank :: items) = labelsOf items := rfl

@[simp] theorem labelsOf_append (a b : List AsmItem) :
    labelsOf (a ++ b) = labelsOf a ++ labelsOf b := filterMap_append

@[simp] theorem labelsOf_map_plain {α : Type} (f : α → Instr) (as : List α) :
    labelsOf (as.map fun a => plain (f a)) = [] := by
  induction as with
  | nil => rfl
  | cons a as ih => rw [map_cons, labelsOf_plain, ih]

theorem labelsOf_preserving (frame : Frame) (dest : Option Register) (code : List AsmItem) :
    labelsOf (preserving frame dest code) = labelsOf code := by
  unfold preserving saveCaller restoreCaller
  cases dest <;> simp

/-! ## References -/

def Instr.target? : Instr → Option String
  | .la _ label | .beq _ _ label | .bne _ _ label | .j label | .jal label => some label
  | _ => none

/-- The names that a directive of words lists: what stands between commas, without blanks before it. -/
def wordNames (text : String) : List String :=
  if ".word ".toList <+: text.toList then
    ((text.toList.drop 6).splitOn ',').map fun name => .ofList (name.dropWhile (· == ' '))
  else []

/-- The labels that a line refers to. A zero in a list of words is not a name. -/
def AsmItem.references : AsmItem → List String
  | .instr i _ => i.target?.toList
  | .directive text => (wordNames text).filter (· ≠ "0")
  | _ => []

def referencesOf (items : List AsmItem) : List String := items.flatMap (·.references)

@[simp] theorem referencesOf_nil : referencesOf [] = [] := rfl

@[simp] theorem referencesOf_append (a b : List AsmItem) :
    referencesOf (a ++ b) = referencesOf a ++ referencesOf b := flatMap_append

@[simp] theorem referencesOf_cons (item : AsmItem) (items : List AsmItem) :
    referencesOf (item :: items) = item.references ++ referencesOf items := flatMap_cons

@[simp] theorem references_plain (i : Instr) : (plain i).references = i.target?.toList := rfl

@[simp] theorem references_noted (i : Instr) (comment : String) :
    (noted i comment).references = i.target?.toList := rfl

@[simp] theorem references_label (name : String) : (AsmItem.label name).references = [] := rfl

theorem referencesOf_map_plain {α : Type} {f : α → Instr} (h : ∀ a, (f a).target? = none)
    (as : List α) : referencesOf (as.map fun a => plain (f a)) = [] := by
  rw [referencesOf, flatMap_map]
  refine flatMap_eq_nil_iff.2 fun a _ => ?_
  rw [references_plain, h]
  rfl

theorem referencesOf_preserving (frame : Frame) (dest : Option Register) (code : List AsmItem) :
    referencesOf (preserving frame dest code) = referencesOf code := by
  have hsave : referencesOf (saveCaller frame dest) = [] := referencesOf_map_plain (fun _ => rfl) _
  have hrestore : referencesOf (restoreCaller frame dest) = [] :=
    referencesOf_map_plain (fun _ => rfl) _
  unfold preserving
  rw [referencesOf_append, referencesOf_append, referencesOf_append, hsave, hrestore]
  cases dest <;> simp [Instr.target?]

/-! ## Statements -/

/-- All that an emission can give has these labels, and refers to such labels only. -/
def Emits (labels : List String) (P : String → Prop) (x : Except EmitError (List AsmItem)) : Prop :=
  ∀ items, x = .ok items → labelsOf items = labels ∧ ∀ l ∈ referencesOf items, P l

namespace Emits

variable {α : Type} {labels : List String} {P : String → Prop} {items : List AsmItem}
  {x : Except EmitError α}

theorem of_forall (h : labelsOf items = labels) (hrefs : ∀ l ∈ referencesOf items, P l) :
    Emits labels P (.ok items) := by
  rintro _ ⟨⟩
  exact ⟨h, hrefs⟩

theorem lines (h : labelsOf items = labels) (hrefs : referencesOf items = []) :
    Emits labels P (.ok items) :=
  of_forall h (hrefs ▸ forall_mem_nil _)

theorem refer {item : AsmItem} {l : String} (h : labelsOf [item] = labels)
    (hrefs : item.references = [l]) (hl : P l) : Emits labels P (.ok [item]) := by
  refine of_forall h fun l' hl' => ?_
  rw [referencesOf_cons, hrefs, referencesOf_nil, append_nil] at hl'
  exact mem_singleton.1 hl' ▸ hl

theorem fault (s : Statement) (e : EmitFault) : Emits labels P (s.fault e) := by
  rintro _ ⟨⟩

theorem bind_of_ok {f : α → Except EmitError (List AsmItem)}
    (h : ∀ a, x = .ok a → Emits labels P (f a)) : Emits labels P (x >>= f) := by
  intro items hx
  obtain ⟨a, ha, hf⟩ := except_bind_eq_ok.1 hx
  exact h a ha items hf

theorem bind {f : α → Except EmitError (List AsmItem)} (h : ∀ a, Emits labels P (f a)) :
    Emits labels P (x >>= f) := bind_of_ok fun a _ => h a

theorem move (d s : Register) : Emits [] P (.ok (moveTo d s)) := by
  rw [moveTo]
  split <;> exact lines rfl rfl

theorem service {frame : Frame} {service : String} {dest : Option Register} {setup : List Instr}
    (hs : P service) (hsetup : ∀ i ∈ setup, ∀ l ∈ i.target?, P l) :
    Emits [] P (.ok (callService frame service dest setup)) := by
  refine of_forall ?_ fun l hl => ?_
  · rw [callService, labelsOf_preserving, labelsOf_append, labelsOf_map_plain fun i => i]
    rfl
  rw [callService, referencesOf_preserving, referencesOf_append, mem_append] at hl
  rcases hl with hl | hl
  · obtain ⟨item, hitem, hl⟩ := mem_flatMap.1 hl
    obtain ⟨i, hi, rfl⟩ := mem_map.1 hitem
    exact hsetup i hi l (Option.mem_toList.1 hl)
  · obtain rfl : l = service := by simpa [Instr.target?] using hl
    exact hs

end Emits

namespace EmitContext

variable (cx : EmitContext) (s : Statement)

inductive MayRefer : String → Prop
  | newObject : MayRefer newLabel
  | newArray : MayRefer newArrayLabel
  | print : MayRefer printLabel
  | table {name : String} (h : (cx.program.class? name).isSome = true) : MayRefer (tableLabel name)
  | jump {l : String} (hop : s.op.isJump = true) (hl : s.label? = some l) :
    MayRefer s!"{cx.label}_{l}"
  | ret : MayRefer (returnLabel cx.label)

theorem emits_binary {P : String → Prop} (op : BinOp) : Emits [] P (cx.binary s op) := by
  have halu : ∀ op, Emits [] P (cx.alu s op) := fun _ =>
    .bind fun _ => .bind fun _ => .bind fun _ => .lines rfl rfl
  have hlogic : ∀ op imm, Emits [] P (cx.logic s op imm) := fun _ _ =>
    .bind fun _ => .bind fun _ => .bind fun _ => .lines rfl rfl
  have hdivide : ∀ take : Register → Instr, (∀ r, (take r).target? = none) →
      Emits [] P (cx.divide s take) := by
    refine fun take htake => .bind fun d => .bind fun _ => .bind fun _ => .lines rfl ?_
    rw [referencesOf_cons, referencesOf_cons, references_plain, references_plain, htake]
    rfl
  have hequality : ∀ op different, Emits [] P (cx.equality s op different) := by
    refine fun _ _ => .bind fun _ => .bind fun same => ?_
    split
    · exact .bind fun _ => .bind fun _ => .lines rfl rfl
    · exact .lines rfl rfl
  cases op
  all_goals first
    | exact halu _
    | exact hlogic _ _
    | exact hequality _ _
    | exact hdivide _ fun _ => rfl

theorem emits_call {P : String → Prop} : Emits [] P (cx.call s) := by
  refine .bind fun _ => .bind fun _ => .bind fun _ => .bind fun _ => .lines ?_ ?_
  · rw [labelsOf_preserving]
    rfl
  · rw [referencesOf_preserving]
    rfl

theorem emits_member {P : String → Prop} : Emits [] P (cx.member s) := by
  refine .bind fun _ => .bind fun _ => .bind fun field => ?_
  split
  · split
    · exact .lines rfl rfl
    · exact .fault s _
  · exact .bind fun _ => .lines rfl rfl

theorem jumpLabel_eq_ok {l : String} (h : cx.jumpLabel s = .ok l) :
    ∃ name, s.label? = some name ∧ l = s!"{cx.label}_{name}" := by
  obtain ⟨name, hname, h⟩ := except_bind_eq_ok.1 h
  cases h
  cases hl : s.label? with
  | none =>
    rw [hl] at hname
    cases hname
  | some n =>
    rw [hl] at hname
    cases hname
    exact ⟨_, rfl, rfl⟩

/-- **The labels in the code of a statement, and those that it refers to.** A label has the label that
it carries, behind that of the method, and other statements have none. -/
theorem emits_stmt : Emits (Body.labelNames [s] |>.map fun l => s!"{cx.label}_{l}") (cx.MayRefer s)
    (cx.stmt s) := by
  by_cases hlabel : s.op = .label
  · rw [stmt, hlabel]
    refine .bind_of_ok fun l hl => .lines ?_ rfl
    obtain ⟨name, hname, rfl⟩ := cx.jumpLabel_eq_ok s hl
    simp [Body.labelNames_eq, hlabel, hname]
  rw [Body.labelNames_singleton hlabel, map_nil]
  have hjump : ∀ {l}, s.op.isJump = true → cx.jumpLabel s = .ok l → cx.MayRefer s l := by
    intro l hop hl
    obtain ⟨name, hname, rfl⟩ := cx.jumpLabel_eq_ok s hl
    exact .jump hop hname
  unfold stmt
  split
  all_goals first
    | exact absurd (by assumption) hlabel
    | exact cx.emits_binary s _
    | exact cx.emits_call s
    | exact cx.emits_member s
    | exact .lines rfl rfl
    | exact .bind fun _ => .lines rfl rfl
    | exact .bind fun _ => .bind fun _ => .lines rfl rfl
    | exact .bind fun _ => .bind fun _ => .bind fun _ => .lines rfl rfl
    | exact .bind fun _ => .bind fun _ => .bind fun _ => .bind fun _ => .lines rfl rfl
    | exact .bind fun _ => .bind fun _ => .move _ _
    | skip
  -- What is left are parameters, arguments and constants, and whatever refers to a label.
  · refine .bind fun _ => .bind fun _ => ?_
    split
    · exact .move _ _
    · exact .lines rfl rfl
  · refine .bind fun _ => .bind fun _ => ?_
    split
    · exact .move _ _
    · exact .lines rfl rfl
  · refine .bind fun _ => ?_
    split
    · exact .lines rfl rfl
    · exact .fault s _
  · refine .bind fun _ => ?_
    split
    · exact .lines rfl rfl
    · exact .fault s _
  · refine .bind fun _ => .bind fun name => .bind_of_ok fun words hwords => ?_
    have hclass : (cx.program.class? name).isSome = true := by
      rw [Program.objectSize?] at hwords
      cases hc : cx.program.class? name with
      | none =>
        rw [hc] at hwords
        cases hwords
      | some c => rfl
    refine .service .newObject (forall_mem_cons.2 ⟨?_, forall_mem_singleton.2 nofun⟩)
    rintro _ ⟨⟩
    exact .table hclass
  · exact .bind fun _ => .bind fun _ => .service .newArray (forall_mem_singleton.2 nofun)
  · exact .bind fun _ => .service .print (forall_mem_singleton.2 nofun)
  · next hop => exact .bind_of_ok fun l hl => .refer rfl rfl (hjump (by rw [hop]; rfl) hl)
  · next hop => exact .bind_of_ok fun l hl => .bind fun _ => .refer rfl rfl (hjump (by rw [hop]; rfl) hl)
  · next hop => exact .bind_of_ok fun l hl => .bind fun _ => .refer rfl rfl (hjump (by rw [hop]; rfl) hl)
  · refine .bind fun _ => .of_forall rfl fun l hl => ?_
    obtain rfl : l = returnLabel cx.label := by simpa [Instr.target?] using hl
    exact .ret

end EmitContext

/-! ## Methods and programs -/

def methodLabels (start : String) (labels : List String) : List String :=
  start :: labels.map (fun l => s!"{start}_{l}") ++ [returnLabel start]

theorem labelsOf_mapM_stmt (cx : EmitContext) {body : Body} {code : List (List AsmItem)}
    (h : body.mapM cx.stmt = .ok code) :
    labelsOf code.flatten = body.labelNames.map fun l => s!"{cx.label}_{l}" := by
  rw [mapM_eq_ok_iff] at h
  induction h with
  | nil => rfl
  | @cons s items body code hs _ ih =>
    rw [flatten_cons, labelsOf_append, ih, (cx.emits_stmt s items hs).1, ← map_append,
      ← Body.labelNames_append, singleton_append]

theorem labels_emitMethod {p : Program} {m : Method} {items : List AsmItem}
    (h : emitMethod p m = .ok items) : labelsOf items = methodLabels m.label m.body.labelNames := by
  obtain ⟨code, hcode, h⟩ := except_bind_eq_ok.1 h
  cases h
  have hbody := labelsOf_mapM_stmt _ hcode
  have hpush : ∀ is : List Instr, labelsOf (is.map plain) = [] := labelsOf_map_plain fun i => i
  simp [methodLabels, hbody, prologue, epilogue, hpush]

/-- **The labels of an assembly.** -/
theorem labels_emit {p : Program} {asm : Assembly} (h : p.emit = .ok asm) :
    asm.labels = p.classes.map (fun c => tableLabel c.name) ++
      ["main", newLabel, newArrayLabel, printLabel] ++
        p.methods.flatMap fun m => methodLabels m.label m.body.labelNames := by
  obtain ⟨methods, hmethods, h⟩ := except_bind_eq_ok.1 h
  cases h
  have htables : ∀ cs : List ClassDef, labelsOf (cs.flatMap (emitTable p)) =
      cs.map fun c => tableLabel c.name := by
    intro cs
    induction cs with
    | nil => rfl
    | cons c cs ih =>
      rw [flatMap_cons, labelsOf_append, ih]
      rfl
  have hcode : ∀ {ms : List Method} {blocks : List (List AsmItem)},
      List.Forall₂ (fun m items => emitMethod p m = .ok items) ms blocks →
        labelsOf blocks.flatten =
          ms.flatMap fun m => methodLabels m.label m.body.labelNames := by
    intro ms blocks hms
    induction hms with
    | nil => rfl
    | cons hm _ ih =>
      rw [flatten_cons, labelsOf_append, flatMap_cons, ih, labels_emitMethod hm]
  have hservices : labelsOf services = ["main", newLabel, newArrayLabel, printLabel] := rfl
  rw [Assembly.labels, labelsOf_append, labelsOf_append, hcode (mapM_eq_ok_iff.1 hmethods),
    hservices, emitTables, labelsOf_append, labelsOf_append, htables]
  simp

end MiniJava
