import MiniJava.Proofs.Allocation.TypedCode

/-!
# Which field an access means

A class may declare a field again that one of its ancestors declares. An object has both, and the
static type of the target says which of them an access means: the nearest declaration from there
upwards. This is the place that layout gives to the field.
-/

namespace MiniJava.Ssa

open List

/-- The name of a field in objects, given the class that declares it and its declared name. -/
abbrev FieldNaming := String → String → String

/-- Fields are kept under their declared names, so that one of an ancestor is hidden by one of the same
name. -/
def FieldNaming.plain : FieldNaming := fun _ field => field

def FieldNaming.qualified : FieldNaming := fun owner field => owner ++ "." ++ field

def fieldOwner? (classes : List ClassDef) (className field : String) : Option ClassDef :=
  (chainIn classes className).find? fun c => (c.field? field).isSome

/-- The name under which an access finds a field. The length of an array is not a field. -/
def FieldNaming.access (naming : FieldNaming) (types : TypeTable) (classes : List ClassDef)
    (target : TypeId) (field : String) : String :=
  match fieldOwner? classes (types.name target) field with
  | some owner => naming owner.name field
  | none => field

def FieldsAgree (naming : FieldNaming) (classes : List ClassDef) : Prop :=
  ∀ className, ∀ c ∈ chainIn classes className, ∀ d ∈ chainIn classes className,
    ∀ f ∈ c.fields, ∀ g ∈ d.fields, naming c.name f.name = naming d.name g.name → f.type? = g.type?

/-- Renames the field that a statement accesses, given the type of its target. -/
def Statement.renameField (rename : TypeId → String → String) (ty : StmtId → Option TypeId)
    (s : Statement) : Statement :=
  match s.op, s.payload, s.left?.bind ty with
  | .member, .name field, some target => { s with payload := .name (rename target field) }
  | .assignMember, .name field, some target => { s with payload := .name (rename target field) }
  | _, _, _ => s

def Method.renameFields (rename : TypeId → String → String) (m : Method) : Method :=
  { m with body := m.body.map (·.renameField rename m.body.type?) }

def ClassDef.renameFields (naming : FieldNaming) (rename : TypeId → String → String) (c : ClassDef) :
    ClassDef :=
  { c with
    fields := c.fields.map fun f => { f with name := naming c.name f.name }
    methods := c.methods.map (·.renameFields rename) }

def Program.named (p : Program) (naming : FieldNaming) : Program :=
  let rename := naming.access p.types p.classes
  { p with
    main := p.main.renameFields rename
    classes := p.classes.map (·.renameFields naming rename) }

/-! ## Renamed statements -/

namespace Statement

variable {rename : TypeId → String → String} {ty : StmtId → Option TypeId} {s : Statement}

theorem renameField_cases (rename : TypeId → String → String) (ty : StmtId → Option TypeId)
    (s : Statement) : s.renameField rename ty = s ∨ ∃ field field',
      s.payload = .name field ∧ s.renameField rename ty = { s with payload := .name field' } := by
  unfold renameField
  split
  · next field target _ hpayload _ => exact Or.inr ⟨field, rename target field, hpayload, rfl⟩
  · next field target _ hpayload _ => exact Or.inr ⟨field, rename target field, hpayload, rfl⟩
  · exact Or.inl rfl

@[simp] theorem id_renameField : (s.renameField rename ty).id = s.id := by
  rcases renameField_cases rename ty s with h | ⟨_, _, _, h⟩ <;> rw [h]

@[simp] theorem op_renameField : (s.renameField rename ty).op = s.op := by
  rcases renameField_cases rename ty s with h | ⟨_, _, _, h⟩ <;> rw [h]

@[simp] theorem type?_renameField : (s.renameField rename ty).type? = s.type? := by
  rcases renameField_cases rename ty s with h | ⟨_, _, _, h⟩ <;> rw [h]

@[simp] theorem label?_renameField : (s.renameField rename ty).label? = s.label? := by
  rcases renameField_cases rename ty s with h | ⟨_, _, hpayload, h⟩
  · rw [h]
  · rw [h, label?, label?, hpayload]

@[simp] theorem uses_renameField : (s.renameField rename ty).uses = s.uses := by
  rcases renameField_cases rename ty s with h | ⟨_, _, hpayload, h⟩
  · rw [h]
  · rw [h, uses, uses, operands, operands, hpayload]
    rfl

@[simp] theorem slot?_renameField : (s.renameField rename ty).slot? = s.slot? := by
  rcases renameField_cases rename ty s with h | ⟨_, _, hpayload, h⟩
  · rw [h]
  · rw [h, slot?, slot?, hpayload]

theorem mergeOperands_renameField :
    (s.renameField rename ty).mergeOperands = s.mergeOperands := by
  rcases renameField_cases rename ty s with h | ⟨_, _, _, h⟩
  · rw [h]
  · rw [h]
    rfl

end Statement

/-! ## The plain naming -/

theorem FieldNaming.access_plain (types : TypeTable) (classes : List ClassDef) (target : TypeId)
    (field : String) : plain.access types classes target field = field := by
  unfold access
  split <;> rfl

theorem Method.renameFields_eq_self {rename : TypeId → String → String}
    (h : ∀ target field, rename target field = field) (m : Method) : m.renameFields rename = m := by
  have hbody : ∀ s : Statement, s.renameField rename m.body.type? = s := by
    intro s
    unfold Statement.renameField
    split
    · next hpayload _ => rw [h, ← hpayload]
    · next hpayload _ => rw [h, ← hpayload]
    · rfl
  rw [renameFields, map_congr_left fun s _ => hbody s, map_id']

/-- **The plain naming changes nothing.** -/
theorem Program.named_plain (p : Program) : p.named .plain = p := by
  have hrename := FieldNaming.access_plain p.types p.classes
  have hclass : ∀ c : ClassDef,
      c.renameFields .plain (FieldNaming.plain.access p.types p.classes) = c := by
    intro c
    rw [ClassDef.renameFields,
      map_congr_left fun m _ => Method.renameFields_eq_self hrename m, map_id']
    simp [FieldNaming.plain]
  rw [named, Method.renameFields_eq_self hrename, map_congr_left fun c _ => hclass c,
    map_id']

end MiniJava.Ssa
