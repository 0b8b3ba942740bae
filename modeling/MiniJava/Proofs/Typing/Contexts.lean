import MiniJava.Proofs.Hierarchy.Members
import MiniJava.Proofs.Typing.Checked
import MiniJava.Proofs.Typing.Rules

/-!
# Contexts of checks

The check resolves the classes of a program before it looks at code. The context that it makes is
lawful, and in such a context all types that the rules come up with are in the table.
-/

namespace MiniJava

open Ssa List TypeTable

/-! ## Lawful contexts -/

theorem Ssa.Lowered.lawful {ast : Ast.Program} {p : Program} {cx : TypeContext} (h : Lowered ast p)
    (hcx : p.typeContext = .ok cx) : cx.Lawful := by
  obtain ⟨htypes, hclasses⟩ := Program.typeContext_eq_ok.1 hcx
  -- Classes and members keep their names when they are resolved.
  have hkeep : ∀ c' ∈ cx.classes, ∃ c ∈ p.classes, c.resolve cx.types = .ok c' ∧
      c'.fields.map (·.name) = c.fields.map (·.name) ∧
        c'.methods.map (·.name) = c.methods.map (·.name) := by
    intro c' hc'
    obtain ⟨c, hc, hresolve⟩ := exists_left_of_forall₂ hclasses hc'
    refine ⟨c, hc, hresolve, ?_⟩
    obtain ⟨fields, methods, hfields, hmethods, rfl⟩ := ClassDef.resolve_eq_ok.1 hresolve
    refine ⟨map_eq_of_forall₂ hfields fun f f' hf => ?_, map_eq_of_forall₂ hmethods fun m m' hm => ?_⟩
    · obtain ⟨_, _, rfl⟩ := Field.resolve_eq_ok.1 hf
      rfl
    · obtain ⟨_, _, _, _, rfl⟩ := Method.resolve_eq_ok.1 hm
      rfl
  have hhead : List.Forall₂ (fun c c' : ClassDef => c'.name = c.name ∧ c'.parent? = c.parent?)
      p.classes cx.classes := by
    refine hclasses.imp fun c c' hc => ?_
    obtain ⟨_, _, _, _, rfl⟩ := ClassDef.resolve_eq_ok.1 hc
    exact ⟨rfl, rfl⟩
  refine ⟨(hierarchy_of_ofClasses htypes h.nodup_classNames).of_forall₂ hhead,
    map_eq_of_forall₂ hhead (fun _ _ hc => hc.1) ▸ h.nodup_classNames, fun c' hc' => ?_,
    fun c' hc' => ?_, fun c' hc' => ?_⟩
  · obtain ⟨c, hc, _, hfields, _⟩ := hkeep c' hc'
    exact hfields ▸ h.nodup_fieldNames c hc
  · obtain ⟨c, hc, _, _, hmethods⟩ := hkeep c' hc'
    exact hmethods ▸ h.nodup_methodNames c hc
  · obtain ⟨c, _, hresolve, _⟩ := hkeep c' hc'
    exact ⟨c, hresolve⟩

/-! ## Types in the table -/

def TypeTable.Has (t : TypeTable) (id : TypeId) : Prop := ∃ e, t.get? id = some e

namespace TypeTable

variable {t : TypeTable} {cs : List ClassDef} {id : TypeId} {n : String} {decl : TypeName}

theorem has_of_lookup? (h : t.lookup? n = some id) : t.Has id := by
  obtain ⟨e, he, _⟩ := of_lookup? h
  exact ⟨e, he⟩

theorem resolve_eq_ok : t.resolve decl = .ok id ↔ t.lookup? decl.text = some id := by
  rw [resolve]
  split <;> simp [*]

theorem Hierarchy.has_builtin (h : Hierarchy t cs) (hid : TypeTable.builtin.Has id) : t.Has id := by
  obtain ⟨e, he⟩ := hid
  exact ⟨e, h.get?_builtin he⟩

end TypeTable

namespace TypeContext

variable {cx : TypeContext} {mx : MethodContext} {ty : StmtId → Option TypeId} {s : Statement}
  {target type : TypeId} {n : String}

def Signed (cx : TypeContext) (m : Method) : Prop :=
  (∀ t ∈ m.paramTypes, cx.types.Has t) ∧ ∀ t, m.returnType? = some t → cx.types.Has t

namespace Lawful

variable (hl : cx.Lawful)
include hl

theorem has_int : cx.types.Has .int := hl.hierarchy.has_builtin ⟨_, rfl⟩

theorem has_boolean : cx.types.Has .boolean := hl.hierarchy.has_builtin ⟨_, rfl⟩

theorem has_intArray : cx.types.Has .intArray := hl.hierarchy.has_builtin ⟨_, rfl⟩

theorem has_void : cx.types.Has .void := hl.hierarchy.has_builtin ⟨_, rfl⟩

theorem signed_of_resolve {m m' : Method} (h : m.resolve cx.types = .ok m') : cx.Signed m' := by
  obtain ⟨paramTypes, returnType, hparams, hreturns, rfl⟩ := Method.resolve_eq_ok.1 h
  constructor
  · intro t ht
    obtain ⟨p, _, hp⟩ := exists_left_of_forall₂ hparams ht
    exact has_of_lookup? (resolve_eq_ok.1 hp)
  · intro t ht
    cases ht
    rw [Method.Returns] at hreturns
    split at hreturns
    · exact has_of_lookup? (resolve_eq_ok.1 hreturns)
    · rw [hreturns]
      exact hl.has_void

theorem signed {c : ClassDef} (hc : c ∈ cx.classes) {m : Method} (hm : m ∈ c.methods) :
    cx.Signed m := by
  obtain ⟨decl, hdecl⟩ := hl.resolved c hc
  obtain ⟨_, methods, _, hmethods, rfl⟩ := ClassDef.resolve_eq_ok.1 hdecl
  obtain ⟨m₀, _, hm₀⟩ := exists_left_of_forall₂ hmethods hm
  exact hl.signed_of_resolve hm₀

theorem has_of_fieldType? (ht : cx.types.Has target) (h : cx.fieldType? target n = some type) :
    cx.types.Has type := by
  obtain ⟨e, he⟩ := ht
  rw [hl.fieldType?_eq he] at h
  obtain ⟨c, hc, hf⟩ := exists_of_findSome?_eq_some h
  obtain ⟨f, hf, htype⟩ := Option.bind_eq_some_iff.1 hf
  obtain ⟨decl, hdecl⟩ := hl.resolved c (mem_of_mem_chainIn hc)
  obtain ⟨fields, _, hfields, _, rfl⟩ := ClassDef.resolve_eq_ok.1 hdecl
  obtain ⟨f₀, _, hf₀⟩ := exists_left_of_forall₂ hfields (mem_of_find?_eq_some hf)
  obtain ⟨t, ht, rfl⟩ := Field.resolve_eq_ok.1 hf₀
  cases htype
  exact has_of_lookup? (resolve_eq_ok.1 ht)

theorem has_of_method? {m : Method} (ht : cx.types.Has target) (h : cx.method? target n = some m) :
    cx.types.Has (m.returnType?.getD .void) := by
  obtain ⟨e, he⟩ := ht
  rw [hl.method?_eq he] at h
  obtain ⟨c, hc, hm⟩ := exists_of_findSome?_eq_some h
  have hsigned := hl.signed (mem_of_mem_chainIn hc) (mem_of_find?_eq_some hm)
  cases hr : m.returnType? with
  | none => exact hl.has_void
  | some t => exact hsigned.2 t hr

end Lawful

structure Knows (cx : TypeContext) (mx : MethodContext) : Prop where
  this? : ∀ t, mx.this? = some t → cx.types.Has t
  params : ∀ t ∈ mx.params, cx.types.Has t

/-- **The rules stay within the table.** -/
theorem Follows.has (h : cx.Follows mx ty s type) (hl : cx.Lawful) (hmx : cx.Knows mx)
    (hty : ∀ id t, ty id = some t → cx.types.Has t) : cx.types.Has type := by
  have operand : ∀ {id? : Option StmtId} {t : TypeId}, id?.bind ty = some t → cx.types.Has t := by
    intro id? t ht
    obtain ⟨id, _, ht⟩ := Option.bind_eq_some_iff.1 ht
    exact hty id t ht
  unfold Follows at h
  cases hop : s.op with
  | unify =>
    rw [hop] at h
    exact operand h.1
  | aliasOf | arg | store =>
    rw [hop] at h
    exact operand h
  | this =>
    rw [hop] at h
    exact hmx.this? _ h
  | parameter =>
    rw [hop] at h
    exact hmx.params _ (mem_of_getElem? h)
  | null =>
    rw [hop] at h
    obtain ⟨decl, _, h⟩ := h
    exact has_of_lookup? (resolve_eq_ok.1 h)
  | newObject =>
    rw [hop] at h
    exact has_of_lookup? h.1
  | call =>
    rw [hop] at h
    obtain ⟨target, _, _, m, htarget, _, _, hm, _, rfl⟩ := h
    exact hl.has_of_method? (operand htarget) hm
  | member =>
    rw [hop] at h
    obtain ⟨target, htarget, h⟩ := h
    split at h
    · rw [h]
      exact hl.has_int
    · exact hl.has_of_fieldType? (operand htarget) h.2
  | assignVar =>
    rw [hop] at h
    exact operand h.1
  | assignMember =>
    rw [hop] at h
    obtain ⟨target, _, htarget, _, hfield, _⟩ := h
    exact hl.has_of_fieldType? (operand htarget) hfield
  | binary op =>
    rw [hop] at h
    cases op with
    | add | sub | mul | div | mod =>
      rw [h.2.2]
      exact hl.has_int
    | and | or | lt | le | gt | ge | eq | ne =>
      rw [h.2.2]
      exact hl.has_boolean
  | load =>
    rw [hop] at h
    exact h.elim
  | int =>
    rw [hop] at h
    rw [h]
    exact hl.has_int
  | boolean =>
    rw [hop] at h
    rw [h]
    exact hl.has_boolean
  | label | jump =>
    rw [hop] at h
    rw [h]
    exact hl.has_void
  | newIntArray =>
    rw [hop] at h
    rw [h.2]
    exact hl.has_intArray
  | branchIf | branchUnless | print | ret =>
    rw [hop] at h
    rw [h.2]
    exact hl.has_void
  | not =>
    rw [hop] at h
    rw [h.2]
    exact hl.has_boolean
  | index =>
    rw [hop] at h
    rw [h.2.2]
    exact hl.has_int
  | assignIndex =>
    rw [hop] at h
    rw [h.2.2.2]
    exact hl.has_int

end TypeContext

end MiniJava
