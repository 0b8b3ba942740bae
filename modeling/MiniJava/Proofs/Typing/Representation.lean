import MiniJava.Proofs.Typing.Contexts
import MiniJava.Proofs.Typing.Source

/-!
# The types of a source

The check numbers the types of a program and looks members up by number. This file says what the
numbers mean in terms of names: which names have one, what is above what, and what a class declares
and inherits.
-/

namespace MiniJava

open Ast Ssa List TypeTable

/-! ## Representation -/

structure RepresentsMethod (types : TypeTable) (decl : MethodDecl) (m : Method) : Prop where
  name : m.name = decl.name
  params : List.Forall₂ (fun d t => types.lookup? d.type.text = some t) decl.params m.paramTypes
  result : ∃ t, m.returnType? = some t ∧ types.lookup? decl.returnType.text = some t

structure RepresentsClass (types : TypeTable) (decl : ClassDecl) (c : ClassDef) : Prop where
  name : c.name = decl.name
  parent? : c.parent? = decl.parent?
  fields : List.Forall₂ (fun d f => f.name = d.name ∧ ∃ t, f.type? = some t ∧
    types.lookup? d.type.text = some t) decl.fields c.fields
  methods : List.Forall₂ (RepresentsMethod types) decl.methods c.methods

structure TypeContext.Represents (cx : TypeContext) (ast : Ast.Program) : Prop where
  lawful : cx.Lawful
  classes : List.Forall₂ (RepresentsClass cx.types) ast.classes cx.classes

theorem Ssa.LoweredMethod.represents {types : TypeTable} {owner : String} {bound : StmtId}
    {decl : MethodDecl} {m m' : Method} (h : LoweredMethod owner bound decl m)
    (hm : m.resolve types = .ok m') : RepresentsMethod types decl m' := by
  obtain ⟨paramTypes, returnType, hparams, hreturns, rfl⟩ := Method.resolve_eq_ok.1 hm
  obtain ⟨sc, sc', hlower, _⟩ := h
  have hhead := lowerMethod_head hlower
  rw [Method.Returns] at hreturns
  rw [hhead] at hparams hreturns ⊢
  exact ⟨rfl, hparams.imp fun _ _ hp => resolve_eq_ok.1 hp, returnType, rfl,
    resolve_eq_ok.1 hreturns⟩

theorem Ssa.Lowered.represents {ast : Ast.Program} {p : Ssa.Program} {cx : TypeContext}
    (h : Lowered ast p) (hcx : p.typeContext = .ok cx) : cx.Represents ast := by
  refine ⟨h.lawful hcx, forall₂_trans h.classes (Program.typeContext_eq_ok.1 hcx).2 ?_⟩
  intro decl c c' hlowered hresolve
  obtain ⟨fields, methods, hfields, hmethods, rfl⟩ := ClassDef.resolve_eq_ok.1 hresolve
  refine ⟨hlowered.name, hlowered.parent?, ?_, ?_⟩
  · rw [hlowered.fields, forall₂_map_left_iff] at hfields
    refine hfields.imp fun d f hf => ?_
    obtain ⟨t, ht, rfl⟩ := Field.resolve_eq_ok.1 hf
    exact ⟨rfl, t, rfl, resolve_eq_ok.1 ht⟩
  · exact forall₂_trans hlowered.methods hmethods fun _ _ _ hm hm' => hm.represents hm'

/-! ## Names -/

namespace TypeTable.Hierarchy

variable {t : TypeTable} {cs : List ClassDef} {id id' : TypeId} {σ τ : String}

section

variable (h : Hierarchy t cs)
include h

theorem lookup?_builtin {e : StaticType} (he : TypeTable.builtin.get? id = some e) :
    t.lookup? e.name = some id :=
  h.lookup?_eq_some.2 ⟨e, h.get?_builtin he, rfl⟩

theorem lookup?_object : t.lookup? "Object" = some .object :=
  h.lookup?_builtin (show TypeTable.builtin.get? .object = some (.object "Object" none) from rfl)

theorem lookup?_int : t.lookup? "int" = some .int :=
  h.lookup?_builtin (show TypeTable.builtin.get? .int = some .int from rfl)

theorem lookup?_boolean : t.lookup? "boolean" = some .boolean :=
  h.lookup?_builtin (show TypeTable.builtin.get? .boolean = some .boolean from rfl)

theorem lookup?_intArray : t.lookup? "int[]" = some .intArray :=
  h.lookup?_builtin
    (show TypeTable.builtin.get? .intArray = some (.object "int[]" (some .object)) from rfl)

theorem name_unique (hσ : t.lookup? σ = some id) (hτ : t.lookup? τ = some id) : σ = τ := by
  obtain ⟨e, he, rfl⟩ := h.lookup?_eq_some.1 hσ
  obtain ⟨e', he', rfl⟩ := h.lookup?_eq_some.1 hτ
  rw [Option.some.inj (he.symm.trans he')]

theorem exists_name (hid : t.Has id) : ∃ σ, t.lookup? σ = some id := by
  obtain ⟨e, he⟩ := hid
  exact ⟨e.name, h.lookup?_eq_some.2 ⟨e, he, rfl⟩⟩

theorem has_of_parent? (hp : t.parent? id = some id') : t.Has id' := by
  obtain ⟨n, he⟩ := exists_get?_of_parent? hp
  have hlt := Nat.lt_trans (h.parent_lt hp) (lt_of_get? he)
  exact ⟨_, getElem?_eq_getElem hlt⟩

end

end TypeTable.Hierarchy

theorem mem_builtinNames_iff {n : String} :
    n ∈ builtinNames ↔ ∃ id e, builtin.get? id = some e ∧ e.name = n := by
  change n ∈ builtin.entries.map (·.name) ↔ _
  rw [mem_map]
  constructor
  · rintro ⟨e, he, hn⟩
    obtain ⟨id, hid⟩ := List.mem_iff_getElem?.1 he
    exact ⟨id, e, hid, hn⟩
  · rintro ⟨id, e, he, hn⟩
    exact ⟨e, mem_of_getElem? he, hn⟩

theorem TypeTable.Hierarchy.isType_iff {t : TypeTable} {cs : List ClassDef} {ast : Ast.Program}
    {σ : String} (h : Hierarchy t cs) (hnames : cs.map (·.name) = ast.classes.map (·.name)) :
    ast.IsType σ ↔ ∃ id, t.lookup? σ = some id := by
  constructor
  · rintro (hb | ⟨decl, hdecl, rfl⟩)
    · obtain ⟨id, e, he, rfl⟩ := mem_builtinNames_iff.1 hb
      exact ⟨id, h.lookup?_builtin he⟩
    · have hmem : decl.name ∈ cs.map (·.name) := hnames ▸ mem_map_of_mem hdecl
      obtain ⟨c, hc, hname⟩ := List.mem_map.1 hmem
      obtain ⟨id, parent, hid, _⟩ := h.classes c hc
      exact ⟨id, h.lookup?_eq_some.2 ⟨_, hid, hname⟩⟩
  · rintro ⟨id, hid⟩
    obtain ⟨e, he, rfl⟩ := h.lookup?_eq_some.1 hid
    rcases h.complete id e he with hb | ⟨c, hc, hname⟩
    · exact Or.inl (mem_builtinNames_iff.2 ⟨id, e, hb, rfl⟩)
    · have hmem : c.name ∈ ast.classes.map (·.name) := hnames ▸ mem_map_of_mem hc
      obtain ⟨decl, hdecl, hdname⟩ := List.mem_map.1 hmem
      exact Or.inr ⟨decl, hdecl, hdname.trans hname.symm⟩

namespace TypeContext.Represents

variable {cx : TypeContext} {ast : Ast.Program} {id id' : TypeId} {σ τ x : String}

section

variable (h : cx.Represents ast)
include h

theorem isType_iff : ast.IsType σ ↔ ∃ id, cx.types.lookup? σ = some id :=
  h.lawful.hierarchy.isType_iff (map_eq_of_forall₂ h.classes fun _ _ hclass => hclass.name)

theorem name_not_mem_builtinNames {decl : ClassDecl} (hdecl : decl ∈ ast.classes) :
    decl.name ∉ builtinNames := by
  intro hb
  obtain ⟨id, e, he, hname⟩ := mem_builtinNames_iff.1 hb
  obtain ⟨c, hc, hclass⟩ := exists_right_of_forall₂ h.classes hdecl
  refine List.find?_eq_none.1 (h.lawful.hierarchy.find?_builtin he) c hc ?_
  rw [hclass.name, hname, beq_self_eq_true]

theorem of_decl {decl : ClassDecl} (hdecl : decl ∈ ast.classes)
    (hid : cx.types.lookup? decl.name = some id) :
    ∃ c ∈ cx.classes, ∃ parent, RepresentsClass cx.types decl c ∧ cx.classOf? id = some c ∧
      cx.types.parent? id = some parent ∧ cx.types.parentOf? c = some parent ∧ parent < id := by
  have hh := h.lawful.hierarchy
  obtain ⟨c, hc, hclass⟩ := exists_right_of_forall₂ h.classes hdecl
  obtain ⟨e, he, hname⟩ := hh.lookup?_eq_some.1 hid
  obtain ⟨parent, rfl, hparent, hlt, _⟩ := hh.of_class hc he (hname.trans hclass.name.symm)
  refine ⟨c, hc, parent, hclass, ?_, parent?_eq he, hparent, hlt⟩
  rw [h.lawful.classOf?_eq, name_eq he]
  exact (find?_eq_some_iff_of_nodup h.lawful.nodup_classes).2 ⟨hc, rfl⟩

theorem exists_decl (hid : cx.types.lookup? σ = some id) {c : ClassDef}
    (hc : cx.classOf? id = some c) : ∃ decl ∈ ast.classes, decl.name = σ := by
  obtain ⟨e, he, rfl⟩ := h.lawful.hierarchy.lookup?_eq_some.1 hid
  rw [h.lawful.classOf?_eq, name_eq he] at hc
  obtain ⟨decl, hdecl, hclass⟩ := exists_left_of_forall₂ h.classes (mem_of_find?_eq_some hc)
  have hname : c.name = e.name := by simpa using find?_some hc
  exact ⟨decl, hdecl, hclass.name.symm.trans hname⟩

theorem classOf?_object : cx.classOf? .object = none := by
  rw [h.lawful.classOf?_eq]
  exact h.lawful.hierarchy.find?_object

theorem findSome?_ancestors_eq_none {β : Type} {find : ClassDef → Option β}
    (hid : cx.classOf? id = none) :
    (cx.types.ancestors id).findSome? (fun i => (cx.classOf? i).bind find) = none := by
  have hh := h.lawful.hierarchy
  cases hp : cx.types.parent? id with
  | none =>
    rw [TypeTable.Hierarchy.ancestors_of_none hp, findSome?_singleton, hid]
    rfl
  | some parent =>
    obtain ⟨rfl, rfl⟩ := hh.of_parent? hp (by rw [← h.lawful.classOf?_eq, hid])
    rw [hh.ancestors_of_some hp, hh.ancestors_object, findSome?_cons, hid,
      findSome?_singleton, h.classOf?_object]
    rfl

/-! ## Subtypes -/

theorem extends_iff (hσ : cx.types.lookup? σ = some id) : ast.Extends σ τ ↔
      ∃ parent, cx.types.parent? id = some parent ∧ cx.types.lookup? τ = some parent := by
  have hh := h.lawful.hierarchy
  constructor
  · intro hex
    cases hex with
    | array =>
      obtain rfl := Option.mem_unique hσ hh.lookup?_intArray
      exact ⟨.object, parent?_eq (hh.get?_builtin
        (show builtin.get? .intArray = some (.object "int[]" (some .object)) from rfl)),
        hh.lookup?_object⟩
    | @root decl hdecl hnone =>
      obtain ⟨c, _, parent, hclass, _, hp, hparent, _⟩ := h.of_decl hdecl hσ
      rcases parentOf?_eq_some.1 hparent with ⟨_, rfl⟩ | ⟨p, hsome, _⟩
      · exact ⟨_, hp, hh.lookup?_object⟩
      · rw [hclass.parent?, hnone] at hsome
        cases hsome
    | @parent decl _ hdecl hsome =>
      obtain ⟨c, _, parent, hclass, _, hp, hparent, _⟩ := h.of_decl hdecl hσ
      rcases parentOf?_eq_some.1 hparent with ⟨hnone, _⟩ | ⟨p, hsome', hl, _⟩
      · rw [hclass.parent?, hsome] at hnone
        cases hnone
      · rw [hclass.parent?, hsome] at hsome'
        cases hsome'
        exact ⟨parent, hp, hl⟩
  · rintro ⟨parent, hp, hτ⟩
    obtain ⟨n, he⟩ := exists_get?_of_parent? hp
    obtain rfl : n = σ := hh.name_unique (hh.lookup?_eq_some.2 ⟨_, he, rfl⟩) hσ
    rcases hh.complete id _ he with hb | ⟨c, hc, hname⟩
    · obtain ⟨rfl, rfl⟩ := TypeTable.Hierarchy.of_get?_builtin hb
      rw [hh.name_unique hσ hh.lookup?_intArray, hh.name_unique hτ hh.lookup?_object]
      exact .array
    · obtain ⟨decl, hdecl, hclass⟩ := exists_left_of_forall₂ h.classes hc
      obtain rfl : n = decl.name := Eq.trans hname hclass.name
      obtain ⟨parent', heq, hparent, _⟩ := hh.of_class hc he hclass.name.symm
      obtain ⟨_, hsome⟩ := StaticType.object.inj heq
      obtain rfl := Option.some.inj hsome
      rcases parentOf?_eq_some.1 hparent with ⟨hnone, rfl⟩ | ⟨p, hsome, hl, _⟩
      · rw [hh.name_unique hτ hh.lookup?_object]
        exact .root hdecl (hclass.parent?.symm.trans hnone)
      · rw [hh.name_unique hτ hl]
        exact .parent hdecl (hclass.parent?.symm.trans hsome)

/-- **Subtypes.** -/
theorem isSubtype_iff (hσ : cx.types.lookup? σ = some id) (hτ : cx.types.lookup? τ = some id') :
    cx.types.isSubtype id id' = true ↔ ast.Subtype σ τ := by
  have hh := h.lawful.hierarchy
  rw [hh.isSubtype_iff]
  constructor
  · intro hsub
    induction hsub using Relation.ReflTransGen.head_induction_on generalizing σ with
    | refl =>
      rw [hh.name_unique hσ hτ]
      exact .refl
    | head hp _ ih =>
      obtain ⟨ρ, hρ⟩ := hh.exists_name (hh.has_of_parent? hp)
      exact .head ((h.extends_iff hσ).2 ⟨_, hp, hρ⟩) (ih hρ)
  · intro hsub
    induction hsub using Relation.ReflTransGen.head_induction_on generalizing id with
    | refl =>
      obtain rfl := Option.mem_unique hσ hτ
      exact .refl
    | head hex _ ih =>
      obtain ⟨parent, hp, hρ⟩ := (h.extends_iff hσ).1 hex
      exact .head hp (ih hρ)

/-! ## Members -/

theorem inherits_iff {α β : Type} {own : ClassDecl → Option α} {find : ClassDef → Option β}
    {R : α → β → Prop}
    (hfind : ∀ decl, ∀ c ∈ cx.classes, RepresentsClass cx.types decl c → (own decl = none ∧ find c = none) ∨ ∃ a b, own decl = some a ∧ find c = some b ∧ R a b)
    (hσ : cx.types.lookup? σ = some id) :
    (∀ a, ast.Inherits own σ a → ∃ b,
      (cx.types.ancestors id).findSome? (fun i => (cx.classOf? i).bind find) = some b ∧ R a b) ∧
    ∀ b, (cx.types.ancestors id).findSome? (fun i => (cx.classOf? i).bind find) = some b →
      ∃ a, ast.Inherits own σ a ∧ R a b := by
  have hh := h.lawful.hierarchy
  constructor
  · intro a hin
    induction hin generalizing id with
    | @own decl a hdecl hown =>
      obtain ⟨c, hc, parent, hclass, hof, hp, _⟩ := h.of_decl hdecl hσ
      rcases hfind decl c hc hclass with ⟨hnone, _⟩ | ⟨a', b, ha', hb, hr⟩
      · rw [hown] at hnone
        cases hnone
      · obtain rfl := Option.mem_unique hown ha'
        refine ⟨b, ?_, hr⟩
        rw [hh.ancestors_of_some hp, findSome?_cons, hof, Option.bind_some, hb]
    | @inherited decl q a hdecl hown hq _ ih =>
      obtain ⟨c, hc, parent, hclass, hof, hp, hparent, _⟩ := h.of_decl hdecl hσ
      rcases parentOf?_eq_some.1 hparent with ⟨hnone, _⟩ | ⟨p, hsome, hl, _⟩
      · rw [hclass.parent?, hq] at hnone
        cases hnone
      · rw [hclass.parent?, hq] at hsome
        cases hsome
        obtain ⟨b, hb, hr⟩ := ih hl
        refine ⟨b, ?_, hr⟩
        rcases hfind decl c hc hclass with ⟨_, hnone⟩ | ⟨a', _, ha', _⟩
        · rw [hh.ancestors_of_some hp, findSome?_cons, hof, Option.bind_some, hnone]
          exact hb
        · rw [hown] at ha'
          cases ha'
  · intro b hb
    induction id using Nat.strongRecOn generalizing σ with
    | ind id ih =>
      cases hof : cx.classOf? id with
      | none =>
        rw [h.findSome?_ancestors_eq_none hof] at hb
        cases hb
      | some c =>
        obtain ⟨decl, hdecl, rfl⟩ := h.exists_decl hσ hof
        obtain ⟨c', hc, parent, hclass, hof', hp, hparent, hlt⟩ := h.of_decl hdecl hσ
        obtain rfl := Option.mem_unique hof hof'
        rw [hh.ancestors_of_some hp, findSome?_cons, hof, Option.bind_some] at hb
        rcases hfind decl c hc hclass with ⟨hown, hnone⟩ | ⟨a, b', ha, hb', hr⟩
        · rw [hnone] at hb
          rcases parentOf?_eq_some.1 hparent with ⟨_, rfl⟩ | ⟨p, hsome, hl, _⟩
          · rw [h.findSome?_ancestors_eq_none h.classOf?_object] at hb
            cases hb
          · obtain ⟨a, ha, hr⟩ := ih parent hlt hl hb
            exact ⟨a, .inherited hdecl hown (hclass.parent?.symm.trans hsome) ha, hr⟩
        · rw [hb'] at hb
          obtain rfl := Option.some.inj hb
          exact ⟨a, .own hdecl ha, hr⟩

/-- **Fields.** -/
theorem fieldType?_iff (hσ : cx.types.lookup? σ = some id) : cx.fieldType? id x = some id' ↔
      ∃ type, ast.HasField σ x type ∧ cx.types.lookup? type.text = some id' := by
  have hfind : ∀ decl, ∀ c ∈ cx.classes, RepresentsClass cx.types decl c →
      ((decl.fields.find? (·.name == x)).map (·.type) = none ∧
        (c.fields.reverse.find? (·.name == x)).bind (·.type?) = none) ∨
      ∃ a b, (decl.fields.find? (·.name == x)).map (·.type) = some a ∧
        (c.fields.reverse.find? (·.name == x)).bind (·.type?) = some b ∧
          cx.types.lookup? a.text = some b := by
    intro decl c hc hclass
    rw [find?_reverse_of_nodup (h.lawful.nodup_fields c hc)]
    rcases find?_forall₂ hclass.fields (f := (·.name == x)) (g := (·.name == x))
      (fun d f hf => by rw [hf.1]) with ⟨hd, hf⟩ | ⟨d, f, ⟨_, t, ht, hl⟩, hd, hf⟩
    · exact Or.inl ⟨by rw [hd]; rfl, by rw [hf]; rfl⟩
    · exact Or.inr ⟨d.type, t, by rw [hd]; rfl, by rw [hf]; exact ht, hl⟩
  obtain ⟨hto, hof⟩ := h.inherits_iff hfind hσ
  constructor
  · exact hof id'
  · rintro ⟨type, hfield, htype⟩
    obtain ⟨b, hb, hr⟩ := hto type hfield
    obtain rfl := Option.mem_unique htype hr
    exact hb

/-- **Methods.** -/
theorem method?_iff (hσ : cx.types.lookup? σ = some id) : (∀ decl, ast.HasMethod σ x decl →
      ∃ m, cx.method? id x = some m ∧ RepresentsMethod cx.types decl m) ∧
    ∀ m, cx.method? id x = some m →
      ∃ decl, ast.HasMethod σ x decl ∧ RepresentsMethod cx.types decl m := by
  refine h.inherits_iff (fun decl c hc hclass => ?_) hσ
  rw [find?_reverse_of_nodup (h.lawful.nodup_methods c hc)]
  rcases find?_forall₂ hclass.methods (f := (·.name == x)) (g := (·.name == x))
    (fun d m hm => by rw [hm.name]) with ⟨hd, hm⟩ | ⟨d, m, hdm, hd, hm⟩
  · exact Or.inl ⟨hd, hm⟩
  · exact Or.inr ⟨d, m, hd, hm, hdm⟩

end

end TypeContext.Represents

end MiniJava
