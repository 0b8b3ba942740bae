import MiniJava.Proofs.Soundness.Checked

/-!
# Members that classes share

A class inherits the members of its ancestors and may declare some of them again. The check compares
neither: it looks a member up from the static type of its target upwards, while an object may belong to
any class below. So a program keeps to its types only if a method that is declared again refines the one
it overrides.
-/

namespace MiniJava

open Ssa List TypeTable

/-! ## Overriding -/

namespace Ssa

instance (types : TypeTable) (m general : Method) : Decidable (m.Refines types general) :=
  decidable_of_iff
    (List.Forall₂ (fun t t' => types.isSubtype t t' = true) general.paramTypes m.paramTypes ∧
      types.isSubtype (m.returnType?.getD .void) (general.returnType?.getD .void) = true)
    ⟨fun h => ⟨h.1, h.2⟩, fun h => ⟨h.1, h.2⟩⟩

/-- Every method of a class refines the method that it overrides: what its name means in the parent of
the class. -/
def Program.OverridesAgree (p : Program) : Prop :=
  ∀ c ∈ p.classes, ∀ parent ∈ c.parent?, ∀ m ∈ c.methods, ∀ general ∈ p.dispatch? parent m.name,
    m.Refines p.types general

instance (p : Program) : Decidable p.OverridesAgree :=
  inferInstanceAs (Decidable (∀ c ∈ p.classes, ∀ parent ∈ c.parent?, ∀ m ∈ c.methods,
    ∀ general ∈ p.dispatch? parent m.name, m.Refines p.types general))

namespace Method.Refines

variable {types : TypeTable} {cs : List ClassDef} {m m' m'' : Method}

theorem refl (types : TypeTable) (m : Method) : m.Refines types m :=
  ⟨List.forall₂_same.2 fun _ _ => TypeTable.Hierarchy.isSubtype_refl _ _,
    TypeTable.Hierarchy.isSubtype_refl _ _⟩

theorem trans (hh : types.Hierarchy cs) (h : m.Refines types m') (h' : m'.Refines types m'') :
    m.Refines types m'' :=
  ⟨forall₂_trans h'.params h.params fun _ _ _ ha hb => hh.isSubtype_trans ha hb,
    hh.isSubtype_trans h.result h'.result⟩

end Method.Refines

end Ssa

namespace TypeContext

variable {cx : TypeContext} {sub parent t : TypeId} {method : String} {general : Method}

theorem Lawful.method?_of_parent? (hl : cx.Lawful) (hp : cx.types.parent? sub = some parent)
    (method : String) :
    (∃ c ∈ cx.classes, cx.types.parentOf? c = some parent ∧ ∃ m ∈ c.methods, m.name = method ∧
        cx.method? sub method = some m) ∨
      cx.method? sub method = cx.method? parent method := by
  have hh := hl.hierarchy
  have hcons : cx.method? sub method =
      (((cx.classOf? sub).bind fun c => c.methods.reverse.find? (·.name == method)).or
        (cx.method? parent method)) := by
    rw [TypeContext.method?, TypeContext.method?, hh.ancestors_of_some hp, findSome?_cons]
    simp only [Option.bind_eq_bind]
    cases (cx.classOf? sub).bind fun c => c.methods.reverse.find? (·.name == method) <;> rfl
  rw [hcons]
  cases hof : cx.classOf? sub with
  | none => exact Or.inr rfl
  | some c =>
    rw [Option.bind_some]
    cases hfind : c.methods.reverse.find? (·.name == method) with
    | none => exact Or.inr rfl
    | some m =>
      rw [hl.classOf?_eq] at hof
      have hc := mem_of_find?_eq_some hof
      have hname : c.name = cx.types.name sub := by simpa using find?_some hof
      obtain ⟨n, he⟩ := exists_get?_of_parent? hp
      obtain ⟨parent', heq, hparent, _⟩ := hh.of_class hc he
        ((name_eq he).symm.trans hname.symm)
      cases heq
      exact Or.inl ⟨c, hc, hparent, m, List.mem_reverse.1 (mem_of_find?_eq_some hfind),
        by simpa using find?_some hfind, rfl⟩

theorem Lawful.method?_object (hl : cx.Lawful) (method : String) : cx.method? .object method = none := by
  rw [hl.method?_eq hl.hierarchy.get?_object, chainIn_of_none hl.hierarchy.find?_object]
  rfl

/-- **Overriding, from a class to its parent and so on.** -/
theorem Lawful.exists_refines (hl : cx.Lawful)
    (hstep : ∀ c ∈ cx.classes, ∀ n, c.parent? = some n → ∀ t, cx.types.lookup? n = some t →
      ∀ m ∈ c.methods, ∀ general, cx.method? t m.name = some general → m.Refines cx.types general)
    (hsub : cx.types.isSubtype sub t = true) (hm : cx.method? t method = some general) :
    ∃ m, cx.method? sub method = some m ∧ m.Refines cx.types general := by
  have hh := hl.hierarchy
  induction hh.isSubtype_iff.1 hsub using Relation.ReflTransGen.head_induction_on with
  | refl => exact ⟨general, hm, .refl _ _⟩
  | @head sub parent hp habove ih =>
    obtain ⟨m', hm', hrefines⟩ := ih (hh.isSubtype_iff.2 habove)
    rcases hl.method?_of_parent? hp method with ⟨c, hc, hparent, m, hmc, rfl, hm⟩ | heq
    · refine ⟨m, hm, .trans hh ?_ hrefines⟩
      rcases parentOf?_eq_some.1 hparent with ⟨_, rfl⟩ | ⟨n, hn, hlookup, _⟩
      · rw [hl.method?_object] at hm'
        cases hm'
      · exact hstep c hc n hn parent hlookup m hmc m' hm'
    · exact ⟨m', heq.trans hm', hrefines⟩

end TypeContext

/-! ## Fields -/

theorem Ssa.FieldsAgree.of_matches {naming : FieldNaming} {R : Method → Method → Prop}
    {cs ds : List ClassDef} (h : List.Forall₂ (ClassDef.Matches R) cs ds)
    (hagree : FieldsAgree naming ds) : FieldsAgree naming cs := by
  intro className c hc d hd f hf g hg hname
  obtain ⟨c', hc', hcc'⟩ := exists_right_of_forall₂ (forall₂_chainIn h className) hc
  obtain ⟨d', hd', hdd'⟩ := exists_right_of_forall₂ (forall₂_chainIn h className) hd
  refine hagree className c' hc' d' hd' f (hcc'.fields_eq ▸ hf) g (hdd'.fields_eq ▸ hg) ?_
  rw [hcc'.name_eq, hdd'.name_eq, hname]

theorem Ssa.FieldNaming.eq_of_qualified {owner owner' field field' : String}
    (howner : '.' ∉ owner.toList) (howner' : '.' ∉ owner'.toList)
    (h : FieldNaming.qualified owner field = FieldNaming.qualified owner' field') :
    owner = owner' ∧ field = field' := by
  -- Read backwards, the dot is the last one.
  have hreverse : ∀ owner field : String, (FieldNaming.qualified owner field).toList.reverse =
      field.toList.reverse ++ '.' :: owner.toList.reverse := by
    intro owner field
    simp [FieldNaming.qualified]
  have h := congrArg (fun name => name.toList.reverse) h
  simp only [hreverse] at h
  obtain ⟨hfield, howners⟩ := append_cons_inj_of_not_mem h (by simpa using howner)
    (by simpa using howner')
  exact ⟨String.toList_inj.1 (reverse_injective howners),
    String.toList_inj.1 (reverse_injective hfield)⟩

/-- **Qualified names tell all fields apart.** -/
theorem TypeContext.Lawful.fieldsAgree_qualified {cx : TypeContext} (hl : cx.Lawful)
    (hnames : ∀ c ∈ cx.classes, '.' ∉ c.name.toList) : FieldsAgree .qualified cx.classes := by
  intro className c hc d hd f hf g hg hname
  have hc := mem_of_mem_chainIn hc
  have hd := mem_of_mem_chainIn hd
  obtain ⟨hcd, hfg⟩ := FieldNaming.eq_of_qualified (hnames c hc) (hnames d hd) hname
  obtain rfl := inj_on_of_nodup_map hl.nodup_classes hc hd hcd
  rw [inj_on_of_nodup_map (hl.nodup_fields c hc) hf hg hfg]

/-! ## Coherence -/

namespace Ssa

variable {ast : Ast.Program} {p q : Program} {cx : TypeContext} {naming : FieldNaming}

/-- **Classes whose overrides agree are coherent.** -/
theorem Checked.coherent (h : Checked p q cx) (hp : Lowered ast p) (hover : q.OverridesAgree)
    (hagree : FieldsAgree naming cx.classes) : cx.Coherent naming := by
  have hl := hp.lawful h.context
  -- A check changes no signature.
  have hcode : Program.Matches (fun m m' => m' = { m with body := m'.body })
      { p with classes := cx.classes } q := by
    refine h.code.imp_mem fun m _ m' hcheck => ?_
    obtain ⟨_, _, _, rfl⟩ := TypeContext.checkMethod_eq_ok.1 hcheck
    rfl
  refine ⟨hl, hagree, fun sub t method general hsub hm => hl.exists_refines ?_ hsub hm⟩
  intro c hc n hn t ht m hmc general hgeneral
  obtain ⟨e, he, rfl⟩ := of_lookup? ht
  obtain ⟨d, hd, hcd⟩ := exists_right_of_forall₂ hcode.classes hc
  obtain ⟨m', hm', hmm'⟩ := exists_right_of_forall₂ hcd.2 hmc
  rw [hl.method?_eq he, name_eq he] at hgeneral
  rcases hcode.dispatch? (fun m m' hmm' => by rw [hmm']) e.name m.name with
    ⟨hnone, _⟩ | ⟨_, general', hgg', hsome, hdispatch⟩
  · exact absurd (hgeneral.symm.trans hnone) nofun
  · obtain rfl := Option.mem_unique hgeneral hsome
    have hrefines := hover d hd e.name (hcd.parent_eq.trans hn) m' hm' general' (by
      rw [hmm']
      exact hdispatch)
    rw [hmm', hgg', h.types] at hrefines
    exact ⟨hrefines.params, hrefines.result⟩

end Ssa

end MiniJava
