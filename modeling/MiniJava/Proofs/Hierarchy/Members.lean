import MiniJava.Proofs.Hierarchy.Placement
import MiniJava.Proofs.Hierarchy.TypeTables
import MiniJava.Typing

/-!
# Members of classes

Types know their parents by number, classes by name. Both lead to the same classes: the chain of a
class and the chain of parents of its type. So the check and the layout find the same members.
-/

namespace MiniJava

open Ssa List

/-! ## Chains -/

theorem Ssa.find?_otherClasses {cs : List ClassDef} {n m : String} (h : n ≠ m) :
    (otherClasses cs m).find? (·.name == n) = cs.find? (·.name == n) := by
  rw [otherClasses, find?_filter]
  refine congrArg (cs.find? ·) (funext fun c => ?_)
  by_cases hc : c.name = n
  · simp [hc, h]
  · simp [hc]

namespace TypeTable.Hierarchy

variable {t : TypeTable} {cs cs' : List ClassDef} {id id' : TypeId} {e e' : StaticType} {n : String}

section

variable (h : Hierarchy t cs)
include h

theorem of_forall₂
    (hcs : List.Forall₂ (fun c c' : ClassDef => c'.name = c.name ∧ c'.parent? = c.parent?) cs cs') :
    Hierarchy t cs' where
  builtin := h.builtin
  nodup := h.nodup
  classes := by
    intro c' hc'
    obtain ⟨c, hc, hname, hparent⟩ := exists_left_of_forall₂ hcs hc'
    obtain ⟨id, parent, hid, hp, hlt⟩ := h.classes c hc
    rw [← hname] at hid
    refine ⟨id, parent, hid, ?_, hlt⟩
    rwa [parentOf?, hparent]
  complete := by
    intro id e he
    rcases h.complete id e he with hb | ⟨c, hc, hname⟩
    · exact Or.inl hb
    · obtain ⟨c', hc', hname', _⟩ := exists_right_of_forall₂ hcs hc
      exact Or.inr ⟨c', hc', hname.trans hname'.symm⟩

theorem find?_builtin (he : TypeTable.builtin.get? id = some e) :
    cs.find? (·.name == e.name) = none := by
  refine find?_eq_none.2 fun c hc hname => ?_
  obtain ⟨_, _, _, _, hle⟩ := h.of_class hc (h.get?_builtin he) (eq_of_beq hname).symm
  exact absurd (lt_of_get? he) (Nat.not_lt.2 hle)

theorem get?_object : t.get? .object = some (.object "Object" none) :=
  h.get?_builtin rfl

theorem ancestors_object : t.ancestors .object = [.object] :=
  ancestors_of_none (parent?_eq h.get?_object)

theorem find?_object : cs.find? (·.name == t.name .object) = none := by
  rw [name_eq h.get?_object]
  exact h.find?_builtin (show TypeTable.builtin.get? .object = _ from rfl)

theorem of_parent? {parent : TypeId} (hp : t.parent? id = some parent)
    (hc : cs.find? (·.name == t.name id) = none) : id = .intArray ∧ parent = .object := by
  obtain ⟨n, he⟩ := exists_get?_of_parent? hp
  rcases h.complete id _ he with hb | ⟨c, hmem, hname⟩
  · exact of_get?_builtin hb
  · refine absurd (find?_eq_none.1 hc c hmem) ?_
    simp [name_eq he, hname]

/-- **The chain of a class** follows the parents of its type. -/
theorem chainIn_eq (he : t.get? id = some e) : chainIn cs (t.name id) =
      (t.ancestors id).filterMap fun i => cs.find? (·.name == t.name i) := by
  -- Classes that the chain has left behind have larger numbers than those to come.
  suffices hrest : ∀ rest : List ClassDef, (∀ i ≤ id, (t.get? i).isSome →
      rest.find? (·.name == t.name i) = cs.find? (·.name == t.name i)) →
      chainIn rest (t.name id) =
        (t.ancestors id).filterMap fun i => cs.find? (·.name == t.name i) from
    hrest cs fun _ _ _ => rfl
  induction id using Nat.strongRecOn generalizing e with
  | ind id ih =>
    intro rest hrest
    have hfind := hrest id (Nat.le_refl _) (by rw [he]; rfl)
    cases hc : cs.find? (·.name == t.name id) with
    | none =>
      rw [hc] at hfind
      rw [chainIn_of_none hfind]
      cases hp : t.parent? id with
      | none => simp [ancestors_of_none hp, hc]
      | some parent =>
        obtain ⟨rfl, rfl⟩ := h.of_parent? hp hc
        rw [h.ancestors_of_some hp, h.ancestors_object]
        simp [hc, h.find?_object]
    | some c =>
      rw [hc] at hfind
      have hname : c.name = t.name id := by simpa using find?_some hc
      obtain ⟨parent, rfl, hp, hlt, _⟩ := h.of_class (mem_of_find?_eq_some hc) he
        ((name_eq he).symm.trans hname.symm)
      have hparent : t.parent? id = some parent := parent?_eq he
      rw [chainIn_of_some hfind, h.ancestors_of_some hparent, filterMap_cons, hc]
      refine congrArg (c :: ·) ?_
      rcases parentOf?_eq_some.1 hp with ⟨hnone, rfl⟩ | ⟨p, hsome, hl, _⟩
      · rw [hnone, h.ancestors_object]
        simp [h.find?_object]
      · obtain ⟨e', he', rfl⟩ := of_lookup? hl
        rw [hsome, ← name_eq he']
        refine ih parent hlt he' _ fun i hi hsome => ?_
        obtain ⟨e'', he''⟩ := Option.isSome_iff_exists.1 hsome
        rw [find?_otherClasses fun heq => ?_, hrest i (Nat.le_trans hi (Nat.le_of_lt hlt)) hsome]
        rw [name_eq he'', hname, name_eq he] at heq
        exact absurd (h.eq_of_name_eq he'' he heq) (Nat.ne_of_lt (Nat.lt_of_le_of_lt hi hlt))

theorem chainIn_suffix (he : t.get? id = some e) (he' : t.get? id' = some e')
    (hsub : t.isSubtype id id' = true) : chainIn cs (t.name id') <:+ chainIn cs (t.name id) := by
  rw [h.chainIn_eq he, h.chainIn_eq he']
  exact (h.ancestors_suffix hsub).filterMap _

end

end TypeTable.Hierarchy

theorem Ssa.mem_of_mem_chainIn {cs : List ClassDef} {c : ClassDef} {n : String}
    (h : c ∈ chainIn cs n) : c ∈ cs := by
  fun_induction chainIn cs n with
  | case1 => cases h
  | case2 cs n d hfind ih =>
    rcases mem_cons.1 h with rfl | h
    · exact mem_of_find?_eq_some hfind
    · split at h
      · cases h
      · next parent _ => exact (mem_filter.1 (ih parent h)).1

theorem Ssa.nodup_chainIn (cs : List ClassDef) (n : String) :
    ((chainIn cs n).map (·.name)).Nodup := by
  fun_induction chainIn cs n with
  | case1 => exact nodup_nil
  | case2 cs n c hfind ih =>
    split
    · exact nodup_singleton _
    · next parent _ =>
      refine nodup_cons.2 ⟨fun hmem => ?_, ih parent⟩
      obtain ⟨d, hd, hname⟩ := mem_map.1 hmem
      have hother := (mem_filter.1 (mem_of_mem_chainIn hd)).2
      simp [hname] at hother

/-! ## Members known to the check -/

namespace TypeContext

/-- A context as the check makes it: the table is that of the classes, members have different names
and declared types are resolved. -/
structure Lawful (cx : TypeContext) : Prop where
  hierarchy : cx.types.Hierarchy cx.classes
  nodup_classes : (cx.classes.map (·.name)).Nodup
  nodup_fields : ∀ c ∈ cx.classes, (c.fields.map (·.name)).Nodup
  nodup_methods : ∀ c ∈ cx.classes, (c.methods.map (·.name)).Nodup
  resolved : ∀ c ∈ cx.classes, ∃ decl : ClassDef, decl.resolve cx.types = .ok c

variable {cx : TypeContext} {type : TypeId} {e : StaticType}

theorem Lawful.classOf?_eq (h : cx.Lawful) (type : TypeId) :
    cx.classOf? type = cx.classes.find? (·.name == cx.types.name type) :=
  find?_reverse_of_nodup h.nodup_classes _

theorem findSome?_filterMap {α β γ : Type} (f : α → Option β) (g : β → Option γ) (as : List α) :
    (as.filterMap f).findSome? g = as.findSome? fun a => (f a).bind g := by
  induction as with
  | nil => rfl
  | cons a as ih =>
    cases hf : f a with
    | none => rw [filterMap_cons_none hf, findSome?_cons, hf, ih]; rfl
    | some b => rw [filterMap_cons_some hf, findSome?_cons, findSome?_cons, hf, ih]; rfl

/-- **Fields are looked up along the chain of a class.** -/
theorem Lawful.fieldType?_eq (h : cx.Lawful) (he : cx.types.get? type = some e) (field : String) :
    cx.fieldType? type field = (chainIn cx.classes (cx.types.name type)).findSome? fun c =>
      (c.field? field).bind (·.type?) := by
  rw [h.hierarchy.chainIn_eq he, findSome?_filterMap, fieldType?]
  refine congrArg (findSome? · _) (funext fun i => ?_)
  rw [h.classOf?_eq]
  cases hc : cx.classes.find? (·.name == cx.types.name i) with
  | none => rfl
  | some c =>
    have hfield := find?_reverse_of_nodup (h.nodup_fields c (mem_of_find?_eq_some hc)) field
    change (c.fields.reverse.find? _).bind _ = _
    rw [hfield]
    rfl

/-- **Methods are looked up along the chain of a class.** -/
theorem Lawful.method?_eq (h : cx.Lawful) (he : cx.types.get? type = some e) (method : String) :
    cx.method? type method =
      (chainIn cx.classes (cx.types.name type)).findSome? (·.method? method) := by
  rw [h.hierarchy.chainIn_eq he, findSome?_filterMap, TypeContext.method?]
  refine congrArg (findSome? · _) (funext fun i => ?_)
  rw [h.classOf?_eq]
  cases hc : cx.classes.find? (·.name == cx.types.name i) with
  | none => rfl
  | some c => exact find?_reverse_of_nodup (h.nodup_methods c (mem_of_find?_eq_some hc)) method

end TypeContext

end MiniJava
