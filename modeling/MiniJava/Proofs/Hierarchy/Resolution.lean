import MiniJava.Proofs.Hierarchy.Members

/-!
# Resolving a hierarchy

The table of the types of a program is made in passes, each of which adds the classes whose parent is
known by then. A class may stand before its parent, even far before it. The passes get through exactly
if no class has the name of a built-in type and every chain of parents leads through declared classes
to a class without parent or to the root. Then the subtypes among classes are what the parents say, in
whatever order the classes are declared.
-/

namespace MiniJava.TypeTable

open Ssa List Option

/-! ## Parents by name -/

def Extends (cs : List ClassDef) (name above : String) : Prop :=
  ∃ c ∈ cs, c.name = name ∧ c.parent? = some above

/-- Parents lead from a name, through declared classes, to a class without parent or to the root. -/
def Grounded (cs : List ClassDef) (name : String) : Prop :=
  ∃ last, Relation.ReflTransGen (Extends cs) name last ∧
    (last = "Object" ∨ ∃ c ∈ cs, c.name = last ∧ c.parent? = none)

section Names

variable {cs cs' : List ClassDef} {c : ClassDef} {above name : String}

theorem grounded_object (cs : List ClassDef) : Grounded cs "Object" := ⟨_, .refl, Or.inl rfl⟩

theorem grounded_root (hc : c ∈ cs) (hp : c.parent? = none) : Grounded cs c.name :=
  ⟨_, .refl, Or.inr ⟨c, hc, rfl, hp⟩⟩

theorem Grounded.below (h : Grounded cs above) (hc : c ∈ cs) (hp : c.parent? = some above) :
    Grounded cs c.name := by
  obtain ⟨last, hreach, hlast⟩ := h
  exact ⟨last, .head ⟨c, hc, rfl, hp⟩ hreach, hlast⟩

theorem extends_perm (h : cs'.Perm cs) : Extends cs' = Extends cs := by
  funext name above
  exact propext (exists_congr fun c => and_congr_left fun _ => h.mem_iff)

theorem grounded_perm (h : cs'.Perm cs) : Grounded cs' name ↔ Grounded cs name := by
  simp only [Grounded, extends_perm h, h.mem_iff]

end Names

/-! ## Passes -/

variable {t : TypeTable} {all cs known : List ClassDef} {c : ClassDef} {parent : TypeId} {n : String}

theorem length_addReady_lt (hc : c ∈ cs) (hp : t.parentOf? c = some parent) :
    (t.addReady cs).2.length < cs.length := by
  induction cs with
  | nil => cases hc
  | cons d cs ih =>
    rw [addReady]
    split
    · next above _ =>
      obtain ⟨added, _, hperm⟩ := adds_addReady (t.addClass d.name above) cs
      have hlen := hperm.length_eq
      rw [length_append] at hlen
      simp only [length_cons]
      omega
    · next hnone =>
      rcases mem_cons.1 hc with rfl | hc
      · rw [hp] at hnone
        cases hnone
      · exact Nat.succ_lt_succ (ih hc)

/-- Classes that wait for their parents and classes that are known make up all classes. -/
structure Pending (all : List ClassDef) (t : TypeTable) (known cs : List ClassDef) : Prop where
  hierarchy : Hierarchy t known
  nodup : (cs.map (·.name)).Nodup
  fresh : ∀ c ∈ cs, c.name ∉ t.entries.map (·.name)
  cover : ∀ c ∈ all, (∃ d ∈ known, d.name = c.name) ∨ c ∈ cs

namespace Pending

theorem exists_ready (h : Pending all t known cs) (hn : Grounded all n) :
    (∃ id, t.lookup? n = some id ∧ t.isObject id = true ∧ id ≠ .intArray) ∨
      ∃ c ∈ cs, ∃ parent, t.parentOf? c = some parent := by
  have hknown : ∀ c ∈ known,
      ∃ id, t.lookup? c.name = some id ∧ t.isObject id = true ∧ id ≠ .intArray := by
    intro c hc
    obtain ⟨id, parent, hid, _, _, hle⟩ := h.hierarchy.classes c hc
    refine ⟨id, h.hierarchy.lookup?_eq_some.2 ⟨_, hid, rfl⟩, isObject_eq hid, ?_⟩
    rintro rfl
    exact absurd hle (by decide)
  obtain ⟨last, hreach, hlast⟩ := hn
  induction hreach using Relation.ReflTransGen.head_induction_on with
  | refl =>
    rcases hlast with rfl | ⟨c, hc, rfl, hparent⟩
    · have hobject := h.hierarchy.get?_object
      exact Or.inl ⟨.object, h.hierarchy.lookup?_eq_some.2 ⟨_, hobject, rfl⟩, isObject_eq hobject,
        by decide⟩
    · rcases h.cover c hc with ⟨d, hd, hname⟩ | hc
      · exact Or.inl (hname ▸ hknown d hd)
      · exact Or.inr ⟨c, hc, .object, parentOf?_eq_some.2 (Or.inl ⟨hparent, rfl⟩)⟩
  | head hstep _ ih =>
    obtain ⟨c, hc, rfl, hparent⟩ := hstep
    rcases h.cover c hc with ⟨d, hd, hname⟩ | hc
    · exact Or.inl (hname ▸ hknown d hd)
    · rcases ih with ⟨id, hid⟩ | hready
      · exact Or.inr ⟨c, hc, id, parentOf?_eq_some.2 (Or.inr ⟨_, hparent, hid⟩)⟩
      · exact Or.inr hready

theorem addReady (h : Pending all t known cs) :
    ∃ known', Pending all (t.addReady cs).1 known' (t.addReady cs).2 := by
  obtain ⟨added, hadds, hperm⟩ := adds_addReady t cs
  have hnodup : ((added ++ (t.addReady cs).2).map (·.name)).Nodup :=
    (hperm.map _).nodup_iff.2 h.nodup
  rw [map_append, nodup_append] at hnodup
  have hmem : ∀ {c}, c ∈ added ∨ c ∈ (t.addReady cs).2 ↔ c ∈ cs := fun {c} =>
    mem_append.symm.trans hperm.mem_iff
  obtain ⟨known', hknown', hperm'⟩ := h.hierarchy.of_adds hadds hnodup.1
    fun c hc => h.fresh c (hmem.1 (Or.inl hc))
  have hknown : ∀ {c}, c ∈ known' ↔ c ∈ added ∨ c ∈ known := fun {c} =>
    hperm'.mem_iff.trans mem_append
  refine ⟨known', hknown', hnodup.2.1, fun c hc hold => ?_, fun c hc => ?_⟩
  · have hfresh := h.fresh c (hmem.1 (Or.inr hc))
    obtain ⟨e, he, hname⟩ := mem_map.1 hold
    obtain ⟨id, hid⟩ := mem_iff_getElem?.1 he
    rcases hknown'.complete id e hid with hb | ⟨d, hd, hdname⟩
    · exact hfresh (mem_map.2 ⟨e, mem_of_getElem? (h.hierarchy.get?_builtin hb), hname⟩)
    · rcases hknown.1 hd with hd | hd
      · exact hnodup.2.2 d.name (mem_map_of_mem hd) c.name (mem_map_of_mem hc)
          (hdname.symm.trans hname)
      · obtain ⟨_, _, hget, _⟩ := h.hierarchy.classes d hd
        exact hfresh (mem_map.2 ⟨_, mem_of_getElem? hget, hdname.symm.trans hname⟩)
  · rcases h.cover c hc with ⟨d, hd, hname⟩ | hc
    · exact Or.inl ⟨d, hknown.2 (Or.inr hd), hname⟩
    · rcases hmem.2 hc with hc | hc
      · exact Or.inl ⟨c, hknown.2 (Or.inl hc), rfl⟩
      · exact Or.inr hc

/-- **Passes get through.** -/
theorem exists_addClasses (h : Pending all t known cs) (hg : ∀ c ∈ cs, Grounded all c.name) :
    ∃ t', t.addClasses cs = .ok t' := by
  induction hlen : cs.length using Nat.strongRecOn generalizing t known cs with
  | ind len ih =>
    rw [addClasses]
    split
    · exact ⟨t, rfl⟩
    · next hne =>
      obtain ⟨c, hc⟩ := exists_mem_of_ne_nil cs fun hnil => hne (isEmpty_iff.2 hnil)
      have hready : ∃ c ∈ cs, ∃ parent, t.parentOf? c = some parent := by
        refine (h.exists_ready (hg c hc)).resolve_left ?_
        rintro ⟨id, hid, _⟩
        obtain ⟨e, he, hname⟩ := of_lookup? hid
        exact h.fresh c hc (mem_map.2 ⟨e, mem_of_getElem? he, hname⟩)
      obtain ⟨d, hd, parent, hp⟩ := hready
      have hlt := length_addReady_lt hd hp
      dsimp only
      rw [if_pos hlt]
      obtain ⟨known', hknown'⟩ := h.addReady
      obtain ⟨added, _, hperm⟩ := adds_addReady t cs
      exact ih _ (hlen ▸ hlt) hknown'
        (fun c hc => hg c (hperm.mem_iff.1 (mem_append_right _ hc))) rfl

end Pending

/-! ## Tables -/

theorem isSome_lookup?_iff : (t.lookup? n).isSome = true ↔ n ∈ t.entries.map (·.name) := by
  constructor
  · intro h
    obtain ⟨id, hid⟩ := isSome_iff_exists.1 h
    obtain ⟨e, he, rfl⟩ := of_lookup? hid
    exact mem_map_of_mem (mem_of_getElem? he)
  · intro h
    obtain ⟨e, he, rfl⟩ := mem_map.1 h
    obtain ⟨i, hi⟩ := mem_iff_getElem?.1 he
    obtain ⟨id, hid⟩ := exists_lookup? (t := t) hi
    exact isSome_iff_exists.2 ⟨id, hid⟩

namespace Hierarchy

variable {id : TypeId}

theorem of_lookup?_parent (h : Hierarchy t cs) (hl : t.lookup? n = some id)
    (hobj : t.isObject id = true) (hne : id ≠ .intArray) :
    n = "Object" ∨ ∃ c ∈ cs, c.name = n := by
  obtain ⟨e, he, rfl⟩ := h.lookup?_eq_some.1 hl
  rcases h.complete id e he with hb | ⟨c, hc, hname⟩
  · -- The only other built-in type that is an object is the array.
    rw [isObject_eq he] at hobj
    match id with
    | 0 =>
      cases hb
      exact Or.inl rfl
    | 3 => exact absurd rfl hne
    | 1 | 2 | 4 =>
      cases hb
      cases hobj
    | _ + 5 => cases hb
  · exact Or.inr ⟨c, hc, hname.symm⟩

/-- **The chains of a table end,** since parents have smaller numbers. -/
theorem grounded (h : Hierarchy t cs) (hc : c ∈ cs) : Grounded cs c.name := by
  obtain ⟨id, parent, hid, hp, hlt, hle⟩ := h.classes c hc
  clear hle
  induction id using Nat.strongRecOn generalizing c parent with
  | ind id ih =>
    rcases parentOf?_eq_some.1 hp with ⟨hparent, _⟩ | ⟨above, hparent, hl, hobj, hne⟩
    · exact grounded_root hc hparent
    · refine Grounded.below ?_ hc hparent
      rcases h.of_lookup?_parent hl hobj hne with rfl | ⟨d, hd, rfl⟩
      · exact grounded_object cs
      · obtain ⟨e, he, hname⟩ := h.lookup?_eq_some.1 hl
        obtain ⟨_, rfl, hp', hlt', _⟩ := h.of_class hd he hname
        exact ih parent hlt hd _ he hp' hlt'

end Hierarchy

/-- **When there is a table.** -/
theorem exists_ofClasses_iff (hd : (cs.map (·.name)).Nodup) : (∃ t, ofClasses cs = .ok t) ↔
    (∀ c ∈ cs, c.name ∉ builtin.entries.map (·.name)) ∧ ∀ c ∈ cs, Grounded cs c.name := by
  constructor
  · rintro ⟨t, ht⟩
    refine ⟨fun c hc hb => ?_, fun c hc => (hierarchy_of_ofClasses ht hd).grounded hc⟩
    rw [ofClasses] at ht
    split at ht
    · cases ht
    · next hnone => exact find?_eq_none.1 hnone c hc (isSome_lookup?_iff.2 hb)
  · rintro ⟨hnames, hg⟩
    have hpending : Pending cs builtin [] cs :=
      ⟨.of_builtin, hd, hnames, fun c hc => Or.inr hc⟩
    rw [ofClasses]
    split
    · next c hc =>
      have hsome := find?_some hc
      exact absurd (isSome_lookup?_iff.1 hsome) (hnames c (mem_of_find?_eq_some hc))
    · exact hpending.exists_addClasses hg

/-! ## Subtypes -/

namespace Hierarchy

variable {d : ClassDef} {id a b : TypeId}

section

variable (h : Hierarchy t cs)
include h

theorem parent?_of_extends {above : String} (hx : Extends cs n above) (hl : t.lookup? n = some id) :
    ∃ parent, t.parent? id = some parent ∧ t.lookup? above = some parent := by
  obtain ⟨c, hc, rfl, hparent⟩ := hx
  obtain ⟨e, he, hname⟩ := h.lookup?_eq_some.1 hl
  obtain ⟨parent, rfl, hp, _⟩ := h.of_class hc he hname
  refine ⟨parent, parent?_eq he, ?_⟩
  rcases parentOf?_eq_some.1 hp with ⟨hnone, _⟩ | ⟨above', hsome, hl', _⟩
  · rw [hnone] at hparent
    cases hparent
  · rw [some.inj (hparent.symm.trans hsome)]
    exact hl'

theorem extends_of_parent? {parent : TypeId} (hp : t.parent? id = some parent) :
    parent = .object ∨ ∃ name above, t.lookup? name = some id ∧ t.lookup? above = some parent ∧
      Extends cs name above := by
  obtain ⟨_, he⟩ := exists_get?_of_parent? hp
  rcases h.complete id _ he with hb | ⟨c, hc, hname⟩
  · exact Or.inl (of_get?_builtin hb).2
  · obtain ⟨_, heq, hparent, _⟩ := h.of_class hc he hname
    cases heq
    rcases parentOf?_eq_some.1 hparent with ⟨_, hobject⟩ | ⟨above, hsome, hl, _⟩
    · exact Or.inl hobject
    · exact Or.inr ⟨c.name, above, h.lookup?_eq_some.2 ⟨_, he, rfl⟩, hl, c, hc, rfl, hsome⟩

theorem lookup?_ne_object (hd : d ∈ cs) (hb : t.lookup? d.name = some b) : b ≠ .object := by
  rintro rfl
  obtain ⟨e, he, hname⟩ := h.lookup?_eq_some.1 hb
  obtain ⟨_, _, _, _, hle⟩ := h.of_class hd he hname
  exact absurd hle (by decide)

/-- **Subtypes among classes follow their parents by name.** -/
theorem isSubtype_iff_extends (hd : d ∈ cs) (ha : t.lookup? n = some a)
    (hb : t.lookup? d.name = some b) :
    t.isSubtype a b = true ↔ Relation.ReflTransGen (Extends cs) n d.name := by
  constructor
  · intro hsub
    induction h.isSubtype_iff.1 hsub using Relation.ReflTransGen.head_induction_on generalizing n with
    | refl =>
      obtain ⟨e, he, rfl⟩ := h.lookup?_eq_some.1 ha
      obtain ⟨e', he', hname⟩ := h.lookup?_eq_some.1 hb
      rw [← hname, some.inj (he.symm.trans he')]
    | @head a parent hp hrest ih =>
      have hsub' := h.isSubtype_iff.2 hrest
      rcases h.extends_of_parent? hp with rfl | ⟨n', above, hn', habove, hx⟩
      · -- Nothing is above the root, and it is no class.
        rw [isSubtype, h.ancestors_object, contains_iff_mem, mem_singleton] at hsub'
        exact absurd hsub' (h.lookup?_ne_object hd hb)
      · obtain ⟨e, he, rfl⟩ := h.lookup?_eq_some.1 ha
        obtain ⟨e', he', rfl⟩ := h.lookup?_eq_some.1 hn'
        obtain rfl := mem_unique he he'
        exact .head hx (ih habove hsub')
  · intro hreach
    induction hreach using Relation.ReflTransGen.head_induction_on generalizing a with
    | refl =>
      obtain rfl := mem_unique ha hb
      exact isSubtype_refl t a
    | head hx _ ih =>
      obtain ⟨parent, hp, hl⟩ := h.parent?_of_extends hx ha
      exact h.isSubtype_iff.2 (.head hp (h.isSubtype_iff.1 (ih hl)))

theorem isSubtype_object (hobj : t.isObject id = true) : t.isSubtype id .object = true := by
  induction id using Nat.strongRecOn with
  | ind id ih =>
    cases hp : t.parent? id with
    | some parent =>
      have hparent := ih parent (h.parent_lt hp) (h.isObject_of_parent? hp).2
      exact h.isSubtype_iff.2 (.head hp (h.isSubtype_iff.1 hparent))
    | none =>
      obtain ⟨e, he⟩ : ∃ e, t.get? id = some e := by
        refine ne_none_iff_exists'.1 fun hnone => ?_
        rw [isObject, hnone] at hobj
        cases hobj
      rw [isObject_eq he] at hobj
      rw [parent?_eq he] at hp
      rcases h.complete id e he with hb | ⟨c, hc, hname⟩
      · rcases id with _ | _ | _ | _ | _ | id <;> cases hb
        · exact isSubtype_refl t _
        · cases hobj
        · cases hobj
        · cases hp
        · cases hobj
      · obtain ⟨_, rfl, _⟩ := h.of_class hc he hname
        cases hp

theorem le_of_isSubtype (hsub : t.isSubtype a b = true) : b ≤ a := by
  induction h.isSubtype_iff.1 hsub with
  | refl => exact Nat.le_refl _
  | tail hab hp ih => exact Nat.le_trans (Nat.le_of_lt (h.parent_lt hp)) (ih (h.isSubtype_iff.2 hab))

end

end Hierarchy

/-! ## Exactness -/

structure Resolves (t : TypeTable) (cs : List ClassDef) : Prop where
  /-- Each class has one type, which is found under its name. -/
  unique : ∀ c ∈ cs, ∃ id, t.lookup? c.name = some id ∧ ∀ id', t.name? id' = some c.name ↔ id' = id
  /-- Every type is built in or that of a class. -/
  complete : ∀ id e, t.get? id = some e → builtin.get? id = some e ∨ ∃ c ∈ cs, e.name = c.name
  /-- A class is below itself and what its parents lead to. -/
  subtype : ∀ c ∈ cs, ∀ d ∈ cs, ∀ a b, t.lookup? c.name = some a → t.lookup? d.name = some b →
    (t.isSubtype a b = true ↔ d.name = c.name ∨ Relation.TransGen (Extends cs) c.name d.name)
  /-- Every class is below the root. -/
  root : ∀ c ∈ cs, ∀ id, t.lookup? c.name = some id → t.isSubtype id .object = true
  refl : ∀ a, t.isSubtype a a = true
  antisymm : ∀ a b, t.isSubtype a b = true → t.isSubtype b a = true → a = b
  trans : ∀ a b c, t.isSubtype a b = true → t.isSubtype b c = true → t.isSubtype a c = true
  /-- Following parents ends, and finds all supertypes. -/
  ends : WellFounded fun parent id => t.parent? id = some parent
  reached : ∀ a b, t.isSubtype a b = true ↔
    Relation.ReflTransGen (fun id parent => t.parent? id = some parent) a b

theorem Hierarchy.resolves (h : Hierarchy t cs) : t.Resolves cs where
  unique := by
    intro c hc
    obtain ⟨id, parent, hid, _⟩ := h.classes c hc
    refine ⟨id, h.lookup?_eq_some.2 ⟨_, hid, rfl⟩, fun id' => ⟨fun hname => ?_, ?_⟩⟩
    · obtain ⟨e, he, hname⟩ := map_eq_some_iff.1 hname
      exact h.eq_of_name_eq he hid hname
    · rintro rfl
      rw [name?, hid]
      rfl
  complete := h.complete
  subtype := by
    intro c _ d hd a b ha hb
    rw [h.isSubtype_iff_extends hd ha hb, Relation.reflTransGen_iff_eq_or_transGen]
  root := by
    intro c hc id hid
    obtain ⟨e, he, hname⟩ := h.lookup?_eq_some.1 hid
    obtain ⟨_, rfl, _⟩ := h.of_class hc he hname
    exact h.isSubtype_object (isObject_eq he)
  refl := isSubtype_refl t
  antisymm := fun _ _ hab hba => Nat.le_antisymm (h.le_of_isSubtype hba) (h.le_of_isSubtype hab)
  trans := fun _ _ _ => h.isSubtype_trans
  ends := Subrelation.wf (fun hp => h.parent_lt hp) Nat.lt_wfRel.wf
  reached := fun _ _ => h.isSubtype_iff

/-- **Resolution is exact.** Classes with different names have a table exactly if none is named like a
built-in type and all chains end; the table is that of the classes; and in any other order the classes
have a table as well, with the same subtypes. -/
theorem resolution_is_exact (cs : List ClassDef) (hd : (cs.map (·.name)).Nodup) :
    ((∃ t, ofClasses cs = .ok t) ↔
      (∀ c ∈ cs, c.name ∉ builtin.entries.map (·.name)) ∧ ∀ c ∈ cs, Grounded cs c.name) ∧
    (∀ t, ofClasses cs = .ok t → t.Resolves cs) ∧
    ∀ cs' : List ClassDef, cs'.Perm cs →
      ((∃ t', ofClasses cs' = .ok t') ↔ ∃ t, ofClasses cs = .ok t) ∧
      ∀ t t', ofClasses cs = .ok t → ofClasses cs' = .ok t' → ∀ c ∈ cs, ∀ d ∈ cs, ∀ a b a' b',
        t.lookup? c.name = some a → t.lookup? d.name = some b →
        t'.lookup? c.name = some a' → t'.lookup? d.name = some b' →
        t'.isSubtype a' b' = t.isSubtype a b := by
  refine ⟨exists_ofClasses_iff hd, fun t ht => (hierarchy_of_ofClasses ht hd).resolves,
    fun cs' hperm => ?_⟩
  have hd' : (cs'.map (·.name)).Nodup := (hperm.map _).nodup_iff.2 hd
  refine ⟨?_, fun t t' ht ht' c _ d hdmem a b a' b' ha hb ha' hb' => ?_⟩
  · rw [exists_ofClasses_iff hd, exists_ofClasses_iff hd']
    simp only [hperm.mem_iff, grounded_perm hperm]
  · have h := hierarchy_of_ofClasses ht hd
    have h' := hierarchy_of_ofClasses ht' hd'
    rw [Bool.eq_iff_iff, h.isSubtype_iff_extends hdmem ha hb,
      h'.isSubtype_iff_extends (hperm.mem_iff.2 hdmem) ha' hb', extends_perm hperm]

def lateParents : List ClassDef :=
  [⟨"Leaf", some "Branch", [], []⟩, ⟨"Stone", none, [], []⟩, ⟨"Branch", some "Tree", [], []⟩,
    ⟨"Tree", some "Object", [], []⟩]

/-- The classes have a table, in this order and in the other, and a leaf is a tree in both. -/
theorem resolution_is_exact_lateParents : (lateParents.map (·.name)).Nodup ∧
    ∃ t t' a b, ofClasses lateParents = .ok t ∧ ofClasses lateParents.reverse = .ok t' ∧
      t.Resolves lateParents ∧ t.lookup? "Leaf" = some a ∧ t.lookup? "Tree" = some b ∧
      t.isSubtype a b = true ∧ ∀ a' b', t'.lookup? "Leaf" = some a' → t'.lookup? "Tree" = some b' →
        t'.isSubtype a' b' = true := by
  have hd : (lateParents.map (·.name)).Nodup := by decide
  obtain ⟨_, hresolves, horder⟩ := resolution_is_exact lateParents hd
  obtain ⟨hiff, hsame⟩ := horder _ lateParents.reverse_perm
  obtain ⟨t, ht⟩ : ∃ t, ofClasses lateParents = .ok t := exists_eq_ok_of_isOk (by decide +kernel)
  obtain ⟨t', ht'⟩ := hiff.2 ⟨t, ht⟩
  have hleaf : (⟨"Leaf", some "Branch", [], []⟩ : ClassDef) ∈ lateParents := by simp [lateParents]
  have hbranch : (⟨"Branch", some "Tree", [], []⟩ : ClassDef) ∈ lateParents := by
    simp [lateParents]
  have htree : (⟨"Tree", some "Object", [], []⟩ : ClassDef) ∈ lateParents := by simp [lateParents]
  obtain ⟨a, ha, _⟩ := (hresolves t ht).unique _ hleaf
  obtain ⟨b, hb, _⟩ := (hresolves t ht).unique _ htree
  have hsub : t.isSubtype a b = true :=
    ((hresolves t ht).subtype _ hleaf _ htree a b ha hb).2
      (Or.inr (.tail (.single ⟨_, hleaf, rfl, rfl⟩) ⟨_, hbranch, rfl, rfl⟩))
  exact ⟨hd, t, t', a, b, ht, ht', hresolves t ht, ha, hb, hsub, fun a' b' ha' hb' =>
    (hsame t t' ht ht' _ hleaf _ htree a b a' b' ha hb ha' hb').trans hsub⟩

/-- Classes that are each other's parents have no table, whatever else there is. -/
example : (ofClasses [⟨"Tree", none, [], []⟩, ⟨"Egg", some "Hen", [], []⟩,
    ⟨"Hen", some "Egg", [], []⟩, ⟨"Chick", some "Egg", [], []⟩]).isOk = false := by decide +kernel

end MiniJava.TypeTable
