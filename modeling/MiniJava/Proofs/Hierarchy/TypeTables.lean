import Mathlib.Data.List.Perm.Basic
import Mathlib.Logic.Relation
import MiniJava.Hierarchy
import MiniJava.Proofs.Results

/-!
# The table of the types of a program

Classes are added to the table in an order in which parents come first. So a parent has a smaller
number than its children, chains of parents end, and a name stands for one type at most. The order
itself does not matter to what follows.
-/

namespace MiniJava.TypeTable

open Ssa List Option

/-! ## Look-ups -/

section Lookup

variable {t : TypeTable} {id parent : TypeId} {n : String} {e : StaticType}

theorem of_lookup? (h : t.lookup? n = some id) : ∃ e, t.get? id = some e ∧ e.name = n := by
  obtain ⟨⟨e, i⟩, hfind, rfl⟩ := map_eq_some_iff.1 h
  have hmem := mem_of_find?_eq_some hfind
  have hname := find?_some hfind
  simp only [mem_reverse, mem_zipIdx_iff_getElem?] at hmem
  exact ⟨e, hmem, by simpa using hname⟩

theorem exists_lookup? (h : t.get? id = some e) : ∃ id', t.lookup? e.name = some id' := by
  cases hl : t.lookup? e.name with
  | some id' => exact ⟨id', rfl⟩
  | none =>
    have hmem : (e, id) ∈ t.entries.zipIdx.reverse :=
      mem_reverse.2 (mem_zipIdx_iff_getElem?.2 h)
    exact absurd (find?_eq_none.1 (map_eq_none_iff.1 hl) _ hmem) (by simp)

theorem lt_of_get? (h : t.get? id = some e) : id < t.entries.length :=
  (lt_of_getElem? h)

theorem lookup?_eq_some_iff (hd : (t.entries.map (·.name)).Nodup) :
    t.lookup? n = some id ↔ ∃ e, t.get? id = some e ∧ e.name = n := by
  refine ⟨of_lookup?, ?_⟩
  rintro ⟨e, he, rfl⟩
  obtain ⟨id', hid'⟩ := exists_lookup? he
  obtain ⟨e', he', hname⟩ := of_lookup? hid'
  have hlt : id' < (t.entries.map (·.name)).length := by
    rw [length_map]
    exact lt_of_get? he'
  have heq : id' = id := by
    refine (getElem?_inj hlt hd).1 ?_
    rw [getElem?_map, getElem?_map]
    change (t.get? id').map _ = (t.get? id).map _
    rw [he, he', map_some, map_some, hname]
  rw [hid', heq]

theorem name_eq (h : t.get? id = some e) : t.name id = e.name := by
  rw [name, name?, h]
  rfl

theorem parent?_eq (h : t.get? id = some e) : t.parent? id = e.parent? := by
  rw [parent?, h]
  rfl

theorem isObject_eq (h : t.get? id = some e) : t.isObject id = e.isObject := by
  rw [isObject, h]
  rfl

theorem exists_get?_of_parent? (h : t.parent? id = some parent) :
    ∃ n, t.get? id = some (.object n (some parent)) := by
  obtain ⟨e, he, hparent⟩ := bind_eq_some_iff.1 h
  cases e with
  | object n parent? =>
    cases hparent
    exact ⟨n, he⟩
  | _ => cases hparent

theorem get?_addClass_of_lt (c : String) (h : id < t.entries.length) :
    (t.addClass c parent).get? id = t.get? id := getElem?_append_left h

theorem get?_addClass_self (t : TypeTable) (c : String) (parent : TypeId) :
    (t.addClass c parent).get? t.entries.length = some (.object c (some parent)) := by
  rw [get?, addClass, getElem?_append_right (Nat.le_refl _), Nat.sub_self]
  rfl

theorem get?_addClass (h : t.get? id = some e) (c : String) :
    (t.addClass c parent).get? id = some e := by
  rw [get?_addClass_of_lt c (lt_of_get? h), h]

theorem get?_addClass_cases {c : String} (h : (t.addClass c parent).get? id = some e) :
    t.get? id = some e ∨ id = t.entries.length ∧ e = .object c (some parent) := by
  have hlt := lt_of_get? h
  rw [addClass, length_append, length_singleton] at hlt
  rcases Nat.lt_or_ge id t.entries.length with hold | hnew
  · rw [get?_addClass_of_lt c hold] at h
    exact Or.inl h
  · obtain rfl : id = t.entries.length := Nat.le_antisymm (Nat.lt_succ_iff.1 hlt) hnew
    rw [get?_addClass_self] at h
    exact Or.inr ⟨rfl, (some.inj h).symm⟩

theorem parentOf?_eq_some {c : ClassDef} : t.parentOf? c = some parent ↔
    (c.parent? = none ∧ parent = .object) ∨
      ∃ p, c.parent? = some p ∧ t.lookup? p = some parent ∧ t.isObject parent = true ∧
        parent ≠ .intArray := by
  rw [parentOf?]
  cases c.parent? with
  | none =>
    refine ⟨fun h => Or.inl ⟨rfl, (some.inj h).symm⟩, ?_⟩
    rintro (⟨_, rfl⟩ | ⟨p, hp, _⟩)
    · rfl
    · cases hp
  | some p => simp [filter_eq_some_iff]

end Lookup

/-! ## Adding classes -/

/-- Each class is added below its parent, which is in the table by then. -/
inductive Adds : TypeTable → List ClassDef → TypeTable → Prop
  | nil (t : TypeTable) : Adds t [] t
  | cons {t t' : TypeTable} {c : ClassDef} {cs : List ClassDef} {parent : TypeId}
    (hp : t.parentOf? c = some parent) (h : Adds (t.addClass c.name parent) cs t') :
    Adds t (c :: cs) t'

namespace Adds

theorem append {t t₁ t₂ : TypeTable} {cs cs' : List ClassDef} (h : Adds t cs t₁)
    (h' : Adds t₁ cs' t₂) : Adds t (cs ++ cs') t₂ := by
  induction h with
  | nil => exact h'
  | cons hp _ ih => exact .cons hp (ih h')

end Adds

theorem adds_addReady (t : TypeTable) (cs : List ClassDef) :
    ∃ added, Adds t added (t.addReady cs).1 ∧ (added ++ (t.addReady cs).2).Perm cs := by
  induction cs generalizing t with
  | nil => exact ⟨[], .nil t, .refl _⟩
  | cons c cs ih =>
    rw [addReady]
    split
    · next parent hp =>
      obtain ⟨added, hadds, hperm⟩ := ih (t.addClass c.name parent)
      exact ⟨c :: added, .cons hp hadds, hperm.cons c⟩
    · obtain ⟨added, hadds, hperm⟩ := ih t
      exact ⟨added, hadds, perm_middle.trans (hperm.cons c)⟩

/-- **All classes are added,** in some order. -/
theorem adds_of_addClasses {t t' : TypeTable} {cs : List ClassDef} (h : t.addClasses cs = .ok t') :
    ∃ added, Adds t added t' ∧ added.Perm cs := by
  induction hn : cs.length using Nat.strongRecOn generalizing t cs with
  | ind n ih =>
    rw [addClasses] at h
    split at h
    · next hempty =>
      cases h
      rw [isEmpty_iff.1 hempty]
      exact ⟨[], .nil _, .refl _⟩
    · dsimp only at h
      split at h
      · next hlt =>
        obtain ⟨added, hadds, hperm⟩ := adds_addReady t cs
        obtain ⟨added', hadds', hperm'⟩ := ih _ (hn ▸ hlt) h rfl
        exact ⟨added ++ added', hadds.append hadds', (hperm'.append_left added).trans hperm⟩
      · cases h

/-! ## The table of some classes -/

structure Hierarchy (t : TypeTable) (cs : List ClassDef) : Prop where
  builtin : builtin.entries <+: t.entries
  nodup : (t.entries.map (·.name)).Nodup
  classes : ∀ c ∈ cs, ∃ id parent, t.get? id = some (.object c.name (some parent)) ∧
    t.parentOf? c = some parent ∧ parent < id ∧ TypeTable.builtin.nextTypeId ≤ id
  complete : ∀ id e, t.get? id = some e →
    TypeTable.builtin.get? id = some e ∨ ∃ c ∈ cs, e.name = c.name

namespace Hierarchy

variable {t : TypeTable} {cs : List ClassDef} {c : ClassDef} {id id' parent : TypeId} {n : String}
  {e : StaticType}

theorem of_builtin : Hierarchy .builtin [] where
  builtin := prefix_refl _
  nodup := by decide
  classes := by simp
  complete := fun _ _ h => Or.inl h

theorem lookup?_eq_some (h : Hierarchy t cs) :
    t.lookup? n = some id ↔ ∃ e, t.get? id = some e ∧ e.name = n := lookup?_eq_some_iff h.nodup

theorem get?_builtin (h : Hierarchy t cs) (he : TypeTable.builtin.get? id = some e) :
    t.get? id = some e := by
  obtain ⟨rest, hrest⟩ := h.builtin
  rw [get?, ← hrest, getElem?_append_left (lt_of_get? he)]
  exact he

theorem nodup_addClass (h : Hierarchy t cs) (hnew : n ∉ t.entries.map (·.name)) (above : TypeId) :
    ((t.addClass n above).entries.map (·.name)).Nodup := by
  rw [addClass, map_append]
  refine nodup_append.2 ⟨h.nodup, by simp, fun a ha b hb hab => ?_⟩
  obtain rfl : b = n := mem_singleton.1 hb
  exact hnew (hab ▸ ha)

theorem parentOf?_addClass (h : Hierarchy t cs) (hnew : n ∉ t.entries.map (·.name))
    (hp : t.parentOf? c = some parent) (above : TypeId) :
    (t.addClass n above).parentOf? c = some parent := by
  rw [parentOf?_eq_some] at hp ⊢
  rcases hp with hp | ⟨p, hparent, hl, hobj, hne⟩
  · exact Or.inl hp
  · obtain ⟨e, he, hname⟩ := of_lookup? hl
    refine Or.inr ⟨p, hparent, ?_, ?_, hne⟩
    · exact (lookup?_eq_some_iff (h.nodup_addClass hnew above)).2 ⟨e, get?_addClass he n, hname⟩
    · rw [isObject_eq (get?_addClass he n), ← isObject_eq he, hobj]

theorem lt_length_of_parentOf? (h : Hierarchy t cs) (hp : t.parentOf? c = some parent) :
    parent < t.entries.length := by
  rcases parentOf?_eq_some.1 hp with ⟨_, rfl⟩ | ⟨p, _, hl, _⟩
  · exact lt_of_get? (h.get?_builtin (show TypeTable.builtin.get? .object = some _ from rfl))
  · obtain ⟨e, he, _⟩ := of_lookup? hl
    exact lt_of_get? he

/-- **One more class.** -/
theorem addClass (h : Hierarchy t cs) (hnew : c.name ∉ t.entries.map (·.name))
    (hp : t.parentOf? c = some parent) : Hierarchy (t.addClass c.name parent) (c :: cs) where
  builtin := h.builtin.trans (prefix_append _ _)
  nodup := h.nodup_addClass hnew parent
  classes := by
    intro d hd
    rcases mem_cons.1 hd with rfl | hd
    · exact ⟨_, parent, get?_addClass_self t d.name parent, h.parentOf?_addClass hnew hp parent,
        h.lt_length_of_parentOf? hp, h.builtin.length_le⟩
    · obtain ⟨id, above, hid, habove, hlt⟩ := h.classes d hd
      exact ⟨id, above, get?_addClass hid c.name, h.parentOf?_addClass hnew habove parent, hlt⟩
  complete := by
    intro id e he
    rcases get?_addClass_cases he with he | ⟨rfl, rfl⟩
    · rcases h.complete id e he with hb | ⟨d, hd, hname⟩
      · exact Or.inl hb
      · exact Or.inr ⟨d, mem_cons_of_mem _ hd, hname⟩
    · exact Or.inr ⟨c, mem_cons_self, rfl⟩

theorem of_adds {t t' : TypeTable} {cs added : List ClassDef} (h : Hierarchy t cs)
    (ha : Adds t added t') (hd : (added.map (·.name)).Nodup)
    (hnew : ∀ c ∈ added, c.name ∉ t.entries.map (·.name)) :
    ∃ cs', Hierarchy t' cs' ∧ cs'.Perm (added ++ cs) := by
  induction ha generalizing cs with
  | nil => exact ⟨cs, h, .refl _⟩
  | @cons t t' c added parent hp _ ih =>
    rw [map_cons, nodup_cons] at hd
    have hc := h.addClass (hnew c mem_cons_self) hp
    obtain ⟨cs', hcs', hperm⟩ := ih hc hd.2 fun d hd' hmem => by
      rw [TypeTable.addClass, map_append, mem_append] at hmem
      rcases hmem with hmem | hmem
      · exact hnew d (mem_cons_of_mem _ hd') hmem
      · have hname : d.name = c.name := mem_singleton.1 hmem
        exact hd.1 (hname ▸ mem_map_of_mem hd')
    exact ⟨cs', hcs', hperm.trans perm_middle⟩

theorem of_perm (h : Hierarchy t cs) {cs' : List ClassDef} (hp : cs.Perm cs') : Hierarchy t cs' where
  builtin := h.builtin
  nodup := h.nodup
  classes := fun c hc => h.classes c (hp.mem_iff.2 hc)
  complete := fun id e he => (h.complete id e he).imp_right fun ⟨c, hc, hrest⟩ =>
    ⟨c, hp.mem_iff.1 hc, hrest⟩

end Hierarchy

/-- **The table of a program.** -/
theorem hierarchy_of_ofClasses {t : TypeTable} {cs : List ClassDef} (h : ofClasses cs = .ok t)
    (hd : (cs.map (·.name)).Nodup) : Hierarchy t cs := by
  rw [ofClasses] at h
  split at h
  · cases h
  · next hnone =>
    obtain ⟨added, hadds, hperm⟩ := adds_of_addClasses h
    have hnew : ∀ c ∈ added, c.name ∉ builtin.entries.map (·.name) := by
      intro c hc hmem
      obtain ⟨e, he, hname⟩ := mem_map.1 hmem
      obtain ⟨i, hi⟩ := mem_iff_getElem?.1 he
      obtain ⟨id, hid⟩ := exists_lookup? (t := builtin) hi
      have hnot := find?_eq_none.1 hnone c (hperm.mem_iff.1 hc)
      rw [← hname, hid] at hnot
      exact hnot rfl
    obtain ⟨cs', hcs', hperm'⟩ := Hierarchy.of_builtin.of_adds hadds
      ((hperm.map _).nodup_iff.2 hd) hnew
    rw [append_nil] at hperm'
    exact hcs'.of_perm (hperm'.trans hperm)

/-! ## Chains of parents -/

namespace Hierarchy

variable {t : TypeTable} {cs : List ClassDef} {c : ClassDef} {id id' parent : TypeId} {n : String}
  {e e' : StaticType}

theorem eq_of_name_eq (h : Hierarchy t cs) (he : t.get? id = some e) (he' : t.get? id' = some e')
    (hname : e.name = e'.name) : id = id' := by
  have hl := h.lookup?_eq_some.2 ⟨e, he, rfl⟩
  rw [hname, h.lookup?_eq_some.2 ⟨e', he', rfl⟩] at hl
  exact (some.inj hl).symm

theorem of_class (h : Hierarchy t cs) (hc : c ∈ cs) (he : t.get? id = some e)
    (hname : e.name = c.name) : ∃ parent, e = .object c.name (some parent) ∧
      t.parentOf? c = some parent ∧ parent < id ∧ TypeTable.builtin.nextTypeId ≤ id := by
  obtain ⟨id', parent, hid', hp⟩ := h.classes c hc
  obtain rfl : id = id' := h.eq_of_name_eq he hid' hname
  exact ⟨parent, some.inj (he.symm.trans hid'), hp⟩

theorem of_get?_builtin (h : TypeTable.builtin.get? id = some (.object n (some parent))) :
    id = .intArray ∧ parent = .object := by
  match id with
  | 0 | 1 | 2 | 4 | _ + 5 => cases h
  | 3 =>
    cases h
    exact ⟨rfl, rfl⟩

theorem parent_lt (h : Hierarchy t cs) (hp : t.parent? id = some parent) : parent < id := by
  obtain ⟨n, he⟩ := exists_get?_of_parent? hp
  rcases h.complete id _ he with hb | ⟨c, hc, hname⟩
  · obtain ⟨rfl, rfl⟩ := of_get?_builtin hb
    decide
  · obtain ⟨parent', heq, _, hlt, _⟩ := h.of_class hc he hname
    cases heq
    exact hlt

theorem ancestorsUpTo_eq (h : Hierarchy t cs) {m n : Nat} (hm : id < m) (hn : id < n) :
    t.ancestorsUpTo m id = t.ancestorsUpTo n id := by
  induction m generalizing id n with
  | zero => exact absurd hm (Nat.not_lt_zero _)
  | succ m ih =>
    cases n with
    | zero => exact absurd hn (Nat.not_lt_zero _)
    | succ n =>
      rw [ancestorsUpTo, ancestorsUpTo]
      cases hp : t.parent? id with
      | none => rfl
      | some parent =>
        have hlt := h.parent_lt hp
        dsimp only
        rw [ih (Nat.lt_of_lt_of_le hlt (Nat.lt_succ_iff.1 hm))
          (Nat.lt_of_lt_of_le hlt (Nat.lt_succ_iff.1 hn))]

/-- **A chain of parents, step by step.** -/
theorem ancestors_of_some (h : Hierarchy t cs) (hp : t.parent? id = some parent) :
    t.ancestors id = id :: t.ancestors parent := by
  obtain ⟨n, he⟩ := exists_get?_of_parent? hp
  have hlt := h.parent_lt hp
  have hlen := lt_of_get? he
  rw [ancestors, ancestorsUpTo, hp]
  exact congrArg (id :: ·)
    (h.ancestorsUpTo_eq (Nat.lt_trans hlt hlen) (Nat.lt_succ_of_lt (Nat.lt_trans hlt hlen)))

theorem ancestors_of_none (hp : t.parent? id = none) : t.ancestors id = [id] := by
  rw [ancestors, ancestorsUpTo, hp]

theorem mem_ancestors_self (t : TypeTable) (id : TypeId) : id ∈ t.ancestors id := by
  rw [ancestors, ancestorsUpTo]
  exact mem_cons_self

/-- **Subtypes follow parents.** -/
theorem isSubtype_iff (h : Hierarchy t cs) :
    t.isSubtype id id' = true ↔ Relation.ReflTransGen (fun a b => t.parent? a = some b) id id' := by
  rw [isSubtype, contains_iff_mem]
  constructor
  · intro hmem
    induction id using Nat.strongRecOn with
    | ind id ih =>
      cases hp : t.parent? id with
      | none =>
        rw [ancestors_of_none hp, mem_singleton] at hmem
        exact hmem ▸ .refl
      | some parent =>
        rw [h.ancestors_of_some hp, mem_cons] at hmem
        rcases hmem with rfl | hmem
        · exact .refl
        · exact .head hp (ih parent (h.parent_lt hp) hmem)
  · intro hsub
    induction hsub using Relation.ReflTransGen.head_induction_on with
    | refl => exact mem_ancestors_self t id'
    | head hp _ ih =>
      rw [h.ancestors_of_some hp]
      exact mem_cons_of_mem _ ih

theorem isSubtype_refl (t : TypeTable) (id : TypeId) : t.isSubtype id id = true :=
  contains_iff_mem.2 (mem_ancestors_self t id)

section

variable (h : Hierarchy t cs)
include h

theorem isSubtype_trans {a b c : TypeId} (hab : t.isSubtype a b = true)
    (hbc : t.isSubtype b c = true) : t.isSubtype a c = true :=
  h.isSubtype_iff.2 ((h.isSubtype_iff.1 hab).trans (h.isSubtype_iff.1 hbc))

theorem isObject_of_parent? (hp : t.parent? id = some parent) :
    t.isObject id = true ∧ t.isObject parent = true := by
  obtain ⟨n, he⟩ := exists_get?_of_parent? hp
  refine ⟨isObject_eq he, ?_⟩
  have hobject : t.isObject .object = true :=
    isObject_eq (h.get?_builtin (show TypeTable.builtin.get? .object = some _ from rfl))
  rcases h.complete id _ he with hb | ⟨c, hc, hname⟩
  · obtain ⟨_, rfl⟩ := of_get?_builtin hb
    exact hobject
  · obtain ⟨_, heq, hparent, _⟩ := h.of_class hc he hname
    cases heq
    rcases parentOf?_eq_some.1 hparent with ⟨_, rfl⟩ | ⟨_, _, _, hobj, _⟩
    · exact hobject
    · exact hobj

theorem isObject_iff_of_isSubtype (hsub : t.isSubtype id id' = true) :
    t.isObject id = true ↔ t.isObject id' = true := by
  induction h.isSubtype_iff.1 hsub with
  | refl => exact Iff.rfl
  | tail hab hp ih =>
    obtain ⟨hb, hc⟩ := h.isObject_of_parent? hp
    exact (ih (h.isSubtype_iff.2 hab)).trans (iff_of_true hb hc)

theorem eq_of_isSubtype (hsub : t.isSubtype id id' = true) (hobj : t.isObject id = false) :
    id' = id := by
  rcases Relation.ReflTransGen.cases_head (h.isSubtype_iff.1 hsub) with rfl | ⟨parent, hp, _⟩
  · rfl
  · rw [(h.isObject_of_parent? hp).1] at hobj
    cases hobj

theorem eq_intArray_of_isSubtype (hsub : t.isSubtype id .intArray = true) : id = .intArray := by
  rcases Relation.ReflTransGen.cases_tail (h.isSubtype_iff.1 hsub) with heq | ⟨b, _, hp⟩
  · exact heq.symm
  · obtain ⟨n, he⟩ := exists_get?_of_parent? hp
    rcases h.complete b _ he with hb | ⟨c, hc, hname⟩
    · cases (of_get?_builtin hb).2
    · obtain ⟨_, heq, hparent, _⟩ := h.of_class hc he hname
      cases heq
      rcases parentOf?_eq_some.1 hparent with ⟨_, hobj⟩ | ⟨_, _, _, _, hne⟩
      · cases hobj
      · exact absurd rfl hne

theorem ancestors_suffix (hsub : t.isSubtype id id' = true) :
    t.ancestors id' <:+ t.ancestors id := by
  induction h.isSubtype_iff.1 hsub using Relation.ReflTransGen.head_induction_on with
  | refl => exact suffix_rfl
  | head hp hbc ih =>
    rw [h.ancestors_of_some hp]
    exact (ih (h.isSubtype_iff.2 hbc)).trans (suffix_cons _ _)

end

end Hierarchy

end MiniJava.TypeTable
