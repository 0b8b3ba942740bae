import Mathlib.Data.Set.Function
import MiniJava.Proofs.Hierarchy.Resolution
import MiniJava.Proofs.Typing.Bodies

/-!
# Objects of classes and of their ancestors

Code that is compiled against a class runs on the objects of all its descendants. It takes slots and
offsets from the class it knows, so these have to mean the same in the dispatch tables and the objects
of every descendant. A descendant may declare a method again, which then stands in the old slot, or a
field, which does not: the object keeps both fields, and the offset still leads to the old one.
-/

namespace MiniJava

open Ssa TypeTable Relation List Option

/-! ## Nearest classes -/

inductive Nearest (cs : List ClassDef) (P : ClassDef → Bool) : String → ClassDef → Prop
  | here {c : ClassDef} (hc : c ∈ cs) (h : P c = true) : Nearest cs P c.name c
  | above {c d : ClassDef} {parent : String} (hc : c ∈ cs) (hnot : P c = false)
    (hp : c.parent? = some parent) (h : Nearest cs P parent d) : Nearest cs P c.name d

/-- Classes that are linked by their parents, from a name up to a class without parent or to a name of
no class. -/
inductive Linked (cs : List ClassDef) : String → List ClassDef → Prop
  | none (n : String) : Linked cs n []
  | root {c : ClassDef} (hc : c ∈ cs) : Linked cs c.name [c]
  | child {c : ClassDef} {n : String} {chain : List ClassDef} (hc : c ∈ cs)
    (hp : c.parent? = some n) (h : Linked cs n chain) : Linked cs c.name (c :: chain)

namespace Linked

variable {cs chain : List ClassDef} {n : String} {c d : ClassDef} {P : ClassDef → Bool}

theorem nearest (h : Linked cs n chain) (hfind : chain.find? P = some d) : Nearest cs P n d := by
  induction h with
  | none => cases hfind
  | root hc =>
    rw [find?_singleton] at hfind
    split at hfind
    · next hP =>
      cases hfind
      exact .here hc hP
    · cases hfind
  | child hc hp _ ih =>
    rw [find?_cons] at hfind
    split at hfind
    · next hP =>
      cases hfind
      exact .here hc hP
    · next hnot => exact .above hc hnot hp (ih hfind)

theorem extends_of_mem (h : Linked cs n chain) (hmem : c ∈ chain) :
    ReflTransGen (Extends cs) n c.name := by
  induction h with
  | none => cases hmem
  | root hc =>
    rw [List.mem_singleton.1 hmem]
  | @child d n chain hd hp _ ih =>
    rcases List.mem_cons.1 hmem with rfl | hmem
    · exact .refl
    · exact .head ⟨d, hd, rfl, hp⟩ (ih hmem)

end Linked

namespace TypeTable.Hierarchy

variable {t : TypeTable} {cs : List ClassDef} {c d : ClassDef} {n n' : String} {P : ClassDef → Bool}

section

variable (h : Hierarchy t cs) (hd : (cs.map (·.name)).Nodup)
include h hd

/-- **The chain of a class, step by step.** -/
theorem chainIn_of_mem (hc : c ∈ cs) : chainIn cs c.name = c :: c.parent?.elim [] (chainIn cs) := by
  obtain ⟨id, parent, hid, hp, _⟩ := h.classes c hc
  have hname : t.name id = c.name := name_eq hid
  have hfind : cs.find? (·.name == c.name) = some c :=
    (find?_eq_some_iff_of_nodup hd).2 ⟨hc, rfl⟩
  rw [← hname, h.chainIn_eq hid, h.ancestors_of_some (parent?_eq hid), filterMap_cons, hname, hfind]
  refine congrArg (c :: ·) ?_
  rcases parentOf?_eq_some.1 hp with ⟨hnone, rfl⟩ | ⟨above, hsome, hl, _⟩
  · rw [hnone, h.ancestors_object]
    simp [h.find?_object]
  · obtain ⟨e, he, rfl⟩ := of_lookup? hl
    rw [hsome, elim_some, ← name_eq he, h.chainIn_eq he]

theorem linked_chainIn (n : String) : Linked cs n (chainIn cs n) := by
  induction hlen : (chainIn cs n).length using Nat.strongRecOn generalizing n with
  | ind len ih =>
    cases hfind : cs.find? (·.name == n) with
    | none =>
      rw [chainIn_of_none hfind]
      exact .none n
    | some c =>
      obtain ⟨hc, rfl⟩ := (find?_eq_some_iff_of_nodup hd).1 hfind
      have hchain := h.chainIn_of_mem hd hc
      cases hp : c.parent? with
      | none =>
        rw [hchain, hp]
        exact .root hc
      | some parent =>
        rw [hp, elim_some] at hchain
        rw [hchain] at hlen ⊢
        exact .child hc hp (ih _ (hlen ▸ Nat.lt_succ_self _) parent rfl)

theorem chainIn_suffix_of_extends (hx : ReflTransGen (Extends cs) n n') :
    chainIn cs n' <:+ chainIn cs n := by
  induction hx using ReflTransGen.head_induction_on with
  | refl => exact suffix_rfl
  | head hx _ ih =>
    obtain ⟨c, hc, rfl, hp⟩ := hx
    rw [h.chainIn_of_mem hd hc, hp]
    exact ih.trans (suffix_cons _ _)

/-- **The nearest class is the first on the chain.** -/
theorem nearest_iff : Nearest cs P n d ↔ (chainIn cs n).find? P = some d := by
  refine ⟨fun hn => ?_, (h.linked_chainIn hd n).nearest⟩
  induction hn with
  | here hc hP => rw [h.chainIn_of_mem hd hc, find?_cons_of_pos hP]
  | above hc hnot hp _ ih =>
    rw [h.chainIn_of_mem hd hc, find?_cons_of_neg (Bool.eq_false_iff.1 hnot), hp]
    exact ih

theorem mem_chainIn_iff : c ∈ chainIn cs n ↔ c ∈ cs ∧ ReflTransGen (Extends cs) n c.name := by
  constructor
  · exact fun hmem => ⟨mem_of_mem_chainIn hmem, (h.linked_chainIn hd n).extends_of_mem hmem⟩
  · rintro ⟨hc, hx⟩
    refine (h.chainIn_suffix_of_extends hd hx).subset ?_
    rw [h.chainIn_of_mem hd hc]
    exact mem_cons_self

end

end TypeTable.Hierarchy

/-! ## Programs with a hierarchy -/

/-- A program that has a table of types, with different names for its classes and for the fields of each
of them. -/
structure Ssa.Program.Resolved (p : Program) (t : TypeTable) : Prop where
  hierarchy : Hierarchy t p.classes
  nodup_classes : (p.classes.map (·.name)).Nodup
  nodup_fields : ∀ c ∈ p.classes, (c.fields.map (·.name)).Nodup

theorem Ssa.Lowered.resolved {ast : Ast.Program} {p : Program} {t : TypeTable} (h : Lowered ast p)
    (ht : ofClasses p.classes = .ok t) : p.Resolved t where
  hierarchy := hierarchy_of_ofClasses ht h.nodup_classNames
  nodup_classes := h.nodup_classNames
  nodup_fields := h.nodup_fieldNames

namespace Ssa.Program.Resolved

variable {p : Program} {t : TypeTable} {c d : ClassDef} {n n' : String} {P : ClassDef → Bool}

theorem chain_suffix (h : p.Resolved t) (hx : ReflTransGen (TypeTable.Extends p.classes) n n') :
    p.chain n' <:+ p.chain n :=
  h.hierarchy.chainIn_suffix_of_extends h.nodup_classes hx

theorem nearest_iff (h : p.Resolved t) : Nearest p.classes P n d ↔ (p.chain n).find? P = some d :=
  h.hierarchy.nearest_iff h.nodup_classes

theorem exists_nearest_iff (h : p.Resolved t) :
    (∃ d, Nearest p.classes P n d) ↔ ((p.chain n).find? P).isSome = true := by
  rw [isSome_iff_exists]
  exact exists_congr fun _ => h.nearest_iff

end Ssa.Program.Resolved

/-! ## Dispatch -/

/-- **Slots are stable, and dispatch is to the most derived method.** The dispatch table of a class
begins with the method names of the table of each ancestor, and no name comes twice. Every method that
the class declares or inherits has a slot, which is that of the ancestors if they have one, and the
entry there names the nearest class that declares the method. -/
theorem slots_are_stable {ast : Ast.Program} {p : Ssa.Program} {t : TypeTable}
    (h : Program.ofAst ast = .ok p) (ht : ofClasses p.classes = .ok t) {c d : String}
    (hx : ReflTransGen (Extends p.classes) c d) :
    (p.dispatchTable d).map (·.method) <+: (p.dispatchTable c).map (·.method) ∧
    ((p.dispatchTable c).map (·.method)).Nodup ∧
    (∀ m, (p.methodSlot? c m).isSome = true ↔ ∃ e, Nearest p.classes (·.declaresMethod m) c e) ∧
    ∀ m s, p.methodSlot? d m = some s → p.methodSlot? c m = some s ∧
      ∃ e, Nearest p.classes (·.declaresMethod m) c e ∧
        (p.dispatchTable c)[s]? = some ⟨m, e.name⟩ := by
  have hp := (lowered_of_ofAst h).resolved ht
  have hpre := names_tableOf_prefix (hp.chain_suffix hx)
  refine ⟨hpre, nodup_tableOf _, fun m => ?_, fun m s hs => ?_⟩
  · rw [Program.isSome_methodSlot?, hp.exists_nearest_iff]
  · have hs' : p.methodSlot? c m = some s := by
      rw [Program.methodSlot?_eq_some] at hs ⊢
      exact getElem?_of_prefix hpre hs
    obtain ⟨e, he, hentry⟩ := Program.exists_entry hs'
    exact ⟨hs', e, hp.nearest_iff.2 he, hentry⟩

/-- Three classes, each of which declares members of those above again. -/
def redeclaring : Ast.Program where
  main := ⟨"Main", .print (.intLit 1)⟩
  classes :=
    let method (type : TypeName) (name : String) (result : Ast.Expr) : Ast.MethodDecl :=
      ⟨type, name, [], [], [], result⟩
    [⟨"Leaf", some "Middle", [⟨.boolean, "x"⟩], [method .int "g" (.intLit 3)]⟩,
      ⟨"Middle", some "Root", [⟨.int, "y"⟩], [method .boolean "h" (.var "x"), method .int "f" (.var "y")]⟩,
      ⟨"Root", none, [⟨.boolean, "x"⟩, ⟨.int, "z"⟩],
        [method .int "f" (.var "z"), method .int "g" (.intLit 1)]⟩]

theorem exists_redeclaring : ∃ p t, Program.ofAst redeclaring = .ok p ∧ ofClasses p.classes = .ok t ∧
    ∀ n ∈ [("Leaf", some "Middle"), ("Middle", some "Root"), ("Root", none)],
      ∃ c ∈ p.classes, (c.name, c.parent?) = n := by
  have h : (Program.ofAst redeclaring).toOption.map (fun p => ((ofClasses p.classes).isOk,
      p.classes.map fun c => (c.name, c.parent?))) =
      some (true, [("Leaf", some "Middle"), ("Middle", some "Root"), ("Root", none)]) := by
    decide +kernel
  obtain ⟨p, hp, h⟩ := exists_eq_ok_of_map_toOption h
  obtain ⟨ht, hnames⟩ := Prod.mk.inj h
  obtain ⟨t, ht⟩ := exists_eq_ok_of_isOk ht
  exact ⟨p, t, hp, ht, fun n hn => List.mem_map.1 (hnames ▸ hn)⟩

/-- Calls of `f` through the root of `redeclaring` take the first slot, and in the table of the leaf it
holds the method in the middle. -/
theorem slots_are_stable_redeclaring : ∃ p t, Program.ofAst redeclaring = .ok p ∧
    ofClasses p.classes = .ok t ∧ ReflTransGen (Extends p.classes) "Leaf" "Root" ∧
    p.methodSlot? "Root" "f" = some 0 ∧ p.methodSlot? "Leaf" "f" = some 0 ∧
    (p.dispatchTable "Leaf")[0]? = some ⟨"f", "Middle"⟩ ∧
    ∃ e, Nearest p.classes (·.declaresMethod "f") "Leaf" e ∧ e.name = "Middle" := by
  obtain ⟨p, t, hp, ht, hclasses⟩ := exists_redeclaring
  obtain ⟨leaf, hleaf, hleafEq⟩ := hclasses ("Leaf", some "Middle") (by simp)
  obtain ⟨middle, hmiddle, hmiddleEq⟩ := hclasses ("Middle", some "Root") (by simp)
  have hx : ReflTransGen (Extends p.classes) "Leaf" "Root" :=
    .tail (.single ⟨leaf, hleaf, Prod.mk.inj hleafEq⟩) ⟨middle, hmiddle, Prod.mk.inj hmiddleEq⟩
  have h : (Program.ofAst redeclaring).toOption.map (fun p =>
      (p.methodSlot? "Root" "f", (p.dispatchTable "Leaf")[0]?)) = some (some 0, some ⟨"f", "Middle"⟩) := by
    decide +kernel
  rw [hp] at h
  obtain ⟨hslot, hentry⟩ := Prod.mk.inj (Option.some.inj h)
  obtain ⟨hslot', e, he, hentry'⟩ := (slots_are_stable hp ht hx).2.2.2 "f" 0 hslot
  rw [hentry] at hentry'
  exact ⟨p, t, hp, ht, hx, hslot, hslot', hentry, e, he,
    (DispatchEntry.mk.inj (Option.some.inj hentry')).2.symm⟩

/-! ## Objects -/

inductive ObjectWord where
  | header
  | field (owner name : String)

namespace Ssa.Program

def wordOffset? (p : Program) : ObjectWord → Option Nat
  | .header => some 0
  | .field owner name => p.fieldOffset? owner name

/-- The objects of a class have a header and every field that the class or an ancestor declares. -/
def Holds (p : Program) (className : String) : ObjectWord → Prop
  | .header => True
  | .field owner name => ReflTransGen (TypeTable.Extends p.classes) className owner ∧
      ∃ c ∈ p.classes, c.name = owner ∧ c.declaresField name = true

namespace Resolved

variable {p : Program} {t : TypeTable} {n owner field : String} {off : Nat}

theorem holds_field_iff (h : p.Resolved t) :
    p.Holds n (.field owner field) ↔ (owner, field) ∈ placedFields (p.chain n) := by
  simp only [mem_placedFields, chain, h.hierarchy.mem_chainIn_iff h.nodup_classes]
  constructor
  · rintro ⟨hx, c, hc, rfl, hdecl⟩
    exact ⟨c, ⟨hc, hx⟩, rfl, hdecl⟩
  · rintro ⟨c, ⟨hc, hx⟩, rfl, hdecl⟩
    exact ⟨hx, c, hc, rfl, hdecl⟩

theorem nodup_placed (h : p.Resolved t) (n : String) : (placedFields (p.chain n)).Nodup :=
  nodup_placedFields (nodup_chainIn p.classes n) fun c hc =>
    h.nodup_fields c (mem_of_mem_chainIn hc)

/-- **A field is at one place in all objects that have it.** -/
theorem fieldOffset?_eq (h : p.Resolved t) (hhold : p.Holds n (.field owner field)) :
    ∃ i, (placedFields (p.chain n))[i]? = some (owner, field) ∧
      p.fieldOffset? owner field = some (wordSize * (1 + i)) := by
  obtain ⟨hx, c, hc, rfl, hdecl⟩ := hhold
  have hchain : p.chain c.name = _ := h.hierarchy.chainIn_of_mem h.nodup_classes hc
  obtain ⟨i, hi, hoff⟩ := exists_offset_of_declares (h.nodup_fields c hc) hdecl
    (c.parent?.elim [] (chainIn p.classes))
  rw [← hchain] at hi hoff
  exact ⟨i, getElem?_of_prefix (isPrefix_placedFields (h.chain_suffix hx)) hi, hoff⟩

/-- **A class finds a field where its nearest declaration is.** -/
theorem fieldOffset?_of_nearest (h : p.Resolved t) {c : ClassDef}
    (hc : Nearest p.classes (·.declaresField field) n c) :
    p.Holds n (.field c.name field) ∧ p.fieldOffset? n field = p.fieldOffset? c.name field := by
  induction hc with
  | here hc hdecl => exact ⟨⟨.refl, _, hc, rfl, hdecl⟩, rfl⟩
  | @above d c parent hd hnot hparent _ ih =>
    obtain ⟨⟨hx, hdecl⟩, heq⟩ := ih
    refine ⟨⟨.head ⟨d, hd, rfl, hparent⟩ hx, hdecl⟩, heq ▸ ?_⟩
    have hchain : p.chain d.name = _ := h.hierarchy.chainIn_of_mem h.nodup_classes hd
    rw [fieldOffset?, hchain, fieldOffsetIn?_cons_of_not hnot, hparent]
    rfl

/-- **The words of an object are its header and its fields.** -/
theorem bijOn_wordOffset? (h : p.Resolved t) (n : String) : Set.BijOn p.wordOffset?
    {w | p.Holds n w} {off | ∃ i < 1 + fieldCount (p.chain n), off = some (wordSize * i)} := by
  have hfield : ∀ owner field, p.Holds n (.field owner field) → ∃ i < fieldCount (p.chain n),
      (placedFields (p.chain n))[i]? = some (owner, field) ∧
        p.fieldOffset? owner field = some (wordSize * (1 + i)) := by
    intro owner field hhold
    obtain ⟨i, hi, hoff⟩ := h.fieldOffset?_eq hhold
    exact ⟨i, length_placedFields _ ▸ lt_of_getElem? hi, hi, hoff⟩
  refine ⟨?_, ?_, ?_⟩
  · rintro (_ | ⟨owner, field⟩) hhold
    · exact ⟨0, by omega, rfl⟩
    · obtain ⟨i, hlt, _, hoff⟩ := hfield owner field hhold
      exact ⟨1 + i, by omega, hoff⟩
  · rintro (_ | ⟨owner, field⟩) hhold (_ | ⟨owner', field'⟩) hhold' heq
    · rfl
    · obtain ⟨i, _, _, hoff⟩ := hfield owner' field' hhold'
      rw [wordOffset?, wordOffset?, hoff, wordSize] at heq
      exact absurd (some.inj heq) (by omega)
    · obtain ⟨i, _, _, hoff⟩ := hfield owner field hhold
      rw [wordOffset?, wordOffset?, hoff, wordSize] at heq
      exact absurd (some.inj heq) (by omega)
    · obtain ⟨i, _, hi, hoff⟩ := hfield owner field hhold
      obtain ⟨j, _, hj, hoff'⟩ := hfield owner' field' hhold'
      rw [wordOffset?, wordOffset?, hoff, hoff', wordSize] at heq
      have hij : i = j := by
        have := some.inj heq
        omega
      rw [hij, hj] at hi
      cases hi
      rfl
  · rintro _ ⟨i, hlt, rfl⟩
    cases i with
    | zero => exact ⟨.header, trivial, rfl⟩
    | succ i =>
      have hlt' : i < (placedFields (p.chain n)).length := by
        rw [length_placedFields]
        omega
      obtain ⟨⟨owner, field⟩, hi⟩ : ∃ w, (placedFields (p.chain n))[i]? = some w :=
        ⟨_, getElem?_eq_getElem hlt'⟩
      have hhold := h.holds_field_iff.2 (mem_of_getElem? hi)
      obtain ⟨j, _, hj, hoff⟩ := hfield owner field hhold
      obtain rfl := (getElem?_inj hlt' (h.nodup_placed n)).1 (hi.trans hj.symm)
      exact ⟨.field owner field, hhold, hoff.trans (by rw [Nat.add_comm])⟩

end Resolved

end Ssa.Program

/-- **Objects are laid out consistently along a chain.** The words of an object of a class correspond to
its header and to the fields that the class and its ancestors declare. The offsets of the fields are
multiples of the word size within the object and behind the header. An ancestor finds each field that it
can see at the offset of its nearest declaration, and that field is part of the object, whatever is
declared again below. -/
theorem object_layout_is_exact {ast : Ast.Program} {p : Ssa.Program} {t : TypeTable}
    (h : Program.ofAst ast = .ok p) (ht : ofClasses p.classes = .ok t) {c : ClassDef}
    (hc : c ∈ p.classes) :
    ∃ size, p.objectSize? c.name = some size ∧
    Set.BijOn p.wordOffset? {w | p.Holds c.name w} {off | ∃ i < size, off = some (wordSize * i)} ∧
    (∀ owner field, p.Holds c.name (.field owner field) → ∃ off,
      p.fieldOffset? owner field = some off ∧ wordSize ∣ off ∧ wordSize ≤ off ∧
        off ≤ wordSize * size - wordSize) ∧
    ∀ d, ReflTransGen (Extends p.classes) c.name d → ∀ field,
      ((p.fieldOffset? d field).isSome = true ↔
        ∃ e, Nearest p.classes (·.declaresField field) d e) ∧
      ∀ e, Nearest p.classes (·.declaresField field) d e →
        p.Holds c.name (.field e.name field) ∧ p.fieldOffset? d field = p.fieldOffset? e.name field := by
  have hp := (lowered_of_ofAst h).resolved ht
  have hclass : p.class? c.name = some c :=
    (find?_eq_some_iff_of_nodup hp.nodup_classes).2 ⟨hc, rfl⟩
  refine ⟨1 + fieldCount (p.chain c.name), by rw [Program.objectSize?, hclass, Option.map_some],
    hp.bijOn_wordOffset? c.name, fun owner field hhold => ?_, fun d hx field => ⟨?_, fun e he => ?_⟩⟩
  · obtain ⟨i, hi, hoff⟩ := hp.fieldOffset?_eq hhold
    have hlt := lt_of_getElem? hi
    rw [length_placedFields] at hlt
    refine ⟨_, hoff, Nat.dvd_mul_right _ _, ?_, ?_⟩
    · simp only [wordSize]
      omega
    · simp only [wordSize]
      omega
  · rw [hp.exists_nearest_iff, Program.fieldOffset?, isSome_fieldOffsetIn?]
  · obtain ⟨⟨hx', hdecl⟩, heq⟩ := hp.fieldOffset?_of_nearest he
    exact ⟨⟨hx.trans hx', hdecl⟩, heq⟩

/-- An object of the leaf of `redeclaring` has five words. Two of them are fields of one name: code for
the class in the middle finds that of the root. -/
theorem object_layout_is_exact_redeclaring : ∃ p t c, Program.ofAst redeclaring = .ok p ∧
    ofClasses p.classes = .ok t ∧ c ∈ p.classes ∧ c.name = "Leaf" ∧ p.objectSize? c.name = some 5 ∧
    Set.BijOn p.wordOffset? {w | p.Holds c.name w} {off | ∃ i < 5, off = some (wordSize * i)} ∧
    p.fieldOffset? "Leaf" "x" = some 16 ∧ p.fieldOffset? "Middle" "x" = some 4 ∧
    ∃ e, Nearest p.classes (·.declaresField "x") "Middle" e ∧ p.Holds c.name (.field e.name "x") := by
  obtain ⟨p, t, hp, ht, hclasses⟩ := exists_redeclaring
  obtain ⟨c, hc, heq⟩ := hclasses ("Leaf", some "Middle") (by simp)
  obtain ⟨hname, hparent⟩ := Prod.mk.inj heq
  have h : (Program.ofAst redeclaring).toOption.map (fun p => (p.objectSize? "Leaf",
      p.fieldOffset? "Leaf" "x", p.fieldOffset? "Middle" "x")) = some (some 5, some 16, some 4) := by
    decide +kernel
  rw [hp] at h
  obtain ⟨hsize, hoffs⟩ := Prod.mk.inj (Option.some.inj h)
  obtain ⟨hoff, hoff'⟩ := Prod.mk.inj hoffs
  obtain ⟨size, hsize', hbij, _, habove⟩ := object_layout_is_exact hp ht hc
  rw [hname, hsize] at hsize'
  cases hsize'
  obtain ⟨hsome, hnear⟩ := habove "Middle" (.single ⟨c, hc, rfl, hparent⟩) "x"
  obtain ⟨e, he⟩ := hsome.1 (by rw [hoff']; rfl)
  exact ⟨p, t, c, hp, ht, hc, hname, hname ▸ hsize, hbij, hoff, hoff', e, he, (hnear e he).1⟩

/-! ## Members of checked programs -/

/-- A class declares a field, and the field is at an offset of the objects of a class below. -/
structure Ssa.Program.Locates (p : Program) (className : String) (off : Nat) (c : ClassDef) (f : Field) :
    Prop where
  mem_classes : c ∈ p.classes
  mem_fields : f ∈ c.fields
  above : ReflTransGen (TypeTable.Extends p.classes) className c.name
  offset : p.fieldOffset? c.name f.name = some off

theorem findSome?_cases {α β : Type} {g : α → Option β} {P : α → Bool} {as : List α}
    (h : ∀ a ∈ as, (g a).isSome = P a) : as.findSome? g = none ∧ as.find? P = none ∨
      ∃ a b, as.findSome? g = some b ∧ as.find? P = some a ∧ g a = some b := by
  induction as with
  | nil => exact Or.inl ⟨rfl, rfl⟩
  | cons a as ih =>
    have ha := h a mem_cons_self
    rw [findSome?_cons, find?_cons, ← ha]
    cases hg : g a with
    | some b => exact Or.inr ⟨a, b, rfl, rfl, hg⟩
    | none => exact ih fun a ha => h a (mem_cons_of_mem _ ha)

namespace Ssa.Program

variable {p q : Program} {t : TypeTable} {n field : String} {off : Nat}

theorem Locates.eq (h : p.Resolved t) {c c' : ClassDef} {f f' : Field} (hf : p.Locates n off c f)
    (hf' : p.Locates n off c' f') : c' = c ∧ f' = f := by
  have hhold : ∀ {c f}, p.Locates n off c f → p.Holds n (.field c.name f.name) := fun hf =>
    ⟨hf.above, _, hf.mem_classes, rfl, ClassDef.declaresField_iff.2 ⟨_, hf.mem_fields, rfl⟩⟩
  have heq : ObjectWord.field c'.name f'.name = .field c.name f.name :=
    (h.bijOn_wordOffset? n).injOn (hhold hf') (hhold hf) (hf'.offset.trans hf.offset.symm)
  obtain ⟨hname, hname'⟩ := ObjectWord.field.inj heq
  obtain rfl := inj_on_of_nodup_map h.nodup_classes hf'.mem_classes hf.mem_classes hname
  exact ⟨rfl, inj_on_of_nodup_map (h.nodup_fields c' hf.mem_classes) hf'.mem_fields
    hf.mem_fields hname'⟩

theorem Resolved.locates (h : p.Resolved t) {c : ClassDef} {f : Field}
    (hc : (p.chain n).find? (·.declaresField field) = some c) (hf : c.field? field = some f)
    (hoff : p.fieldOffset? n field = some off) : p.Locates n off c f := by
  obtain ⟨⟨hx, _⟩, heq⟩ := h.fieldOffset?_of_nearest (h.nearest_iff.2 hc)
  obtain ⟨hmem, rfl⟩ := (find?_eq_some_iff_of_nodup
    (h.nodup_fields c (mem_of_mem_chainIn (mem_of_find?_eq_some hc)))).1 hf
  exact ⟨mem_of_mem_chainIn (mem_of_find?_eq_some hc), hmem, hx, heq.symm.trans hoff⟩

end Ssa.Program

namespace Ssa.Checked

variable {ast : Ast.Program} {p q : Program} {cx : TypeContext} {id : TypeId} {name n : String}
  {above? : Option TypeId}

section

variable (h : Checked p q cx) (hp : Lowered ast p)
include h hp

theorem resolved : q.Resolved cx.types where
  hierarchy := (hp.lawful h.context).hierarchy.of_forall₂
    (h.code.classes.imp fun _ _ hc => ⟨hc.name_eq, hc.parent_eq⟩)
  nodup_classes := map_eq_of_forall₂ h.code.classes (fun _ _ hc => hc.name_eq) ▸
    (hp.lawful h.context).nodup_classes
  nodup_fields := by
    intro c' hc'
    obtain ⟨c, hc, hcc⟩ := exists_left_of_forall₂ h.code.classes hc'
    rw [hcc.fields_eq]
    exact (hp.lawful h.context).nodup_fields c hc

theorem resolve_field {c : ClassDef} (hc : c ∈ q.classes) {f : Field} (hf : f ∈ c.fields) :
    ∃ type, f.type? = some type ∧
      cx.types.resolve f.decl = .ok type := by
  obtain ⟨c₁, hc₁, hcc⟩ := exists_left_of_forall₂ h.code.classes hc
  obtain ⟨decl, hdecl⟩ := (hp.lawful h.context).resolved c₁ hc₁
  obtain ⟨fields, _, hfields, _, rfl⟩ := ClassDef.resolve_eq_ok.1 hdecl
  rw [hcc.fields_eq] at hf
  obtain ⟨f₀, _, hf₀⟩ := exists_left_of_forall₂ hfields hf
  obtain ⟨type, htype, rfl⟩ := Field.resolve_eq_ok.1 hf₀
  exact ⟨type, rfl, htype⟩

/-- **The check finds the nearest field.** -/
theorem fieldType?_cases (he : cx.types.get? id = some (.object name above?)) :
    cx.fieldType? id n = none ∧ (q.chain name).find? (·.declaresField n) = none ∨
      ∃ c f type, cx.fieldType? id n = some type ∧
        (q.chain name).find? (·.declaresField n) = some c ∧ c.field? n = some f ∧
          cx.types.resolve f.decl = .ok type := by
  have hsame : ∀ {cs ds : List ClassDef},
      List.Forall₂ (fun c d : ClassDef => d.fields = c.fields) cs ds →
        (cs.findSome? fun c => (c.field? n).bind (·.type?)) =
          ds.findSome? fun c => (c.field? n).bind (·.type?) := by
    intro cs ds hcs
    induction hcs with
    | nil => rfl
    | cons hcd _ ih =>
      rw [findSome?_cons, findSome?_cons, ih, ClassDef.field?, ClassDef.field?, hcd]
  rw [(hp.lawful h.context).fieldType?_eq he, TypeTable.name_eq he, StaticType.name,
    hsame ((forall₂_chainIn h.code.classes name).imp fun _ _ hc => hc.fields_eq)]
  have hfield : ∀ c ∈ q.chain name, ∀ f, c.field? n = some f →
      ∃ type, f.type? = some type ∧ cx.types.resolve f.decl = .ok type := fun c hc f hf =>
    h.resolve_field hp (mem_of_mem_chainIn hc) (mem_of_find?_eq_some hf)
  have hdecl : ∀ c ∈ q.chain name, ((c.field? n).bind (·.type?)).isSome = c.declaresField n := by
    intro c hc
    rw [← ClassDef.isSome_field?]
    cases hf : c.field? n with
    | none => rfl
    | some f =>
      obtain ⟨type, htype, _⟩ := hfield c hc f hf
      rw [bind_some, htype]
      rfl
  rcases findSome?_cases hdecl with hnone | ⟨c, type, hsome, hc, htype⟩
  · exact Or.inl hnone
  · obtain ⟨f, hf, htype⟩ := bind_eq_some_iff.1 htype
    obtain ⟨type', htype', hresolve⟩ := hfield c (mem_of_find?_eq_some hc) f hf
    obtain rfl := mem_unique htype htype'
    exact Or.inr ⟨c, f, type, hsome, hc, hf, hresolve⟩

/-- **The check finds the nearest method,** up to its code. -/
theorem method?_cases (he : cx.types.get? id = some (.object name above?)) :
    cx.method? id n = none ∧ (q.chain name).find? (·.declaresMethod n) = none ∨
      ∃ c m m', cx.method? id n = some m ∧ (q.chain name).find? (·.declaresMethod n) = some c ∧
        c.method? n = some m' ∧ m'.paramTypes = m.paramTypes ∧ m'.returnType? = m.returnType? := by
  have hhead : ∀ m m', cx.checkMethod m = (m', .ok ()) → ∃ body', m' = { m with body := body' } := by
    intro m m' hm
    obtain ⟨body', _, _, rfl⟩ := TypeContext.checkMethod_eq_ok.1 hm
    exact ⟨body', rfl⟩
  have hname : ∀ m m', cx.checkMethod m = (m', .ok ()) → m'.name = m.name := by
    intro m m' hm
    obtain ⟨_, rfl⟩ := hhead m m' hm
    rfl
  rw [(hp.lawful h.context).method?_eq he, TypeTable.name_eq he, StaticType.name]
  have hpair := findSome?_forall₂ (forall₂_chainIn h.code.classes name) (f := (·.method? n))
    (g := (·.method? n)) fun c d hcd => hcd.method? hname n
  have hdeclares : ∀ c ∈ q.chain name, (c.method? n).isSome = c.declaresMethod n :=
    fun c _ => c.isSome_method? n
  rcases findSome?_cases hdeclares with ⟨hnone, hfind⟩ | ⟨c, m', hsome, hc, hm'⟩
  · rcases hpair with ⟨hm, _⟩ | ⟨_, _, _, _, hm'⟩
    · exact Or.inl ⟨hm, hfind⟩
    · cases hnone.symm.trans hm'
  · rcases hpair with ⟨_, hnone⟩ | ⟨m, _, hmm, hm, hm''⟩
    · cases hnone.symm.trans hsome
    · obtain rfl := mem_unique hsome hm''
      obtain ⟨_, rfl⟩ := hhead m m' hmm
      exact Or.inr ⟨c, m, _, hm, hc, hm', rfl, rfl⟩

end

end Ssa.Checked

/-- **The check and the layout resolve names identically.** In the type of a class the check finds a
field exactly if the field has an offset there, and gives it the type of the one declaration at that
offset. It finds a method exactly if the method has a slot, and gives it the signature that it has in
the class that the entry there names. -/
theorem layout_agrees_with_check {ast : Ast.Program} {p p' : Ssa.Program} {cx : TypeContext}
    (h : Program.ofAst ast = .ok p) (hcheck : p.check = (p', .ok ())) (hcx : p.typeContext = .ok cx)
    {c : ClassDef} (hc : c ∈ p'.classes) :
    ∃ id, cx.types.lookup? c.name = some id ∧ ∀ n,
      (cx.fieldType? id n = none ∧ p'.fieldOffset? c.name n = none ∨
        ∃ type off d f, cx.fieldType? id n = some type ∧ p'.fieldOffset? c.name n = some off ∧
          p'.Locates c.name off d f ∧ (∀ d' f', p'.Locates c.name off d' f' → d' = d ∧ f' = f) ∧
          cx.types.resolve f.decl = .ok type) ∧
      (cx.method? id n = none ∧ p'.methodSlot? c.name n = none ∨
        ∃ m s d m', cx.method? id n = some m ∧ p'.methodSlot? c.name n = some s ∧
          (p'.dispatchTable c.name)[s]? = some ⟨n, d.name⟩ ∧ d ∈ p'.classes ∧ d.method? n = some m' ∧
          m'.paramTypes = m.paramTypes ∧ m'.returnType? = m.returnType?) := by
  have hp := lowered_of_ofAst h
  obtain ⟨cx', hchecked⟩ := checked_of_check hcheck
  obtain rfl := Except.ok.inj (hcx.symm.trans hchecked.context)
  have hq := hchecked.resolved hp
  obtain ⟨id, parent, hid, _⟩ := hq.hierarchy.classes c hc
  refine ⟨id, hq.hierarchy.lookup?_eq_some.2 ⟨_, hid, rfl⟩, fun n => ⟨?_, ?_⟩⟩
  · have hsome : (p'.fieldOffset? c.name n).isSome = _ := isSome_fieldOffsetIn? n (p'.chain c.name)
    rcases hchecked.fieldType?_cases hp hid with ⟨hnone, hfind⟩ | ⟨d, f, type, htype, hd, hf, hresolve⟩
    · rw [hfind] at hsome
      exact Or.inl ⟨hnone, Option.isNone_iff_eq_none.1 (Option.isSome_eq_false_iff.1 hsome)⟩
    · rw [hd] at hsome
      obtain ⟨off, hoff⟩ := Option.isSome_iff_exists.1 hsome
      have hloc := hq.locates hd hf hoff
      exact Or.inr ⟨type, off, d, f, htype, hoff, hloc, fun _ _ => hloc.eq hq, hresolve⟩
  · have hsome := p'.isSome_methodSlot? c.name n
    rcases hchecked.method?_cases hp hid with ⟨hnone, hfind⟩ | ⟨d, m, m', hm, hd, hm', hsig⟩
    · rw [hfind] at hsome
      exact Or.inl ⟨hnone, Option.isNone_iff_eq_none.1 (Option.isSome_eq_false_iff.1 hsome)⟩
    · rw [hd] at hsome
      obtain ⟨s, hs⟩ := Option.isSome_iff_exists.1 hsome
      obtain ⟨d', hd', hentry⟩ := Program.exists_entry hs
      obtain rfl := Option.mem_unique hd hd'
      exact Or.inr ⟨m, s, d, m', hm, hs, hentry, mem_of_mem_chainIn (mem_of_find?_eq_some hd),
        hm', hsig⟩

/-- In the leaf of `redeclaring` both find the field that it declares again, and neither finds another
one. -/
theorem layout_agrees_with_check_redeclaring : ∃ p p' cx c id, Program.ofAst redeclaring = .ok p ∧
    p.check = (p', .ok ()) ∧ p.typeContext = .ok cx ∧ c ∈ p'.classes ∧ c.name = "Leaf" ∧
    cx.types.lookup? c.name = some id ∧ p'.fieldOffset? c.name "x" = some 16 ∧
    (∃ type d f, cx.fieldType? id "x" = some type ∧ p'.Locates c.name 16 d f ∧
      cx.types.resolve f.decl = .ok type) ∧
    cx.fieldType? id "w" = none := by
  have h : (Program.ofAst redeclaring).toOption.map (fun p => (p.check.2, p.typeContext.isOk,
      (p.check.1.class? "Leaf").isSome, p.check.1.fieldOffset? "Leaf" "x",
      p.check.1.fieldOffset? "Leaf" "w")) = some (.ok (), true, true, some 16, none) := by
    decide +kernel
  obtain ⟨p, hp, h⟩ := exists_eq_ok_of_map_toOption h
  simp only [Prod.mk.injEq] at h
  obtain ⟨hok, hcx, hclass, hoff, hoff'⟩ := h
  obtain ⟨cx, hcx⟩ := exists_eq_ok_of_isOk hcx
  obtain ⟨c, hfind⟩ := Option.isSome_iff_exists.1 hclass
  have hname : c.name = "Leaf" := by simpa using find?_some hfind
  have hcheck : p.check = (p.check.1, .ok ()) := Prod.ext rfl hok
  rw [← hname] at hoff hoff'
  obtain ⟨id, hid, hall⟩ :=
    layout_agrees_with_check hp hcheck hcx (mem_of_find?_eq_some hfind)
  refine ⟨p, _, cx, c, id, hp, hcheck, hcx, mem_of_find?_eq_some hfind, hname, hid, hoff, ?_, ?_⟩
  · rcases (hall "x").1 with ⟨_, hnone⟩ | ⟨type, off, d, f, htype, hoff'', hloc, _, hresolve⟩
    · cases hnone.symm.trans hoff
    · obtain rfl := Option.mem_unique hoff hoff''
      exact ⟨type, d, f, htype, hloc, hresolve⟩
  · rcases (hall "w").1 with ⟨hnone, _⟩ | ⟨_, _, _, _, _, hsome, _⟩
    · exact hnone
    · cases hoff'.symm.trans hsome

end MiniJava
