import MiniJava.Proofs.Hierarchy.Chains

/-!
# Places of members along a chain

A dispatch table and the fields of an object are laid out along a chain of classes, from the root down.
What the ancestors have comes first and stays where it is: a table only grows at its end, a method that
is declared again changes the class of its entry and nothing else, and a field that is declared again
gets a word of its own.
-/

namespace MiniJava.Ssa

open List

namespace ClassDef

variable {c : ClassDef} {name : String}

def declaresField (c : ClassDef) (name : String) : Bool := c.fields.any (·.name == name)

def declaresMethod (c : ClassDef) (name : String) : Bool := c.methods.any (·.name == name)

theorem declaresField_iff : c.declaresField name = true ↔ ∃ f ∈ c.fields, f.name = name := by
  simp only [declaresField, any_eq_true, beq_iff_eq]

theorem declaresMethod_iff : c.declaresMethod name = true ↔ name ∈ c.methods.map (·.name) := by
  simp only [declaresMethod, any_eq_true, beq_iff_eq, mem_map]

theorem isSome_field? (c : ClassDef) (name : String) : (c.field? name).isSome = c.declaresField name :=
  isSome_find? ..

theorem isSome_method? (c : ClassDef) (name : String) :
    (c.method? name).isSome = c.declaresMethod name :=
  isSome_find? ..

end ClassDef

/-! ## Dispatch tables -/

section Tables

variable {owner method : String} {methods : List String} {entries : List DispatchEntry}
  {e : DispatchEntry} {chain chain' : List ClassDef}

theorem any_method_iff :
    entries.any (·.method == method) = true ↔ method ∈ entries.map (·.method) := by
  simp only [any_eq_true, beq_iff_eq, mem_map]

theorem names_addMethod (owner : String) (entries : List DispatchEntry) (method : String) :
    (addMethod owner entries method).map (·.method) =
      if method ∈ entries.map (·.method) then entries.map (·.method)
      else entries.map (·.method) ++ [method] := by
  rw [addMethod]
  simp only [any_method_iff]
  split
  · rw [map_map]
    refine map_congr_left fun e _ => ?_
    rw [Function.comp_apply]
    split <;> rfl
  · rw [map_append, map_singleton]

theorem mem_addMethod : e ∈ addMethod owner entries method ↔
    e = ⟨method, owner⟩ ∨ e ∈ entries ∧ e.method ≠ method := by
  rw [addMethod]
  split
  · next hany =>
    obtain ⟨old, hold, rfl⟩ := mem_map.1 (any_method_iff.1 hany)
    constructor
    · intro he
      obtain ⟨before, hbefore, rfl⟩ := mem_map.1 he
      split
      · next heq => exact Or.inl (by rw [heq])
      · next hne => exact Or.inr ⟨hbefore, hne⟩
    · rintro (rfl | ⟨he, hne⟩)
      · exact mem_map.2 ⟨old, hold, if_pos rfl⟩
      · exact mem_map.2 ⟨e, he, if_neg hne⟩
  · next hany =>
    rw [any_method_iff] at hany
    rw [mem_append, mem_singleton, or_comm]
    refine or_congr_right ⟨fun he => ⟨he, fun heq => hany (heq ▸ mem_map_of_mem he)⟩, And.left⟩

theorem names_addAll (owner : String) (entries : List DispatchEntry) (methods : List String) :
    entries.map (·.method) <+: (methods.foldl (addMethod owner) entries).map (·.method) ∧
      ((entries.map (·.method)).Nodup →
        ((methods.foldl (addMethod owner) entries).map (·.method)).Nodup) := by
  induction methods generalizing entries with
  | nil => exact ⟨prefix_rfl, id⟩
  | cons method methods ih =>
    obtain ⟨hpre, hnodup⟩ := ih (addMethod owner entries method)
    rw [foldl_cons]
    rw [names_addMethod] at hpre hnodup
    split at hpre
    · next hmem =>
      rw [if_pos hmem] at hnodup
      exact ⟨hpre, hnodup⟩
    · next hmem =>
      rw [if_neg hmem] at hnodup
      refine ⟨(prefix_append _ _).trans hpre, fun h => hnodup ?_⟩
      exact concat_eq_append ▸ h.concat hmem

theorem mem_addAll : e ∈ methods.foldl (addMethod owner) entries ↔
    e.method ∈ methods ∧ e.owner = owner ∨ e.method ∉ methods ∧ e ∈ entries := by
  induction methods generalizing entries with
  | nil => simp
  | cons method methods ih =>
    rw [foldl_cons, ih, mem_addMethod, mem_cons]
    by_cases hmem : e.method ∈ methods
    · simp [hmem]
    · by_cases heq : e.method = method
      · obtain ⟨name, owner'⟩ := e
        cases heq
        simp [hmem]
      · have hne : e ≠ ⟨method, owner⟩ := fun h => heq (congrArg DispatchEntry.method h)
        simp [hmem, heq, hne]

def tableOf (chain : List ClassDef) : List DispatchEntry := chain.reverse.foldl addMethods []

theorem tableOf_cons (c : ClassDef) (chain : List ClassDef) :
    tableOf (c :: chain) = addMethods (tableOf chain) c := by
  rw [tableOf, reverse_cons, foldl_append]
  rfl

/-- **No name comes twice.** -/
theorem nodup_tableOf (chain : List ClassDef) : ((tableOf chain).map (·.method)).Nodup := by
  induction chain with
  | nil => exact nodup_nil
  | cons c chain ih =>
    rw [tableOf_cons]
    exact (names_addAll _ _ _).2 ih

/-- **Slots stay.** -/
theorem names_tableOf_prefix (h : chain' <:+ chain) :
    (tableOf chain').map (·.method) <+: (tableOf chain).map (·.method) := by
  induction chain with
  | nil =>
    obtain rfl := suffix_nil.1 h
    exact prefix_rfl
  | cons c chain ih =>
    rcases suffix_cons_iff.1 h with rfl | h
    · exact prefix_rfl
    · rw [tableOf_cons]
      exact (ih h).trans (names_addAll _ _ _).1

/-- **The entry of a method names the nearest class that declares it.** -/
theorem mem_tableOf : e ∈ tableOf chain ↔
    ∃ c, chain.find? (·.declaresMethod e.method) = some c ∧ c.name = e.owner := by
  induction chain with
  | nil => simp [tableOf]
  | cons c chain ih =>
    rw [tableOf_cons, addMethods, mem_addAll, ← ClassDef.declaresMethod_iff, find?_cons, ih]
    cases c.declaresMethod e.method <;> simp [eq_comm]

theorem mem_names_tableOf : method ∈ (tableOf chain).map (·.method) ↔
    ∃ c ∈ chain, c.declaresMethod method = true := by
  rw [← find?_isSome, Option.isSome_iff_exists, mem_map]
  constructor
  · rintro ⟨e, he, rfl⟩
    obtain ⟨c, hc, _⟩ := mem_tableOf.1 he
    exact ⟨c, hc⟩
  · rintro ⟨c, hc⟩
    exact ⟨⟨method, c.name⟩, mem_tableOf.2 ⟨c, hc, rfl⟩, rfl⟩

namespace Program

variable {p : Program} {name : String} {slot : Nat}

theorem methodSlot?_eq_some : p.methodSlot? name method = some slot ↔
    ((p.dispatchTable name).map (·.method))[slot]? = some method :=
  findIdx?_eq_some_iff_of_nodup (nodup_tableOf (p.chain name))

theorem isSome_methodSlot? (p : Program) (name method : String) :
    (p.methodSlot? name method).isSome =
      ((p.chain name).find? (·.declaresMethod method)).isSome := by
  rw [Bool.eq_iff_iff, Option.isSome_iff_exists, find?_isSome, ← mem_names_tableOf,
    mem_iff_getElem?]
  simp only [methodSlot?_eq_some]
  rfl

theorem exists_entry (h : p.methodSlot? name method = some slot) :
    ∃ c, (p.chain name).find? (·.declaresMethod method) = some c ∧
      (p.dispatchTable name)[slot]? = some ⟨method, c.name⟩ := by
  rw [methodSlot?_eq_some, getElem?_map] at h
  obtain ⟨⟨_, owner⟩, he, rfl⟩ := Option.map_eq_some_iff.1 h
  obtain ⟨c, hc, rfl⟩ := mem_tableOf.1 (mem_of_getElem? he)
  exact ⟨c, hc, he⟩

end Program

end Tables

/-! ## Fields -/

section Fields

variable {owner field : String} {f : Field} {c : ClassDef} {chain chain' : List ClassDef}

/-- The fields of the objects of a chain in the order of their words, each with the name of its
class. -/
def placedFields : List ClassDef → List (String × String)
  | [] => []
  | c :: ancestors => placedFields ancestors ++ c.fields.map fun f => (c.name, f.name)

theorem length_placedFields (chain : List ClassDef) :
    (placedFields chain).length = fieldCount chain := by
  induction chain with
  | nil => rfl
  | cons c chain ih =>
    rw [placedFields, fieldCount, length_append, length_map, ih, Nat.add_comm]

theorem mem_placedFields : (owner, field) ∈ placedFields chain ↔
    ∃ c ∈ chain, c.name = owner ∧ c.declaresField field = true := by
  induction chain with
  | nil => simp [placedFields]
  | cons c chain ih =>
    rw [placedFields, mem_append, ih, mem_map, exists_mem_cons_iff, or_comm,
      ClassDef.declaresField_iff]
    refine or_congr_left ⟨?_, ?_⟩
    · rintro ⟨f, hf, heq⟩
      cases heq
      exact ⟨rfl, f, hf, rfl⟩
    · rintro ⟨rfl, f, hf, rfl⟩
      exact ⟨f, hf, rfl⟩

/-- **The fields of an ancestor come first.** -/
theorem isPrefix_placedFields (h : chain' <:+ chain) : placedFields chain' <+: placedFields chain := by
  induction chain with
  | nil =>
    obtain rfl := suffix_nil.1 h
    exact prefix_rfl
  | cons c chain ih =>
    rcases suffix_cons_iff.1 h with rfl | h
    · exact prefix_rfl
    · exact (ih h).trans (prefix_append _ _)

/-- **No field comes twice** if classes, and fields of one class, have different names. -/
theorem nodup_placedFields (hchain : (chain.map (·.name)).Nodup)
    (hfields : ∀ c ∈ chain, (c.fields.map (·.name)).Nodup) : (placedFields chain).Nodup := by
  induction chain with
  | nil => exact nodup_nil
  | cons c chain ih =>
    rw [map_cons, nodup_cons] at hchain
    refine nodup_append.2 ⟨ih hchain.2 fun d hd => hfields d (mem_cons_of_mem _ hd), ?_, ?_⟩
    · have hown := (hfields c mem_cons_self).map (f := fun n => (c.name, n)) fun a b hab =>
        (Prod.mk.inj hab).2
      rwa [map_map] at hown
    · rintro ⟨owner, field⟩ hold _ hnew rfl
      obtain ⟨d, hd, rfl, _⟩ := mem_placedFields.1 hold
      obtain ⟨f, _, heq⟩ := mem_map.1 hnew
      exact hchain.1 ((Prod.mk.inj heq).1 ▸ mem_map_of_mem hd)

theorem fieldOffsetIn?_cons_of_not (h : c.declaresField field = false) (ancestors : List ClassDef) :
    fieldOffsetIn? field (c :: ancestors) = fieldOffsetIn? field ancestors := by
  have hnone : c.fields.findIdx? (·.name == field) = none := by
    rw [← Option.isNone_iff_eq_none, ← Option.not_isSome, findIdx?_isSome]
    exact Bool.not_eq_true' _ ▸ h
  rw [fieldOffsetIn?, hnone]

theorem isSome_fieldOffsetIn? (field : String) (chain : List ClassDef) :
    (fieldOffsetIn? field chain).isSome = (chain.find? (·.declaresField field)).isSome := by
  induction chain with
  | nil => rfl
  | cons c chain ih =>
    have hany : (c.fields.findIdx? (·.name == field)).isSome = c.declaresField field :=
      findIdx?_isSome
    rw [fieldOffsetIn?, find?_cons, ← hany]
    cases c.fields.findIdx? (·.name == field) with
    | some i => rfl
    | none => exact ih

theorem exists_offset_of_declares (hfields : (c.fields.map (·.name)).Nodup)
    (hdecl : c.declaresField field = true) (ancestors : List ClassDef) :
    ∃ i, (placedFields (c :: ancestors))[i]? = some (c.name, field) ∧
      fieldOffsetIn? field (c :: ancestors) = some (wordSize * (1 + i)) := by
  obtain ⟨f, hf, rfl⟩ := ClassDef.declaresField_iff.1 hdecl
  obtain ⟨i, hi⟩ := mem_iff_getElem?.1 hf
  have hindex : c.fields.findIdx? (·.name == f.name) = some i :=
    (findIdx?_eq_some_iff_of_nodup hfields).2 (by rw [getElem?_map, hi, Option.map_some])
  refine ⟨fieldCount ancestors + i, ?_, ?_⟩
  · rw [placedFields, getElem?_append_right (by rw [length_placedFields]; omega),
      length_placedFields, Nat.add_sub_cancel_left, getElem?_map, hi, Option.map_some]
  · rw [fieldOffsetIn?, hindex]
    exact congrArg (fun n => some (wordSize * n)) (Nat.add_assoc ..)

end Fields

end MiniJava.Ssa
