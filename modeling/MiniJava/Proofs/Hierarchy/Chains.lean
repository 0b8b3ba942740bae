import MiniJava.Layout
import MiniJava.Proofs.Sweeps

/-!
# Chains of classes

Programs that match class by class have chains that match, and looking for a class or a method gives
classes or methods that match. Since layout looks at names and fields only, objects and dispatch
tables are laid out in the same way.
-/

namespace MiniJava.Ssa

section Chains

variable {cs : List ClassDef} {c : ClassDef} {name : String}

theorem chainIn_of_none (h : cs.find? (·.name == name) = none) : chainIn cs name = [] := by
  rw [chainIn]
  split
  · rfl
  · next heq =>
    rw [h] at heq
    cases heq

theorem chainIn_of_some (h : cs.find? (·.name == name) = some c) :
    chainIn cs name = c :: match c.parent? with
      | none => []
      | some parent => chainIn (otherClasses cs c.name) parent := by
  rw [chainIn]
  split
  · next heq =>
    rw [h] at heq
    cases heq
  · next heq =>
    rw [h] at heq
    cases heq
    rfl

end Chains

/-! ## Programs that match -/

section Matches

variable {R : Method → Method → Prop} {c d : ClassDef} {cs ds : List ClassDef} {p q : Program}

namespace ClassDef.Matches

theorem name_eq (h : c.Matches R d) : d.name = c.name := by
  rw [h.1]

theorem parent_eq (h : c.Matches R d) : d.parent? = c.parent? := by
  rw [h.1]

theorem fields_eq (h : c.Matches R d) : d.fields = c.fields := by
  rw [h.1]

theorem method? (h : c.Matches R d) (hname : ∀ m m', R m m' → m'.name = m.name) (method : String) :
    c.method? method = none ∧ d.method? method = none ∨
      ∃ m m', R m m' ∧ c.method? method = some m ∧ d.method? method = some m' :=
  find?_forall₂ h.2 fun m m' hr => by rw [hname m m' hr]

end ClassDef.Matches

theorem forall₂_chainIn_of {S : ClassDef → ClassDef → Prop}
    (hS : ∀ c d, S c d → d.name = c.name ∧ d.parent? = c.parent?) (h : List.Forall₂ S cs ds)
    (name : String) : List.Forall₂ S (chainIn cs name) (chainIn ds name) := by
  induction hn : cs.length using Nat.strongRecOn generalizing cs ds name with
  | ind n ih =>
    rcases find?_forall₂ h (f := (·.name == name)) (g := (·.name == name))
      fun c d hcd => by rw [(hS c d hcd).1] with ⟨hc, hd⟩ | ⟨c, d, hcd, hc, hd⟩
    · rw [chainIn_of_none hc, chainIn_of_none hd]
      exact .nil
    · rw [chainIn_of_some hc, chainIn_of_some hd, (hS c d hcd).1, (hS c d hcd).2]
      refine .cons hcd ?_
      cases c.parent? with
      | none => exact .nil
      | some parent =>
        have hlt := length_otherClasses_lt (List.mem_of_find?_eq_some hc)
        refine ih _ (hn ▸ hlt) ?_ parent rfl
        exact List.rel_filter (fun c d hcd => by simp only [(hS c d hcd).1]) h

theorem forall₂_chainIn (h : List.Forall₂ (ClassDef.Matches R) cs ds) (name : String) :
    List.Forall₂ (ClassDef.Matches R) (chainIn cs name) (chainIn ds name) :=
  forall₂_chainIn_of (fun _ _ hcd => ⟨hcd.name_eq, hcd.parent_eq⟩) h name

namespace Program.Matches

theorem class? (h : p.Matches R q) (name : String) :
    p.class? name = none ∧ q.class? name = none ∨
      ∃ c d, ClassDef.Matches R c d ∧ p.class? name = some c ∧ q.class? name = some d :=
  find?_forall₂ h.classes fun c d hcd => by rw [hcd.name_eq]

theorem chain (h : p.Matches R q) (name : String) :
    List.Forall₂ (ClassDef.Matches R) (p.chain name) (q.chain name) :=
  forall₂_chainIn h.classes name

theorem isSome_class? (h : p.Matches R q) (name : String) :
    (q.class? name).isSome = (p.class? name).isSome := by
  rcases h.class? name with ⟨hp, hq⟩ | ⟨_, _, _, hp, hq⟩
  · rw [hp, hq]
  · rw [hp, hq, Option.isSome_some, Option.isSome_some]

end Program.Matches

/-! ## Layout -/

theorem fieldCount_eq_of_forall₂ (h : List.Forall₂ (ClassDef.Matches R) cs ds) :
    fieldCount ds = fieldCount cs := by
  induction h with
  | nil => rfl
  | cons hcd _ ih => rw [fieldCount, fieldCount, hcd.fields_eq, ih]

theorem fieldOffsetIn?_eq_of_forall₂ (h : List.Forall₂ (ClassDef.Matches R) cs ds) (field : String) :
    fieldOffsetIn? field ds = fieldOffsetIn? field cs := by
  induction h with
  | nil => rfl
  | cons hcd hrest ih =>
    rw [fieldOffsetIn?, fieldOffsetIn?, hcd.fields_eq, fieldCount_eq_of_forall₂ hrest, ih]

theorem ClassDef.Matches.addMethods_eq (h : c.Matches R d) (hname : ∀ m m', R m m' → m'.name = m.name)
    (entries : List DispatchEntry) : addMethods entries d = addMethods entries c := by
  rw [addMethods, addMethods, h.name_eq, map_eq_of_forall₂ h.2 hname]

namespace Program.Matches

theorem fieldOffset? (h : p.Matches R q) (name field : String) :
    q.fieldOffset? name field = p.fieldOffset? name field :=
  fieldOffsetIn?_eq_of_forall₂ (h.chain name) field

theorem dispatchTable (h : p.Matches R q) (hname : ∀ m m', R m m' → m'.name = m.name)
    (name : String) : q.dispatchTable name = p.dispatchTable name := by
  refine Eq.symm (List.rel_foldl (P := Eq) (R := ClassDef.Matches R) ?_ rfl
    (List.forall₂_reverse_iff.2 (h.chain name)))
  rintro entries _ rfl c d hcd
  exact (hcd.addMethods_eq hname entries).symm

theorem methodSlot? (h : p.Matches R q) (hname : ∀ m m', R m m' → m'.name = m.name)
    (name method : String) : q.methodSlot? name method = p.methodSlot? name method := by
  rw [Program.methodSlot?, Program.methodSlot?, h.dispatchTable hname]

end Program.Matches

end Matches

end MiniJava.Ssa
