import MiniJava.Proofs.Allocation.TypedCode
import MiniJava.Proofs.Typing.Bodies

/-!
# What the check provides

The check looks up members along the parents of a type, emission along the chain of a class. What the
check has found emission finds as well: a statement that follows the rules has all the types that its
code depends on.
-/

namespace MiniJava

open Ssa List Statement

/-- A program has the types and the classes of a context; only code may differ. -/
structure TypeContext.Describes (cx : TypeContext) (q : Program) : Prop where
  types : q.types = cx.types
  classes : List.Forall₂ (ClassDef.Matches fun m m' => m'.name = m.name) cx.classes q.classes

namespace TypeContext

variable {cx : TypeContext} {mx : MethodContext} {ty : StmtId → Option TypeId} {q : Program}
  {t type : TypeId} {n : String} {op : Op}

namespace Describes

theorem isSome_class? (h : cx.Describes q) {c : ClassDef} (hc : c ∈ chainIn cx.classes n) :
    (q.class? n).isSome = true := by
  obtain ⟨d, hd, _⟩ := exists_right_of_forall₂ (forall₂_chainIn h.classes n) hc
  cases hclass : q.class? n with
  | some _ => rfl
  | none =>
    rw [chainIn_of_none hclass] at hd
    cases hd

theorem ne_intArray (hl : cx.Lawful) {c : ClassDef} (hc : c ∈ chainIn cx.classes (cx.types.name t)) :
    t ≠ .intArray := by
  rintro rfl
  have he := hl.hierarchy.get?_builtin (show TypeTable.builtin.get? .intArray = some _ from rfl)
  rw [TypeTable.name_eq he, chainIn_of_none (hl.hierarchy.find?_builtin
    (show TypeTable.builtin.get? .intArray = some _ from rfl))] at hc
  cases hc

theorem offers_of_fieldType? (h : cx.Describes q) (hl : cx.Lawful) (ht : cx.types.Has t)
    (hop : op ≠ .call) (hf : cx.fieldType? t n = some type) : q.Offers op t n := by
  obtain ⟨e, he⟩ := ht
  rw [hl.fieldType?_eq he] at hf
  obtain ⟨c, hc, hf⟩ := exists_of_findSome?_eq_some hf
  obtain ⟨f, hf, _⟩ := Option.bind_eq_some_iff.1 hf
  refine Or.inr ⟨ne_intArray hl hc, e, h.types ▸ he, ?_, ?_⟩
  · exact h.isSome_class? (TypeTable.name_eq he ▸ hc)
  · rw [if_neg hop, Program.fieldOffset?, isSome_fieldOffsetIn?, find?_isSome, Program.chain,
      ← TypeTable.name_eq he]
    obtain ⟨d, hd, hcd⟩ := exists_right_of_forall₂ (forall₂_chainIn h.classes _) hc
    refine ⟨d, hd, ClassDef.declaresField_iff.2 ⟨f, hcd.fields_eq ▸ mem_of_find?_eq_some hf, ?_⟩⟩
    simpa using find?_some hf

theorem offers_of_method? (h : cx.Describes q) (hl : cx.Lawful) (ht : cx.types.Has t) {m : Method}
    (hm : cx.method? t n = some m) : q.Offers .call t n := by
  obtain ⟨e, he⟩ := ht
  rw [hl.method?_eq he] at hm
  obtain ⟨c, hc, hm⟩ := exists_of_findSome?_eq_some hm
  refine Or.inr ⟨ne_intArray hl hc, e, h.types ▸ he, ?_, ?_⟩
  · exact h.isSome_class? (TypeTable.name_eq he ▸ hc)
  · rw [if_pos rfl, Program.isSome_methodSlot?, find?_isSome, Program.chain, ← TypeTable.name_eq he]
    obtain ⟨d, hd, hcd⟩ := exists_right_of_forall₂ (forall₂_chainIn h.classes _) hc
    obtain ⟨m', hm', hname⟩ := exists_right_of_forall₂ hcd.2 (mem_of_find?_eq_some hm)
    refine ⟨d, hd, ClassDef.declaresMethod_iff.2 (mem_map.2 ⟨m', hm', hname.trans ?_⟩)⟩
    simpa using find?_some hm

end Describes

theorem Follows.provided {s : Statement} (h : cx.Follows mx ty s type) (hl : cx.Lawful)
    (hq : cx.Describes q) (hty : ∀ id t, ty id = some t → cx.types.Has t)
    (htype : cx.types.Has type) : (annotate s type).Provided q ty where
  typed := by
    obtain ⟨e, he⟩ := htype
    exact ⟨type, rfl, by rw [hq.types, he]; rfl⟩
  merged := by
    intro o ho
    have hbind : ∀ {id? : Option StmtId}, id?.bind ty = some type → o ∈ id?.toList →
        ty o = some type := by
      intro id? hid ho
      rw [Option.mem_toList.1 ho] at hid
      exact hid
    unfold Follows at h
    unfold mergeOperands at ho
    split at ho
    · next hop =>
      have hop : s.op = .unify := hop
      rw [hop] at h
      rw [annotate, hop, if_neg (by decide)] at ho
      exact (mem_append.1 ho).elim (hbind h.1) (hbind h.2)
    · next hop =>
      rw [show s.op = .aliasOf from hop] at h
      exact hbind h ho
    · cases ho
  created := by
    intro hop n hn
    unfold Follows at h
    rw [show s.op = .newObject from hop, show s.name? = some n from hn] at h
    obtain ⟨_, c, hc, rfl⟩ := h
    obtain ⟨d, hd, hcd⟩ := exists_right_of_forall₂ hq.classes hc
    exact find?_isSome.2 ⟨d, hd, by simp [hcd.name_eq]⟩
  target := by
    intro o n hleft hn
    have hleft : s.left? = some o := hleft
    unfold Follows at h
    unfold member? at hn
    split at hn
    · next hop hname =>
      cases hn
      rw [show s.op = .member from hop, hleft, show s.name? = some n from by
        rw [name?, show s.payload = .name n from hname]] at h
      obtain ⟨t, ht, h⟩ := h
      refine ⟨t, ht, ?_⟩
      split at h
      · next heq => exact Or.inl ⟨hop, heq⟩
      · exact hq.offers_of_fieldType? hl (hty o t ht) (by rw [hop]; decide) h.2
    · next hop hname =>
      cases hn
      rw [show s.op = .assignMember from hop, hleft, show s.name? = some n from by
        rw [name?, show s.payload = .name n from hname]] at h
      obtain ⟨t, _, ht, _, hfield, _⟩ := h
      exact ⟨t, ht, hq.offers_of_fieldType? hl (hty o t ht) (by rw [hop]; decide) hfield⟩
    · next args hop hcall =>
      cases hn
      rw [show s.op = .call from hop, hleft, show s.call? = some (n, args) from by
        rw [call?, show s.payload = .call n args from hcall]] at h
      obtain ⟨t, _, _, m, ht, _, hcall, hm, _⟩ := h
      cases hcall
      exact ⟨t, ht, show q.Offers s.op t n by
        rw [show s.op = .call from hop]
        exact hq.offers_of_method? hl (hty o t ht) hm⟩
    · cases hn

namespace Annotates

variable {body body' : Body}

theorem distinctIds (h : cx.Annotates mx ty body body') (hd : body.DistinctIds) :
    body'.DistinctIds := by
  have hids : body'.map (·.id) = body.map (·.id) := by
    refine map_eq_of_forall₂ h fun s s' hs => ?_
    obtain ⟨_, _, _, rfl⟩ := hs
    rfl
  rw [Body.DistinctIds, hids]
  exact hd

theorem type?_eq (h : cx.Annotates mx ty body body') (hd : body.DistinctIds)
    (hty : ∀ id t, ty id = some t → ∃ s ∈ body, s.id = id) : body'.type? = ty := by
  have hstmt : ∀ s' ∈ body', body'.type? s'.id = ty s'.id := by
    intro s' hs'
    obtain ⟨s, _, type, htype, _, rfl⟩ := exists_left_of_forall₂ h hs'
    exact ((h.distinctIds hd).type?_eq hs').trans htype.symm
  funext id
  cases ht : ty id with
  | some t =>
    obtain ⟨s, hs, rfl⟩ := hty id t ht
    obtain ⟨s', hs', _, _, _, rfl⟩ := exists_right_of_forall₂ h hs
    exact (hstmt _ hs').trans ht
  | none =>
    cases hlast : body'.last? id with
    | none =>
      rw [Body.type?, hlast]
      rfl
    | some s' =>
      rw [Body.last?_eq_find?] at hlast
      have hid : s'.id = id := by simpa using find?_some hlast
      rw [← hid, hstmt s' (mem_reverse.1 (mem_of_find?_eq_some hlast)), hid, ht]

/-- **Annotated bodies are provided for.** -/
theorem provided (h : cx.Annotates mx ty body body') (hl : cx.Lawful)
    (hq : cx.Describes q) (hd : body.DistinctIds)
    (hty : ∀ id t, ty id = some t → cx.types.Has t ∧ ∃ s ∈ body, s.id = id) :
    body'.Provided q := by
  intro s' hs'
  obtain ⟨s, hs, type, htype, hfollows, rfl⟩ := exists_left_of_forall₂ h hs'
  rw [h.type?_eq hd fun id t ht => (hty id t ht).2]
  exact hfollows.provided hl hq (fun id t ht => (hty id t ht).1) (hty _ _ htype).1

end Annotates

end TypeContext

/-! ## Programs -/

namespace Ssa

variable {ast : Ast.Program} {p p' q : Program} {cx : TypeContext}

theorem Checked.signed (h : Checked p p' cx) (hp : Lowered ast p) :
    ∀ m ∈ { p with classes := cx.classes }.methods, cx.Signed m := by
  have hl := hp.lawful h.context
  intro m hm
  rcases mem_cons.1 hm with rfl | hm
  · obtain ⟨_, _, hmain, _⟩ := hp.main
    have hhead := lowerMain_head hmain
    refine ⟨fun t ht => ?_, fun t ht => ?_⟩
    · change t ∈ p.main.paramTypes at ht
      rw [hhead] at ht
      cases ht
    · change p.main.returnType? = some t at ht
      rw [hhead] at ht
      cases ht
  · obtain ⟨c, hc, hm⟩ := mem_flatMap.1 hm
    exact hl.signed hc hm

theorem Checked.distinctIds (h : Checked p p' cx) (hp : Lowered ast p) :
    ∀ m ∈ { p with classes := cx.classes }.methods, m.body.DistinctIds := by
  intro m hm
  obtain ⟨m₀, hm₀, hsame⟩ := exists_left_of_forall₂ (Program.sameCode_typeContext h.context) hm
  exact ((hp.disciplined m₀ hm₀).of_bare hsame).distinct_of_prepare

/-- **A checked program is provided for,** whatever becomes of its code. -/
theorem Checked.provided (h : Checked p p' cx) (hp : Lowered ast p) (hq : cx.Describes q) :
    ∀ m ∈ p'.methods, m.body.Provided q := by
  have hl := hp.lawful h.context
  intro m' hm'
  obtain ⟨m, hm, hcheck⟩ := exists_left_of_forall₂ h.code.methods hm'
  have hd := h.distinctIds hp m hm
  obtain ⟨ty, hty, hannotates⟩ :=
    TypeContext.annotates_of_checkMethod hl (h.signed hp m hm) hd hcheck
  exact hannotates.provided hl hq hd hty

theorem Checked.describes (h : Checked p p' cx) {k : Nat} {bound : StmtId}
    (hq : Program.Matches (Method.Allocated k bound) p' q) (htypes : q.types = p'.types) :
    cx.Describes q := by
  refine ⟨htypes.trans h.types, (h.code.trans hq fun m₁ m₂ m₃ hcheck hall => ?_).classes⟩
  obtain ⟨_, _, _, rfl⟩ := TypeContext.checkMethod_eq_ok.1 hcheck
  rw [hall.1]

end Ssa

end MiniJava
