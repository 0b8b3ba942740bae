import MiniJava.Proofs.Parsing.Names
import MiniJava.Proofs.Semantics.Machine
import MiniJava.Proofs.Soundness.Values
import MiniJava.Proofs.Typing.Representation

/-!
# What a typed statement does

A statement that follows the rules of the check, executed on operands of the types that these rules
speak of, is safe and comes to something that fits its type. For a call this depends on the runtime: it
must execute a method whose signature refines the one that the check has seen, since the class of the
receiver may be any class below its static type.
-/

namespace MiniJava

open Ssa TypeTable

variable {heap : List HeapCell} {t : TypeId} {id a : StmtId} {field method : String}
  {type? : Option TypeId} {register? : Option Nat} {pin? : Option Pin} {receiver : Value}
  {args : List Value}

/-! ## Surroundings -/

/-- A method that may stand where another one is expected: it takes whatever the other takes and
returns nothing that the other would not. -/
structure Ssa.Method.Refines (types : TypeTable) (m general : Method) : Prop where
  params : List.Forall₂ (fun t t' => types.isSubtype t t' = true) general.paramTypes m.paramTypes
  result : types.isSubtype (m.returnType?.getD .void) (general.returnType?.getD .void) = true

/-- Classes agree about the members they share: fields kept under one name have one type, and what a
class below a type executes for a method refines the method of the type. -/
structure TypeContext.Coherent (cx : TypeContext) (naming : FieldNaming) : Prop where
  lawful : cx.Lawful
  fields : FieldsAgree naming cx.classes
  methods : ∀ sub t method general, cx.types.isSubtype sub t = true →
    cx.method? t method = some general →
      ∃ m, cx.method? sub method = some m ∧ m.Refines cx.types general

structure RuntimeSafe (cx : TypeContext) (naming : FieldNaming) (rt : Runtime) : Prop where
  construct : ∀ c ∈ cx.classes, ∃ fields, rt.construct c.name = some (.object c.name fields) ∧
    ∀ heap, CellTyped cx naming heap (.object c.name fields)
  call : ∀ w a className fields t method m args, HeapTyped cx naming w.heap →
    w.heap[a]? = some (.object className fields) → cx.types.lookup? className = some t →
    cx.method? t method = some m → List.Forall₂ (Value.HasType cx.types w.heap) args m.paramTypes →
      Safe cx naming w (rt.call className method (.ref a) args) fun heap r =>
        r.HasType cx.types heap (m.returnType?.getD .void)

/-- The receiver and the arguments of a method have the types that its rules speak of. -/
structure ActivationTyped (cx : TypeContext) (mx : MethodContext) (heap : List HeapCell)
    (act : Activation) : Prop where
  receiver : ∀ t, mx.this? = some t → ∃ v, act.receiver? = some v ∧ v.HasType cx.types heap t
  args : List.Forall₂ (Value.HasType cx.types heap) act.args mx.params

theorem ActivationTyped.extend {cx : TypeContext} {mx : MethodContext} {heap' : List HeapCell}
    {act : Activation} (h : ActivationTyped cx mx heap act) (hext : HeapExtends heap heap') :
    ActivationTyped cx mx heap' act where
  receiver := by
    intro t ht
    obtain ⟨v, hv, htyped⟩ := h.receiver t ht
    exact ⟨v, hv, htyped.extend hext⟩
  args := h.args.imp fun _ _ hv => hv.extend hext

def OperandTyped (cx : TypeContext) (ty : StmtId → Option TypeId) (heap : List HeapCell) (o : StmtId)
    (v : Value) : Prop := ∃ t, ty o = some t ∧ v.HasType cx.types heap t

theorem OperandTyped.hasType {cx : TypeContext} {ty : StmtId → Option TypeId} {o : StmtId}
    {v : Value} (h : OperandTyped cx ty heap o v) (ho : ty o = some t) :
    v.HasType cx.types heap t := by
  obtain ⟨t', ht', hv⟩ := h
  rw [ho] at ht'
  cases ht'
  exact hv

def Outcome.Suits (types : TypeTable) (mx : MethodContext) (s : Statement) (type : TypeId)
    (heap : List HeapCell) : Outcome → Prop
  | .value v => s.op.definesValue = true ∧ s.op.fallsThrough = true ∧ v.HasType types heap type
  | .nothing => s.op.definesValue = false ∧ s.op.fallsThrough = true
  | .save _ _ => s.op.definesValue = false ∧ s.op.fallsThrough = true
  | .jump l => s.op.definesValue = false ∧ s.op.isJump = true ∧ s.label? = some l
  | .leave v => s.op.definesValue = false ∧ v.HasType types heap (mx.returnType?.getD .void)
  | .restore _ => False

/-! ## Initial values -/

/-- **What a declared place holds at first has the declared type.** -/
theorem TypeContext.Lawful.initial_hasType {cx : TypeContext} (hl : cx.Lawful) {decl : TypeName}
    (hd : decl.NamedBy Lexer.IsIdentifier) (ht : cx.types.resolve decl = .ok t)
    (heap : List HeapCell) : (Value.initial decl).HasType cx.types heap t := by
  have ht := resolve_eq_ok.1 ht
  cases decl with
  | int => exact Option.some.inj (ht.symm.trans hl.hierarchy.lookup?_int)
  | boolean => exact Option.some.inj (ht.symm.trans hl.hierarchy.lookup?_boolean)
  | intArray =>
    obtain rfl := Option.mem_unique ht hl.hierarchy.lookup?_intArray
    exact isObject_eq (hl.hierarchy.get?_builtin
      (show builtin.get? .intArray = some _ from rfl))
  | named name =>
    obtain ⟨e, he, rfl⟩ := of_lookup? ht
    have hkeyword := (hd _ rfl).ofWord?
    cases e with
    | object _ _ => exact isObject_eq he
    | int | boolean | void => exact absurd hkeyword (by decide)

/-! ## Statements -/

namespace TypeContext

variable {cx : TypeContext} {naming : FieldNaming} {mx : MethodContext} {ty : StmtId → Option TypeId}
  {w : World} {act : Activation} {s : Statement} {type : TypeId} {values : List Value}

/-- A statement as it is executed: with its type, and under a naming of the fields. -/
def running (cx : TypeContext) (naming : FieldNaming) (ty : StmtId → Option TypeId) (type : TypeId)
    (s : Statement) : Statement :=
  (annotate s type).renameField (naming.access cx.types cx.classes) ty

theorem running_member (ha : ty a = some t) :
    cx.running naming ty type ⟨id, .member, some a, none, .name field, type?, register?, pin?⟩ =
      ⟨id, .member, some a, none, .name (naming.access cx.types cx.classes t field), some type,
        register?, pin?⟩ := by
  simp [running, annotate, Statement.renameField, ha]

theorem running_assignMember {b : StmtId} (ha : ty a = some t) : cx.running naming ty type
        ⟨id, .assignMember, some a, some b, .name field, type?, register?, pin?⟩ =
      ⟨id, .assignMember, some a, some b, .name (naming.access cx.types cx.classes t field), some type,
        register?, pin?⟩ := by
  simp [running, annotate, Statement.renameField, ha]

theorem Lawful.access_intArray (hl : cx.Lawful) (field : String) :
    naming.access cx.types cx.classes .intArray field = field := by
  have he := hl.hierarchy.get?_builtin (show builtin.get? .intArray = some _ from rfl)
  rw [FieldNaming.access, fieldOwner?, name_eq he, chainIn_of_none
    (hl.hierarchy.find?_builtin (show builtin.get? .intArray = some _ from rfl))]
  rfl

theorem safe_newObject (hrt : RuntimeSafe cx naming act.runtime) (hh : HeapTyped cx naming w.heap)
    {c : ClassDef} (hc : c ∈ cx.classes) (ht : cx.types.lookup? c.name = some type) :
    Safe cx naming w (newObject act.runtime c.name) fun heap r => r.HasType cx.types heap type := by
  obtain ⟨fields, hfields, htyped⟩ := hrt.construct c hc
  rw [newObject, hfields]
  exact safe_allocate hh (htyped _) ht

theorem Coherent.exists_method (hc : cx.Coherent naming) {general : Method}
    (hreceiver : receiver.HasType cx.types heap t) (hobj : cx.types.isObject t = true)
    (hm : cx.method? t method = some general)
    (hargs : List.Forall₂ (Value.HasType cx.types heap) args general.paramTypes) :
    receiver = .null ∨ ∃ a className fields u m, receiver = .ref a ∧
      heap[a]? = some (.object className fields) ∧ cx.types.lookup? className = some u ∧
      cx.method? u method = some m ∧ m.Refines cx.types general ∧
        List.Forall₂ (Value.HasType cx.types heap) args m.paramTypes := by
  have hl := hc.lawful
  rcases hreceiver.reference hl hobj with rfl | ⟨a, cell, u, rfl, ha, hu, hsub⟩
  · exact Or.inl rfl
  obtain ⟨m, hm', hrefines⟩ := hc.methods u t method general hsub hm
  cases cell with
  | object className fields =>
    refine Or.inr ⟨a, className, fields, u, m, rfl, ha, hu, hm', hrefines, ?_⟩
    exact forall₂_trans hargs hrefines.params fun _ _ _ hv hsub => hv.mono hl.hierarchy hsub
  | array items =>
    -- No class is above arrays.
    cases hu
    obtain ⟨e, he⟩ := hl.has_intArray
    rw [hl.method?_eq he] at hm'
    obtain ⟨c, hc, _⟩ := List.exists_of_findSome?_eq_some hm'
    exact absurd rfl (Describes.ne_intArray hl hc)

theorem safe_send (hc : cx.Coherent naming) (hrt : RuntimeSafe cx naming act.runtime)
    (hh : HeapTyped cx naming w.heap) {m : Method}
    (hreceiver : receiver.HasType cx.types w.heap t) (hobj : cx.types.isObject t = true)
    (hm : cx.method? t method = some m)
    (hargs : List.Forall₂ (Value.HasType cx.types w.heap) args m.paramTypes) :
    Safe cx naming w (send act.runtime receiver method args) fun heap r =>
      r.HasType cx.types heap (m.returnType?.getD .void) := by
  rcases hc.exists_method hreceiver hobj hm hargs with
    rfl | ⟨a, className, fields, u, m', rfl, ha, hu, hm', hrefines, hargs'⟩
  · exact .of_error rfl rfl
  · have hcall := hrt.call w a className fields u method m' args hh ha hu hm' hargs'
    exact .congr (bind_of_ok (deref_ref ha))
      (hcall.mono fun _ _ hr => hr.mono hc.lawful.hierarchy hrefines.result)

/-- **Typed statements are safe.** -/
theorem Follows.safe_perform (h : cx.Follows mx ty s type) (hc : cx.Coherent naming)
    (hrt : RuntimeSafe cx naming act.runtime) (hact : ActivationTyped cx mx w.heap act)
    (hh : HeapTyped cx naming w.heap) (hty : ∀ id t, ty id = some t → cx.types.Has t)
    (hshape : s.isShaped = true)
    (hnull : s.op = .null → ∃ t, t.NamedBy Lexer.IsIdentifier ∧ s.payload = .type t)
    (hvalues : List.Forall₂ (OperandTyped cx ty w.heap) (cx.running naming ty type s).reads values) :
    Safe cx naming w
      (perform act (cx.running naming ty type s).op (cx.running naming ty type s).payload values)
      fun heap o => o.Suits cx.types mx (cx.running naming ty type s) type heap := by
  have hl := hc.lawful
  have hshape := Statement.shape_of_isShaped hshape
  obtain ⟨id, op, left?, right?, payload, type?, register?, pin?⟩ := s
  dsimp only at hshape
  cases hshape with
  | unify a b => exact .pure hh ⟨rfl, rfl⟩
  | this =>
    obtain ⟨v, hv, htyped⟩ := hact.receiver type h
    have hreceiver : act.receiver = pure v := by rw [Activation.receiver, hv]
    change Safe cx naming w (Outcome.value <$> act.receiver) _
    rw [hreceiver]
    exact .map (.pure hh ⟨rfl, rfl, htyped⟩)
  | parameter n =>
    obtain ⟨v, hv, htyped⟩ := exists_left_of_getElem? hact.args (show mx.params[n]? = some type from h)
    have hperform : perform act .parameter (.position n) values = pure (.value v) := by
      rw [perform, hv]
    change Safe cx naming w (perform act .parameter (.position n) values) _
    rw [hperform]
    exact .pure hh ⟨rfl, rfl, htyped⟩
  | arg a n =>
    obtain ⟨v, rfl, hv⟩ := of_forall₂_one hvalues
    exact .pure hh ⟨rfl, rfl, hv.hasType h⟩
  | null t =>
    obtain ⟨_, hnamed, heq⟩ := hnull rfl
    cases heq
    obtain ⟨_, heq, ht⟩ := h
    cases heq
    exact .pure hh ⟨rfl, rfl, hl.initial_hasType hnamed ht _⟩
  | int n => exact .pure hh ⟨rfl, rfl, h⟩
  | boolean b => exact .pure hh ⟨rfl, rfl, h⟩
  | newObject name =>
    obtain ⟨ht, c, hmem, rfl⟩ := h
    exact .map ((safe_newObject hrt hh hmem ht).mono fun _ _ hr => ⟨rfl, rfl, hr⟩)
  | newIntArray a =>
    obtain ⟨v, rfl, hv⟩ := of_forall₂_one hvalues
    obtain ⟨ha, rfl⟩ := h
    exact .map ((safe_newArray hl hh (hv.hasType ha)).mono fun _ _ hr => ⟨rfl, rfl, hr⟩)
  | label l => exact .pure hh ⟨rfl, rfl⟩
  | jump l => exact .pure hh ⟨rfl, rfl, rfl⟩
  | branchUnless a l =>
    obtain ⟨v, rfl, hv⟩ := of_forall₂_one hvalues
    obtain ⟨b, rfl⟩ := (hv.hasType h.1).boolean hh hl
    cases b with
    | false => exact .pure hh ⟨rfl, rfl, rfl⟩
    | true => exact .pure hh ⟨rfl, rfl⟩
  | call a method args =>
    obtain ⟨v, vs, hv, hvs, rfl⟩ := List.forall₂_cons_left_iff.1
      (show List.Forall₂ (OperandTyped cx ty w.heap) (a :: args) values from hvalues)
    obtain ⟨t, method', args', m, ha, hobj, hcall, hm, hargs, rfl⟩ := h
    cases hcall
    have hvs' : List.Forall₂ (Value.HasType cx.types w.heap) vs m.paramTypes := by
      refine forall₂_trans hvs.flip hargs fun v arg param hv harg => ?_
      obtain ⟨t, ht, hsub⟩ := harg
      exact (OperandTyped.hasType hv ht).mono hl.hierarchy hsub
    exact .map ((safe_send hc hrt hh (hv.hasType ha) hobj hm hvs').mono fun _ _ hr => ⟨rfl, rfl, hr⟩)
  | print a =>
    obtain ⟨v, rfl, hv⟩ := of_forall₂_one hvalues
    exact (safe_printInt hl hh (hv.hasType h.1)).bind fun _ _ _ hh' _ => .pure hh' ⟨rfl, rfl⟩
  | ret a =>
    obtain ⟨v, rfl, hv⟩ := of_forall₂_one hvalues
    obtain ⟨⟨t, ht, hsub⟩, _⟩ := h
    exact .pure hh ⟨rfl, (hv.hasType ht).mono hl.hierarchy hsub⟩
  | member a field =>
    obtain ⟨t, ha, h⟩ := h
    rw [running_member ha] at hvalues ⊢
    obtain ⟨v, rfl, hv⟩ := of_forall₂_one hvalues
    have hread : Safe cx naming w (readMember v (naming.access cx.types cx.classes t field))
        fun heap r => r.HasType cx.types heap type := by
      split at h
      · next heq =>
        obtain ⟨rfl, hlength⟩ := heq
        obtain rfl : field = "length" := hlength
        rw [h, hl.access_intArray]
        exact safe_readLength hl hh (hv.hasType ha)
      · exact safe_readMember hl hh (hv.hasType ha) h.1 (hty a t ha) h.2
    exact .map (hread.mono fun _ _ hr => ⟨rfl, rfl, hr⟩)
  | index a b =>
    obtain ⟨u, v, rfl, hu, hv⟩ := of_forall₂_two hvalues
    obtain ⟨ha, hb, rfl⟩ := h
    exact .map ((safe_readIndex hl hh (hu.hasType ha) (hv.hasType hb)).mono
      fun _ _ hr => ⟨rfl, rfl, hr⟩)
  | store a slot =>
    obtain ⟨v, rfl, hv⟩ := of_forall₂_one hvalues
    exact .pure hh ⟨rfl, rfl⟩
  | load slot => exact h.elim
  | assignVar a b? x =>
    obtain ⟨v, rfl, hv⟩ := of_forall₂_one hvalues
    obtain ⟨_, t, ht, hsub⟩ := h
    exact .pure hh ⟨rfl, rfl, (hv.hasType ht).mono hl.hierarchy hsub⟩
  | assignMember a b field =>
    obtain ⟨t, t', ha, hobj, hf, hb, hsub⟩ := h
    rw [running_assignMember ha] at hvalues ⊢
    obtain ⟨u, v, rfl, hu, hv⟩ := of_forall₂_two hvalues
    exact (safe_writeMember hl hc.fields hh (hu.hasType ha) hobj (hty a t ha) hf
      ((hv.hasType hb).mono hl.hierarchy hsub)).bind fun _ _ _ hh' _ => .pure hh' ⟨rfl, rfl⟩
  | assignIndex a b i =>
    obtain ⟨u, v, index, rfl, hu, hv, hi⟩ := of_forall₂_three hvalues
    obtain ⟨ha, hb, hindex, _⟩ := h
    exact (safe_writeIndex hl hh (hu.hasType ha) (hv.hasType hb) (hi.hasType hindex)).bind
      fun _ _ _ hh' _ => .pure hh' ⟨rfl, rfl⟩
  | not a =>
    obtain ⟨v, rfl, hv⟩ := of_forall₂_one hvalues
    obtain ⟨ha, rfl⟩ := h
    exact .map ((safe_negate hl hh (hv.hasType ha)).mono fun _ _ hr => ⟨rfl, rfl, hr⟩)
  | binary op a b =>
    obtain ⟨u, v, rfl, ⟨t, ht, hu⟩, ⟨t', ht', hv⟩⟩ := of_forall₂_two hvalues
    change BinaryFollows (ty a) (ty b) type op at h
    rw [ht, ht'] at h
    exact .map ((safe_apply hl hh h hu hv).mono fun _ _ hr => ⟨rfl, rfl, hr⟩)

end TypeContext

end MiniJava
