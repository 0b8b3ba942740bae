import MiniJava.Proofs.Soundness.Inheritance
import MiniJava.Proofs.Stages

/-!
# Checked programs keep to their types

An execution goes from statement to statement, and through calls from method to method. This file says
which moments an execution comes through and what each operation needs of its operands there, and that
programs that pass the check never fail it, if the methods that override others refine them.
-/

namespace MiniJava

open Ssa

/-! ## Moments -/

/-- A moment of an execution: the method that is executed, to which depth it may call others, its
receiver and its arguments, where it is, and what it keeps. -/
structure Moment where
  method : Method
  depth : Nat
  receiver? : Option Value
  args : List Value
  pc : Nat
  store : Store Nat
  world : World

namespace Moment

def activation (M : Moment) (q : Program) (budget : Nat) : Activation :=
  ⟨q.runtime (Method.onCells budget) M.depth, M.receiver?, M.args⟩

def machine (M : Moment) (q : Program) (budget : Nat) : Machine Nat :=
  cellMachine M.method.body (M.activation q budget)

def statement? (M : Moment) : Option Statement := M.method.body[M.pc]?

def value? (M : Moment) (id : StmtId) : Option Value := (M.method.body.cell? id).bind M.store.values

def operands? (M : Moment) (s : Statement) : Option (List Value) := s.reads.mapM M.value?

end Moment

/-- The moments that an execution comes through. It starts at the entry point and goes on from
statement to statement; a call on an object leads to the method that its class has under the name. -/
inductive Ssa.Program.Reaches (q : Program) (budget depth : Nat) : Moment → Prop
  | start : Reaches q budget depth ⟨q.main, depth, none, [], 0, .empty, {}⟩
  | next {M : Moment} {s : Statement} {σ : Store Nat} {w : World} (h : Reaches q budget depth M)
      (hs : M.statement? = some s)
      (hstep : (M.machine q budget).step M.store s M.world = .ok (σ, .next) w) :
      Reaches q budget depth { M with pc := M.pc + 1, store := σ, world := w }
  | jump {M : Moment} {s : Statement} {σ : Store Nat} {w : World} {l : String} {target : Nat}
      (h : Reaches q budget depth M) (hs : M.statement? = some s)
      (hstep : (M.machine q budget).step M.store s M.world = .ok (σ, .jump l) w)
      (hl : M.method.body.labelPosition? l = some target) :
      Reaches q budget depth { M with pc := target, store := σ, world := w }
  | call {M : Moment} {s : Statement} {method : String} {ids : List StmtId} {a n : Nat}
      {className : String} {fields : List (String × Value)} {args : List Value} {m : Method}
      (h : Reaches q budget depth M) (hs : M.statement? = some s) (hop : s.op = .call)
      (hpayload : s.payload = .call method ids) (hoperands : M.operands? s = some (.ref a :: args))
      (ha : M.world.heap[a]? = some (.object className fields))
      (hm : q.dispatch? className method = some m) (hn : M.depth = n + 1) :
      Reaches q budget depth ⟨m, n, some (.ref a), args, 0, .empty, M.world⟩

/-! ## What operations need -/

def Value.IsArray (heap : List HeapCell) (v : Value) : Prop :=
  v = .null ∨ ∃ a items, v = .ref a ∧ heap[a]? = some (.array items)

def Value.HasField (heap : List HeapCell) (v : Value) (field : String) : Prop :=
  v = .null ∨ ∃ a className fields r, v = .ref a ∧ heap[a]? = some (.object className fields) ∧
    fields.lookup field = some r

/-- An object whose class has a method that takes some arguments, or `null` in its place. -/
def Ssa.Program.Answers (q : Program) (heap : List HeapCell) (v : Value) (method : String)
    (args : List Value) : Prop :=
  v = .null ∨ ∃ a className fields m, v = .ref a ∧ heap[a]? = some (.object className fields) ∧
    q.dispatch? className method = some m ∧ args.length = m.params.length ∧
      List.Forall₂ (Value.HasType q.types heap) args m.paramTypes

def Ssa.Program.Demands (q : Program) (heap : List HeapCell) (payload : Payload)
    (values : List Value) : Op → Prop
  | .print | .newIntArray => ∃ n, values = [.int n]
  | .branchIf | .branchUnless | .not => ∃ b, values = [.bool b]
  | .binary op =>
    match op with
    | .and | .or => ∃ a b, values = [.bool a, .bool b]
    | .eq | .ne => ∃ u v, values = [u, v]
    | .add | .sub | .mul | .div | .mod | .lt | .le | .gt | .ge => ∃ m n, values = [.int m, .int n]
  | .index => ∃ v i, values = [v, .int i] ∧ v.IsArray heap
  | .assignIndex => ∃ v n i, values = [v, .int n, .int i] ∧ v.IsArray heap
  | .member => ∃ v field, values = [v] ∧ payload = .name field ∧
      (v.HasField heap field ∨ field = "length" ∧ v.IsArray heap)
  | .assignMember => ∃ u v field, values = [u, v] ∧ payload = .name field ∧ u.HasField heap field
  | .call => ∃ v args method ids, values = v :: args ∧ payload = .call method ids ∧
      q.Answers heap v method args
  | _ => True

namespace Moment

/-- At a moment all operands are there and are what the operation needs. Executing the statement gives
it a value of its type, if it has one, or stops for a reason that types do not exclude. -/
structure Sound (M : Moment) (q : Program) (budget : Nat) (s : Statement) : Prop where
  operands : ∃ values, M.operands? s = some values ∧ q.Demands M.world.heap s.payload values s.op
  value : ∀ σ control w, (M.machine q budget).step M.store s M.world = .ok (σ, control) w →
    s.op.definesValue = true → ∃ v t, (M.method.body.cell? s.id).bind σ.values = some v ∧
      s.type? = some t ∧ v.HasType q.types w.heap t
  stop : ∀ e w, (M.machine q budget).step M.store s M.world = .error e w → e.isBenign = true

end Moment

/-- A program that never applies an operation to a value of the wrong kind: every moment of every
execution is sound, and executions stop only for reasons that types do not exclude. -/
structure Ssa.Program.KeepsToTypes (q : Program) : Prop where
  sound : ∀ budget depth M s, q.Reaches budget depth M → M.statement? = some s → M.Sound q budget s
  stop : ∀ budget depth e w, q.run (Method.onCells budget) depth {} = .error e w → e.isBenign = true

/-! ## Typed statements -/

section Demands

variable {cx : TypeContext} {naming : FieldNaming} {mx : MethodContext} {ty : StmtId → Option TypeId}
  {q : Program} {heap : List HeapCell} {s : Statement} {t type : TypeId} {values : List Value}
  {v : Value} {field method : String} {args : List Value} {m : Method}

theorem Value.HasType.hasField (h : v.HasType cx.types heap t) (hh : HeapTyped cx naming heap)
    (hl : cx.Lawful) (hobj : cx.types.isObject t = true) (ht : cx.types.Has t)
    (hf : cx.fieldType? t field = some type) :
    v.HasField heap (naming.access cx.types cx.classes t field) := by
  rcases h.reference hl hobj with rfl | ⟨a, cell, u, rfl, ha, hu, hsub⟩
  · exact Or.inl rfl
  · obtain ⟨className, fields, rfl, owner, howner, f, hf, _, haccess⟩ :=
      hh.exists_owner hl ha hu hsub ht hf
    obtain ⟨r, _, hlookup, _⟩ := (hh _ (List.mem_of_getElem? ha)).2 owner howner f hf
    exact Or.inr ⟨a, className, fields, r, rfl, ha, haccess ▸ hlookup⟩

theorem Value.HasType.answers (h : v.HasType cx.types heap t) (hc : cx.Coherent naming)
    (hq : q.Runs cx naming) (hobj : cx.types.isObject t = true)
    (hm : cx.method? t method = some m)
    (hargs : List.Forall₂ (Value.HasType cx.types heap) args m.paramTypes) :
    q.Answers heap v method args := by
  rcases hc.exists_method h hobj hm hargs with
    rfl | ⟨a, className, fields, u, m', rfl, ha, hu, hm', _, hargs'⟩
  · exact Or.inl rfl
  · obtain ⟨m'', hm'', ⟨hhead, _⟩, c, hmem, hmc, _⟩ := hq.exists_dispatch hc.lawful hu hm'
    obtain ⟨_, hlength⟩ := hc.lawful.resolved_method (mem_of_mem_chainIn hmem) hmc
    refine Or.inr ⟨a, className, fields, m'', rfl, ha, hm'', ?_, ?_⟩
    · rw [hhead]
      exact hargs'.length_eq.trans hlength.symm
    · rw [hhead, hq.types]
      exact hargs'

/-- **Typed statements get what they need.** -/
theorem TypeContext.Follows.demands (h : cx.Follows mx ty s type) (hc : cx.Coherent naming)
    (hq : q.Runs cx naming) (hh : HeapTyped cx naming heap)
    (hty : ∀ id t, ty id = some t → cx.types.Has t) (hshape : s.isShaped = true)
    (hvalues : List.Forall₂ (OperandTyped cx ty heap) (cx.running naming ty type s).reads values) :
    q.Demands heap (cx.running naming ty type s).payload values (cx.running naming ty type s).op := by
  have hl := hc.lawful
  have hshape := Statement.shape_of_isShaped hshape
  obtain ⟨id, op, left?, right?, payload, type?, register?, pin?⟩ := s
  dsimp only at hshape
  cases hshape with
  | newIntArray a =>
    obtain ⟨v, rfl, hv⟩ := of_forall₂_one hvalues
    obtain ⟨n, rfl⟩ := (hv.hasType h.1).int hh hl
    exact ⟨n, rfl⟩
  | print a =>
    obtain ⟨v, rfl, hv⟩ := of_forall₂_one hvalues
    obtain ⟨n, rfl⟩ := (hv.hasType h.1).int hh hl
    exact ⟨n, rfl⟩
  | branchUnless a l =>
    obtain ⟨v, rfl, hv⟩ := of_forall₂_one hvalues
    obtain ⟨b, rfl⟩ := (hv.hasType h.1).boolean hh hl
    exact ⟨b, rfl⟩
  | not a =>
    obtain ⟨v, rfl, hv⟩ := of_forall₂_one hvalues
    obtain ⟨b, rfl⟩ := (hv.hasType h.1).boolean hh hl
    exact ⟨b, rfl⟩
  | call a method args =>
    obtain ⟨v, vs, hv, hvs, rfl⟩ := List.forall₂_cons_left_iff.1
      (show List.Forall₂ (OperandTyped cx ty heap) (a :: args) values from hvalues)
    obtain ⟨t, method', args', m, ha, hobj, hcall, hm, hargs, rfl⟩ := h
    cases hcall
    have hvs' : List.Forall₂ (Value.HasType cx.types heap) vs m.paramTypes := by
      refine forall₂_trans hvs.flip hargs fun v arg param hv ⟨t, ht, hsub⟩ => ?_
      exact (OperandTyped.hasType hv ht).mono hl.hierarchy hsub
    exact ⟨v, vs, method, args, rfl, rfl, (hv.hasType ha).answers hc hq hobj hm hvs'⟩
  | member a field =>
    obtain ⟨t, ha, h⟩ := h
    rw [TypeContext.running_member ha] at hvalues ⊢
    obtain ⟨v, rfl, hv⟩ := of_forall₂_one hvalues
    refine ⟨v, _, rfl, rfl, ?_⟩
    split at h
    · next heq =>
      obtain ⟨rfl, hlength⟩ := heq
      exact Or.inr ⟨(hl.access_intArray field).trans hlength, (hv.hasType ha).intArray hh hl⟩
    · exact Or.inl ((hv.hasType ha).hasField hh hl h.1 (hty a t ha) h.2)
  | index a b =>
    obtain ⟨u, v, rfl, hu, hv⟩ := of_forall₂_two hvalues
    obtain ⟨ha, hb, rfl⟩ := h
    obtain ⟨i, rfl⟩ := (hv.hasType hb).int hh hl
    exact ⟨u, i, rfl, (hu.hasType ha).intArray hh hl⟩
  | assignMember a b field =>
    obtain ⟨t, t', ha, hobj, hf, hb, hsub⟩ := h
    rw [TypeContext.running_assignMember ha] at hvalues ⊢
    obtain ⟨u, v, rfl, hu, hv⟩ := of_forall₂_two hvalues
    exact ⟨u, v, _, rfl, rfl, (hu.hasType ha).hasField hh hl hobj (hty a t ha) hf⟩
  | assignIndex a b i =>
    obtain ⟨u, v, index, rfl, hu, hv, hi⟩ := of_forall₂_three hvalues
    obtain ⟨ha, hb, hindex, _⟩ := h
    obtain ⟨n, rfl⟩ := (hv.hasType hb).int hh hl
    obtain ⟨i, rfl⟩ := (hi.hasType hindex).int hh hl
    exact ⟨u, n, i, rfl, (hu.hasType ha).intArray hh hl⟩
  | binary op a b =>
    obtain ⟨u, v, rfl, hu, hv⟩ := of_forall₂_two hvalues
    cases op with
    | eq | ne => exact ⟨u, v, rfl⟩
    | and | or =>
      obtain ⟨p, rfl⟩ := (hu.hasType h.1).boolean hh hl
      obtain ⟨q, rfl⟩ := (hv.hasType h.2.1).boolean hh hl
      exact ⟨p, q, rfl⟩
    | add | sub | mul | div | mod | lt | le | gt | ge =>
      obtain ⟨m, rfl⟩ := (hu.hasType h.1).int hh hl
      obtain ⟨n, rfl⟩ := (hv.hasType h.2.1).int hh hl
      exact ⟨m, n, rfl⟩
  | _ => trivial

end Demands

/-! ## Typed moments -/

structure MomentTyped (cx : TypeContext) (naming : FieldNaming) (q : Program) (budget : Nat)
    (mx : MethodContext) (ty : StmtId → Option TypeId) (M : Moment) : Prop where
  code : CodeTyped cx naming mx ty M.method.body
  activation : ActivationTyped cx mx M.world.heap (M.activation q budget)
  heap : HeapTyped cx naming M.world.heap
  frame : FrameTyped cx ty M.method.body M.world.heap M.pc M.store

section Moments

variable {cx : TypeContext} {naming : FieldNaming} {q : Program} {budget depth : Nat}
  {mx : MethodContext} {ty : StmtId → Option TypeId} {M : Moment} {s : Statement}

namespace MomentTyped

section

variable (h : MomentTyped cx naming q budget mx ty M) (hq : q.Runs cx naming)
  (hc : cx.Coherent naming) (hs : M.statement? = some s)
include h hq hc hs

theorem safe_step : Safe cx naming M.world ((M.machine q budget).step M.store s)
      (StepTyped cx mx ty M.method.body M.pc s) :=
  h.code.safe_step hc (hq.runtimeSafe hc budget M.depth) h.activation h.heap h.frame hs

theorem exists_operands :
    ∃ values, M.operands? s = some values ∧ q.Demands M.world.heap s.payload values s.op := by
  obtain ⟨values, hvalues, htyped⟩ := h.code.exists_values (M.activation q budget) h.frame hs
  obtain ⟨r, type, rfl, _, hfollows, hshape, _⟩ := h.code.rules s (List.mem_of_getElem? hs)
  exact ⟨values, hvalues, hfollows.demands hc hq h.heap h.code.has hshape htyped⟩

/-- **Typed moments are sound.** -/
theorem sound : M.Sound q budget s where
  operands := h.exists_operands hq hc hs
  value := by
    intro σ control w hstep hdef
    have hsafe := h.safe_step hq hc hs
    rw [Safe, hstep] at hsafe
    rw [hq.types]
    exact hsafe.2.2.value hdef
  stop := by
    intro e w hstep
    have hsafe := h.safe_step hq hc hs
    rwa [Safe, hstep] at hsafe

end

end MomentTyped

/-- **All moments of a typed program are typed.** -/
theorem Ssa.Program.Reaches.typed (h : q.Reaches budget depth M) (hq : q.Runs cx naming)
    (hc : cx.Coherent naming) : ∃ mx ty, MomentTyped cx naming q budget mx ty M := by
  induction h with
  | start =>
    obtain ⟨mx, ty, hthis, hparams, hcode⟩ := hq.main
    refine ⟨mx, ty, hcode, ⟨fun t ht => ?_, hparams ▸ .nil⟩, nofun, hcode.frame_empty _⟩
    exact (Option.some_ne_none t (ht.symm.trans hthis)).elim
  | next _ hs hstep ih =>
    obtain ⟨mx, ty, hM⟩ := ih
    have hsafe := hM.safe_step hq hc hs
    rw [Safe, hstep] at hsafe
    obtain ⟨hext, hheap, hnext⟩ := hsafe
    exact ⟨mx, ty, hM.code, hM.activation.extend hext, hheap, (hnext.next rfl).2⟩
  | jump _ hs hstep hl ih =>
    obtain ⟨mx, ty, hM⟩ := ih
    have hsafe := hM.safe_step hq hc hs
    rw [Safe, hstep] at hsafe
    obtain ⟨hext, hheap, hnext⟩ := hsafe
    obtain ⟨target, htarget, hframe⟩ := hnext.jump _ rfl
    obtain rfl := Option.mem_unique hl htarget
    exact ⟨mx, ty, hM.code, hM.activation.extend hext, hheap, hframe⟩
  | @call M s method ids a n className fields args m _ hs hop hpayload hoperands ha hm hn ih =>
    obtain ⟨mx, ty, hM⟩ := ih
    obtain ⟨values, hvalues, hdemands⟩ := hM.exists_operands hq hc hs
    obtain rfl := Option.mem_unique hoperands hvalues
    rw [hop, hpayload] at hdemands
    obtain ⟨_, _, _, _, hcons, hcall, hanswers⟩ := hdemands
    cases hcons
    cases hcall
    obtain hnull | ⟨a', className', fields', m', href, ha', hm', _, hargs⟩ := hanswers
    · cases hnull
    cases href
    cases ha.symm.trans ha'
    obtain rfl := Option.mem_unique hm hm'
    obtain ⟨⟨c₀, hc₀, rfl⟩, _⟩ := hM.heap _ (List.mem_of_getElem? ha)
    obtain ⟨u, parent, hu, _⟩ := hc.lawful.hierarchy.classes c₀ hc₀
    have hlookup := hc.lawful.hierarchy.lookup?_eq_some.2 ⟨_, hu, rfl⟩
    rcases hq.dispatch?_cases c₀.name method with
      ⟨_, hnone⟩ | ⟨m₀, _, ⟨hhead, ty', hcode⟩, _, hsome, c, hmem, _, howner⟩
    · rw [hm] at hnone
      cases hnone
    · obtain rfl := Option.mem_unique hm hsome
      rw [hhead, hq.types] at hargs
      exact ⟨_, ty', hcode, Program.Runs.activationTyped hc.lawful ha hlookup hmem howner hargs,
        hM.heap, hcode.frame_empty _⟩

/-- **Typed programs keep to their types.** -/
theorem Ssa.Program.Runs.keepsToTypes (hq : q.Runs cx naming) (hc : cx.Coherent naming) :
    q.KeepsToTypes where
  sound := by
    intro budget depth M s hM hs
    obtain ⟨mx, ty, hM⟩ := hM.typed hq hc
    exact hM.sound hq hc hs
  stop := by
    intro budget depth e w hrun
    have hsafe := hq.safe_run hc budget depth
    rwa [Safe, hrun] at hsafe

end Moments

/-! ## Checked programs -/

/-- **Checked programs keep to their types,** if every method refines the method that it overrides.
No operation is ever applied to a value of the wrong kind, whatever the program does and however long
it runs. Objects keep their fields under qualified names, so that an access finds the field that it
means; if fields that one object keeps under one name have one type, plain names do as well. -/
theorem checked_programs_keep_to_types (source : String) (p : Program)
    (h : compileToCheckedSsa source = .ok p) (hover : p.OverridesAgree) :
    (p.named .qualified).KeepsToTypes ∧ (FieldsAgree .plain p.classes → p.KeepsToTypes) := by
  obtain ⟨ast, p₀, hast, hp₀, hcheck⟩ := compileToCheckedSsa_eq_ok.1 h
  obtain ⟨cx, hchecked⟩ := checked_of_check hcheck
  have hlow := lowered_of_ofAst hp₀
  have hnames := namedBy_of_parse hast
  constructor
  · refine (hchecked.runs hlow (nodup_nodeIds hast) hnames).keepsToTypes
      (hchecked.coherent hlow hover ?_)
    refine (hlow.lawful hchecked.context).fieldsAgree_qualified fun c hc hdot => ?_
    exact absurd ((hchecked.declared hlow hnames hc).1.isWord '.' hdot) (by decide)
  · intro hagree
    have hruns : (p.named .plain).Runs cx .plain := hchecked.runs hlow (nodup_nodeIds hast) hnames
    rw [p.named_plain] at hruns
    exact hruns.keepsToTypes (hchecked.coherent hlow hover (hagree.of_matches hchecked.code.classes))

/-- A method that takes more and returns less than the one it overrides:

    class M { public static void main(String[] x) { System.out.println(new A().g(new B()).f()); } }
    class A { int n; public A g(B b) { return b; } public int f() { return n; } }
    class B extends A { int[] a; public B g(A a) { return this; } } -/
def refinedOverride : String :=
  "class M\x7bpublic static void main(String[] x)\x7b" ++
    "System.out.println(new A().g(new B()).f());\x7d\x7d" ++
    "class A\x7bint n;public A g(B b)\x7breturn b;\x7dpublic int f()\x7breturn n;\x7d\x7d" ++
    "class B extends A\x7bint[] a;public B g(A a)\x7breturn this;\x7d\x7d"

theorem checked_programs_keep_to_types_refinedOverride :
    ∃ p, compileToCheckedSsa refinedOverride = .ok p ∧ p.OverridesAgree ∧
      FieldsAgree .plain p.classes ∧ (p.named .qualified).KeepsToTypes ∧ p.KeepsToTypes := by
  have hall : (compileToCheckedSsa refinedOverride).toOption.map (fun p =>
      decide (p.OverridesAgree ∧ ∀ c ∈ p.classes, ∀ d ∈ p.classes, ∀ f ∈ c.fields, ∀ g ∈ d.fields,
        f.name = g.name → f.type? = g.type?)) = some true := by decide +kernel
  obtain ⟨p, hp, hall⟩ := exists_eq_ok_of_map_toOption hall
  obtain ⟨hover, hfields⟩ := of_decide_eq_true hall
  have hagree : FieldsAgree .plain p.classes := fun _ c hc d hd =>
    hfields c (mem_of_mem_chainIn hc) d (mem_of_mem_chainIn hd)
  obtain ⟨hqualified, hplain⟩ := checked_programs_keep_to_types refinedOverride p hp hover
  exact ⟨p, hp, hover, hagree, hqualified, hplain hagree⟩

/-! ## Programs that go wrong -/

def Ssa.Program.stop? (q : Program) (budget depth : Nat) : Option Stop :=
  match q.run (Method.onCells budget) depth {} with
  | .ok _ _ => none
  | .error e _ => some e

theorem Ssa.Program.not_keepsToTypes {q : Program} {budget depth : Nat} {e : Stop}
    (h : q.stop? budget depth = some e) (he : e.isBenign = false) : ¬ q.KeepsToTypes := by
  intro hq
  rw [stop?] at h
  split at h
  · cases h
  · next e' w hrun =>
    cases h
    rw [hq.stop budget depth e w hrun] at he
    cases he

theorem exists_check_of_ast {α : Type} {source : String} {ast : Ast.Program} {f : Program → α} {b : α}
    (h : (compileToCheckedSsa source).toOption = (Program.ofAst ast).toOption.map (·.check.1))
    (hf : (Program.ofAst ast).toOption.map (fun p => f p.check.1) = some b) :
    ∃ p, compileToCheckedSsa source = .ok p ∧ f p = b := by
  obtain ⟨p, hp, rfl⟩ := exists_eq_ok_of_map_toOption hf
  rw [hp] at h
  exact exists_eq_ok_of_map_toOption (congrArg (Option.map f) h)

/-- A class below `A` whose `f` returns something else:

    class M { public static void main(String[] x) { System.out.println(new A().g().f()); } }
    class A { public int f() { return 1; } public A g() { return new B(); } }
    class B extends A { public boolean f() { return true; } } -/
def badOverride : String :=
  "class M\x7bpublic static void main(String[] x)\x7bSystem.out.println(new A().g().f());\x7d\x7d" ++
    "class A\x7bpublic int f()\x7breturn 1;\x7dpublic A g()\x7breturn new B();\x7d\x7d" ++
    "class B extends A\x7bpublic boolean f()\x7breturn true;\x7d\x7d"

def badOverrideAst : Ast.Program where
  main := ⟨"M", .print (.call (.call (.newObject "A") "g" []) "f" [])⟩
  classes := [
    ⟨"A", none, [], [⟨.int, "f", [], [], [], .intLit 1⟩,
      ⟨.named "A", "g", [], [], [], .newObject "B"⟩]⟩,
    ⟨"B", some "A", [], [⟨.boolean, "f", [], [], [], .boolLit true⟩]⟩]

/-- A class below `A` with another field `n`:

    class M { public static void main(String[] x) { System.out.println(new A().g().n); } }
    class A { int n; public A g() { return new B(); } }
    class B extends A { boolean n; } -/
def hiddenField : String :=
  "class M\x7bpublic static void main(String[] x)\x7bSystem.out.println(new A().g().n);\x7d\x7d" ++
    "class A\x7bint n;public A g()\x7breturn new B();\x7d\x7dclass B extends A\x7bboolean n;\x7d"

def hiddenFieldAst : Ast.Program where
  main := ⟨"M", .print (.member (.call (.newObject "A") "g" []) "n")⟩
  classes := [
    ⟨"A", none, [⟨.int, "n"⟩], [⟨.named "A", "g", [], [], [], .newObject "B"⟩]⟩,
    ⟨"B", some "A", [⟨.boolean, "n"⟩], []⟩]

/-- **The check admits programs that apply an operation to a value of the wrong kind.** It compares no
method with the one it overrides, so that a truth value is printed. Likewise it compares no field with
one that it hides; this matters only if objects keep both under one name. -/
theorem check_admits_wrong_kinds :
    (∃ p, compileToCheckedSsa badOverride = .ok p ∧ p.named .qualified = p ∧ ¬ p.KeepsToTypes) ∧
      ∃ p, compileToCheckedSsa hiddenField = .ok p ∧ p.OverridesAgree ∧ ¬ p.KeepsToTypes := by
  have hbad : (compileToCheckedSsa badOverride).toOption =
      (Program.ofAst badOverrideAst).toOption.map (·.check.1) := by decide +kernel
  have hhidden : (compileToCheckedSsa hiddenField).toOption =
      (Program.ofAst hiddenFieldAst).toOption.map (·.check.1) := by decide +kernel
  constructor
  · obtain ⟨p, hp, hf⟩ := exists_check_of_ast
      (f := fun p => (decide (p.named .qualified = p), p.stop? 0 1))
      (b := (true, some (.fault .wrongKind))) hbad (by cbv)
    obtain ⟨hnamed, hstop⟩ := Prod.mk.inj hf
    exact ⟨p, hp, of_decide_eq_true hnamed, Program.not_keepsToTypes hstop rfl⟩
  · obtain ⟨p, hp, hf⟩ := exists_check_of_ast
      (f := fun p => (decide p.OverridesAgree, p.stop? 0 1))
      (b := (true, some (.fault .wrongKind))) hhidden (by cbv)
    obtain ⟨hover, hstop⟩ := Prod.mk.inj hf
    exact ⟨p, hp, of_decide_eq_true hover, Program.not_keepsToTypes hstop rfl⟩

end MiniJava
