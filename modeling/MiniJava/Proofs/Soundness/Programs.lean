import MiniJava.Proofs.Semantics.Programs
import MiniJava.Proofs.Soundness.Methods

/-!
# Execution of typed programs

A program is the runtime of its own methods. If all its methods are typed and its classes agree about
the members they share, this runtime is safe, whatever the depth to which calls may go: an object that
it makes has an initial value of the right type for each field, and a call executes a typed method with
a receiver and arguments of the types that its rules speak of.
-/

namespace MiniJava

open Ssa List TypeTable

def RunsMethod (cx : TypeContext) (naming : FieldNaming) (m m' : Method) : Prop :=
  m' = { m with body := m'.body } ∧ ∃ ty, CodeTyped cx naming (cx.methodContext m) ty m'.body

structure RunsClass (cx : TypeContext) (naming : FieldNaming) (c d : ClassDef) : Prop where
  name : d.name = c.name
  parent? : d.parent? = c.parent?
  fields : d.fields = c.fields.map fun f => { f with name := naming c.name f.name }
  methods : List.Forall₂ (RunsMethod cx naming) c.methods d.methods
  named : ∀ f ∈ c.fields, f.decl.NamedBy Lexer.IsIdentifier
  owner? : ∀ m ∈ c.methods, m.owner? = some c.name

structure Ssa.Program.Runs (cx : TypeContext) (naming : FieldNaming) (q : Program) : Prop where
  types : q.types = cx.types
  main : ∃ mx ty, mx.this? = none ∧ mx.params = [] ∧ CodeTyped cx naming mx ty q.main.body
  classes : List.Forall₂ (RunsClass cx naming) cx.classes q.classes

def initialFields (naming : FieldNaming) (chain : List ClassDef) : List (String × Value) :=
  chain.flatMap fun c => c.fields.map fun f => (naming c.name f.name, .initial f.decl)

variable {cx : TypeContext} {naming : FieldNaming} {q : Program} {className method : String}
  {t : TypeId} {m m' : Method} {c : ClassDef}

theorem TypeContext.Lawful.lookup?_of_mem_chainIn (hl : cx.Lawful)
    (ht : cx.types.lookup? className = some t) (hc : c ∈ chainIn cx.classes className) :
    ∃ u, cx.types.lookup? c.name = some u ∧ cx.types.isSubtype t u = true := by
  obtain ⟨e, he, rfl⟩ := of_lookup? ht
  rw [← name_eq he, hl.hierarchy.chainIn_eq he, mem_filterMap] at hc
  obtain ⟨u, hu, hfind⟩ := hc
  have hsub : cx.types.isSubtype t u = true := contains_iff_mem.2 hu
  have hname : c.name = cx.types.name u := by simpa using find?_some hfind
  have hhas : cx.types.Has u := by
    rcases Relation.ReflTransGen.cases_tail (hl.hierarchy.isSubtype_iff.1 hsub) with rfl | ⟨_, _, hp⟩
    · exact ⟨e, he⟩
    · exact hl.hierarchy.has_of_parent? hp
  obtain ⟨e', he'⟩ := hhas
  exact ⟨u, hl.hierarchy.lookup?_eq_some.2 ⟨e', he', (hname.trans (name_eq he')).symm⟩, hsub⟩

theorem TypeContext.Lawful.resolved_method (hl : cx.Lawful) (hc : c ∈ cx.classes)
    (hm : m ∈ c.methods) :
    (∃ t, m.returnType? = some t) ∧ m.params.length = m.paramTypes.length := by
  obtain ⟨decl, hdecl⟩ := hl.resolved c hc
  obtain ⟨_, methods, _, hmethods, rfl⟩ := ClassDef.resolve_eq_ok.1 hdecl
  obtain ⟨m₀, _, hm₀⟩ := exists_left_of_forall₂ hmethods hm
  obtain ⟨_, returnType, hparams, _, rfl⟩ := Method.resolve_eq_ok.1 hm₀
  exact ⟨⟨returnType, rfl⟩, hparams.length_eq⟩

theorem RunsClass.method? {d : ClassDef} (h : RunsClass cx naming c d) (method : String) :
    c.method? method = none ∧ d.method? method = none ∨ ∃ m m', RunsMethod cx naming m m' ∧
      c.method? method = some m ∧ d.method? method = some m' :=
  find?_forall₂ h.methods fun m m' hm => by rw [hm.1]

namespace Ssa.Program.Runs

theorem chain (h : q.Runs cx naming) (className : String) :
    List.Forall₂ (RunsClass cx naming) (chainIn cx.classes className) (q.chain className) :=
  forall₂_chainIn_of (fun _ _ hcd => ⟨hcd.name, hcd.parent?⟩) h.classes className

theorem dispatch?_cases (h : q.Runs cx naming) (className method : String) :
    (chainIn cx.classes className).findSome? (·.method? method) = none ∧
        q.dispatch? className method = none ∨
      ∃ m m', RunsMethod cx naming m m' ∧
        (chainIn cx.classes className).findSome? (·.method? method) = some m ∧
        q.dispatch? className method = some m' ∧
        ∃ c ∈ chainIn cx.classes className, m ∈ c.methods ∧ m.owner? = some c.name := by
  refine (findSome?_forall₂ (h.chain className) fun _ _ hcd => hcd.method? method).imp_right ?_
  rintro ⟨m, m', hruns, hm, hm'⟩
  obtain ⟨c, hc, hfind⟩ := exists_of_findSome?_eq_some hm
  obtain ⟨d, _, hcd⟩ := exists_right_of_forall₂ (h.chain className) hc
  have hmem := mem_of_find?_eq_some hfind
  exact ⟨m, m', hruns, hm, hm', c, hc, hmem, hcd.owner? m hmem⟩

/-- **A call executes what the check found,** or what overrides it. -/
theorem exists_dispatch (h : q.Runs cx naming) (hl : cx.Lawful)
    (ht : cx.types.lookup? className = some t) (hm : cx.method? t method = some m) :
    ∃ m', q.dispatch? className method = some m' ∧ RunsMethod cx naming m m' ∧
      ∃ c ∈ chainIn cx.classes className, m ∈ c.methods ∧ m.owner? = some c.name := by
  obtain ⟨e, he, rfl⟩ := of_lookup? ht
  rw [hl.method?_eq he, name_eq he] at hm
  rcases h.dispatch?_cases e.name method with ⟨hnone, _⟩ | ⟨_, m', hruns, hsome, hm', howner⟩
  · rw [hm] at hnone
    cases hnone
  · rw [hm] at hsome
    cases hsome
    exact ⟨m', hm', hruns, howner⟩

/-! ## Objects -/

theorem construct?_eq (h : q.Runs cx naming) (hc : c ∈ cx.classes) :
    q.construct? c.name =
      some (.object c.name (initialFields naming (chainIn cx.classes c.name))) := by
  have hfields : ∀ {cs ds : List ClassDef}, List.Forall₂ (RunsClass cx naming) cs ds →
      (ds.flatMap fun d => d.fields.map fun f => (f.name, Value.initial f.decl)) =
        initialFields naming cs := by
    intro cs ds hcs
    induction hcs with
    | nil => rfl
    | cons hcd _ ih =>
      rw [flatMap_cons, ih, hcd.fields, map_map]
      rfl
  obtain ⟨d, hd, hcd⟩ := exists_right_of_forall₂ h.classes hc
  have hclass : (q.class? c.name).isSome = true :=
    find?_isSome.2 ⟨d, hd, by simp [hcd.name]⟩
  obtain ⟨d, hd⟩ := Option.isSome_iff_exists.1 hclass
  rw [construct?, hd, hfields (h.chain c.name)]
  rfl

/-- **New objects are typed.** -/
theorem cellTyped_construct? (h : q.Runs cx naming) (hc : cx.Coherent naming) {c : ClassDef}
    (hmem : c ∈ cx.classes) (heap : List HeapCell) :
    CellTyped cx naming heap
      (.object c.name (initialFields naming (chainIn cx.classes c.name))) := by
  refine ⟨⟨c, hmem, rfl⟩, fun d hd f hf => ?_⟩
  -- Some field is found under the name, and it has the type of every field of that name.
  have hmemf : (naming d.name f.name, Value.initial f.decl) ∈
      initialFields naming (chainIn cx.classes c.name) :=
    mem_flatMap.2 ⟨d, hd, mem_map.2 ⟨f, hf, rfl⟩⟩
  obtain ⟨v, hv⟩ := Option.isSome_iff_exists.1
    (lookup_isSome_iff.2 ⟨_, hmemf, beq_self_eq_true _⟩)
  obtain ⟨_, _, hsplit, _⟩ := lookup_eq_some_iff.1 hv
  obtain ⟨d', hd', hv'⟩ := mem_flatMap.1
    (hsplit ▸ mem_append_right _ mem_cons_self)
  obtain ⟨g, hg, heq⟩ := mem_map.1 hv'
  obtain ⟨hname, rfl⟩ := Prod.mk.inj heq
  have hd'mem := mem_of_mem_chainIn hd'
  obtain ⟨t, htype, ht⟩ := hc.lawful.resolve_field hd'mem hg
  obtain ⟨_, _, hruns⟩ := exists_right_of_forall₂ h.classes hd'mem
  refine ⟨_, t, hv, ?_, hc.lawful.initial_hasType (hruns.named g hg) ht heap⟩
  exact (hc.fields c.name d hd d' hd' f hf g hg hname.symm).trans htype

/-! ## Calls -/

theorem activationTyped (hl : cx.Lawful) {rt : Runtime} {w : World} {a : Nat}
    {fields : List (String × Value)} {args : List Value}
    (ha : w.heap[a]? = some (.object className fields)) (ht : cx.types.lookup? className = some t)
    (hc : c ∈ chainIn cx.classes className) (howner : m.owner? = some c.name)
    (hargs : List.Forall₂ (Value.HasType cx.types w.heap) args m.paramTypes) :
    ActivationTyped cx (cx.methodContext m) w.heap ⟨rt, some (.ref a), args⟩ where
  receiver := by
    intro u hu
    rw [TypeContext.methodContext, howner, Option.bind_some] at hu
    obtain ⟨u', hu', hsub⟩ := hl.lookup?_of_mem_chainIn ht hc
    obtain rfl := Option.mem_unique hu hu'
    exact ⟨_, rfl, _, t, ha, ht, hsub⟩
  args := hargs

/-- **The runtime is safe,** whatever the depth to which calls may go. -/
theorem runtimeSafe (h : q.Runs cx naming) (hc : cx.Coherent naming) (budget depth : Nat) :
    RuntimeSafe cx naming (q.runtime (Method.onCells budget) depth) := by
  have hconstruct : ∀ c ∈ cx.classes, ∃ fields,
      q.construct? c.name = some (.object c.name fields) ∧
        ∀ heap, CellTyped cx naming heap (.object c.name fields) := fun c hmem =>
    ⟨_, h.construct?_eq hmem, h.cellTyped_construct? hc hmem⟩
  induction depth with
  | zero => exact ⟨hconstruct, fun _ _ _ _ _ _ _ _ _ _ _ _ _ => .of_error rfl rfl⟩
  | succ depth ih =>
    refine ⟨hconstruct, fun w a className fields t method m args hh ha ht hm hargs => ?_⟩
    obtain ⟨m', hm', ⟨_, ty, hcode⟩, c, hmem, hmc, howner⟩ := h.exists_dispatch hc.lawful ht hm
    have hsafe := hcode.safe_exec hc ih (activationTyped hc.lawful ha ht hmem howner hargs) hh budget
    obtain ⟨⟨r, hr⟩, _⟩ := hc.lawful.resolved_method (mem_of_mem_chainIn hmem) hmc
    refine .congr ?_ (hsafe.mono fun heap v hv => ?_)
    · rw [runtime]
      simp only [hm']
      rfl
    · rw [hr]
      exact hv r hr

/-- **Typed programs are safe.** -/
theorem safe_run (h : q.Runs cx naming) (hc : cx.Coherent naming) (budget depth : Nat) :
    Safe cx naming {} (q.run (Method.onCells budget) depth) fun _ _ => True := by
  obtain ⟨mx, ty, hthis, hparams, hcode⟩ := h.main
  have hact : ActivationTyped cx mx [] ⟨q.runtime (Method.onCells budget) depth, none, []⟩ :=
    ⟨fun t ht => (Option.some_ne_none t (ht.symm.trans hthis)).elim, hparams ▸ .nil⟩
  have hheap : HeapTyped cx naming [] := fun _ hcell => nomatch hcell
  exact (hcode.safe_exec hc (h.runtimeSafe hc budget depth) (w := {}) hact hheap budget).mono
    fun _ _ _ => trivial

end Ssa.Program.Runs

end MiniJava
