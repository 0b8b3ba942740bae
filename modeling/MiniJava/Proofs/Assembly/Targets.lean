import MiniJava.Proofs.Assembly.LabelClashes
import MiniJava.Proofs.Hierarchy.Members
import MiniJava.Proofs.Parsing.Names

/-!
# Every label that is referred to is defined

Instructions refer to labels by name, and dispatch tables list labels of methods. All that the assembly
of a program refers to is a service, the end of the method around it, a label in the body of that
method, the table of a class, or a method of some class of the program. All of these are defined.
-/

namespace MiniJava

open Ssa List Body

variable {c : ClassDef} {asm : Assembly} {l : String} {s : Statement} {item : AsmItem} {k : Nat}

/-! ## Frames -/

theorem referencesOf_prologue (frame : Frame) : referencesOf (prologue frame) = [] := by
  have hsaved : referencesOf (frame.calleeSavedRegisters.zipIdx.map fun e =>
      plain (.sw e.1 (frame.calleeSaveOffset e.2) .fp)) = [] := referencesOf_map_plain (fun _ => rfl) _
  rw [prologue, referencesOf_append, referencesOf_append, hsaved]
  rfl

theorem referencesOf_epilogue (frame : Frame) : referencesOf (epilogue frame) = [] := by
  have hsaved : referencesOf (frame.calleeSavedRegisters.zipIdx.map fun e =>
      plain (.lw e.1 (frame.calleeSaveOffset e.2) .fp)) = [] := referencesOf_map_plain (fun _ => rfl) _
  rw [epilogue, referencesOf_append, referencesOf_append, referencesOf_append, hsaved]
  rfl

/-! ## Dispatch tables -/

def Ssa.Program.Declares (p : Program) (e : DispatchEntry) : Prop :=
  ∃ c ∈ p.classes, c.name = e.owner ∧ ∃ m ∈ c.methods, m.name = e.method

/-- **The slots of a dispatch table** hold methods of the program. -/
theorem Ssa.Program.declares_of_mem_dispatchTable {p : Program} {name : String} {e : DispatchEntry}
    (h : e ∈ p.dispatchTable name) : p.Declares e := by
  have hadd : ∀ {owner method : String} {entries : List DispatchEntry},
      p.Declares ⟨method, owner⟩ → (∀ e ∈ entries, p.Declares e) →
        ∀ e ∈ addMethod owner entries method, p.Declares e := by
    intro owner method entries hnew hold e he
    rw [addMethod] at he
    split at he
    · obtain ⟨e', he', rfl⟩ := mem_map.1 he
      split
      · next heq => exact heq ▸ hnew
      · exact hold e' he'
    · rcases mem_append.1 he with he | he
      · exact hold e he
      · exact mem_singleton.1 he ▸ hnew
  have hclass : ∀ {c : ClassDef} {entries : List DispatchEntry}, c ∈ p.classes →
      (∀ e ∈ entries, p.Declares e) → ∀ e ∈ addMethods entries c, p.Declares e := by
    intro c entries hc hold
    refine foldlRecOn (motive := fun entries => ∀ e ∈ entries, p.Declares e) _ _ hold
      fun entries hold method hmethod => hadd ?_ hold
    obtain ⟨m, hm, rfl⟩ := mem_map.1 hmethod
    exact ⟨c, hc, rfl, m, hm, rfl⟩
  have hall : ∀ e ∈ p.dispatchTable name, p.Declares e := by
    refine foldlRecOn (motive := fun entries => ∀ e ∈ entries, p.Declares e) _ _
      (forall_mem_nil _) fun entries hold c hc => hclass ?_ hold
    exact mem_of_mem_chainIn (mem_reverse.1 hc)
  exact hall e h

/-! ## Lists of words -/

theorem intercalate_comma (name : List Char) (names : List (List Char)) :
    [',', ' '].intercalate (name :: names) = [','].intercalate (name :: names.map (' ' :: ·)) := by
  induction names generalizing name with
  | nil => rfl
  | cons next names ih =>
    rw [map_cons, intercalate_cons_cons, ih, intercalate_cons_cons]
    cases names <;> simp [intercalate_cons_cons]

/-- **Names come back from the text of a table**, unless they have commas or start with a blank. -/
theorem wordNames_intercalate {names : List String} (hne : names ≠ [])
    (hcomma : ∀ n ∈ names, ',' ∉ n.toList)
    (hblank : ∀ n ∈ names, n.toList.dropWhile (· == ' ') = n.toList) :
    wordNames (".word " ++ ", ".intercalate names) = names := by
  obtain ⟨name, names, rfl⟩ := exists_cons_of_ne_nil hne
  have htext : (".word " ++ ", ".intercalate (name :: names)).toList = ".word ".toList ++
      [','].intercalate (name.toList :: (names.map String.toList).map (' ' :: ·)) := by
    rw [String.toList_append, String.toList_intercalate, map_cons, ← intercalate_comma]
    rfl
  have hsplit : ([','].intercalate (name.toList :: (names.map String.toList).map (' ' :: ·))).splitOn
      ',' = name.toList :: (names.map String.toList).map (' ' :: ·) := by
    refine splitOn_intercalate ',' (fun l hl => ?_) (cons_ne_nil _ _)
    rcases mem_cons.1 hl with rfl | hl
    · exact hcomma name mem_cons_self
    · rw [map_map] at hl
      obtain ⟨n, hn, rfl⟩ := mem_map.1 hl
      simpa using hcomma n (mem_cons_of_mem _ hn)
  rw [wordNames, htext, if_pos (prefix_append _ _), drop_left' (by rfl), hsplit,
    map_cons, hblank name mem_cons_self, String.ofList_toList, map_map, map_map]
  congr 1
  conv_rhs => rw [← map_id names]
  refine map_congr_left fun n hn => ?_
  simp [hblank n (mem_cons_of_mem _ hn)]

/-! ## Programs -/

namespace Ssa

def Body.Closed (body : Body) : Prop :=
  ∀ s ∈ body, s.op.isJump = true → ∃ l ∈ body.labelNames, s.label? = some l

/-- A program that can be linked: jumps stay inside methods, and methods are labelled after the class
that they are in. -/
structure Program.Linked (p : Program) : Prop where
  main : p.main.owner? = none
  owners : ∀ c ∈ p.classes, ∀ m ∈ c.methods, m.owner? = some c.name
  closed : ∀ m ∈ p.methods, m.body.Closed

variable {p : Program}

theorem Program.mem_methods (hc : c ∈ p.classes) {m : Method} (hm : m ∈ c.methods) :
    m ∈ p.methods := mem_cons_of_mem _ (mem_flatMap.2 ⟨c, hc, hm⟩)

section

variable {m : Method} (h : p.emit = .ok asm) (hm : m ∈ p.methods)
include h hm

theorem mem_labels_of_mem_methods (hl : l ∈ methodLabels m.label m.body.labelNames) :
    l ∈ asm.labels := by
  rw [labels_emit h]
  exact mem_append_right _ (mem_flatMap.2 ⟨m, hm, hl⟩)

theorem mem_labels_of_mayRefer (hclosed : m.body.Closed) {cx : EmitContext} (hp : cx.program = p)
    (hlabel : cx.label = m.label) (hs : s ∈ m.body) (hl : cx.MayRefer s l) : l ∈ asm.labels := by
  have hservice : ∀ l ∈ ["main", newLabel, newArrayLabel, printLabel], l ∈ asm.labels := by
    intro l hl
    rw [labels_emit h]
    exact mem_append_left _ (mem_append_right _ hl)
  cases hl with
  | newObject => exact hservice _ (by simp)
  | newArray => exact hservice _ (by simp)
  | print => exact hservice _ (by simp)
  | @table name hclass =>
    rw [hp] at hclass
    obtain ⟨c, hc⟩ := Option.isSome_iff_exists.1 hclass
    have hname : c.name = name := by simpa using find?_some hc
    rw [labels_emit h]
    refine mem_append_left _ (mem_append_left _ ?_)
    exact mem_map.2 ⟨c, mem_of_find?_eq_some hc, by rw [hname]⟩
  | @jump name hop hname =>
    obtain ⟨name', hmem, hname'⟩ := hclosed s hs hop
    obtain rfl := Option.mem_unique hname hname'
    refine mem_labels_of_mem_methods h hm ?_
    rw [methodLabels, hlabel]
    exact mem_append_left _ (mem_cons_of_mem _ (mem_map.2 ⟨name, hmem, rfl⟩))
  | ret =>
    refine mem_labels_of_mem_methods h hm ?_
    rw [methodLabels, hlabel]
    exact mem_append_right _ mem_cons_self

theorem mem_labels_of_emitMethod (hclosed : m.body.Closed) {items : List AsmItem}
    (hitems : emitMethod p m = .ok items) (hl : l ∈ referencesOf items) :
    l ∈ asm.labels := by
  obtain ⟨code, hcode, hitems⟩ := except_bind_eq_ok.1 hitems
  cases hitems
  have hmem : l ∈ referencesOf code.flatten := by
    simpa [referencesOf_prologue, referencesOf_epilogue, AsmItem.references] using hl
  obtain ⟨item, hitem, hl⟩ := mem_flatMap.1 hmem
  obtain ⟨block, hblock, hitem⟩ := mem_flatten.1 hitem
  obtain ⟨s, hs, hstmt⟩ := exists_left_of_forall₂ (mapM_eq_ok_iff.1 hcode) hblock
  have hrefers := (EmitContext.emits_stmt _ s block hstmt).2 l (mem_flatMap.2 ⟨item, hitem, hl⟩)
  exact mem_labels_of_mayRefer h hm hclosed rfl rfl hs hrefers

end

def Program.HasWordNames (p : Program) : Prop :=
  ∀ c ∈ p.classes, Lexer.IsWord c.name ∧ ∀ m ∈ c.methods, Lexer.IsWord m.name

theorem comma_notMem_methodLabel {owner method : String} (ho : Lexer.IsWord owner)
    (hm : Lexer.IsWord method) : ',' ∉ (methodLabel owner method).toList := by
  have hcomma : ∀ {name : String}, Lexer.IsWord name → ',' ∉ name.toList := fun hword hc =>
    absurd (hword ',' hc) (by decide)
  rw [toList_methodLabel, mem_append, mem_append, mem_cons]
  rintro (hc | hc | hc | hc)
  · exact absurd hc (by decide)
  · exact hcomma ho hc
  · cases hc
  · exact hcomma hm hc

/-- **What a dispatch table refers to** are the methods in it. -/
theorem exists_entry_of_mem_references (hwords : p.HasWordNames) (hitem : item ∈ emitTable p c)
    (hl : l ∈ item.references) :
    ∃ e ∈ p.dispatchTable c.name, l = methodLabel e.owner e.method := by
  rcases mem_cons.1 hitem with rfl | hitem
  · cases hl
  obtain rfl := mem_singleton.1 hitem
  rw [AsmItem.references, mem_filter] at hl
  by_cases hempty : (p.dispatchTable c.name).isEmpty = true
  · -- The zero of an empty table is not a name.
    rw [if_pos hempty] at hl
    have hzero : wordNames (".word " ++ "0") = ["0"] := by decide
    obtain rfl : l = "0" := mem_singleton.1 (hzero ▸ hl.1)
    exact absurd hl.2 (by decide)
  · rw [if_neg hempty] at hl
    have hnames : wordNames (".word " ++ ", ".intercalate ((p.dispatchTable c.name).map
        fun e => methodLabel e.owner e.method)) =
          (p.dispatchTable c.name).map fun e => methodLabel e.owner e.method := by
      refine wordNames_intercalate (fun hnil => ?_) (fun n hn => ?_) fun n hn => ?_
      · rw [map_eq_nil_iff.1 hnil] at hempty
        exact hempty rfl
      · obtain ⟨e, he, rfl⟩ := mem_map.1 hn
        obtain ⟨c', hc', howner, m, hm, hmethod⟩ := Program.declares_of_mem_dispatchTable he
        rw [← howner, ← hmethod]
        exact comma_notMem_methodLabel (hwords c' hc').1 ((hwords c' hc').2 m hm)
      · obtain ⟨e, _, rfl⟩ := mem_map.1 hn
        rw [toList_methodLabel]
        rfl
    obtain ⟨e, he, rfl⟩ := mem_map.1 (hnames ▸ hl.1)
    exact ⟨e, he, rfl⟩

/-- **What the assembly of a program refers to is defined.** -/
theorem Program.Linked.references_emit (hp : p.Linked) (hwords : p.HasWordNames)
    (h : p.emit = .ok asm) (hitem : item ∈ asm.items) (hl : l ∈ item.references) :
    l ∈ asm.labels := by
  obtain ⟨blocks, hblocks, hasm⟩ := except_bind_eq_ok.1 (id h)
  cases hasm
  rcases mem_append.1 hitem with hitem | hitem
  · rcases mem_append.1 hitem with hitem | hitem
    · rcases mem_append.1 hitem with hitem | hitem
      · rcases mem_append.1 hitem with hitem | hitem
        · -- The directives before the tables list nothing.
          have hnone : ∀ item ∈ [AsmItem.directive ".data", .directive ".align 2"],
              item.references = [] := by decide
          rw [hnone item hitem] at hl
          cases hl
        · obtain ⟨c, _, hitem⟩ := mem_flatMap.1 hitem
          obtain ⟨e, he, rfl⟩ := exists_entry_of_mem_references hwords hitem hl
          obtain ⟨c', hc', howner, m, hm, hmethod⟩ := declares_of_mem_dispatchTable he
          have hlabel : m.label = methodLabel e.owner e.method := by
            rw [Method.label, hp.owners c' hc' m hm, howner, hmethod]
          refine mem_labels_of_mem_methods h (mem_methods hc' hm) ?_
          rw [← hlabel]
          exact mem_append_left _ mem_cons_self
      · rw [mem_singleton.1 hitem] at hl
        cases hl
    · -- The services refer to the entry point only.
      have hmain : ∀ item ∈ services, ∀ l ∈ item.references, l = mainLabel := by decide
      rw [hmain item hitem l hl]
      refine mem_labels_of_mem_methods h mem_cons_self (m := p.main) ?_
      rw [Method.label, hp.main]
      exact mem_append_left _ mem_cons_self
  · obtain ⟨block, hblock, hitem⟩ := mem_flatten.1 hitem
    obtain ⟨m, hm, hmethod⟩ := exists_left_of_forall₂ (mapM_eq_ok_iff.1 hblocks) hblock
    exact mem_labels_of_emitMethod h hm (hp.closed m hm) hmethod (mem_flatMap.2 ⟨item, hitem, hl⟩)

/-! ## What compilation keeps -/

theorem Body.closed_map {f : Statement → Statement} (hf : KeepsTies f) {body : Body} :
    Body.Closed (body.map f) ↔ body.Closed := by
  rw [Closed, Closed, labelNames_map hf, forall_mem_map]
  simp only [hf.op, hf.label?]

theorem Body.Closed.of_bare {body body' : Body} (h : body.Closed) (heq : body'.bare = body.bare) :
    body'.Closed := by
  have hbare : body.bare.Closed := (closed_map keepsTies_bare).2 h
  rw [← heq] at hbare
  exact (closed_map keepsTies_bare).1 hbare

theorem Body.closed_prepare {body : Body} : body.prepare.Closed ↔ body.Closed := by
  rw [prepare_eq]
  exact closed_map keepsTies_prepared

end Ssa

theorem Spill.Spilling.closed {body code : Body} {next n' : StmtId} {a : Analysis} {slots : Slots}
    (h : Spilling body next a slots code n') (hshape : body.Shaped) (hbody : body.Closed) :
    code.Closed := by
  intro t ht hjump
  rw [h.labelNames hshape]
  cases h.groups.origin ht with
  | @kept s m loaded hs _ _ =>
    rw [Statement.mapOperands_label?]
    exact hbody s hs hjump
  | load => cases hjump
  | store _ _ _ _ heq =>
    rw [heq] at hjump
    cases hjump

theorem Allocates.closed {body final : Body} {next last : StmtId}
    (h : Allocates k body next final last) (hshape : body.Shaped) (hbody : body.Closed) :
    final.Closed := by
  induction h with
  | colored => exact hbody.of_bare (by rw [bare_assignRegisters, bare_clearRegisters])
  | @spilled body code final next n' last a slots hs _ _ ih =>
    have hshape' := shaped_clearRegisters.2 hshape
    exact ih (hs.shaped hshape') (hs.closed hshape' (hbody.of_bare body.bare_clearRegisters))

namespace Ssa

/-- Methods of the same name and owner, the second of which is closed if the first is. -/
def Method.Keeps (m m' : Method) : Prop :=
  m'.name = m.name ∧ m'.owner? = m.owner? ∧ (m.body.Closed → m'.body.Closed)

def Program.Keeps (p q : Program) : Prop :=
  p.main.Keeps q.main ∧
    List.Forall₂ (fun c d => d.name = c.name ∧ List.Forall₂ Method.Keeps c.methods d.methods)
      p.classes q.classes

section Keeps

variable {ast : Ast.Program} {p q : Program}

theorem Program.Linked.of_keeps (hp : p.Linked) (h : p.Keeps q) : q.Linked where
  main := h.1.2.1.trans hp.main
  owners := by
    intro d hd m' hm'
    obtain ⟨c, hc, hname, hmethods⟩ := exists_left_of_forall₂ h.2 hd
    obtain ⟨m, hm, _, howner, _⟩ := exists_left_of_forall₂ hmethods hm'
    rw [howner, hp.owners c hc m hm, hname]
  closed := by
    intro m' hm'
    rcases mem_cons.1 hm' with rfl | hm'
    · exact h.1.2.2 (hp.closed p.main mem_cons_self)
    · obtain ⟨d, hd, hm'⟩ := mem_flatMap.1 hm'
      obtain ⟨c, hc, _, hmethods⟩ := exists_left_of_forall₂ h.2 hd
      obtain ⟨m, hm, _, _, hclosed⟩ := exists_left_of_forall₂ hmethods hm'
      exact hclosed (hp.closed m (mem_methods hc hm))

theorem Program.HasWordNames.of_keeps (hp : p.HasWordNames) (h : p.Keeps q) : q.HasWordNames := by
  intro d hd
  obtain ⟨c, hc, hname, hmethods⟩ := exists_left_of_forall₂ h.2 hd
  rw [hname]
  refine ⟨(hp c hc).1, fun m' hm' => ?_⟩
  obtain ⟨m, hm, hname', _⟩ := exists_left_of_forall₂ hmethods hm'
  rw [hname']
  exact (hp c hc).2 m hm

theorem Program.Matches.keeps {R : Method → Method → Prop} (h : p.Matches R q)
    (hR : ∀ m ∈ p.methods, ∀ m', R m m' → m.Keeps m') : p.Keeps q := by
  have hmem := h.imp_mem hR
  exact ⟨hmem.main, hmem.classes.imp fun c d hcd => ⟨hcd.name_eq, hcd.2⟩⟩

theorem Checked.keeps {cx : TypeContext} (h : Checked p q cx) :
    p.Keeps { p with classes := cx.classes } ∧ Program.Keeps { p with classes := cx.classes } q := by
  constructor
  · refine ⟨⟨rfl, rfl, id⟩, (Program.typeContext_eq_ok.1 h.context).2.imp fun c d hcd => ?_⟩
    obtain ⟨_, methods, _, hmethods, rfl⟩ := ClassDef.resolve_eq_ok.1 hcd
    refine ⟨rfl, hmethods.imp fun m m' hm => ?_⟩
    obtain ⟨_, _, _, _, rfl⟩ := Method.resolve_eq_ok.1 hm
    exact ⟨rfl, rfl, id⟩
  · refine h.code.keeps fun m _ m' hm => ?_
    have hcode := cx.sameCode_checkMethod m
    have hhead : (cx.checkMethod m).1.name = m.name ∧ (cx.checkMethod m).1.owner? = m.owner? :=
      ⟨rfl, rfl⟩
    rw [hm] at hcode hhead
    refine ⟨hhead.1, hhead.2, fun hclosed => closed_prepare.1 ?_⟩
    exact (closed_prepare.2 hclosed).of_bare hcode

theorem keeps_of_allocate {bound : StmtId} (h : Program.Matches (Method.Allocated k bound) p q)
    (hshape : ∀ m ∈ p.methods, m.body.prepare.Shaped) : p.Keeps q := by
  refine h.keeps fun m hm m' hall => ?_
  obtain ⟨hhead, n, last, _, hall⟩ := hall
  exact ⟨by rw [hhead], by rw [hhead],
    fun hclosed => hall.closed (hshape m hm) (closed_prepare.2 hclosed)⟩

theorem Lowered.linked (h : Lowered ast p) : p.Linked where
  main := by
    obtain ⟨sc, sc', hmain, _⟩ := h.main
    rw [lowerMain_head hmain]
  owners := by
    intro c hc m hm
    obtain ⟨_, _, decl, _, sc, sc', hmethod, _⟩ := h.exists_decl hc hm
    rw [lowerMethod_head hmethod]
  closed := fun m hm s hs => (h.shapedInto m hm s hs).2.1

theorem Lowered.hasWordNames (h : Lowered ast p)
    (hwords : ∀ c ∈ ast.classes, Lexer.IsWord c.name ∧ ∀ m ∈ c.methods, Lexer.IsWord m.name) :
    p.HasWordNames := by
  intro c hc
  obtain ⟨decl, hdecl, hclass⟩ := exists_left_of_forall₂ h.classes hc
  rw [hclass.name]
  refine ⟨(hwords decl hdecl).1, fun m hm => ?_⟩
  obtain ⟨mdecl, hmdecl, sc, sc', hmethod, _⟩ := exists_left_of_forall₂ hclass.methods hm
  rw [lowerMethod_head hmethod]
  exact (hwords decl hdecl).2 mdecl hmdecl

/-- **A jump names one label of its body.** -/
theorem Lowered.existsUnique_label (h : Lowered ast p) (hids : ast.nodeIds.Nodup) {m : Method}
    (hm : m ∈ p.methods) (hs : s ∈ m.body) (hop : s.op.isJump = true) :
    ∃ l, s.label? = some l ∧ ∃! i : Nat, ∃ t : Statement, m.body[i]? = some t ∧ t.op = .label ∧ t.label? = some l := by
  obtain ⟨l, hmem, hl⟩ := h.linked.closed m hm s hs hop
  have hnodup := h.nodup_labelNames hids hm
  rw [labelNames_eq] at hmem
  obtain ⟨t, ht, hlabel⟩ := mem_filterMap.1 hmem
  split at hlabel
  · next htop =>
    obtain ⟨i, hi⟩ := mem_iff_getElem?.1 ht
    refine ⟨l, hl, i, ⟨t, hi, htop, hlabel⟩, ?_⟩
    rintro j ⟨u, hu, huop, hulabel⟩
    have hpos := labelPosition?_eq hnodup hi htop hlabel
    rw [labelPosition?_eq hnodup hu huop hulabel] at hpos
    exact Option.some.inj hpos
  · cases hlabel

end Keeps

end Ssa

/-- **Every label that is referred to is defined.** In the assembly of a source text each label that an
instruction names or that a dispatch table lists is defined, and in the code that the text was lowered
to each jump names the label of exactly one statement of its method. -/
theorem labels_are_resolved (source text : String) (h : compileToAssembly source = .ok text) :
    ∃ p q asm, compileToSsa source = .ok p ∧ compileToCheckedSsa source = .ok q ∧
      q.assemble.2 = .ok asm ∧ text = asm.text ∧
      (∀ item ∈ asm.items, ∀ l ∈ item.references, l ∈ asm.labels) ∧
      ∀ m ∈ p.methods, ∀ s ∈ m.body, s.op.isJump = true → ∃ l, s.label? = some l ∧
        ∃! i : Nat, ∃ t : Statement, m.body[i]? = some t ∧ t.op = .label ∧ t.label? = some l := by
  obtain ⟨q, final, stats, asm, hq, hfinal, hasm, rfl⟩ := compileToAssembly_eq_ok.1 h
  obtain ⟨ast, p, hast, hp, hcheck⟩ := compileToCheckedSsa_eq_ok.1 hq
  have hlow := lowered_of_ofAst hp
  obtain ⟨cx, hchecked⟩ := checked_of_check hcheck
  have hpq : q = p ∨ q = p.check.1 := Or.inr (by rw [hcheck])
  obtain ⟨hmatches, _⟩ := Program.matches_of_allocate (hlow.disciplined_of_check hpq) hfinal
  have hkeeps := keeps_of_allocate hmatches (hlow.shaped_of_check hpq)
  have hlinked := ((hlow.linked.of_keeps hchecked.keeps.1).of_keeps hchecked.keeps.2).of_keeps hkeeps
  have hwords := (((hlow.hasWordNames (isWord_of_parse hast)).of_keeps hchecked.keeps.1).of_keeps
    hchecked.keeps.2).of_keeps hkeeps
  refine ⟨p, q, asm, ?_, hq, assemble_eq_ok.2 ⟨final, stats, hfinal, hasm⟩, rfl, ?_, ?_⟩
  · exact except_bind_eq_ok.2 ⟨ast, hast, mapError_eq_ok.2 hp⟩
  · exact fun item hitem l hl => hlinked.references_emit hwords hasm hitem hl
  · exact fun m hm s hs hop => hlow.existsUnique_label (nodup_nodeIds hast) hm hs hop

/-- A loop around a branch in an inherited method:

    class M { public static void main(String[] a) { System.out.println(new B().f(2)); } }
    class A {
      public int f(int n) { while (n < 9) if (n < 2) n = n + 3; else n = n + 1; return n; }
    }
    class B extends A { } -/
def loopAndBranch : String :=
  "class M\x7bpublic static void main(String[] a)\x7bSystem.out.println(new B().f(2));\x7d\x7d" ++
    "class A\x7bpublic int f(int n)\x7bwhile(n<9)if(n<2)n=n+3;else n=n+1;return n;\x7d\x7d" ++
    "class B extends A\x7b\x7d"

theorem isOk_loopAndBranch : (compileToAssembly loopAndBranch).isOk = true := by decide +kernel

theorem labels_are_resolved_loopAndBranch : ∃ text p q asm,
    compileToAssembly loopAndBranch = .ok text ∧ compileToSsa loopAndBranch = .ok p ∧
      compileToCheckedSsa loopAndBranch = .ok q ∧ q.assemble.2 = .ok asm ∧ text = asm.text ∧
      (∀ item ∈ asm.items, ∀ l ∈ item.references, l ∈ asm.labels) ∧
      ∀ m ∈ p.methods, ∀ s ∈ m.body, s.op.isJump = true → ∃ l, s.label? = some l ∧
        ∃! i : Nat, ∃ t : Statement, m.body[i]? = some t ∧ t.op = .label ∧ t.label? = some l := by
  obtain ⟨text, htext⟩ := exists_eq_ok_of_isOk isOk_loopAndBranch
  obtain ⟨p, q, asm, h⟩ := labels_are_resolved loopAndBranch text htext
  exact ⟨text, p, q, asm, htext, h⟩

end MiniJava
