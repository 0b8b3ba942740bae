import MiniJava.Proofs.Allocation.Preservation
import MiniJava.Proofs.Assembly.Labels
import MiniJava.Proofs.Stages

/-!
# When labels are distinct

Labels are put together from names with underscores, and names may have underscores themselves. So
methods can clash: `b_c` of a class `a` with `c` of a class `a_b`, and a method `f_ret` with the end of
a method `f`. Apart from such clashes, all labels of an assembly are distinct: the control-flow labels
of a method because its nodes have different numbers, and those of different methods because what
follows the last three underscores of such a label is not part of a name.
-/

namespace MiniJava

open Ast Ssa List Body Program

/-! ## Reading a label from its end -/

theorem append_cons_inj_of_not_mem {α : Type} {sep : α} {a b x y : List α}
    (h : a ++ sep :: x = b ++ sep :: y) (hx : sep ∉ x) (hy : sep ∉ y) : a = b ∧ x = y := by
  rcases append_eq_append_iff.1 h with ⟨c, rfl, hc⟩ | ⟨c, rfl, hc⟩
  · cases c with
    | nil =>
      rw [nil_append] at hc
      exact ⟨(append_nil a).symm, (cons.inj hc).2⟩
    | cons d c =>
      obtain ⟨rfl, rfl⟩ := cons.inj hc
      simp at hx
  · cases c with
    | nil =>
      rw [nil_append] at hc
      exact ⟨append_nil b, (cons.inj hc).2.symm⟩
    | cons d c =>
      obtain ⟨rfl, rfl⟩ := cons.inj hc
      simp at hy

def FlowLabel (l : String) : Prop :=
  ∃ word digits suffix : List Char, l.toList = word ++ '_' :: (digits ++ '_' :: suffix) ∧
    '_' ∉ word ∧ '_' ∉ digits ∧ '_' ∉ suffix ∧ suffix ≠ "ret".toList

theorem flowLabel_of_eq (word suffix : List Char) {l pre post : String} {id : NodeId}
    (h : l = pre ++ toString id ++ post) (hpre : pre.toList = word ++ ['_'])
    (hpost : post.toList = '_' :: suffix) (hword : '_' ∉ word) (hsuffix : '_' ∉ suffix)
    (hret : suffix ≠ "ret".toList) : FlowLabel l := by
  refine ⟨word, Nat.toDigits 10 id, suffix, ?_, hword, Nat.underscore_not_in_toDigits, hsuffix, hret⟩
  rw [h, toList_label, hpre, hpost]
  simp

theorem flowLabel_elseLabel (id : NodeId) : FlowLabel (elseLabel id) :=
  flowLabel_of_eq "lif".toList "else".toList rfl rfl rfl (by decide) (by decide) (by decide)

theorem flowLabel_doneLabel (id : NodeId) : FlowLabel (doneLabel id) :=
  flowLabel_of_eq "lif".toList "done".toList rfl rfl rfl (by decide) (by decide) (by decide)

theorem flowLabel_startLabel (id : NodeId) : FlowLabel (startLabel id) :=
  flowLabel_of_eq "lwhile".toList "start".toList rfl rfl rfl (by decide) (by decide) (by decide)

theorem flowLabel_endLabel (id : NodeId) : FlowLabel (endLabel id) :=
  flowLabel_of_eq "lwhile".toList "end".toList rfl rfl rfl (by decide) (by decide) (by decide)

mutual

theorem flowLabel_of_mem_labels (s : Stmt) {l : String} (h : l ∈ s.labels) : FlowLabel l := by
  match s with
  | .block stmts =>
    rw [Stmt.labels] at h
    exact flowLabel_of_mem_stmtsLabels stmts h
  | .ifThen id _ thenBranch =>
    simp only [Stmt.labels, mem_append, mem_cons, not_mem_nil, or_false] at h
    rcases h with h | rfl | rfl
    · exact flowLabel_of_mem_labels thenBranch h
    · exact flowLabel_elseLabel id
    · exact flowLabel_doneLabel id
  | .ifElse id _ thenBranch elseBranch =>
    simp only [Stmt.labels, mem_append, mem_cons, not_mem_nil, or_false] at h
    rcases h with h | rfl | h | rfl
    · exact flowLabel_of_mem_labels thenBranch h
    · exact flowLabel_elseLabel id
    · exact flowLabel_of_mem_labels elseBranch h
    · exact flowLabel_doneLabel id
  | .while id _ body =>
    simp only [Stmt.labels, mem_append, mem_cons, not_mem_nil, or_false] at h
    rcases h with rfl | h | rfl
    · exact flowLabel_startLabel id
    · exact flowLabel_of_mem_labels body h
    · exact flowLabel_endLabel id
  | .print _ => simp [Stmt.labels] at h
  | .expr _ => simp [Stmt.labels] at h

theorem flowLabel_of_mem_stmtsLabels (ss : List Stmt) {l : String} (h : l ∈ stmtsLabels ss) :
    FlowLabel l := by
  match ss with
  | [] => simp [stmtsLabels] at h
  | s :: ss =>
    rw [stmtsLabels] at h
    rcases mem_append.1 h with h | h
    · exact flowLabel_of_mem_labels s h
    · exact flowLabel_of_mem_stmtsLabels ss h

end

section Flow

variable {a b k l : String}

theorem toList_underscore (a l : String) : (s!"{a}_{l}").toList = a.toList ++ '_' :: l.toList := by
  rw [String.toList_append, String.toList_append, append_assoc]
  rfl

theorem flow_inj (hl : FlowLabel l) (hk : FlowLabel k) (h : s!"{a}_{l}" = s!"{b}_{k}") :
    a = b ∧ l = k := by
  obtain ⟨word, digits, suffix, heq, hw, hd, hs, _⟩ := hl
  obtain ⟨word', digits', suffix', heq', hw', hd', hs', _⟩ := hk
  have hchars := congrArg String.toList h
  rw [toList_underscore, toList_underscore, heq, heq'] at hchars
  simp only [← cons_append, ← append_assoc] at hchars
  obtain ⟨h₁, rfl⟩ := append_cons_inj_of_not_mem hchars hs hs'
  obtain ⟨h₂, rfl⟩ := append_cons_inj_of_not_mem h₁ hd hd'
  obtain ⟨ha, rfl⟩ := append_cons_inj_of_not_mem h₂ hw hw'
  exact ⟨String.toList_inj.1 ha, String.toList_inj.1 (heq.trans heq'.symm)⟩

theorem flow_ne_returnLabel (hl : FlowLabel l) : s!"{a}_{l}" ≠ returnLabel b := by
  obtain ⟨word, digits, suffix, heq, _, _, hs, hret⟩ := hl
  intro h
  have hchars := congrArg String.toList h
  rw [returnLabel, toList_underscore, heq, String.toList_append] at hchars
  simp only [← cons_append, ← append_assoc] at hchars
  exact hret (append_cons_inj_of_not_mem (y := "ret".toList) hchars hs (by decide)).2

theorem returnLabel_inj (h : returnLabel a = returnLabel b) : a = b := by
  have hchars := congrArg String.toList h
  rw [returnLabel, returnLabel, String.toList_append, String.toList_append,
    append_cancel_right_eq] at hchars
  exact String.toList_inj.1 hchars

theorem underscore_ne_self (a l : String) : s!"{a}_{l}" ≠ a := by
  intro h
  have hlen := congrArg length (congrArg String.toList h)
  rw [toList_underscore, length_append, length_cons] at hlen
  omega

theorem returnLabel_ne_self (a : String) : returnLabel a ≠ a := by
  intro h
  have hlen := congrArg length (congrArg String.toList h)
  rw [returnLabel, String.toList_append, length_append] at hlen
  change a.toList.length + 4 = _ at hlen
  omega

end Flow

/-! ## Methods -/

section Methods

variable {start start' : String} {labels labels' : List String}

theorem mem_methodLabels {l : String} : l ∈ methodLabels start labels ↔
    l = start ∨ (∃ k ∈ labels, l = s!"{start}_{k}") ∨ l = returnLabel start := by
  simp [methodLabels, eq_comm]

theorem nodup_methodLabels (hd : labels.Nodup) (hflow : ∀ l ∈ labels, FlowLabel l) :
    (methodLabels start labels).Nodup := by
  rw [methodLabels, cons_append, nodup_cons, nodup_append]
  refine ⟨?_, ?_, nodup_singleton _, ?_⟩
  · intro hmem
    rcases mem_append.1 hmem with hmem | hmem
    · obtain ⟨l, _, heq⟩ := mem_map.1 hmem
      exact underscore_ne_self start l heq
    · exact returnLabel_ne_self start (mem_singleton.1 hmem).symm
  · refine List.Nodup.map_on (fun l hl l' hl' heq => ?_) hd
    exact (flow_inj (hflow l hl) (hflow l' hl') heq).2
  · intro k hk k' hk'
    obtain ⟨l, hl, rfl⟩ := mem_map.1 hk
    rw [mem_singleton.1 hk']
    exact flow_ne_returnLabel (hflow l hl)

def Clash (start : String) (labels : List String) (start' : String) : Prop :=
  start' = returnLabel start ∨ ∃ l ∈ labels, start' = s!"{start}_{l}"

theorem not_clash_self (start : String) (labels : List String) : ¬ Clash start labels start := by
  rintro (h | ⟨l, _, h⟩)
  · exact returnLabel_ne_self start h.symm
  · exact underscore_ne_self start l h.symm

theorem disjoint_methodLabels_iff (hflow : ∀ l ∈ labels, FlowLabel l)
    (hflow' : ∀ l ∈ labels', FlowLabel l) :
    (methodLabels start labels).Disjoint (methodLabels start' labels') ↔
      start ≠ start' ∧ ¬ Clash start labels start' ∧ ¬ Clash start' labels' start := by
  constructor
  · intro hdisj
    have hnot : start' ∉ methodLabels start labels := fun hmem =>
      hdisj hmem (mem_methodLabels.2 (Or.inl rfl))
    have hnot' : start ∉ methodLabels start' labels' := fun hmem =>
      hdisj (mem_methodLabels.2 (Or.inl rfl)) hmem
    refine ⟨fun h => hnot (mem_methodLabels.2 (Or.inl h.symm)), ?_, ?_⟩
    · rintro (h | h)
      · exact hnot (mem_methodLabels.2 (Or.inr (Or.inr h)))
      · exact hnot (mem_methodLabels.2 (Or.inr (Or.inl h)))
    · rintro (h | h)
      · exact hnot' (mem_methodLabels.2 (Or.inr (Or.inr h)))
      · exact hnot' (mem_methodLabels.2 (Or.inr (Or.inl h)))
  · rintro ⟨hne, hclash, hclash'⟩ l hl hl'
    rcases mem_methodLabels.1 hl with rfl | ⟨k, hk, rfl⟩ | rfl
    · rcases mem_methodLabels.1 hl' with h | h | h
      · exact hne h
      · exact hclash' (Or.inr h)
      · exact hclash' (Or.inl h)
    · rcases mem_methodLabels.1 hl' with h | ⟨k', hk', h⟩ | h
      · exact hclash (Or.inr ⟨k, hk, h.symm⟩)
      · exact hne (flow_inj (hflow k hk) (hflow' k' hk') h).1
      · exact flow_ne_returnLabel (hflow k hk) h
    · rcases mem_methodLabels.1 hl' with h | ⟨k', hk', h⟩ | h
      · exact hclash (Or.inl h.symm)
      · exact flow_ne_returnLabel (hflow' k' hk') h.symm
      · exact hne (returnLabel_inj h)

end Methods

/-- Methods, given by their starts and the labels in their bodies, that do not clash. -/
structure LabelsApart (entries : List (String × List String)) : Prop where
  nodup : (entries.map (·.1)).Nodup
  apart : ∀ e ∈ entries, ∀ e' ∈ entries, ¬ Clash e.1 e.2 e'.1

/-- **The labels of methods are distinct exactly if the methods do not clash.** -/
theorem nodup_flatMap_methodLabels_iff {entries : List (String × List String)}
    (h : ∀ e ∈ entries, e.2.Nodup ∧ ∀ l ∈ e.2, FlowLabel l) :
    (entries.flatMap fun e => methodLabels e.1 e.2).Nodup ↔ LabelsApart entries := by
  have hdisj : ∀ e ∈ entries, ∀ e' ∈ entries,
      ((methodLabels e.1 e.2).Disjoint (methodLabels e'.1 e'.2) ↔
        e.1 ≠ e'.1 ∧ ¬ Clash e.1 e.2 e'.1 ∧ ¬ Clash e'.1 e'.2 e.1) := fun e he e' he' =>
    disjoint_methodLabels_iff (h e he).2 (h e' he').2
  rw [nodup_flatMap]
  constructor
  · rintro ⟨_, hpair⟩
    have hpair := hpair.imp_of_mem fun he he' hd => (hdisj _ he _ he').1 hd
    refine ⟨pairwise_map.2 (hpair.imp fun hd => hd.1), ?_⟩
    -- A method does not clash with itself, and of two methods either may come first.
    have hclash : entries.Pairwise fun e e' => ¬ Clash e.1 e.2 e'.1 := hpair.imp fun hd => hd.2.1
    intro e he e' he'
    exact hclash.forall_of_forall_of_flip (fun e _ => not_clash_self e.1 e.2)
      (hpair.imp fun hd => hd.2.2) he he'
  · rintro ⟨hnodup, hapart⟩
    refine ⟨fun e he => nodup_methodLabels (h e he).1 (h e he).2, ?_⟩
    refine (pairwise_map.1 hnodup).imp_of_mem fun he he' hne => ?_
    exact (hdisj _ he _ he').2 ⟨hne, hapart _ he _ he', hapart _ he' _ he⟩

/-! ## Programs -/

def Ast.Program.entries (p : Ast.Program) : List (String × List String) :=
  p.classes.flatMap fun c => c.methods.map fun m => (methodLabel c.name m.name, stmtsLabels m.body)

def labelKind (l : String) : List Char := l.toList.take 6

theorem labelKind_of_toList_eq {start l : String} (rest : List Char)
    (h : 6 ≤ start.toList.length) (hl : l.toList = start.toList ++ rest) :
    labelKind l = labelKind start := by
  rw [labelKind, hl, take_append_of_le_length h, labelKind]

theorem labelKind_tableLabel (owner : String) : labelKind (tableLabel owner) = labelKind "mj__v_" :=
  labelKind_of_toList_eq _ (by decide) (String.toList_append ..)

theorem toList_methodLabel (owner method : String) : (methodLabel owner method).toList =
    "mj__m_".toList ++ (owner.toList ++ '_' :: method.toList) := by
  simp [methodLabel, toString]

theorem labelKind_of_mem_methodLabels {start : String} {labels : List String} {l : String}
    (h : 6 ≤ start.toList.length) (hl : l ∈ methodLabels start labels) :
    labelKind l = labelKind start := by
  rcases mem_methodLabels.1 hl with rfl | ⟨k, _, rfl⟩ | rfl
  · rfl
  · exact labelKind_of_toList_eq _ h (toList_underscore start k)
  · exact labelKind_of_toList_eq _ h (String.toList_append ..)

theorem nodup_append_of_labelKind {ls ls' : List String} {kinds kinds' : List (List Char)}
    (hk : ∀ l ∈ ls, labelKind l ∈ kinds) (hk' : ∀ l ∈ ls', labelKind l ∈ kinds')
    (hdisj : ∀ k ∈ kinds, k ∉ kinds') : (ls ++ ls').Nodup ↔ ls.Nodup ∧ ls'.Nodup := by
  rw [nodup_append]
  refine ⟨fun h => ⟨h.1, h.2.1⟩, fun h => ⟨h.1, h.2, fun l hl l' hl' heq => ?_⟩⟩
  exact hdisj _ (hk l hl) (heq ▸ hk' l' hl')

/-- **The labels of an assembly are distinct exactly if no methods clash.** -/
theorem nodup_labels_iff {classes : List String} {mainLabels : List String}
    {entries : List (String × List String)} (hclasses : classes.Nodup)
    (hmain : mainLabels.Nodup ∧ ∀ l ∈ mainLabels, FlowLabel l)
    (h : ∀ e ∈ entries, e.2.Nodup ∧ ∀ l ∈ e.2, FlowLabel l)
    (hstart : ∀ e ∈ entries, ∃ owner method, e.1 = methodLabel owner method) :
    (classes.map tableLabel ++ ["main", newLabel, newArrayLabel, printLabel] ++
      (methodLabels mainLabel mainLabels ++ entries.flatMap fun e => methodLabels e.1 e.2)).Nodup ↔
      LabelsApart entries := by
  have htables : (classes.map tableLabel).Nodup := by
    refine hclasses.map fun a b hab => String.toList_inj.1 ?_
    have hchars := congrArg String.toList hab
    simpa [tableLabel, toString] using hchars
  have hentries : ∀ l ∈ entries.flatMap fun e => methodLabels e.1 e.2,
      labelKind l ∈ [labelKind "mj__m_"] := by
    intro l hl
    obtain ⟨e, he, hl⟩ := mem_flatMap.1 hl
    obtain ⟨owner, method, hstart⟩ := hstart e he
    have hchars := toList_methodLabel owner method
    rw [hstart] at hl
    rw [labelKind_of_mem_methodLabels (by rw [hchars]; simp) hl,
      labelKind_of_toList_eq _ (by decide) hchars]
    exact mem_singleton_self _
  have hmains : ∀ l ∈ methodLabels mainLabel mainLabels, labelKind l ∈ [labelKind mainLabel] :=
    fun l hl => mem_singleton.2 (labelKind_of_mem_methodLabels (by decide) hl)
  have htable : ∀ l ∈ classes.map tableLabel, labelKind l ∈ [labelKind "mj__v_"] := by
    intro l hl
    obtain ⟨owner, _, rfl⟩ := mem_map.1 hl
    exact mem_singleton.2 (labelKind_tableLabel owner)
  let services := ["main", newLabel, newArrayLabel, printLabel]
  have hservice : ∀ l ∈ services, labelKind l ∈ services.map labelKind := fun l hl =>
    mem_map_of_mem hl
  have hfirst : ∀ l ∈ classes.map tableLabel ++ services,
      labelKind l ∈ labelKind "mj__v_" :: services.map labelKind := by
    intro l hl
    rcases mem_append.1 hl with hl | hl
    · exact mem_cons.2 (Or.inl (mem_singleton.1 (htable l hl)))
    · exact mem_cons_of_mem _ (hservice l hl)
  have hsecond : ∀ l ∈ methodLabels mainLabel mainLabels ++
      entries.flatMap fun e => methodLabels e.1 e.2,
      labelKind l ∈ [labelKind mainLabel, labelKind "mj__m_"] := by
    intro l hl
    rcases mem_append.1 hl with hl | hl
    · exact mem_cons.2 (Or.inl (mem_singleton.1 (hmains l hl)))
    · exact mem_cons_of_mem _ (hentries l hl)
  rw [nodup_append_of_labelKind hfirst hsecond (by decide),
    nodup_append_of_labelKind htable hservice (by decide),
    nodup_append_of_labelKind hmains hentries (by decide), nodup_flatMap_methodLabels_iff h]
  refine ⟨fun hall => hall.2.2, fun hall => ⟨⟨htables, by decide⟩, ?_, hall⟩⟩
  exact nodup_methodLabels hmain.1 hmain.2

/-! ## What compilation keeps -/

def Ssa.Method.entry (m : Method) : String × List String := (m.label, m.body.labelNames)

theorem Ssa.Body.labelNames_map {f : Statement → Statement} (hf : KeepsTies f) (body : Body) :
    labelNames (body.map f) = body.labelNames := by
  rw [labelNames_eq, labelNames_eq, filterMap_map]
  simp only [Function.comp_def, hf.op, hf.label?]

theorem Ssa.Body.labelNames_bare (body : Body) : body.bare.labelNames = body.labelNames :=
  labelNames_map keepsTies_bare body

theorem Ssa.Body.labelNames_prepare (body : Body) : body.prepare.labelNames = body.labelNames :=
  labelNames_map keepsTies_prepared body

theorem Ssa.Method.SameCode.labelNames {m m' : Method} (h : m.SameCode m') :
    m'.body.labelNames = m.body.labelNames := by
  rw [← labelNames_prepare, ← labelNames_bare, h, labelNames_bare,
    labelNames_prepare]

theorem Spill.Spilling.labelNames {body code : Body} {next n' : StmtId} {a : Analysis}
    {slots : Slots} (h : Spilling body next a slots code n') (hshape : body.Shaped) :
    code.labelNames = body.labelNames := by
  obtain ⟨gs, hl⟩ := h.exists_laid
  rw [Body.labelNames, Body.labelNames, hl.labels h hshape, map_map]
  rfl

theorem Allocates.labelNames {k : Nat} {body final : Body} {next last : StmtId}
    (h : Allocates k body next final last) (hshape : body.Shaped) :
    final.labelNames = body.labelNames := by
  induction h with
  | @colored body next a hb ha hall =>
    rw [← labelNames_bare, bare_assignRegisters, body.bare_clearRegisters,
      labelNames_bare]
  | @spilled body code final next n' last a slots hs hfresh _ ih =>
    have hshape' := shaped_clearRegisters.2 hshape
    rw [ih (hs.shaped hshape'), hs.labelNames hshape', ← labelNames_bare,
      body.bare_clearRegisters, labelNames_bare]

namespace Ssa

variable {ast : Ast.Program} {p q : Program}

theorem Lowered.map_entry (h : Lowered ast p) :
    p.methods.map Method.entry = (mainLabel, ast.main.body.labels) :: ast.entries := by
  have hmain : p.main.entry = (mainLabel, ast.main.body.labels) := by
    obtain ⟨sc, sc', hmain, _⟩ := h.main
    obtain ⟨sc₁, hstmt, hbody, _⟩ := lowerMain_cases hmain
    obtain ⟨code, hb, _, _, hlabels⟩ := (lowerStmt_evolves ast.main.body hstmt).appends
    rw [Method.entry, Method.label, hbody, hb, ← hlabels, lowerMain_head hmain]
    rfl
  have hmethod : ∀ {owner decl m}, LoweredMethod owner p.nextId decl m →
      m.entry = (methodLabel owner decl.name, stmtsLabels decl.body) := by
    rintro owner decl m ⟨sc, sc', hm, _⟩
    obtain ⟨sc₁, _, ⟨code, hb, _, _, hlabels⟩, hbody, _⟩ := lowerMethod_settled hm
    rw [Method.entry, Method.label, hbody, hb, ← hlabels, lowerMethod_head hm]
    rfl
  rw [methods, map_cons, hmain, map_flatMap, Ast.Program.entries,
    flatMap_def, flatMap_def]
  refine congrArg _ (congrArg flatten (map_eq_of_forall₂ h.classes fun decl c hc => ?_))
  exact map_eq_of_forall₂ hc.methods fun mdecl m => hmethod

theorem Checked.map_entry {cx : TypeContext} (h : Checked p q cx) :
    q.methods.map Method.entry = p.methods.map Method.entry := by
  have hresolve : { p with classes := cx.classes }.methods.map Method.entry =
      p.methods.map Method.entry := by
    rw [methods, methods, map_cons, map_cons, map_flatMap,
      map_flatMap, flatMap_def, flatMap_def]
    refine congrArg _ (congrArg flatten (map_eq_of_forall₂
      (typeContext_eq_ok.1 h.context).2 fun c c' hc => ?_))
    obtain ⟨fields, methods, _, hmethods, rfl⟩ := ClassDef.resolve_eq_ok.1 hc
    refine map_eq_of_forall₂ hmethods fun m m' hm => ?_
    obtain ⟨_, _, _, _, rfl⟩ := Method.resolve_eq_ok.1 hm
    rfl
  rw [← hresolve]
  refine map_eq_of_forall₂ h.code.methods fun m m' hm => ?_
  have hcode := cx.sameCode_checkMethod m
  have hhead : (cx.checkMethod m).1.label = m.label := rfl
  rw [hm] at hcode hhead
  rw [Method.entry, Method.entry, hcode.labelNames, hhead]

theorem map_entry_of_allocate {k : Nat} {bound : StmtId}
    (h : Program.Matches (Method.Allocated k bound) p q)
    (hshape : ∀ m ∈ p.methods, m.body.prepare.Shaped) :
    q.methods.map Method.entry = p.methods.map Method.entry := by
  have hmem := (h.imp_mem (S := fun m m' => m ∈ p.methods ∧ m.Allocated k bound m')
    fun m hm m' hall => ⟨hm, hall⟩).methods
  refine map_eq_of_forall₂ hmem ?_
  rintro m m' ⟨hm, hhead, n, last, _, hall⟩
  have hlabel : m'.label = m.label := by
    rw [hhead]
    rfl
  rw [Method.entry, Method.entry, hlabel, hall.labelNames (hshape m hm), labelNames_prepare]

theorem Checked.map_name {cx : TypeContext} (h : Checked p q cx) :
    q.classes.map (·.name) = p.classes.map (·.name) := by
  rw [map_eq_of_forall₂ h.code.classes fun c d hcd => hcd.name_eq]
  refine map_eq_of_forall₂ (typeContext_eq_ok.1 h.context).2 fun c c' hc => ?_
  obtain ⟨_, _, _, _, rfl⟩ := ClassDef.resolve_eq_ok.1 hc
  rfl

end Ssa

/-! ## Plain names -/

def Ast.Program.HasPlainNames (p : Ast.Program) : Prop :=
  ∀ c ∈ p.classes, '_' ∉ c.name.toList ∧ ∀ m ∈ c.methods, '_' ∉ m.name.toList

theorem count_methodLabel {owner method : String} (ho : '_' ∉ owner.toList)
    (hm : '_' ∉ method.toList) : (methodLabel owner method).toList.count '_' = 4 := by
  rw [toList_methodLabel, count_append, count_append, count_cons_self,
    count_eq_zero.2 ho, count_eq_zero.2 hm]
  rfl

theorem count_lt_of_clash {start start' : String} {labels : List String}
    (h : Clash start labels start') : start.toList.count '_' < start'.toList.count '_' := by
  rcases h with rfl | ⟨l, _, rfl⟩
  · rw [returnLabel, String.toList_append, count_append]
    exact Nat.lt_add_of_pos_right (by decide)
  · rw [toList_underscore, count_append, count_cons_self]
    omega

theorem methodLabel_inj {owner owner' method method' : String} (hm : '_' ∉ method.toList)
    (hm' : '_' ∉ method'.toList) (h : methodLabel owner method = methodLabel owner' method') :
    owner = owner' ∧ method = method' := by
  have hchars := congrArg String.toList h
  rw [toList_methodLabel, toList_methodLabel, append_cancel_left_eq] at hchars
  obtain ⟨howner, hmethod⟩ := append_cons_inj_of_not_mem hchars hm hm'
  exact ⟨String.toList_inj.1 howner, String.toList_inj.1 hmethod⟩

theorem Ssa.Lowered.labelsApart {ast : Ast.Program} {p : Ssa.Program} (h : Lowered ast p)
    (hplain : ast.HasPlainNames) : LabelsApart ast.entries := by
  constructor
  · rw [Ast.Program.entries, map_flatMap, nodup_flatMap]
    constructor
    · intro c hc
      obtain ⟨_, _, hlow⟩ := exists_right_of_forall₂ h.classes hc
      rw [map_map]
      refine (List.Nodup.of_map _ hlow.nodup_methods).map_on fun m hm m' hm' heq => ?_
      have hname := (methodLabel_inj ((hplain c hc).2 m hm) ((hplain c hc).2 m' hm') heq).2
      exact inj_on_of_nodup_map hlow.nodup_methods hm hm' hname
    · refine (pairwise_map.1 h.nodup_classes).imp_of_mem fun {c c'} hc hc' hne => ?_
      simp only [Function.onFun, map_map]
      intro l hl hl'
      obtain ⟨m, hm, rfl⟩ := mem_map.1 hl
      obtain ⟨m', hm', heq⟩ := mem_map.1 hl'
      exact hne (methodLabel_inj ((hplain c' hc').2 m' hm') ((hplain c hc).2 m hm) heq).1.symm
  · have hcount : ∀ e ∈ ast.entries, e.1.toList.count '_' = 4 := by
      intro e he
      obtain ⟨c, hc, he⟩ := mem_flatMap.1 he
      obtain ⟨m, hm, rfl⟩ := mem_map.1 he
      exact count_methodLabel (hplain c hc).1 ((hplain c hc).2 m hm)
    intro e he e' he' hclash
    have hlt := count_lt_of_clash hclash
    rw [hcount e he, hcount e' he'] at hlt
    exact Nat.lt_irrefl _ hlt

/-! ## Assemblies -/

theorem nodup_nodeIds_of_mem {ast : Ast.Program} (h : ast.nodeIds.Nodup) {c : ClassDecl}
    (hc : c ∈ ast.classes) {m : MethodDecl} (hm : m ∈ c.methods) : (stmtsNodeIds m.body).Nodup := by
  have hclass := (nodup_flatMap.1 (nodup_append.1 h).2.1).1 c hc
  exact (nodup_flatMap.1 hclass).1 m hm

theorem nodup_of_mem_entries {ast : Ast.Program} (h : ast.nodeIds.Nodup) {e : String × List String}
    (he : e ∈ ast.entries) : e.2.Nodup := by
  obtain ⟨c, hc, he⟩ := mem_flatMap.1 he
  obtain ⟨m, hm, rfl⟩ := mem_map.1 he
  exact nodup_stmtsLabels _ (nodup_nodeIds_of_mem h hc hm)

theorem Ssa.Lowered.nodup_labelNames {ast : Ast.Program} {p : Ssa.Program} (h : Lowered ast p)
    (hids : ast.nodeIds.Nodup) {m : Method} (hm : m ∈ p.methods) : m.body.labelNames.Nodup := by
  have hentry := mem_map_of_mem (f := Method.entry) hm
  rw [h.map_entry] at hentry
  rcases mem_cons.1 hentry with hmain | hmem
  · have heq : m.body.labelNames = ast.main.body.labels := congrArg Prod.snd hmain
    rw [heq]
    exact nodup_labels _ (nodup_append.1 hids).1
  · exact nodup_of_mem_entries hids hmem

/-- **Labels are distinct exactly if no methods clash.** -/
theorem labels_distinct_iff {ast : Ast.Program} {p p' q : Ssa.Program} {k : Nat}
    {stats : List MethodStats} {asm : Assembly} (hids : ast.nodeIds.Nodup)
    (hp : Ssa.Program.ofAst ast = .ok p) (hp' : p.check = (p', .ok ()))
    (hq : p'.allocate k = (q, .ok stats)) (hasm : q.emit = .ok asm) :
    asm.labels.Nodup ↔ LabelsApart ast.entries := by
  have hlow := lowered_of_ofAst hp
  obtain ⟨cx, hchecked⟩ := checked_of_check hp'
  have hcheck : p' = p ∨ p' = p.check.1 := Or.inr (by rw [hp'])
  obtain ⟨hmatches, _⟩ := matches_of_allocate (hlow.disciplined_of_check hcheck) hq
  have hentries := (map_entry_of_allocate hmatches (hlow.shaped_of_check hcheck)).trans
    (hchecked.map_entry.trans hlow.map_entry)
  have hnames : q.classes.map (·.name) = ast.classes.map (·.name) := by
    rw [map_eq_of_forall₂ hmatches.classes fun c d hcd => hcd.name_eq, hchecked.map_name]
    exact map_eq_of_forall₂ hlow.classes fun decl c hc => hc.name
  have hmethods : (q.methods.flatMap fun m => methodLabels m.label m.body.labelNames) =
      methodLabels mainLabel ast.main.body.labels ++
        ast.entries.flatMap fun e => methodLabels e.1 e.2 := by
    have hflat := congrArg (flatMap fun e => methodLabels e.1 e.2) hentries
    rwa [flatMap_map] at hflat
  have htables : (q.classes.map fun c => tableLabel c.name) =
      (ast.classes.map (·.name)).map tableLabel := by
    rw [← hnames, map_map]
    rfl
  rw [labels_emit hasm, hmethods, htables]
  refine nodup_labels_iff hlow.nodup_classes ⟨?_, fun l => flowLabel_of_mem_labels _⟩ ?_ ?_
  · exact nodup_labels _ (nodup_append.1 hids).1
  · intro e he
    refine ⟨nodup_of_mem_entries hids he, ?_⟩
    obtain ⟨c, hc, he⟩ := mem_flatMap.1 he
    obtain ⟨m, hm, rfl⟩ := mem_map.1 he
    exact fun l => flowLabel_of_mem_stmtsLabels _
  · intro e he
    obtain ⟨c, _, he⟩ := mem_flatMap.1 he
    obtain ⟨m, _, rfl⟩ := mem_map.1 he
    exact ⟨c.name, m.name, rfl⟩

/-- **Labels are distinct** in the assembly of a source text exactly if its methods do not clash, so
if its classes and methods have plain names. -/
theorem labels_are_distinct (source text : String) (h : compileToAssembly source = .ok text) :
    ∃ ast p asm, parse source = .ok ast ∧ compileToCheckedSsa source = .ok p ∧
      p.assemble.2 = .ok asm ∧ text = asm.text ∧
      (asm.labels.Nodup ↔ LabelsApart ast.entries) ∧ (ast.HasPlainNames → asm.labels.Nodup) := by
  obtain ⟨p', q, stats, asm, hp', hq, hasm, rfl⟩ := compileToAssembly_eq_ok.1 h
  obtain ⟨ast, p, hast, hp, hcheck⟩ := compileToCheckedSsa_eq_ok.1 hp'
  have hiff := labels_distinct_iff (nodup_nodeIds hast) hp hcheck hq hasm
  refine ⟨ast, p', asm, hast, hp', ?_, rfl, hiff, fun hplain => ?_⟩
  · exact assemble_eq_ok.2 ⟨q, stats, hq, hasm⟩
  · exact hiff.2 ((lowered_of_ofAst hp).labelsApart hplain)

/-- A method whose name is another method's name with the suffix of its end:

    class M { public static void main(String[] a) { } }
    class A { public int f() { return 1; } public int f_ret() { return 2; } } -/
def endClash : String :=
  "class M\x7bpublic static void main(String[] a)\x7b \x7d\x7d class A\x7b" ++
    "public int f()\x7breturn 1;\x7d public int f_ret()\x7breturn 2;\x7d\x7d"

theorem isOk_endClash : (compileToAssembly endClash).isOk = true := by decide +kernel

theorem labels_are_distinct_endClash : ∃ text ast p asm,
    compileToAssembly endClash = .ok text ∧ parse endClash = .ok ast ∧
      compileToCheckedSsa endClash = .ok p ∧ p.assemble.2 = .ok asm ∧ text = asm.text ∧
      (asm.labels.Nodup ↔ LabelsApart ast.entries) ∧ (ast.HasPlainNames → asm.labels.Nodup) := by
  obtain ⟨text, htext⟩ := exists_eq_ok_of_isOk isOk_endClash
  obtain ⟨ast, p, asm, h⟩ := labels_are_distinct endClash text htext
  exact ⟨text, ast, p, asm, htext, h⟩

/-- **Labels can clash**: the end of `f` and the start of `f_ret`. -/
theorem labels_clash : ∃ text p asm, compileToAssembly endClash = .ok text ∧
    compileToCheckedSsa endClash = .ok p ∧ p.assemble.2 = .ok asm ∧ text = asm.text ∧
    ¬ asm.labels.Nodup := by
  obtain ⟨text, htext⟩ := exists_eq_ok_of_isOk isOk_endClash
  obtain ⟨p', q, stats, asm, hp', hq, hasm, rfl⟩ := compileToAssembly_eq_ok.1 htext
  obtain ⟨ast, p, hast, hp, hcheck⟩ := compileToCheckedSsa_eq_ok.1 hp'
  refine ⟨_, p', asm, htext, hp', assemble_eq_ok.2 ⟨q, stats, hq, hasm⟩, rfl, fun hnodup => ?_⟩
  have hentries : (parse endClash).toOption.map (·.entries) =
      some [("mj__m_A_f", []), ("mj__m_A_f_ret", [])] := by decide +kernel
  have hast : ast.entries = [("mj__m_A_f", []), ("mj__m_A_f_ret", [])] := by
    rw [hast] at hentries
    exact Option.some.inj hentries
  have hapart := ((labels_distinct_iff (nodup_nodeIds ‹_›) hp hcheck hq hasm).1 hnodup).apart
  rw [hast] at hapart
  exact hapart _ (mem_cons_self ..) _ (mem_cons_of_mem _ (mem_cons_self ..))
    (Or.inl (by decide))

end MiniJava
