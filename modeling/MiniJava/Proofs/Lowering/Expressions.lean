import MiniJava.Proofs.Lowering.Pieces

/-!
# The meaning of the code of expressions

Running the code of an expression evaluates the expression. Operands are evaluated from left to
right, and each has the value that it had when it was evaluated: either no later operand overwrites
it, or it was copied.
-/

namespace MiniJava.Ssa

open Ast List Statement

variable {base : Nat} {own : Owners} {sc sc' sc₁ : Scope} {v : StmtId} {M : Machine Nat}
  {es : List Expr} {e target value : Expr} {op : Op} {payload : Payload} {ids : List StmtId}
  {x : String}

/-! ## Operands -/

section Operands

variable {names : List String} {act : Activation}

/-- The code between two scopes evaluates an expression. The result belongs to a local only if it is
bound to it still or if the expression assigns the local to itself. -/
def Evaluates (names : List String) (act : Activation) (e : Expr) (base : Nat) (own : Owners)
    (sc : Scope) (id : StmtId) (sc' : Scope) : Prop :=
  ∃ own', Emits names base (fun x => e.assigns x = true) sc own sc' own' ∧
    (∃ s ∈ sc'.body, s.id = id) ∧
    (∀ x, own' id = some x → e.yields x = true ∧
      (sc'.locals.find? x = some id ∨ e.selfAssigns x = true)) ∧
    ∀ M ownF, Completes names base act sc' own' M ownF →
      e.KeepsOperands names ∨ ¬ M.code.ReadsOverwritten →
      Computes M ownF sc sc' (evalExpr act e) fun σ v => M.read? σ id = some v

def SoundExpr (names : List String) (act : Activation) (e : Expr) : Prop :=
  ∀ {base : Nat} {own : Owners} {sc : Scope} {id : StmtId} {sc' : Scope},
    sc.Owned names base own → lowerExpr e sc = .ok id sc' →
    Evaluates names act e base own sc id sc'

/-- The code of operands evaluates them from left to right, and each has the value that it had, if
the later ones do not overwrite it. -/
def SoundArgs (names : List String) (act : Activation) (es : List Expr) : Prop :=
  ∀ {base : Nat} {own : Owners} {sc : Scope} {ids : List StmtId} {sc' : Scope},
    sc.Owned names base own → lowerArgs es sc = .ok ids sc' →
    ∃ own', Emits names base (fun x => ∃ e ∈ es, e.assigns x = true) sc own sc' own' ∧
      (∀ id ∈ ids, ∃ s ∈ sc'.body, s.id = id) ∧
      (∀ e id x, es.getLast? = some e → ids.getLast? = some id → own' id = some x →
        e.yields x = true ∧ (sc'.locals.find? x = some id ∨ e.selfAssigns x = true)) ∧
      ∀ M ownF, Completes names base act sc' own' M ownF →
        (∀ e ∈ es, e.KeepsOperands names ∨ ¬ M.code.ReadsOverwritten) →
        (es.Pairwise (fun a b => ∀ x ∈ names, a.selfAssigns x = true → b.assigns x = false) ∨
          ∀ id ∈ ids, ¬ Overwritten M ownF (max sc.nextId (id + 1)) sc'.nextId id) →
        Computes M ownF sc sc' (evalArgs act es) fun σ vs => ids.mapM (M.read? σ) = some vs

theorem hold_sound (act : Activation) {held : StmtId} {later : Bool}
    (hsc : sc.Owned names base own) (hv : ∃ s ∈ sc.body, s.id = v)
    (h : hold v later sc = .ok held sc') :
    ∃ own', Emits names base (fun _ => False) sc own sc' own' ∧
      (∃ s ∈ sc'.body, s.id = held) ∧
      (∀ x, own' held = some x → held = v ∧ sc' = sc ∧ own' = own ∧
        (later = true → sc.locals.find? x ≠ some v)) ∧
      ∀ M ownF, Completes names base act sc' own' M ownF → ∀ {start : Scope} {eff : Eval Value},
        start.nextId ≤ sc.nextId →
        Computes M ownF start sc eff (fun σ a => M.read? σ v = some a) →
        Computes M ownF start sc' eff fun σ a => M.read? σ held = some a := by
  rcases hold_cases h with ⟨rfl, rfl, hno⟩ | ⟨x, _, _, rfl, rfl⟩
  · exact ⟨own, .refl hsc, hv, fun x _ => ⟨rfl, rfl, rfl, fun hl => hno hl x⟩,
      fun _ _ _ _ _ _ hc => hc⟩
  · have hemits : Emits names base (fun _ => False) sc own
        (sc.emit .assignVar (some v) (some v) (.name x)).2 (own.set sc.nextId none) :=
      .emit hsc _ _ _ rfl (by simp)
    refine ⟨_, hemits, ⟨_, mem_append_right _ mem_cons_self, rfl⟩, ?_, ?_⟩
    · intro y hy
      rw [Owners.set_self] at hy
      cases hy
    · intro M ownF hM start eff hle hc
      have hnone : ownF sc.nextId = none := by
        rw [hM.agree _ (Nat.lt_succ_self _), Owners.set_self]
      refine hc.copy hM.machine ((hM.of_emits hemits).owned hsc) hle hM.isPrefix hnone rfl
        (fun _ => rfl) fun σ a ha => ⟨a, ?_, fun _ _ hw => hw⟩
      simp [reads, ha]

theorem Overwritten.exists_owner (hM : CellMachine names base own M) {n n' : Nat} {t : StmtId}
    (ht : t < n) (h : Overwritten M own n n' t) : ∃ s ∈ M.code, ∃ x ∈ names, n ≤ s.id ∧ s.id < n' ∧
      own s.id = some x ∧ own t = some x := by
  obtain ⟨s, hs, hle, hlt, hne, hplace, _⟩ := h
  obtain ⟨x, hx⟩ := Option.ne_none_iff_exists'.1 hne
  obtain ⟨c, hc⟩ := hM.exists_place? hs (hM.code.tracked s hs hne)
  refine ⟨s, hs, x, hM.code.named s hs x hx, hle, hlt, hx, ?_⟩
  rcases hM.eq_of_place?_eq hc (hplace ▸ hc) with heq | ⟨heq, _⟩
  · exact absurd (heq ▸ ht) (Nat.not_lt.2 hle)
  · rw [heq, hx]

theorem soundArgs (ih : ∀ e ∈ es, SoundExpr names act e) : SoundArgs names act es := by
  induction es with
  | nil =>
    intro base own sc ids sc' hsc h
    obtain ⟨rfl, rfl⟩ := lowerArgs_nil_cases h
    refine ⟨own, .refl hsc, by simp, by simp, fun M ownF _ _ _ => ?_⟩
    refine Computes.refl fun env σ _ => ⟨[], ?_, rfl⟩
    rw [evalArgs]
    rfl
  | cons e es ihes =>
    intro base own sc ids sc' hsc h
    obtain ⟨v, sc₁, held, sc₂, rest, he, hh, hes, rfl⟩ := lowerArgs_cons_cases h
    obtain ⟨own₁, hE, hv, howner, hrun⟩ := ih e mem_cons_self hsc he
    obtain ⟨own₂, hH, hheld, hheldOwner, hhold⟩ := hold_sound act hE.owned hv hh
    obtain ⟨own₃, hR, hrest, hlast, hrunR⟩ :=
      ihes (fun f hf => ih f (mem_cons_of_mem _ hf)) hH.owned hes
    have hemits : Emits names base (fun x => ∃ f ∈ e :: es, f.assigns x = true) sc own sc' own₃ := by
      refine ((hE.mono fun x hx => ?_).trans (hH.mono fun x hx => hx.elim)).trans
        (hR.mono fun x hx => ?_)
      · exact ⟨e, mem_cons_self, hx⟩
      · obtain ⟨f, hf, hx⟩ := hx
        exact ⟨f, mem_cons_of_mem _ hf, hx⟩
    refine ⟨own₃, hemits, ?_, ?_, ?_⟩
    · intro id hid
      rcases mem_cons.1 hid with rfl | hid
      · obtain ⟨s, hs, hsid⟩ := hheld
        exact ⟨s, hR.appends.isPrefix.subset hs, hsid⟩
      · exact hrest id hid
    · intro f id x hf hid hx
      cases es with
      | cons g gs =>
        obtain ⟨_, _, _, _, _, _, _, _, rfl⟩ := lowerArgs_cons_cases hes
        exact hlast f id x (by simpa using hf) (by simpa using hid) hx
      | nil =>
        -- The last operand is not held.
        obtain ⟨rfl, rfl⟩ := lowerArgs_nil_cases hes
        rcases hold_cases hh with ⟨rfl, rfl, _⟩ | ⟨_, hlater, _⟩
        · obtain ⟨s, hs, rfl⟩ := hv
          cases hf
          cases hid
          have hlt := hE.owned.id_lt hs
          exact howner x (((hH.agree.trans hR.agree (Nat.le_refl _)) _ hlt).symm.trans hx)
        · cases hlater
    · intro M ownF hM hkeep hpair
      have hM₂ := hM.of_emits hR
      have hle := (hE.appends.trans hH.appends).nextId_le
      have hheldlt : held < sc₂.nextId := by
        obtain ⟨s, hs, rfl⟩ := hheld
        exact hH.owned.id_lt hs
      have hc := hhold M ownF hM₂ hE.appends.nextId_le
        (hrun M ownF (hM₂.of_emits hH) (hkeep e mem_cons_self))
      have hcs := hrunR M ownF hM (fun f hf => hkeep f (mem_cons_of_mem _ hf)) (by
        refine hpair.imp (fun hp => (pairwise_cons.1 hp).2) fun hp id hid hover => ?_
        refine hp id (mem_cons_of_mem _ hid) (hover.mono ?_ (Nat.le_refl _))
        exact Nat.max_le.2 ⟨Nat.le_trans hle (Nat.le_max_left ..), Nat.le_max_right ..⟩)
      have hsafe : ¬ Overwritten M ownF sc₂.nextId sc'.nextId held := by
        rcases hpair with hp | hp
        · -- What overwrites the value assigns its local, so the value is a self-assignment.
          intro hover
          obtain ⟨s, hs, x, hx, hsle, hslt, hown, hownHeld⟩ := hover.exists_owner hM.machine hheldlt
          have hs' : s ∈ sc'.body :=
            hM.machine.code.mem_of_id_lt hM.isPrefix hs (hR.owned.next ▸ hslt)
          obtain ⟨_, f, hf, hfx⟩ := hR.assignments s hs' hsle x ((hM.agree _ hslt).symm.trans hown)
          rw [hM₂.agree _ hheldlt] at hownHeld
          obtain ⟨rfl, rfl, rfl, hnot⟩ := hheldOwner x hownHeld
          have hlater := Expr.anyAssignment_of_mem hf (Expr.hasAssignment_of_assigns hfx)
          have hself : e.selfAssigns x = true :=
            (howner x hownHeld).2.resolve_left (hnot hlater)
          rw [(pairwise_cons.1 hp).1 f hf x hx hself] at hfx
          cases hfx
        · exact fun hover => hp held mem_cons_self
            (hover.mono (Nat.max_le.2 ⟨hle, hheldlt⟩) (Nat.le_refl _))
      rw [evalArgs]
      refine hc.bind cons hcs hle hR.appends.nextId_le ?_
      intro σ σ' a b ha hfr hb
      rw [mapM_cons, hfr held hheldlt hsafe, ha, hb]
      rfl

/-! ## One statement per expression -/

theorem nodeOf?_reads (h : nodeOf? e = some (op, payload)) (hlen : ids.length = e.operands.length)
    (n : StmtId) :
    op.definesValue = true ∧ op.isMerge = false ∧
      reads ⟨n, op, ids[0]?, ids[1]?, payload, none, none, none⟩ = ids := by
  cases e <;> cases h <;> refine ⟨rfl, rfl, ?_⟩ <;>
    match ids, hlen with
    | [], _ => rfl
    | [_], _ => rfl
    | [_, _], _ => rfl

def onOne {α : Type} (f : Value → Effect α) : List Value → Effect α
  | [a] => f a
  | _ => fault .malformed

def onTwo {α : Type} (f : Value → Value → Effect α) : List Value → Effect α
  | [a, b] => f a b
  | _ => fault .malformed

def onThree {α : Type} (f : Value → Value → Value → Effect α) : List Value → Effect α
  | [a, b, c] => f a b c
  | _ => fault .malformed

theorem evalExpr_of_nodeOf? (act : Activation) (h : nodeOf? e = some (op, payload)) :
    ∃ f : List Value → Effect Value,
      (∀ vs, vs.length = e.operands.length → perform act op payload vs = .value <$> f vs) ∧
      evalExpr act e = (do let vs ← evalArgs act e.operands; f vs) := by
  cases e <;> cases h
  case intLit n =>
    exact ⟨fun _ => pure (.int n), fun _ _ => rfl, by simp [evalExpr, evalArgs, Expr.operands]⟩
  case boolLit b =>
    exact ⟨fun _ => pure (.bool b), fun _ _ => rfl, by simp [evalExpr, evalArgs, Expr.operands]⟩
  case this =>
    exact ⟨fun _ => act.receiver, fun _ _ => rfl, by simp [evalExpr, evalArgs, Expr.operands]⟩
  case newObject name =>
    exact ⟨fun _ => newObject act.runtime name, fun _ _ => rfl,
      by simp [evalExpr, evalArgs, Expr.operands]⟩
  case not =>
    refine ⟨onOne Value.negate, fun vs hvs => ?_, by simp [evalExpr, evalArgs, Expr.operands, onOne]⟩
    obtain ⟨_, rfl⟩ := length_eq_one_iff.1 hvs
    rfl
  case newIntArray =>
    refine ⟨onOne newArray, fun vs hvs => ?_, by simp [evalExpr, evalArgs, Expr.operands, onOne]⟩
    obtain ⟨_, rfl⟩ := length_eq_one_iff.1 hvs
    rfl
  case member name =>
    refine ⟨onOne (readMember · name), fun vs hvs => ?_,
      by simp [evalExpr, evalArgs, Expr.operands, onOne]⟩
    obtain ⟨_, rfl⟩ := length_eq_one_iff.1 hvs
    rfl
  case index =>
    refine ⟨onTwo readIndex, fun vs hvs => ?_, by simp [evalExpr, evalArgs, Expr.operands, onTwo]⟩
    obtain ⟨_, _, rfl⟩ := length_eq_two.1 hvs
    rfl
  case binary op l r =>
    refine ⟨onTwo op.apply, fun vs hvs => ?_, by simp [evalExpr, evalArgs, Expr.operands, onTwo]⟩
    obtain ⟨_, _, rfl⟩ := length_eq_two.1 hvs
    rfl

theorem not_overwritten_of_reads {own' own'' ownF : Owners} {last : Scope}
    {assigned assigned' : String → Prop} (hM : Completes names base act sc' own' M ownF)
    (hsafe : ¬ M.code.ReadsOverwritten) (hsc : sc.Owned names base own)
    (hemits : Emits names base assigned sc own sc' own')
    (hlast : Emits names base assigned' sc own last own'') (hp : last.body <+: M.code)
    {s : Statement} {o : StmtId} (hs : s ∈ M.code) (ho : o ∈ s.reads) (hle : sc'.nextId ≤ s.id)
    (hlt : s.id ≤ last.nextId) (hmem : ∃ t ∈ sc'.body, t.id = o) :
    ¬ Overwritten M ownF (max sc.nextId (o + 1)) sc'.nextId o := by
  rintro ⟨t, ht, hge, hlt', hne, hplace, hleft⟩
  obtain ⟨r, hr, rfl⟩ := hmem
  obtain ⟨i, hi⟩ := mem_iff_getElem?.1 (hM.isPrefix.subset hr)
  obtain ⟨j, hj⟩ := mem_iff_getElem?.1 ht
  obtain ⟨p, hp'⟩ := mem_iff_getElem?.1 hs
  have hid := hM.machine.code.id_eq hi
  have hjd := hM.machine.code.id_eq hj
  have ht' : t ∈ sc'.body := hM.machine.code.mem_of_id_lt hM.isPrefix ht (hemits.owned.next ▸ hlt')
  obtain ⟨x, hx⟩ := Option.ne_none_iff_exists'.1 hne
  obtain ⟨hge₁, hge₂⟩ := Nat.max_le.1 hge
  obtain ⟨hop, _⟩ := hemits.assignments t ht' hge₁ x ((hM.agree _ hlt').symm.trans hx)
  have hjlt : base + j < base + sc'.body.length := hjd ▸ hemits.owned.next ▸ hlt'
  rw [hsc.next, hjd] at hge₁
  rw [hid, hjd] at hge₂
  rw [hemits.owned.next, hM.machine.code.id_eq hp'] at hle
  rw [hlast.owned.next, hM.machine.code.id_eq hp'] at hlt
  have hle : base + sc'.body.length ≤ base + p := hle
  have hlt : base + p ≤ base + last.body.length := hlt
  refine hsafe ⟨i, j, p, s, t, r.id, hp', ho, hM.machine.code.distinct.lastPosition?_eq hi,
    by omega, by omega, hj, hop, hleft, ?_, fun l k hl hk => ?_⟩
  · rwa [hM.machine.place] at hplace
  · exact not_mem_nil (hlast.appends.mem_of_mem_labels hp hl (by omega) (by omega))

theorem soundExpr_of_nodeOf? {node : Op × Payload} (hn : nodeOf? e = some node)
    (ih : ∀ f ∈ e.operands, SoundExpr names act f) : SoundExpr names act e := by
  intro base own sc id sc' hsc h
  rw [lowerExpr_of_nodeOf? hn] at h
  obtain ⟨ids, sc₁, hargs, h⟩ := Build.bind_eq_ok.1 h
  obtain ⟨rfl, rfl⟩ := Build.emit_eq_ok.1 h
  obtain ⟨own₁, hE, hmem, _, hrun⟩ := soundArgs ih hsc hargs
  have hlen := length_of_lowerArgs hargs
  obtain ⟨hdef, hmerge, hreads⟩ := nodeOf?_reads hn hlen sc₁.nextId
  have hemit : Emits names base (fun x => e.assigns x = true) sc₁ own₁
      (sc₁.emit node.1 ids[0]? ids[1]? node.2).2 (own₁.set sc₁.nextId none) :=
    .emit hE.owned _ _ _ hmerge (nodeOf?_ne_label hn)
  refine ⟨_, (hE.mono fun x hx => ?_).trans hemit,
    ⟨_, mem_append_right _ mem_cons_self, rfl⟩, fun x hx => ?_, fun M ownF hM hkeep => ?_⟩
  · obtain ⟨f, hf, hx⟩ := hx
    exact Expr.assigns_of_mem_operands hf hx
  · rw [Owners.set_self] at hx
    cases hx
  · have hM₁ := hM.of_emits hemit
    have hnone : ownF sc₁.nextId = none := by
      rw [hM.agree _ (Nat.lt_succ_self _), Owners.set_self]
    have hs := mem_of_getElem? (Scope.getElem?_of_emit hM.isPrefix)
    have hc := hrun M ownF hM₁ (fun f hf => hkeep.imp_left (·.of_mem_operands hf))
      (hkeep.imp (·.pairwise) fun hsafe id hid => not_overwritten_of_reads hM₁ hsafe hsc hE hE
        hM₁.isPrefix hs (by rw [hreads]; exact hid) (Nat.le_refl _) (Nat.le_refl _) (hmem id hid))
    obtain ⟨f, hf, heval⟩ := evalExpr_of_nodeOf? act hn
    rw [heval]
    refine hc.emit f hM.machine (hM₁.owned hE.owned) hE.appends.nextId_le hM.isPrefix hnone hdef ?_
    intro σ vs hvs
    refine ⟨vs, by rw [hreads]; exact hvs, ?_⟩
    rw [hM.activation]
    exact hf vs ((length_of_mapM_eq_some hvs).trans hlen)

/-! ## Calls -/

theorem mapM_read_replace {σ : Store Nat} {pre post : List StmtId} {vs : List Value}
    (h : (pre ++ v :: post).mapM (M.read? σ) = some vs) :
    ∃ w, M.read? σ v = some w ∧ ∀ σ' n, (∀ id ∈ pre ++ post, M.read? σ' id = M.read? σ id) →
      M.read? σ' n = some w → (pre ++ n :: post).mapM (M.read? σ') = some vs := by
  rw [mapM_eq_some_iff, map_append, map_cons] at h
  have hsome : M.read? σ v ∈ vs.map some := h ▸ mem_append_right _ mem_cons_self
  obtain ⟨w, _, hw⟩ := mem_map.1 hsome
  refine ⟨w, hw.symm, fun σ' n hsame hn => ?_⟩
  rw [mapM_eq_some_iff, ← h, map_append, map_cons, hn, ← hw,
    map_congr_left fun id hid => hsame id (mem_append_left _ hid),
    map_congr_left fun id hid => hsame id (mem_append_right _ hid)]

theorem emitArgs_sound (act : Activation) {values : List StmtId} :
    ∀ {position : Nat} {ids : List StmtId} {sc sc' : Scope} {own : Owners},
    sc.Owned names base own → emitArgs position values sc = .ok ids sc' →
    ∃ own', Emits names base (fun _ => False) sc own sc' own' ∧
      (∀ v ∈ values, ∃ s ∈ sc'.body, sc.nextId ≤ s.id ∧ v ∈ s.reads) ∧
      ∀ M ownF, Completes names base act sc' own' M ownF →
        ∀ {start : Scope} {eff : Eval (List Value)} (pre : List StmtId),
        start.nextId ≤ sc.nextId → (∀ id ∈ pre ++ values, id < sc.nextId) →
        Computes M ownF start sc eff (fun σ vs => (pre ++ values).mapM (M.read? σ) = some vs) →
        Computes M ownF start sc' eff fun σ vs => (pre ++ ids).mapM (M.read? σ) = some vs := by
  induction values with
  | nil =>
    intro position ids sc sc' own hsc h
    obtain ⟨rfl, rfl⟩ := emitArgs_nil_cases h
    exact ⟨own, .refl hsc, by simp, fun _ _ _ _ _ _ _ _ hc => hc⟩
  | cons value values ih =>
    intro position ids sc sc' own hsc h
    obtain ⟨rest, rfl, hrest⟩ := emitArgs_cons_cases h
    have hread : reads ⟨sc.nextId, .arg, some value, none, .position position, none, none,
      none⟩ = [value] := rfl
    have hemit : Emits names base (fun _ => False) sc own
        (sc.emit .arg (some value) none (.position position)).2 (own.set sc.nextId none) :=
      .emit hsc _ _ _ rfl (by simp)
    obtain ⟨own', hE, hreads, hrun⟩ := ih hemit.owned hrest
    refine ⟨own', hemit.trans hE, fun v hv => ?_, fun M ownF hM start eff pre hle hlt hc => ?_⟩
    · rcases mem_cons.1 hv with rfl | hv
      · refine ⟨_, hE.appends.isPrefix.subset (mem_append_right _ mem_cons_self),
          Nat.le_refl _, ?_⟩
        rw [hread]
        exact mem_cons_self
      · obtain ⟨s, hs, hge, hread⟩ := hreads v hv
        exact ⟨s, hs, Nat.le_trans (Nat.le_succ _) hge, hread⟩
    · have hM₁ := hM.of_emits hE
      have hnone : ownF sc.nextId = none := by
        rw [hM₁.agree _ (Nat.lt_succ_self _), Owners.set_self]
      have hcopy : Computes M ownF start (sc.emit .arg (some value) none (.position position)).2 eff
          fun σ vs => (pre ++ sc.nextId :: values).mapM (M.read? σ) = some vs := by
        refine hc.copy hM.machine ((hM₁.of_emits hemit).owned hsc) hle hM₁.isPrefix hnone rfl
          (fun _ => rfl) fun σ vs hvs => ?_
        obtain ⟨w, hw, hreplace⟩ := mapM_read_replace hvs
        refine ⟨w, by simp [hread, hw], fun σ' hkeep hw' => hreplace σ' _ (fun id hid => ?_) hw'⟩
        refine hkeep id (hlt id ?_)
        simp only [mem_append, mem_cons] at hid ⊢
        exact hid.imp_right Or.inr
      have hlt' : ∀ id ∈ (pre ++ [sc.nextId]) ++ values, id < sc.nextId + 1 := by
        intro id hid
        simp only [mem_append, mem_singleton] at hid
        rcases hid with (hid | rfl) | hid
        · exact Nat.lt_succ_of_lt (hlt id (mem_append_left _ hid))
        · exact Nat.lt_succ_self _
        · exact Nat.lt_succ_of_lt (hlt id (mem_append_right _ (mem_cons_of_mem _ hid)))
      have hcs := hrun M ownF hM (pre ++ [sc.nextId]) (Nat.le_trans hle (Nat.le_succ _)) hlt'
        (by simpa using hcopy)
      simpa using hcs

theorem soundExpr_call {method : String} {args : List Expr}
    (ih : ∀ f ∈ target :: args, SoundExpr names act f) :
    SoundExpr names act (.call target method args) := by
  intro base own sc id sc' hsc h
  cases lowersExpr h with
  | node hn => cases hn
  | @call _ _ _ t values ids _ sc₁ sc₂ hargs ha =>
    obtain ⟨own₁, hE, hmem, _, hrun⟩ := soundArgs ih hsc hargs
    obtain ⟨own₂, hA, hreads, hcopy⟩ := emitArgs_sound act hE.owned ha
    have hread : reads ⟨sc₂.nextId, .call, some t, none, .call method ids, none, none,
      none⟩ = t :: ids := rfl
    have hemit : Emits names base (fun _ => False) sc₂ own₂
        (sc₂.emit .call (some t) none (.call method ids)).2 (own₂.set sc₂.nextId none) :=
      .emit hA.owned _ _ _ rfl (by simp)
    have hemits : Emits names base
        (fun x => (Expr.call target method args).assigns x = true) sc own sc₂ own₂ := by
      refine (hE.mono fun x hx => ?_).trans (hA.mono fun x hx => hx.elim)
      obtain ⟨f, hf, hx⟩ := hx
      exact Expr.assigns_of_mem_operands hf hx
    refine ⟨_, hemits.trans (hemit.mono fun x hx => hx.elim),
      ⟨_, mem_append_right _ mem_cons_self, rfl⟩, fun x hx => ?_,
      fun M ownF hM hkeep => ?_⟩
    · rw [Owners.set_self] at hx
      cases hx
    · have hM₂ := hM.of_emits hemit
      have hM₁ := hM₂.of_emits hA
      have hnone : ownF sc₂.nextId = none := by
        rw [hM.agree _ (Nat.lt_succ_self _), Owners.set_self]
      have hs := mem_of_getElem? (Scope.getElem?_of_emit hM.isPrefix)
      have hlt : ∀ id ∈ t :: values, id < sc₁.nextId := by
        intro id hid
        obtain ⟨s, hs, rfl⟩ := hmem id hid
        exact hE.owned.id_lt hs
      have hc := hrun M ownF hM₁ (fun f hf => hkeep.imp_left (·.of_mem_operands hf))
        (hkeep.imp (·.pairwise) fun hsafe id hid => by
          -- The target is read by the call, and each value by the argument that copies it.
          rcases mem_cons.1 hid with rfl | hid'
          · exact not_overwritten_of_reads hM₁ hsafe hsc hE hemits hM₂.isPrefix hs
              (by rw [hread]; exact mem_cons_self) hA.appends.nextId_le (Nat.le_refl _)
              (hmem _ hid)
          · obtain ⟨s, hs, hge, hread⟩ := hreads id hid'
            exact not_overwritten_of_reads hM₁ hsafe hsc hE hemits hM₂.isPrefix
              (hM₂.isPrefix.subset hs) hread hge (Nat.le_of_lt (hA.owned.id_lt hs)) (hmem _ hid))
      have hcs := hcopy M ownF hM₂ [t] hE.appends.nextId_le hlt hc
      let f : List Value → Effect Value
        | receiver :: args => send act.runtime receiver method args
        | [] => fault .malformed
      have heval : evalExpr act (.call target method args) =
          (do let vs ← evalArgs act (target :: args); f vs) := by
        simp [evalExpr, evalArgs, f]
      rw [heval]
      refine hcs.emit f hM.machine (hM₂.owned hA.owned)
        (Nat.le_trans hE.appends.nextId_le hA.appends.nextId_le) hM.isPrefix hnone rfl ?_
      intro σ vs hvs
      refine ⟨vs, hvs, ?_⟩
      rw [hM.activation]
      match vs, length_of_mapM_eq_some hvs with
      | _ :: _, _ => rfl

/-! ## Assignments -/

theorem soundExpr_this : SoundExpr names act .this :=
  soundExpr_of_nodeOf? rfl (by simp [Expr.operands])

theorem soundExpr_var (x : String) : SoundExpr names act (.var x) := by
  intro base own sc id sc' hsc h
  cases lowersExpr h with
  | node hn => cases hn
  | bound hx =>
    obtain ⟨hmem, hown⟩ := hsc.bound x id hx
    refine ⟨own, .refl hsc, hmem, fun y hy => ?_, fun M ownF _ _ => ?_⟩
    · obtain rfl := Option.mem_unique hown hy
      exact ⟨by simp [Expr.yields], Or.inl hx⟩
    · refine Computes.refl fun env σ hag => ?_
      have hax := hag x
      rw [hx] at hax
      obtain ⟨v, hv, hread⟩ := hax
      exact ⟨v, by simp [evalExpr, hv], hread⟩
  | field hx h =>
    have hmember : SoundExpr names act (.member .this x) := by
      refine soundExpr_of_nodeOf? rfl fun f hf => ?_
      obtain rfl := mem_singleton.1 hf
      exact soundExpr_this
    obtain ⟨own', hE, hmem, howner, hrun⟩ := hmember hsc h
    refine ⟨own', hE.mono fun y hy => ?_, hmem, fun y hy => ?_, fun M ownF hM _ => ?_⟩
    · simp [Expr.assigns, Expr.subterms, Expr.isAssignmentTo] at hy
    · have := (howner y hy).1
      simp [Expr.yields] at this
    · have hkeep : (Expr.member .this x).KeepsOperands names := by
        simp [Expr.KeepsOperands, Expr.subterms, Expr.operands]
      refine (hrun M ownF hM (Or.inl hkeep)).congr fun env σ hag => ?_
      have hax := hag x
      rw [hx] at hax
      simp [evalExpr, hax]

theorem evaluates_assignBound (ih : SoundExpr names act value) {old : StmtId}
    (hsc : sc.Owned names base own) (hx : sc.locals.find? x = some old)
    (h : lowerExpr value sc = .ok v sc₁) :
    Evaluates names act (.assign (.var x) value) base own sc v
      ((sc₁.emit .assignVar (some v) (some old) (.name x)).2.rebind x sc₁.nextId) := by
  obtain ⟨⟨s, hs, hsid⟩, hown⟩ := hsc.bound x old hx
  have hname : x ∈ names := hsc.body.named s hs x (hsid ▸ hown)
  obtain ⟨own₁, hE, ⟨r, hr, rfl⟩, howner, hrun⟩ := ih hsc h
  have hassign : Emits names base (fun y => (Expr.assign (.var x) value).assigns y = true) sc₁ own₁
      ((sc₁.emit .assignVar (some r.id) (some old) (.name x)).2.rebind x sc₁.nextId)
      (own₁.set sc₁.nextId (some x)) :=
    .assign hE.owned hname (Expr.assigns_assign x value) r.id old
  refine ⟨_, (hE.mono fun y hy => Expr.assigns_of_mem_operands (by simp [Expr.operands]) hy).trans
    hassign, ⟨r, mem_append_left _ hr, rfl⟩, fun y hy => ?_, fun M ownF hM hkeep => ?_⟩
  · rw [own₁.set_of_lt _ (hE.owned.id_lt hr)] at hy
    obtain ⟨hyields, hy⟩ := howner y hy
    refine ⟨by simpa [Expr.yields] using hyields, ?_⟩
    rw [Scope.locals_rebind, Expr.selfAssigns]
    by_cases hyx : y = x
    · subst hyx
      exact Or.inr (by simp [hyields])
    · rw [if_neg hyx]
      exact hy.imp_right fun hy => by simp [hy]
  · have hM₁ := hM.of_emits hassign
    have hownF : ownF sc₁.nextId = some x := by
      rw [hM.agree _ (Nat.lt_succ_self _), Owners.set_self]
    have hc := hrun M ownF hM₁ (hkeep.imp_left (·.of_mem_operands (by simp [Expr.operands])))
    refine (hc.assign hM.machine (hM₁.owned hE.owned) hE.appends.nextId_le hM.isPrefix
      hownF).congr fun env σ hag => ?_
    have hax := hag x
    rw [hx] at hax
    obtain ⟨w, hw, _⟩ := hax
    simp [evalExpr, hw]

theorem evaluates_assignField (ih : SoundExpr names act value) (hsc : sc.Owned names base own)
    (hx : sc.locals.find? x = none)
    (h : lowerExpr value (sc.emit .this none none .none).2 = .ok v sc₁) :
    Evaluates names act (.assign (.var x) value) base own sc v
      (sc₁.emit .assignMember (some sc.nextId) (some v) (.name x)).2 := by
  have hlower : lowerExpr .this sc = .ok sc.nextId (sc.emit .this none none .none).2 := by
    rw [lowerExpr]
    rfl
  have hthis : SoundExpr names act .this := soundExpr_this
  obtain ⟨own₀, hT, _, hownT, hrunT⟩ := hthis hsc hlower
  obtain ⟨own₁, hE, ⟨r, hr, rfl⟩, howner, hrun⟩ := ih hT.owned h
  have hemits : Emits names base (fun y => (Expr.assign (.var x) value).assigns y = true) sc own
      sc₁ own₁ := by
    refine (hT.mono fun y hy => ?_).trans (hE.mono fun y hy => ?_)
    · simp [Expr.assigns, Expr.subterms, Expr.isAssignmentTo] at hy
    · exact Expr.assigns_of_mem_operands (by simp [Expr.operands]) hy
  have hassign : Emits names base (fun y => (Expr.assign (.var x) value).assigns y = true) sc₁ own₁
      (sc₁.emit .assignMember (some sc.nextId) (some r.id) (.name x)).2
      (own₁.set sc₁.nextId none) :=
    .emit hE.owned _ _ _ rfl (by simp)
  refine ⟨_, hemits.trans hassign, ⟨r, mem_append_left _ hr, rfl⟩, fun y hy => ?_,
    fun M ownF hM hkeep => ?_⟩
  · rw [own₁.set_of_lt _ (hE.owned.id_lt hr)] at hy
    obtain ⟨hyields, hy⟩ := howner y hy
    refine ⟨by simpa [Expr.yields] using hyields, hy.imp_right fun hy => ?_⟩
    simp [Expr.selfAssigns, hy]
  · have hM₁ := hM.of_emits hassign
    have hM₀ := hM₁.of_emits hE
    -- The receiver belongs to no local, so evaluating the value keeps it.
    have hsafe : ¬ Overwritten M ownF (sc.nextId + 1) sc₁.nextId sc.nextId := by
      intro hover
      obtain ⟨_, _, y, _, _, _, _, hy⟩ := hover.exists_owner hM.machine (Nat.lt_succ_self _)
      have := (hownT y ((hM₀.agree _ (Nat.lt_succ_self _)).symm.trans hy)).1
      simp [Expr.yields] at this
    have hpair : Computes M ownF sc sc₁
        (do let t ← evalExpr act .this; let a ← evalExpr act value; return (t, a))
        fun σ p => [sc.nextId, r.id].mapM (M.read? σ) = some [p.1, p.2] := by
      refine (hrunT M ownF hM₀ (Or.inl (by simp [Expr.KeepsOperands, Expr.subterms,
        Expr.operands]))).bind Prod.mk (hrun M ownF hM₁ (hkeep.imp_left
        (·.of_mem_operands (by simp [Expr.operands])))) hT.appends.nextId_le hE.appends.nextId_le ?_
      intro σ σ' t a ht hfr ha
      simp [hfr sc.nextId (Nat.lt_succ_self _) hsafe, ht, ha]
    refine ((hpair.emit_nothing (fun p => writeMember p.1 p.2 x) hM.isPrefix ?_).map Prod.snd
      ?_).congr fun env σ hag => ?_
    · exact fun σ p hp => ⟨[p.1, p.2], hp, rfl⟩
    · intro σ p hp
      have := mapM_eq_some_iff.1 hp
      simp_all
    · have hax := hag x
      rw [hx] at hax
      simp [evalExpr, hax]

theorem evaluates_assign (hes : (Expr.assign target value).operands = es ++ [value])
    (hvar : ∀ x, target ≠ .var x) (ih : ∀ f ∈ es ++ [value], SoundExpr names act f)
    (hsc : sc.Owned names base own) (h : lowerArgs (es ++ [value]) sc = .ok (ids ++ [v]) sc₁)
    {left? right? : Option StmtId} (hmerge : op.isMerge = false) (hlabel : op ≠ .label)
    (f : List Value → Effect Unit)
    (hreads : ∀ id ∈ ids ++ [v], id ∈ reads ⟨sc₁.nextId, op, left?, right?, payload, none, none, none⟩)
    (hperform : ∀ (M : Machine Nat) σ vs, (ids ++ [v]).mapM (M.read? σ) = some vs → ∃ values, (reads ⟨sc₁.nextId, op, left?, right?, payload, none, none, none⟩).mapM (M.read? σ) = some values ∧ perform M.activation op payload values = f vs >>= fun _ => pure .nothing)
    (heval : evalExpr act (.assign target value) = (do let vs ← evalArgs act (es ++ [value]); (f vs : Eval Unit); return vs.getLastD .null)) :
    Evaluates names act (.assign target value) base own sc v
      (sc₁.emit op left? right? payload).2 := by
  obtain ⟨own₁, hE, hmem, hlast, hrun⟩ := soundArgs ih hsc h
  have hassign : Emits names base (fun y => (Expr.assign target value).assigns y = true) sc₁ own₁
      (sc₁.emit op left? right? payload).2 (own₁.set sc₁.nextId none) :=
    .emit hE.owned _ _ _ hmerge hlabel
  have hemits : Emits names base (fun y => (Expr.assign target value).assigns y = true) sc own
      sc₁ own₁ := by
    refine hE.mono fun y hy => ?_
    obtain ⟨g, hg, hy⟩ := hy
    exact Expr.assigns_of_mem_operands (hes ▸ hg) hy
  obtain ⟨r, hr, hrv⟩ := hmem v (by simp)
  refine ⟨_, hemits.trans hassign, ⟨r, mem_append_left _ hr, hrv⟩, fun y hy => ?_,
    fun M ownF hM hkeep => ?_⟩
  · rw [own₁.set_of_lt _ (hrv ▸ hE.owned.id_lt hr)] at hy
    obtain ⟨hyields, hy⟩ := hlast value v y (by simp) (by simp) hy
    refine ⟨by simpa [Expr.yields] using hyields, hy.imp_right fun hy => ?_⟩
    cases target with
    | var x => exact absurd rfl (hvar x)
    | _ => simpa [Expr.selfAssigns] using hy
  · have hM₁ := hM.of_emits hassign
    have hs := mem_of_getElem? (Scope.getElem?_of_emit hM.isPrefix)
    have hc := hrun M ownF hM₁ (fun g hg => hkeep.imp_left (·.of_mem_operands (hes ▸ hg)))
      (hkeep.imp (fun hk => hes ▸ hk.pairwise) fun hsafe id hid => not_overwritten_of_reads hM₁
        hsafe hsc hE hE hM₁.isPrefix hs (hreads id hid) (Nat.le_refl _) (Nat.le_refl _)
        (hmem id hid))
    have hmap : evalExpr act (.assign target value) = (fun vs => vs.getLastD .null) <$>
        (do let vs ← evalArgs act (es ++ [value]); (f vs : Eval Unit); return vs) := by
      simp [heval]
    rw [hmap]
    refine (hc.emit_nothing f hM.isPrefix fun σ vs hvs => hperform M σ vs hvs).map _ ?_
    intro σ vs hvs
    have hlast := congrArg getLast? (mapM_eq_some_iff.1 hvs)
    rw [getLastD_eq_getLast?]
    cases hvs' : vs.getLast? with
    | none => simp [hvs'] at hlast
    | some w => simpa [hvs'] using hlast

/-- **The code of every expression evaluates it.** -/
theorem soundExpr (e : Expr) : SoundExpr names act e := by
  induction e using Expr.operandInduction with
  | step e ih =>
    cases hn : nodeOf? e with
    | some node => exact soundExpr_of_nodeOf? hn ih
    | none =>
      cases e with
      | var x => exact soundExpr_var x
      | call target method args => exact soundExpr_call ih
      | assign target value =>
        intro base own sc id sc' hsc h
        cases lowersExpr h with
        | node hn' => cases hn'
        | assignBound hx hv =>
          exact evaluates_assignBound (ih _ (by simp [Expr.operands])) hsc hx hv
        | assignField hx hv =>
          exact evaluates_assignField (ih _ (by simp [Expr.operands])) hsc hx hv
        | @assignMember target _ name t v _ sc₁ hargs =>
          refine evaluates_assign (show _ = [target] ++ [value] from rfl) (by simp) ih hsc
            (show lowerArgs ([target] ++ [value]) sc = .ok ([t] ++ [id]) sc₁ from hargs) rfl (by simp)
            (onTwo fun t a => writeMember t a name) ?_ ?_ ?_
          · simp [reads, uses, Statement.operands, Op.isMerge]
          · intro M σ vs hvs
            obtain ⟨a, b, rfl⟩ := length_eq_two.1 (length_of_mapM_eq_some hvs)
            exact ⟨[a, b], hvs, rfl⟩
          · simp [evalExpr, evalArgs, onTwo]
        | @assignIndex target index _ t i v _ sc₁ hargs =>
          refine evaluates_assign (show _ = [target, index] ++ [value] from rfl) (by simp) ih hsc
            (show lowerArgs ([target, index] ++ [value]) sc = .ok ([t, i] ++ [id]) sc₁ from hargs) rfl
            (by simp) (onThree fun t i a => writeIndex t a i) ?_ ?_ ?_
          · simp [reads, uses, Statement.operands, Op.isMerge,
              payloadOperands]
          · intro M σ vs hvs
            obtain ⟨a, b, c, rfl⟩ := length_eq_three.1 (length_of_mapM_eq_some hvs)
            -- The statement names the index last.
            have hvs := mapM_eq_some_iff.1 hvs
            refine ⟨[a, c, b], mapM_eq_some_iff.2 ?_, rfl⟩
            simp_all [reads, uses, Statement.operands, Op.isMerge,
              payloadOperands]
          · simp [evalExpr, evalArgs, onThree]
      | _ => cases hn

end Operands

end MiniJava.Ssa
