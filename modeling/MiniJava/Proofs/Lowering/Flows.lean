import MiniJava.Proofs.Allocation.Paths
import MiniJava.Proofs.Lowering.Derivations

/-!
# What is known along the control flow

Each position of lowered code is given what is known there. The *places* of the locals are the cells of
the statements that they are bound to when the lowering comes to the position. A statement that binds a
local moves it to the cell of the statement, and every other statement leaves all locals where they are.
The cells that have been *written* on every path are those of the locals and of the values at hand.
-/

namespace MiniJava.Ssa

open Ast Build List Option

variable {x owner : String} {b : StmtId} {id : NodeId} {m : MethodDecl}

/-! ## Control flow -/

/-- The statement at a position uses the given values at most, and control goes from it to the given
positions only. -/
def Body.Leads (code : Body) (q : Nat) (used : List StmtId) (targets : List Nat) : Prop :=
  ∀ s, code[q]? = some s → s.uses ⊆ used ∧ ∀ p ∈ code.successorsOf s q, p ∈ targets

namespace Body.Leads

variable {code : Body} {sc : Scope} {q target : Nat} {s : Statement} {l : String}

theorem of_not_jump (hs : code[q]? = some s) (hjump : s.op.isJump = false) :
    code.Leads q s.uses [q + 1] := by
  intro t ht
  obtain rfl := mem_unique hs ht
  refine ⟨List.Subset.refl _, fun p hp => ?_⟩
  rcases eq_of_mem_successorsOf hp with ⟨_, rfl⟩ | ⟨hc, _⟩
  · exact mem_singleton_self _
  · rw [hjump] at hc
    cases hc

theorem of_emit {op : Op} {left? right? : Option StmtId} {payload : Payload}
    (hp : (sc.emit op left? right? payload).2.body <+: code) (hjump : op.isJump = false) :
    code.Leads sc.body.length (left?.toList ++ right?.toList ++ Statement.payloadOperands payload)
      [sc.body.length + 1] := by
  intro s hs
  obtain ⟨huses, htargets⟩ := of_not_jump (Scope.getElem?_of_emit hp) hjump s hs
  refine ⟨fun o ho => ?_, htargets⟩
  have hmem := huses ho
  rw [Statement.uses] at hmem
  split at hmem
  · cases hmem
  · exact hmem

theorem of_label (hp : (sc.emit .label none none (.label l)).2.body <+: code) :
    code.Leads sc.body.length [] [sc.body.length + 1] :=
  of_emit hp rfl

theorem of_branch {cond : StmtId}
    (hp : (sc.emit .branchUnless (some cond) none (.label l)).2.body <+: code)
    (ht : code.labelPosition? l = some target) :
    code.Leads sc.body.length [cond] [sc.body.length + 1, target] := by
  intro s hs
  obtain rfl : _ = s := some.inj ((Scope.getElem?_of_emit hp).symm.trans hs)
  refine ⟨List.Subset.refl _, fun p hmem => ?_⟩
  rcases eq_of_mem_successorsOf hmem with ⟨_, rfl⟩ | ⟨_, l', hl', hp⟩
  · exact mem_cons_self
  · obtain rfl : l = l' := some.inj hl'
    exact mem_cons_of_mem _ (mem_singleton.2 (mem_unique hp ht))

theorem of_jump (hp : (sc.emit .jump none none (.label l)).2.body <+: code)
    (ht : code.labelPosition? l = some target) : code.Leads sc.body.length [] [target] := by
  intro s hs
  obtain rfl : _ = s := some.inj ((Scope.getElem?_of_emit hp).symm.trans hs)
  refine ⟨List.Subset.refl _, fun p hmem => ?_⟩
  rcases eq_of_mem_successorsOf hmem with ⟨hf, _⟩ | ⟨_, l', hl', hp⟩
  · cases hf
  · obtain rfl : l = l' := some.inj hl'
    exact mem_singleton.2 (mem_unique hp ht)

end Body.Leads

/-! ## Knowledge -/

/-- What is known at a position: the cell that each local is in, and cells that have been written on
every path. -/
structure Known where
  places : String → Option Nat
  written : Set Nat

namespace Known

variable {code : Body} {log log' : List Event} {q : Nat} {places : String → Option Nat}
  {ids ids' : List StmtId}

instance : Preorder Known where
  le k k' := k.places = k'.places ∧ k.written ⊆ k'.written
  le_refl k := ⟨rfl, Set.Subset.refl _⟩
  le_trans _ _ _ h h' := ⟨h.1.trans h'.1, h.2.trans h'.2⟩

def after (code : Body) (log : List Event) (q : Nat) (k : Known) : Known where
  places x := if .bind x q ∈ log then code.cellAt? q else k.places x
  written := k.written ∪ {c | code.Writes q c}

theorem le_after (k : Known) : k ≤ k.after code [] q :=
  ⟨by simp [after], Set.subset_union_left⟩

theorem after_congr (h : ∀ x, .bind x q ∈ log' ↔ .bind x q ∈ log) (k : Known) :
    k.after code log' q = k.after code log q := by
  simp only [after, h]

def Holds (code : Body) (k : Known) (ids : List StmtId) : Prop :=
  ∀ id ∈ ids, ∀ c, code.cell? id = some c → c ∈ k.written

/-- The cells of the locals and of the values at hand have been written. -/
def of (code : Body) (places : String → Option Nat) (ids : List StmtId) : Known where
  places := places
  written := {c | (∃ x, places x = some c) ∨ ∃ id ∈ ids, code.cell? id = some c}

theorem holds_of (h : ids' ⊆ ids) : (of code places ids).Holds code ids' :=
  fun id hid _ hc => Or.inr ⟨id, h hid, hc⟩

theorem of_mono (h : ids ⊆ ids') : of code places ids ≤ of code places ids' :=
  ⟨rfl, fun _ hc => hc.imp_right fun ⟨id, hid, hc⟩ => ⟨id, h hid, hc⟩⟩

theorem of_bound (hx : places x = code.cell? b) :
    of code places (b :: ids) ≤ of code places ids := by
  refine ⟨rfl, ?_⟩
  rintro c (hc | ⟨id, hid, hc⟩)
  · exact Or.inl hc
  · rcases mem_cons.1 hid with rfl | hid
    · exact Or.inl ⟨x, hx.trans hc⟩
    · exact Or.inr ⟨id, hid, hc⟩

end Known

/-- Knowledge for the positions from `i` to `j` that fits the code there: what happens is inside the
piece of code, locals are read from their places, what is used has been written, and control goes to
positions from `lo` to `hi`, where no more is known than after the statement. -/
structure Annotates (code : Body) (log : List Event) (known : Nat → Known) (lo hi i j : Nat) :
    Prop where
  le : i ≤ j
  binds : ∀ {x q}, .bind x q ∈ log →
    i ≤ q ∧ q < j ∧ ∃ s, code[q]? = some s ∧ (s.op = .assignVar ∨ s.op = .null)
  reads : ∀ {x b p}, .read x b p ∈ log → i ≤ p ∧ p ≤ j ∧ (known p).places x = code.cell? b
  uses : ∀ {q s}, i ≤ q → q < j → code[q]? = some s → (known q).Holds code s.uses
  edges : ∀ {q s p}, i ≤ q → q < j → code[q]? = some s → p ∈ code.successorsOf s q →
    lo ≤ p ∧ p ≤ hi ∧ known p ≤ (known q).after code log q

namespace Annotates

variable {code : Body} {log log' : List Event} {known known' : Nat → Known} {lo hi i j k : Nat}
  {used : List StmtId} {targets : List Nat}

theorem nil (hbinds : ∀ x q, .bind x q ∉ log)
    (hreads : ∀ x b p, .read x b p ∈ log → p = i ∧ (known i).places x = code.cell? b) :
    Annotates code log known lo hi i i where
  le := Nat.le_refl i
  binds h := absurd h (hbinds _ _)
  reads h := by
    obtain ⟨rfl, hx⟩ := hreads _ _ _ h
    exact ⟨Nat.le_refl _, Nat.le_refl _, hx⟩
  uses hq hq' := absurd hq (Nat.not_le.2 hq')
  edges hq hq' := absurd hq (Nat.not_le.2 hq')

theorem step (h : code.Leads i used targets) (hused : (known i).Holds code used)
    (hbinds : ∀ x q, .bind x q ∈ log →
      q = i ∧ ∃ s, code[i]? = some s ∧ (s.op = .assignVar ∨ s.op = .null))
    (hreads : ∀ x b p, .read x b p ∉ log)
    (ht : ∀ p ∈ targets, lo ≤ p ∧ p ≤ hi ∧ known p ≤ (known i).after code log i) :
    Annotates code log known lo hi i (i + 1) where
  le := Nat.le_succ i
  binds h := by
    obtain ⟨rfl, hs⟩ := hbinds _ _ h
    exact ⟨Nat.le_refl _, Nat.lt_succ_self _, hs⟩
  reads h := absurd h (hreads _ _ _)
  uses hq hq' hs := by
    obtain rfl := Nat.le_antisymm (Nat.lt_succ_iff.1 hq') hq
    exact fun o ho => hused o ((h _ hs).1 ho)
  edges hq hq' hs hp := by
    obtain rfl := Nat.le_antisymm (Nat.lt_succ_iff.1 hq') hq
    exact ht _ ((h _ hs).2 _ hp)

theorem pass (h : code.Leads i used targets) (hused : (known i).Holds code used)
    (ht : ∀ p ∈ targets, lo ≤ p ∧ p ≤ hi ∧ known p ≤ known i) :
    Annotates code [] known lo hi i (i + 1) := by
  refine .step h hused (fun _ _ h => by cases h) (fun _ _ _ h => by cases h) fun p hp => ?_
  obtain ⟨hlo, hhi, hle⟩ := ht p hp
  exact ⟨hlo, hhi, hle.trans (known i).le_after⟩

theorem goto {t : Nat} (h : code.Leads i [] [t]) (hlo : lo ≤ t) (hhi : t ≤ hi)
    (hle : known t ≤ known i) : Annotates code [] known lo hi i (i + 1) :=
  .pass h (forall_mem_nil _) (forall_mem_singleton.2 ⟨hlo, hhi, hle⟩)

theorem append (h : Annotates code log known lo hi i j) (h' : Annotates code log' known lo hi j k) :
    Annotates code (log ++ log') known lo hi i k where
  le := Nat.le_trans h.le h'.le
  binds hb := by
    rcases mem_append.1 hb with hb | hb
    · obtain ⟨hi, hj, hs⟩ := h.binds hb
      exact ⟨hi, Nat.lt_of_lt_of_le hj h'.le, hs⟩
    · obtain ⟨hj, hk, hs⟩ := h'.binds hb
      exact ⟨Nat.le_trans h.le hj, hk, hs⟩
  reads hr := by
    rcases mem_append.1 hr with hr | hr
    · obtain ⟨hi, hj, hp⟩ := h.reads hr
      exact ⟨hi, Nat.le_trans hj h'.le, hp⟩
    · obtain ⟨hj, hk, hp⟩ := h'.reads hr
      exact ⟨Nat.le_trans h.le hj, hk, hp⟩
  uses {q s} hi hk hs := by
    rcases Nat.lt_or_ge q j with hj | hj
    · exact h.uses hi hj hs
    · exact h'.uses hj hk hs
  edges {q s p} hi hk hs hp := by
    -- What happens at a position of one piece is not in the events of the other.
    rcases Nat.lt_or_ge q j with hj | hj
    · have hnot : ∀ x, .bind x q ∉ log' := fun x hb => absurd (h'.binds hb).1 (Nat.not_le.2 hj)
      rw [Known.after_congr fun x => mem_append.trans (or_iff_left (hnot x))]
      exact h.edges hi hj hs hp
    · have hnot : ∀ x, .bind x q ∉ log := fun x hb => absurd (h.binds hb).2.1 (Nat.not_lt.2 hj)
      rw [Known.after_congr fun x => mem_append.trans (or_iff_right (hnot x))]
      exact h'.edges hj hk hs hp

theorem congr (h : Annotates code log known i j i j)
    (heq : ∀ p, i ≤ p → p < j → known' p = known p) (hend : known' j ≤ known j) (hlo : lo ≤ i)
    (hhi : j ≤ hi) : Annotates code log known' lo hi i j := by
  have hle : ∀ p, i ≤ p → p ≤ j → known' p ≤ known p := by
    intro p hi hj
    rcases Nat.lt_or_eq_of_le hj with hj | rfl
    · exact (heq p hi hj).le
    · exact hend
  refine ⟨h.le, h.binds, fun hr => ?_, fun hi hj hs => ?_, fun hi hj hs hp => ?_⟩
  · obtain ⟨hi, hj, hp⟩ := h.reads hr
    exact ⟨hi, hj, (congrFun (hle _ hi hj).1 _).trans hp⟩
  · rw [heq _ hi hj]
    exact h.uses hi hj hs
  · obtain ⟨hlo', hhi', hafter⟩ := h.edges hi hj hs hp
    rw [heq _ hi hj]
    exact ⟨Nat.le_trans hlo hlo', Nat.le_trans hhi' hhi, (hle _ hlo' hhi').trans hafter⟩

/-- **What is live has been written.** -/
theorem mem_written (h : Annotates code log known lo hi 0 code.length) {c : Nat}
    (hlive : code.LiveAt c i) : c ∈ (known i).written := by
  induction hlive with
  | read hs ho hc => exact h.uses (Nat.zero_le _) (lt_of_getElem? hs) hs _ ho _ hc
  | pass hs hw hj _ ih =>
    obtain ⟨_, _, _, hle⟩ := h.edges (Nat.zero_le _) (lt_of_getElem? hs) hs hj
    exact (hle ih).resolve_right hw

end Annotates

/-! ## Pieces of code -/

/-- A piece of code that control leaves only at its end leads from what is known before it to what is
known after it. -/
def Flows (code : Body) (log : List Event) (i : Nat) (before : Known) (j : Nat) (after : Known) :
    Prop :=
  ∃ known, known i ≤ before ∧ known j = after ∧ Annotates code log known i j i j

namespace Flows

variable {code : Body} {log log' : List Event} {before before' mid after : Known} {i j k : Nat}
  {cond : StmtId}

theorem refl (h : after ≤ before) : Flows code [] i before i after :=
  ⟨fun _ => after, h, rfl, .nil (fun _ _ h => by cases h) fun _ _ _ h => by cases h⟩

theorem of_le (h : Flows code log i before j after) (hle : before ≤ before') :
    Flows code log i before' j after := by
  obtain ⟨known, hi, hj, ha⟩ := h
  exact ⟨known, hi.trans hle, hj, ha⟩

theorem read (hx : before.places x = code.cell? b) (h : after ≤ before) :
    Flows code [.read x b i] i before i after := by
  refine ⟨fun _ => after, h, rfl, .nil (fun _ _ h => ?_) fun _ _ _ hr => ?_⟩
  · cases mem_singleton.1 h
  · cases mem_singleton.1 hr
    exact ⟨rfl, (congrFun h.1 x).trans hx⟩

theorem trans (h : Flows code log i before j mid) (h' : Flows code log' j mid k after) :
    Flows code (log ++ log') i before k after := by
  obtain ⟨known, hi, rfl, ha⟩ := h
  obtain ⟨known', hj, rfl, ha'⟩ := h'
  let both : Nat → Known := fun p => if p < j then known p else known' p
  have hfirst : ∀ p, i ≤ p → p < j → both p = known p := fun p _ hp => if_pos hp
  have hsecond : ∀ p, j ≤ p → both p = known' p := fun p hp => if_neg (Nat.not_lt.2 hp)
  have hstart : both i ≤ known i := by
    rcases Nat.lt_or_eq_of_le ha.le with hlt | rfl
    · exact (hfirst i (Nat.le_refl i) hlt).le
    · exact (hsecond i (Nat.le_refl i)).trans_le hj
  exact ⟨both, hstart.trans hi, hsecond k ha'.le,
    (ha.congr hfirst ((hsecond j (Nat.le_refl j)).trans_le hj) (Nat.le_refl i) ha'.le).append
      (ha'.congr (fun p hp _ => hsecond p hp) (hsecond k ha'.le).le ha.le (Nat.le_refl k))⟩

theorem step {used : List StmtId} (h : code.Leads i used [i + 1]) (hused : before.Holds code used)
    (hbinds : ∀ x q, .bind x q ∈ log →
      q = i ∧ ∃ s, code[i]? = some s ∧ (s.op = .assignVar ∨ s.op = .null))
    (hreads : ∀ x b p, .read x b p ∉ log) (hle : after ≤ before.after code log i) :
    Flows code log i before (i + 1) after := by
  have hi : (if i ≤ i then before else after) = before := if_pos (Nat.le_refl i)
  have hnext : (if i + 1 ≤ i then before else after) = after := if_neg (Nat.not_succ_le_self i)
  refine ⟨fun p => if p ≤ i then before else after, hi.le, hnext, .step h ?_ hbinds hreads
    (forall_mem_singleton.2 ⟨Nat.le_succ i, Nat.le_refl _, ?_⟩)⟩
  · rwa [hi]
  · rwa [hi, hnext]

theorem pass (h : code.Leads i [] [i + 1]) : Flows code [] i before (i + 1) before :=
  .step h (forall_mem_nil _) (fun _ _ h => by cases h) (fun _ _ _ h => by cases h) before.le_after

theorem falls {pre ties : Body} (hp : pre ++ ties <+: code)
    (h : ∀ s ∈ ties, s.op.isJump = false ∧ s.uses = []) (hle : after ≤ before) :
    Flows code [] pre.length before (pre ++ ties).length after := by
  induction ties generalizing pre with
  | nil =>
    rw [append_nil]
    exact .refl hle
  | cons s ties ih =>
    obtain ⟨hjump, huses⟩ := h s mem_cons_self
    have hs : code[pre.length]? = some s := by
      obtain ⟨rest, rfl⟩ := hp
      simp
    have hfirst : Flows code [] pre.length before (pre.length + 1) before :=
      .pass (huses ▸ .of_not_jump hs hjump)
    have hrest : Flows code [] (pre ++ [s]).length before (pre ++ [s] ++ ties).length after :=
      ih (by simpa using hp) fun t ht => h t (mem_cons_of_mem _ ht)
    rw [length_append, append_assoc] at hrest
    exact hfirst.trans hrest

/-- Two pieces of code, the second one position behind the first, with one knowledge for both. -/
theorem exists_known (outside : Known) (h : Flows code log i before j mid)
    (h' : Flows code log' (j + 1) before' k after) :
    ∃ known, (known i ≤ before ∧ known j = mid) ∧ (known (j + 1) ≤ before' ∧ known k = after) ∧
      (∀ p, p < i ∨ k < p → known p = outside) ∧ ∀ lo hi, lo ≤ i → k ≤ hi →
        Annotates code log known lo hi i j ∧ Annotates code log' known lo hi (j + 1) k := by
  obtain ⟨known, hstart, hend, ha⟩ := h
  obtain ⟨known', hstart', hend', ha'⟩ := h'
  have hij := ha.le
  have hjk := ha'.le
  let both : Nat → Known := fun p =>
    if p < i ∨ k < p then outside else if p ≤ j then known p else known' p
  have hfirst : ∀ p, i ≤ p → p ≤ j → both p = known p := fun p hp hp' => by
    simp only [both]
    rw [if_neg (by omega), if_pos hp']
  have hsecond : ∀ p, j + 1 ≤ p → p ≤ k → both p = known' p := fun p hp hp' => by
    simp only [both]
    rw [if_neg (by omega), if_neg (by omega)]
  refine ⟨both, ⟨(hfirst i (Nat.le_refl i) hij).trans_le hstart, ?_⟩,
    ⟨(hsecond _ (Nat.le_refl _) hjk).trans_le hstart', ?_⟩, fun p hp => if_pos hp, fun lo hi hlo hhi =>
    ⟨ha.congr (fun p hp hp' => hfirst p hp hp'.le) (hfirst j hij (Nat.le_refl j)).le hlo (by omega),
      ha'.congr (fun p hp hp' => hsecond p hp hp'.le) (hsecond k hjk (Nat.le_refl k)).le (by omega)
        hhi⟩⟩
  · exact (hfirst j hij (Nat.le_refl j)).trans hend
  · exact (hsecond k hjk (Nat.le_refl k)).trans hend'

/-- **The code of an `if`** between its jump at `i` and the label of the join at `k`. The first branch
ends with a jump at `j`, and the second follows. -/
theorem branch (hif : code.Leads i [cond] [i + 1, j + 1]) (hcond : before'.Holds code [cond])
    (hle : before ≤ before') (hthen : Flows code log (i + 1) before j after)
    (hjump : code.Leads j [] [k]) (helse : Flows code log' (j + 1) before k after) :
    Flows code (log ++ log') i before' k after := by
  obtain ⟨known, ⟨hstart, hj⟩, ⟨hstart', hk⟩, hi, h⟩ := hthen.exists_known before' helse
  obtain ⟨hT, hE⟩ := h i k (Nat.le_succ i) (Nat.le_refl k)
  have hij := hT.le
  have hjk := hE.le
  have hi := hi i (Or.inl (Nat.lt_succ_self i))
  have hfirst : Annotates code [] known i k i (i + 1) := by
    refine .pass hif (hi ▸ hcond) (forall_mem_cons.2 ⟨⟨Nat.le_succ i, by omega, ?_⟩,
      forall_mem_singleton.2 ⟨by omega, hjk, ?_⟩⟩) <;> rw [hi]
    · exact hstart.trans hle
    · exact hstart'.trans hle
  have hleave : Annotates code [] known i k j (j + 1) :=
    .goto hjump (by omega) (Nat.le_refl k) (hk.trans hj.symm).le
  exact ⟨known, hi.le, hk, by simpa using (hfirst.append hT).append (hleave.append hE)⟩

/-- **The code of a loop** between its start at `i` and the label behind it at `k + 1`. The condition
ends with a jump at `j`, and the body with one at `k`. -/
theorem loop (hcond : Flows code log i before j mid) (hif : code.Leads j [cond] [j + 1, k + 1])
    (hused : mid.Holds code [cond]) (hmid : before ≤ mid)
    (hbody : Flows code log' (j + 1) before k before) (hjump : code.Leads k [] [i]) :
    Flows code (log ++ log') i before (k + 1) before := by
  obtain ⟨known, ⟨hi, hj⟩, ⟨hnext, hk⟩, hend, h⟩ := hcond.exists_known before hbody
  obtain ⟨hC, hB⟩ := h i (k + 1) (Nat.le_refl i) (Nat.le_succ k)
  have hij := hC.le
  have hjk := hB.le
  have hend := hend (k + 1) (Or.inr (Nat.lt_succ_self k))
  have henter : Annotates code [] known i (k + 1) j (j + 1) := by
    refine .pass hif (hj ▸ hused) (forall_mem_cons.2 ⟨⟨by omega, by omega, ?_⟩,
      forall_mem_singleton.2 ⟨by omega, Nat.le_refl _, ?_⟩⟩) <;> rw [hj]
    · exact hnext.trans hmid
    · exact hend.trans_le hmid
  have hback : Annotates code [] known i (k + 1) k (k + 1) :=
    .goto hjump (Nat.le_refl i) (by omega) (hi.trans hk.ge)
  exact ⟨known, hi, hend, by simpa using (hC.append (henter.append hB)).append hback⟩

end Flows

/-! ## Emitted statements -/

section Emit

variable {code : Body} {log : List Event} {sc : Scope} {op : Op} {left? right? : Option StmtId}
  {payload : Payload} {places places' : String → Option Nat} {ctx out : List StmtId}

theorem Flows.emit_log (hd : code.DistinctIds)
    (hp : (sc.emit op left? right? payload).2.body <+: code) (hjump : op.isJump = false)
    (hops : ∀ o ∈ left?.toList ++ right?.toList ++ Statement.payloadOperands payload, o ∈ ctx)
    (hbinds : ∀ x q, .bind x q ∈ log → q = sc.body.length ∧ (op = .assignVar ∨ op = .null))
    (hreads : ∀ x b p, .read x b p ∉ log)
    (hplaces : ∀ y, places' y =
      if .bind y sc.body.length ∈ log then code.cell? sc.nextId else places y)
    (hout : ∀ o ∈ out, o ∈ ctx ∨ o = sc.nextId ∧ op.definesValue = true) :
    Flows code log sc.body.length (.of code places ctx)
      (sc.emit op left? right? payload).2.body.length (.of code places' out) := by
  have hs := Scope.getElem?_of_emit hp
  have hcell := hd.cell?_eq_cellAt? hs
  rw [Scope.body_emit, length_append]
  refine .step (.of_emit hp hjump) (Known.holds_of hops) (fun x q hb => ?_) hreads
    ⟨funext fun y => (hplaces y).trans (by rw [hcell]; rfl), ?_⟩
  · obtain ⟨hq, hop⟩ := hbinds x q hb
    exact ⟨hq, _, hs, hop⟩
  have hwrites : ∀ c, op.definesValue = true → code.cell? sc.nextId = some c →
      code.Writes sc.body.length c := fun c hdef hc => ⟨_, hs, hdef, hcell ▸ hc⟩
  rintro c (⟨y, hy⟩ | ⟨id, hid, hc⟩)
  · rw [hplaces] at hy
    split at hy
    · next hb =>
      refine Or.inr (hwrites c ?_ hy)
      rcases (hbinds _ _ hb).2 with rfl | rfl <;> rfl
    · exact Or.inl (Or.inl ⟨y, hy⟩)
  · rcases hout id hid with hid | ⟨rfl, hdef⟩
    · exact Or.inl (Or.inr ⟨id, hid, hc⟩)
    · exact Or.inr (hwrites c hdef hc)

theorem Flows.emit (hd : code.DistinctIds) (hp : (sc.emit op left? right? payload).2.body <+: code)
    (hjump : op.isJump = false)
    (hops : ∀ o ∈ left?.toList ++ right?.toList ++ Statement.payloadOperands payload, o ∈ ctx)
    (hout : ∀ o ∈ out, o ∈ ctx ∨ o = sc.nextId ∧ op.definesValue = true) :
    Flows code [] sc.body.length (.of code places ctx)
      (sc.emit op left? right? payload).2.body.length (.of code places out) :=
  .emit_log hd hp hjump hops (fun _ _ h => by cases h) (fun _ _ _ h => by cases h)
    (fun _ => (if_neg not_mem_nil).symm) hout

theorem Flows.bind (hd : code.DistinctIds) (hop : op = .assignVar ∨ op = .null)
    (hp : (sc.emit op left? right? payload).2.body <+: code)
    (hops : ∀ o ∈ left?.toList ++ right?.toList ++ Statement.payloadOperands payload, o ∈ ctx)
    (hx : ∀ y, places' y = if y = x then code.cell? sc.nextId else places y) (hout : out ⊆ ctx) :
    Flows code [.bind x sc.body.length] sc.body.length (.of code places ctx)
      (sc.emit op left? right? payload).2.body.length (.of code places' out) := by
  refine .emit_log hd hp ?_ hops (fun y q hb => ?_) (fun _ _ _ h => ?_) (fun y => ?_)
    fun o ho => Or.inl (hout ho)
  · rcases hop with rfl | rfl <;> rfl
  · cases mem_singleton.1 hb
    exact ⟨rfl, hop⟩
  · cases mem_singleton.1 h
  · simp only [hx, mem_singleton, Event.bind.injEq, and_true]

theorem emitArgs_flows (hd : code.DistinctIds) {values : List StmtId} : ∀ {position : Nat}
    {passed : List StmtId} {sc sc' : Scope} {ctx : List StmtId}, values ⊆ ctx →
    emitArgs position values sc = .ok passed sc' → sc'.body <+: code →
    sc'.locals = sc.locals ∧ Flows code [] sc.body.length (.of code places ctx) sc'.body.length
      (.of code places (passed ++ ctx)) := by
  induction values with
  | nil =>
    intro position passed sc sc' ctx _ h _
    obtain ⟨rfl, rfl⟩ := emitArgs_nil_cases h
    exact ⟨rfl, .refl (le_refl _)⟩
  | cons value values ih =>
    intro position passed sc sc' ctx hv h hp
    obtain ⟨rest, rfl, hrest⟩ := emitArgs_cons_cases h
    obtain ⟨hvalue, hvalues⟩ := cons_subset.1 hv
    obtain ⟨hl, hmore⟩ := ih (subset_cons_of_subset sc.nextId hvalues) hrest hp
    refine ⟨hl, ?_⟩
    have hfirst : Flows code [] sc.body.length (.of code places ctx)
        (sc.emit .arg (some value) none (.position position)).2.body.length
        (.of code places (sc.nextId :: ctx)) :=
      .emit hd ((emitArgs_evolves hrest).appends.isPrefix.trans hp) rfl
        (by simpa [Statement.payloadOperands] using hvalue) fun o ho => by
          simpa [Op.definesValue, or_comm] using ho
    refine (hfirst.trans hmore).trans (.refl (Known.of_mono fun o ho => ?_))
    simp only [cons_append, mem_cons, mem_append] at ho ⊢
    tauto

end Emit

/-! ## Scopes -/

def Scope.places (code : Body) (sc : Scope) : String → Option Nat :=
  fun x => (sc.locals.find? x).bind code.cell?

theorem SameCells.places_eq {code : Body} {sc sc' : Scope}
    (h : SameCells code.cell? sc.locals.find? sc'.locals.find?) : sc.places code = sc'.places code := by
  funext x
  have hx := congrArg (·.bind id) (h x)
  simpa only [Scope.places, bind_map, Function.id_comp] using hx

theorem Scope.places_congr {code : Body} {sc sc' : Scope}
    (h : ∀ x, sc.locals.find? x = sc'.locals.find? x) : sc.places code = sc'.places code :=
  funext fun x => congrArg (·.bind code.cell?) (h x)

abbrev Scope.known (code : Body) (sc : Scope) (ids : List StmtId) : Known :=
  .of code (sc.places code) ids

section Lowering

variable {code : Body}

theorem flows_label_ties {sc : Scope} {l : String} {body ties : Body} {known : Known}
    (hb : body = (sc.emit .label none none (.label l)).2.body ++ ties)
    (hu : ∀ s ∈ ties, s.op = .unify) (hp : body <+: code) :
    Flows code [] sc.body.length known body.length known := by
  let label : Statement := { id := sc.nextId, op := .label, payload := .label l }
  obtain rfl : body = sc.body ++ label :: ties := hb.trans (append_assoc ..)
  refine .falls hp (forall_mem_cons.2 ⟨⟨rfl, rfl⟩, fun s hs => ?_⟩) (le_refl _)
  simp [Statement.uses, hu s hs, Op.isMerge, Op.isJump]

theorem branch_leads (hlabels : code.labelNames.Nodup) {cond : StmtId} {sc₁ sc₂ sc₃ : Scope}
    (hpThen : (sc₁.thenStart id cond).body <+: code) (hpElse : (sc₂.thenEnd id).body <+: code)
    (hpDone : (sc₃.elseEnd id).body <+: code) :
    code.Leads sc₁.body.length [cond] [sc₁.body.length + 1, sc₂.body.length + 1] ∧
      code.Leads sc₂.body.length [] [sc₃.body.length] ∧
      code.Leads (sc₂.body.length + 1) [] [sc₂.body.length + 2] := by
  have hpJump : (sc₂.emit .jump none none (.label (doneLabel id))).2.body <+: code :=
    (prefix_append ..).trans hpElse
  have helse : code.labelPosition? (elseLabel id) = some (sc₂.body.length + 1) := by
    simpa using Scope.labelPosition?_of_emit hlabels hpElse
  have hdone := Scope.labelPosition?_of_emit hlabels hpDone
  exact ⟨.of_branch hpThen helse, .of_jump hpJump hdone, by simpa using Body.Leads.of_label hpElse⟩

theorem loop_leads (hlabels : code.labelNames.Nodup) {cond : StmtId} {sc sc₁ sc₂ : Scope}
    (hpStart : (sc.loopStart id).body <+: code) (hpBody : (sc₁.bodyStart id cond).body <+: code)
    (hpEnd : (sc₂.bodyEnd id).body <+: code) :
    code.Leads sc.body.length [] [sc.body.length + 1] ∧
      code.Leads sc₁.body.length [cond] [sc₁.body.length + 1, sc₂.body.length + 1] ∧
      code.Leads sc₂.body.length [] [sc.body.length] := by
  have hpJump : (sc₂.emit .jump none none (.label (startLabel id))).2.body <+: code :=
    (prefix_append ..).trans hpEnd
  have hstart := Scope.labelPosition?_of_emit hlabels hpStart
  have hend : code.labelPosition? (endLabel id) = some (sc₂.body.length + 1) := by
    simpa using Scope.labelPosition?_of_emit hlabels hpEnd
  exact ⟨.of_label hpStart, .of_branch hpBody hend, .of_jump hpJump hstart⟩

/-- **Lowered code flows from scope to scope**, with the values at hand. -/
theorem Lowers.tracks (hd : code.DistinctIds) (htied : code.Tied) (hlabels : code.labelNames.Nodup)
    {labels : List String} {ctx out : List StmtId} {log : List Event} {roles : List Role}
    {sc sc' : Scope} (h : Lowers labels ctx sc log roles out sc') (hp : sc'.body <+: code) :
    Flows code log sc.body.length (sc.known code ctx) sc'.body.length (sc'.known code out) := by
  induction h with
  | skip sc hout => exact .refl (Known.of_mono hout)
  | @read ctx x b sc hx =>
    have hplace : sc.places code x = code.cell? b := by rw [Scope.places, hx, bind_some]
    exact .read hplace (Known.of_bound hplace)
  | emit sc hr hreads hout => exact .emit hd hp (Role.isPlain_iff.1 hr).2.2.2.1 hreads hout
  | @call ctx values ids t sc sc₁ method ha ht hvalues =>
    obtain ⟨hl, hargs⟩ := emitArgs_flows hd hvalues ha ((prefix_append ..).trans hp)
    have hplaces : sc.places code = sc₁.places code := Scope.places_congr fun x => by rw [hl]
    rw [Scope.known, hplaces]
    refine hargs.trans (.emit hd hp rfl (fun o ho => ?_) fun o ho => ?_)
    · rcases (by simpa [Statement.payloadOperands] using ho : o = t ∨ o ∈ ids) with rfl | ho
      · exact mem_append_right _ ht
      · exact mem_append_left _ ho
    · rcases mem_cons.1 ho with rfl | ho
      · exact Or.inr ⟨rfl, rfl⟩
      · exact Or.inl (mem_append_right _ ho)
  | @assign ctx out log roles x old v sc sc₁ hx _ hv hold ih =>
    -- The previous value of the local is read too; the local may be bound to another by then.
    have hvalue := (ih ((prefix_append ..).trans hp)).of_le
      (Known.of_bound (by rw [Scope.places, hx, bind_some]))
    refine hvalue.trans (.bind hd (Or.inl rfl) hp (fun o ho => ?_) (fun y => ?_)
      (List.Subset.refl _))
    · rcases (by simpa [Statement.payloadOperands] using ho : o = v ∨ o = old) with rfl | rfl
      · exact hv
      · exact hold
    · rw [Scope.places, Scope.places, Scope.locals_rebind]
      split
      · rw [bind_some]
      · rfl
  | trans _ h' ih ih' => exact (ih (h'.isPrefix.trans hp)).trans (ih' hp)
  | @branch ctx log log' roles roles' id cond sc sc₂ sc₃ sc' hcond _ ht he hj iht ihe =>
    obtain ⟨hpThen, hp₂, hpElse, hp₃, hpDone⟩ := hj.parts ht.isPrefix he.isPrefix hp
    obtain ⟨hsame, hsame'⟩ := hj.joins.sameCells htied hp
    obtain ⟨ties, hties, hunify⟩ := hj.joins.exists_code
    obtain ⟨hif, hjump, hlabel⟩ := branch_leads hlabels hpThen hpElse hpDone
    -- Both branches start with the places from before and end with those behind the join.
    have hfirst : Flows code log (sc.body.length + 1) (sc.known code []) sc₂.body.length
        (sc'.known code []) := by
      rw [Scope.known, Scope.known, ← hsame.places_eq, ← Scope.length_thenStart sc id cond]
      exact iht hp₂
    have hsecond : Flows code log' (sc₂.body.length + 2) (sc.known code []) sc₃.body.length
        (sc'.known code []) := by
      rw [Scope.known, Scope.known, ← hsame'.places_eq, ← Scope.length_elseStart sc₂ id,
        ← Scope.places_congr hj.thenBack]
      exact ihe hp₃
    have hall := (Flows.branch hif (Known.holds_of (cons_subset.2 ⟨hcond, nil_subset _⟩))
      (Known.of_mono (nil_subset _)) hfirst hjump (.trans (.pass hlabel) hsecond)).trans
      (flows_label_ties hties hunify hp)
    rwa [append_nil] at hall
  | @loop ctx log log' roles roles' id cond sc sc₁ sc₂ sc' _ hc hb hj ihc ihb =>
    obtain ⟨hpStart, hp₁, hpBody, hp₂, hpEnd⟩ := hj.parts hc.isPrefix hb.isPrefix hp
    obtain ⟨hsame, hsame₁, hsame₂⟩ := hj.sameCells htied hp
    obtain ⟨ties, hties, hunify⟩ := hj.exists_code
    obtain ⟨hlabel, hif, hjump⟩ := loop_leads hlabels hpStart hpBody hpEnd
    -- The locals have the same places before the loop, after its condition and after its body.
    have hplaces := hsame.places_eq
    have hplaces₁ := hsame₁.places_eq.trans hplaces
    have hplaces₂ := hsame₂.places_eq.trans hplaces
    have hcond : Flows code log (sc.body.length + 1) (sc.known code []) sc₁.body.length
        (sc.known code [cond]) := by
      have hcond := ihc hp₁
      rwa [Scope.length_loopStart, Scope.known, Scope.known, hplaces₁] at hcond
    have hround : Flows code log' (sc₁.body.length + 1) (sc.known code []) sc₂.body.length
        (sc.known code []) := by
      have hround := ihb hp₂
      rwa [Scope.length_bodyStart, Scope.known, Scope.known, hplaces₂,
        show (sc₁.bodyStart id cond).places code = sc.places code from hplaces₁] at hround
    have hties : Flows code [] (sc₂.body.length + 1) (sc.known code []) sc'.body.length
        (sc.known code []) := by
      simpa using flows_label_ties hties hunify hp
    have hall := (Flows.loop (.trans (.pass hlabel) hcond) hif (Known.holds_of (List.Subset.refl _))
      (Known.of_mono (nil_subset _)) hround hjump).trans hties
    rw [Scope.known, Scope.known, hplaces]
    simpa using hall.of_le (Known.of_mono (nil_subset ctx))

end Lowering

/-! ## Methods -/

abbrev Known.none (code : Body) : Known := .of code (fun _ => .none) []

/-- **Nothing is live** where nothing is known. -/
theorem Flows.not_liveAt {code : Body} {log : List Event} {after : Known}
    (h : Flows code log 0 (.none code) code.length after) (c : Nat) : ¬ code.LiveAt c 0 := by
  intro hlive
  obtain ⟨known, hstart, _, ha⟩ := h
  rcases hstart.2 (ha.mem_written hlive) with ⟨x, hx⟩ | ⟨id, hid, _⟩
  · cases hx
  · cases hid

theorem boundFrom_eq (q : Nat) (names : List String) :
    boundFrom q names = (names.zipIdx q).map fun e => .bind e.1 e.2 := by
  induction names generalizing q with
  | nil => rfl
  | cons x names ih => rw [boundFrom, ih, zipIdx_cons, map_cons]

theorem boundFrom_concat (q : Nat) (names : List String) (x : String) :
    boundFrom q (names ++ [x]) = boundFrom q names ++ [.bind x (q + names.length)] := by
  simp [boundFrom_eq, zipIdx_append]

/-- **The code before the body of a method** moves the locals as they are bound. A parameter has no
place before it is copied, but its incoming value is at hand. -/
theorem Opens.flows {code : Body} (hd : code.DistinctIds) {sc₀ sc : Scope} {ps ls : List VarDecl}
    {k : Nat} (h : Opens sc₀ ps k ls sc) (hp : sc.body <+: code) : ∃ places : String → Option Nat,
    Flows code (boundFrom ps.length ((ps.take k ++ ls).map (·.name))) 0 (.none code)
      sc.body.length (.of code places (List.range' sc₀.nextId ps.length)) ∧
    ∀ x, places x = if x ∈ (ps.drop k).map (·.name) then none else sc.places code x := by
  induction h with
  | start =>
    exact ⟨fun _ => none, .refl (le_refl _), fun x => by simp [Scope.places, Scope.beginMethod]⟩
  | @parameter ps sc d h hnone ih =>
    obtain ⟨places, hflows, hplaces⟩ := ih ((prefix_append ..).trans hp)
    refine ⟨places, ?_, fun x => ?_⟩
    · rw [length_append]
      refine hflows.trans (.emit hd hp rfl (by simp [Statement.payloadOperands]) fun o ho => ?_)
      rw [length_singleton, range'_concat, mem_append, List.mem_singleton] at ho
      rw [h.nextId, h.length]
      simpa [Op.definesValue] using ho
    · rw [hplaces, Scope.places, Scope.places, Scope.emitBound, Bindings.find?_insert]
      by_cases hx : x = d.name
      · simp [hx, hnone]
      · simp [hx]
  | @copy ps k sc d h hd' ih =>
    obtain ⟨places, hflows, hplaces⟩ := ih ((prefix_append ..).trans hp)
    obtain ⟨hk, hget⟩ := List.getElem?_eq_some_iff.1 hd'
    have hnodup := h.bindings.1
    rw [append_nil, ← take_append_drop k ps, map_append] at hnodup
    have hnot := (List.nodup_append.1 hnodup).2.1
    rw [drop_eq_getElem_cons hk, hget, map_cons, nodup_cons] at hnot
    have hlog : boundFrom ps.length ((ps.take (k + 1) ++ []).map VarDecl.name) =
        boundFrom ps.length ((ps.take k ++ []).map VarDecl.name) ++ [.bind d.name sc.body.length] := by
      simp [take_add_one, hd', h.length, boundFrom_concat, Nat.le_of_lt hk]
    have hmem : sc₀.nextId + k ∈ List.range' sc₀.nextId ps.length :=
      List.mem_range'_1.2 ⟨Nat.le_add_right .., Nat.add_lt_add_left hk _⟩
    refine ⟨_, hlog ▸ hflows.trans (.bind hd (Or.inl rfl) hp
      (by simpa [Statement.payloadOperands] using hmem) (fun _ => rfl) (List.Subset.refl _)),
      fun x => ?_⟩
    rw [hplaces, Scope.places, Scope.places, Scope.emitBound, Bindings.find?_insert,
      drop_eq_getElem_cons hk, hget]
    by_cases hx : x = d.name
    · rw [hx, if_neg hnot.1, if_pos rfl, if_pos rfl, bind_some]
    · simp [hx]
  | @declare ps ls sc d h hnone ih =>
    obtain ⟨places, hflows, hplaces⟩ := ih ((prefix_append ..).trans hp)
    have hlog : boundFrom ps.length ((ps.take ps.length ++ (ls ++ [d])).map (·.name)) =
        boundFrom ps.length ((ps.take ps.length ++ ls).map (·.name)) ++
          [.bind d.name sc.body.length] := by
      rw [h.length, ← append_assoc, map_append, map_singleton, boundFrom_concat]
      simp [Nat.add_assoc]
    refine ⟨_, hlog ▸ hflows.trans (.bind hd (Or.inr rfl) hp (by simp [Statement.payloadOperands])
      (fun _ => rfl) (List.Subset.refl _)), fun x => ?_⟩
    rw [hplaces, Scope.places, Scope.places, Scope.emitBound, Bindings.find?_insert]
    by_cases hx : x = d.name
    · simp [hx]
    · simp [hx]

section Methods

variable {method : Method} {sc sc' : Scope}

/-- **The code of a method moves the locals as they are bound.** -/
theorem lowerMethod_flows (h : lowerMethod owner m sc = .ok method sc')
    (hd : method.body.DistinctIds) (htied : method.body.Tied)
    (hlabels : method.body.labelNames.Nodup) :
    ∃ after, Flows method.body (methodEvents m sc) 0 (.none method.body) method.body.length after := by
  obtain ⟨sc₁, sc₂, result, sc₃, h₁, hopens, h₂, h₃, hbody, _⟩ := lowerMethod_cases h
  have hp : (sc₃.emit .ret (some result) none .none).2.body <+: method.body := by
    rw [hbody]
  have hlowers := lowerBody_lowers h₂ h₃
  obtain ⟨places, hprologue, hplaces⟩ := hopens.flows hd (hlowers.isPrefix.trans hp)
  obtain rfl : places = sc₁.places method.body := funext fun x => by simp [hplaces]
  rw [take_length] at hprologue
  have hall := hprologue.trans
    ((hlowers.tracks hd htied hlabels hp).of_le (Known.of_mono (nil_subset _)))
  rw [← methodEvents_of_ok h₁ h₂, ← hbody] at hall
  exact ⟨_, hall⟩

/-- **Nothing is live at the start of a method.** -/
theorem not_liveAt_lowerMethod (h : lowerMethod owner m sc = .ok method sc')
    (hd : method.body.DistinctIds) (htied : method.body.Tied)
    (hlabels : method.body.labelNames.Nodup) (c : Nat) :
    ¬ method.body.LiveAt c 0 := by
  obtain ⟨_, hflows⟩ := lowerMethod_flows h hd htied hlabels
  exact hflows.not_liveAt c

/-- **Nothing is live at the start of an entry point.** -/
theorem not_liveAt_lowerMain {main : MainClass} (h : lowerMain main sc = .ok method sc')
    (hd : method.body.DistinctIds) (htied : method.body.Tied)
    (hlabels : method.body.labelNames.Nodup) (c : Nat) : ¬ method.body.LiveAt c 0 := by
  obtain ⟨sc₁, h₁, hbody, _⟩ := lowerMain_cases h
  have hlowers := lowerStmt_lowers main.body (List.Subset.refl _) h₁
  have hflows := hlowers.tracks hd htied hlabels (by rw [hbody])
  rw [← hbody] at hflows
  exact hflows.not_liveAt c

end Methods

end MiniJava.Ssa
