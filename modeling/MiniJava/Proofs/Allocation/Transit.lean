import MiniJava.Proofs.Allocation.Paths

/-!
# Values in transit

Some values are on their way to the statement that needs them: arguments to their call, parameters to
the copies that a method starts with, and reloaded values to the statement behind the reload. They
have variables of their own, and code is laid out so that they arrive before control can go anywhere
else. What is on its way is a state that the statements of a body change one after the other.
-/

namespace MiniJava

open Ssa List Option

namespace Ssa

/-- Whether values of the operation are in transit until they are read. -/
def Op.isTransit : Op → Bool
  | .load | .arg | .parameter => true
  | _ => false

theorem Statement.of_mem_mergeOperands {s : Statement} {o : StmtId} (h : o ∈ s.mergeOperands) :
    s.op.isMerge = true ∧ o ∈ s.operands := by
  rw [operands]
  unfold mergeOperands at h
  split at h
  · next hop => exact ⟨by rw [hop]; rfl, mem_append_left _ h⟩
  · next hop => exact ⟨by rw [hop]; rfl, mem_append_left _ (mem_append_left _ h)⟩
  · cases h

theorem Statement.mem_uses_of_left? {s : Statement} {o : StmtId} (hop : s.op.isMerge = false)
    (h : s.left? = some o) : o ∈ s.uses := by
  rw [uses, hop, operands, h]
  exact mem_cons_self

/-- The place that the calling convention fixes for the value of a statement. -/
def Statement.fixedPin? (s : Statement) : Option Pin :=
  match s.op, s.position? with
  | .parameter, some p => if p < Register.arguments.length then some (.register p) else none
  | .arg, some p => if p < Register.arguments.length then some (.register p) else some .noRegister
  | _, _ => none

end Ssa

/-! ## What is on its way -/

/-- The state of a body at a position: what is on its way and what has been written. -/
structure Pending where
  /-- Reloaded values. -/
  loads : List StmtId := []
  /-- Arguments of the call to come, by position. -/
  args : List StmtId := []
  /-- Parameters that are not copied yet. -/
  params : List StmtId := []
  /-- The number of parameters so far. -/
  arity : Nat := 0
  /-- All other values so far. -/
  values : List StmtId := []
  /-- The value that the last statement wrote. -/
  last? : Option StmtId := none

namespace Pending

def next (P : Pending) (s : Statement) : Pending where
  loads := if s.op = .load then P.loads ++ [s.id] else []
  args :=
    match s.op with
    | .load => P.args
    | .arg => P.args ++ [s.id]
    | _ => []
  params :=
    match s.op with
    | .load => P.params
    | .parameter => P.params ++ [s.id]
    | .assignVar | .store => P.params.filter fun o => !s.uses.contains o
    | _ => []
  arity := if s.op = .parameter then P.arity + 1 else P.arity
  values := if s.isTracked && !s.op.isTransit then P.values ++ [s.id] else P.values
  last? := if s.op.definesValue && s.op != .load && s.op != .arg then some s.id else none

def width (P : Pending) : Nat := if P.args = [] ∧ P.params = [] then 3 else 1

structure Admits (P : Pending) (s : Statement) : Prop where
  reads : ∀ o ∈ s.uses, o ∈ P.values ∨ o ∈ P.loads ∨ (s.op = .call ∧ o ∈ P.args) ∨
    (s.op = .assignVar ∨ s.op = .store) ∧ o ∈ P.params
  width : (s.uses.filter fun o => !P.args.contains o).length ≤ P.width
  consumes : s.op ≠ .load → ∀ o ∈ P.loads, o ∈ s.uses
  load : s.op = .load → s.uses = [] ∧ P.loads.length < P.width
  arg : s.op = .arg → s.position? = some P.args.length
  parameter : s.op = .parameter → s.uses = [] ∧ s.position? = some P.arity
  store : s.op = .store → ∃ o, P.last? = some o ∧ s.uses = [o]
  label : s.op = .label → s.uses = [] ∧ P.args = [] ∧ P.params = []
  merge : s.op.isMerge = true → s.mergeOperands ≠ [] ∧ ∀ o ∈ s.operands, o ∈ P.values
  target : s.op = .call → ∀ o, s.left? = some o → o ∈ P.values ∨ o ∈ P.loads

def after (P : Pending) (code : Body) : Pending := code.foldl next P

def Flows : Pending → Body → Prop
  | _, [] => True
  | P, s :: rest => P.Admits s ∧ (P.next s).Flows rest

@[simp] theorem after_nil (P : Pending) : P.after [] = P := rfl

@[simp] theorem after_cons (P : Pending) (s : Statement) (rest : Body) :
    P.after (s :: rest) = (P.next s).after rest := rfl

theorem after_append (P : Pending) (a b : Body) : P.after (a ++ b) = (P.after a).after b :=
  foldl_append

theorem flows_append {P : Pending} {a b : Body} :
    P.Flows (a ++ b) ↔ P.Flows a ∧ (P.after a).Flows b := by
  induction a generalizing P with
  | nil => simp [Flows]
  | cons s a ih =>
    rw [cons_append, Flows, Flows, ih, and_assoc, after_cons]

theorem Flows.admits {P : Pending} {code : Body} (h : P.Flows code) {i : Nat} {s : Statement}
    (hs : code[i]? = some s) : (P.after (code.take i)).Admits s := by
  induction code generalizing P i with
  | nil => simp at hs
  | cons t code ih =>
    cases i with
    | zero =>
      obtain rfl : t = s := by simpa using hs
      exact h.1
    | succ i => exact ih h.2 (by simpa using hs)

def all (P : Pending) : List StmtId := P.loads ++ P.args ++ P.params

theorem mem_all {P : Pending} {o : StmtId} :
    o ∈ P.all ↔ o ∈ P.loads ∨ o ∈ P.args ∨ o ∈ P.params := by
  simp [all]

theorem mem_all_of_next {P : Pending} {s : Statement} {o : StmtId} (h : o ∈ (P.next s).all) :
    o ∈ P.all ∨ o = s.id ∧ s.op.isTransit = true := by
  rw [mem_all] at h ⊢
  rcases h with h | h | h
  · simp only [next] at h
    split at h
    · next hop =>
      rcases mem_append.1 h with h | h
      · exact Or.inl (Or.inl h)
      · exact Or.inr ⟨mem_singleton.1 h, by rw [hop]; rfl⟩
    · cases h
  · simp only [next] at h
    split at h
    · exact Or.inl (Or.inr (Or.inl h))
    · next hop =>
      rcases mem_append.1 h with h | h
      · exact Or.inl (Or.inr (Or.inl h))
      · exact Or.inr ⟨mem_singleton.1 h, by rw [hop]; rfl⟩
    · cases h
  · simp only [next] at h
    split at h
    · exact Or.inl (Or.inr (Or.inr h))
    · next hop =>
      rcases mem_append.1 h with h | h
      · exact Or.inl (Or.inr (Or.inr h))
      · exact Or.inr ⟨mem_singleton.1 h, by rw [hop]; rfl⟩
    · exact Or.inl (Or.inr (Or.inr (mem_filter.1 h).1))
    · exact Or.inl (Or.inr (Or.inr (mem_filter.1 h).1))
    · cases h

theorem mem_all_next_self {P : Pending} {s : Statement} (h : s.op.isTransit = true) :
    s.id ∈ (P.next s).all := by
  rw [mem_all]
  cases hop : s.op <;> simp_all [Op.isTransit, next]

theorem next_loads_of_ne {P : Pending} {s : Statement} (h : s.op ≠ .load) :
    (P.next s).loads = [] := if_neg h

theorem next_args_of_ne {P : Pending} {s : Statement} (hl : s.op ≠ .load) (ha : s.op ≠ .arg) :
    (P.next s).args = [] := by
  simp only [next]

theorem mem_values_next {P : Pending} {s : Statement} {o : StmtId} :
    o ∈ (P.next s).values ↔
      o ∈ P.values ∨ o = s.id ∧ s.isTracked = true ∧ s.op.isTransit = false := by
  simp only [next]
  split
  · next hs =>
    rw [Bool.and_eq_true, Bool.not_eq_true'] at hs
    simp [hs]
  · next hs =>
    rw [Bool.and_eq_true, Bool.not_eq_true'] at hs
    simp [hs]

/-! ## What the state says about the code -/

structure Describes (P : Pending) (code : Body) : Prop where
  loads : ∀ o ∈ P.loads, ∃ t ∈ code, t.id = o ∧ t.op = .load
  args : ∀ n o, P.args[n]? = some o → ∃ t ∈ code, t.id = o ∧ t.op = .arg ∧ t.position? = some n
  params : ∀ o ∈ P.params, ∃ t ∈ code, t.id = o ∧ t.op = .parameter
  values : ∀ o ∈ P.values, ∃ t ∈ code, t.id = o ∧ t.isTracked = true ∧ t.op.isTransit = false
  positions : ∀ t ∈ code, t.op = .parameter → ∃ n < P.arity, t.position? = some n
  injective : ∀ t ∈ code, ∀ u ∈ code, t.op = .parameter → u.op = .parameter →
    t.position? = u.position? → t = u
  exclusive : P.args = [] ∨ P.params = []
  sublist : P.loads.Sublist (code.map (·.id))
  last : ∀ o, P.last? = some o → ∃ t, code.getLast? = some t ∧ t.id = o ∧
    t.op.definesValue = true ∧ t.op ≠ .load ∧ t.op ≠ .arg

theorem describes_nil : Describes {} [] := by
  constructor <;> simp

namespace Describes

variable {P : Pending} {code : Body} {s : Statement}

section

variable (h : P.Describes code)
include h

theorem loads_next : ∀ o ∈ (P.next s).loads, ∃ t ∈ code ++ [s], t.id = o ∧ t.op = .load := by
  intro o ho
  simp only [next] at ho
  split at ho
  · next hop =>
    rcases mem_append.1 ho with ho | ho
    · obtain ⟨t, ht, h⟩ := h.loads o ho
      exact ⟨t, mem_append_left _ ht, h⟩
    · exact ⟨s, by simp, (mem_singleton.1 ho).symm, hop⟩
  · cases ho

theorem args_next (hs : P.Admits s) (n : Nat) (o : StmtId) (ho : (P.next s).args[n]? = some o) :
    ∃ t ∈ code ++ [s], t.id = o ∧ t.op = .arg ∧ t.position? = some n := by
  have hold : P.args[n]? = some o → ∃ t ∈ code ++ [s], t.id = o ∧ t.op = .arg ∧
      t.position? = some n := by
    intro ho
    obtain ⟨t, ht, h⟩ := h.args n o ho
    exact ⟨t, mem_append_left _ ht, h⟩
  simp only [next] at ho
  split at ho
  · exact hold ho
  · next hop =>
    rcases Nat.lt_or_ge n P.args.length with hn | hn
    · rw [getElem?_append_left hn] at ho
      exact hold ho
    · rw [getElem?_append_right hn] at ho
      obtain ⟨hn', ho⟩ := List.getElem?_eq_some_iff.1 ho
      have hlen : n = P.args.length := by
        simp only [length_singleton] at hn'
        omega
      refine ⟨s, by simp, by simpa using ho, hop, ?_⟩
      rw [hlen]
      exact hs.arg hop
  · cases ho

theorem params_next : ∀ o ∈ (P.next s).params, ∃ t ∈ code ++ [s], t.id = o ∧ t.op = .parameter := by
  have hold : ∀ o ∈ P.params, ∃ t ∈ code ++ [s], t.id = o ∧ t.op = .parameter := by
    intro o ho
    obtain ⟨t, ht, h⟩ := h.params o ho
    exact ⟨t, mem_append_left _ ht, h⟩
  intro o ho
  simp only [next] at ho
  split at ho
  · exact hold o ho
  · next hop =>
    rcases mem_append.1 ho with ho | ho
    · exact hold o ho
    · exact ⟨s, by simp, (mem_singleton.1 ho).symm, hop⟩
  · exact hold o (mem_filter.1 ho).1
  · exact hold o (mem_filter.1 ho).1
  · cases ho

theorem values_next : ∀ o ∈ (P.next s).values,
    ∃ t ∈ code ++ [s], t.id = o ∧ t.isTracked = true ∧ t.op.isTransit = false := by
  intro o ho
  rcases mem_values_next.1 ho with ho | ⟨rfl, hs⟩
  · obtain ⟨t, ht, h⟩ := h.values o ho
    exact ⟨t, mem_append_left _ ht, h⟩
  · exact ⟨s, by simp, rfl, hs⟩

theorem positions_next (hs : P.Admits s) :
    ∀ t ∈ code ++ [s], t.op = .parameter → ∃ n < (P.next s).arity, t.position? = some n := by
  intro t ht hop
  simp only [next]
  rcases mem_append.1 ht with ht | ht
  · obtain ⟨n, hn, hpos⟩ := h.positions t ht hop
    refine ⟨n, ?_, hpos⟩
    split <;> omega
  · obtain rfl := mem_singleton.1 ht
    rw [if_pos hop]
    exact ⟨P.arity, Nat.lt_succ_self _, (hs.parameter hop).2⟩

theorem injective_next (hs : P.Admits s) : ∀ t ∈ code ++ [s],
    ∀ u ∈ code ++ [s], t.op = .parameter → u.op = .parameter → t.position? = u.position? → t = u := by
  have hnew : ∀ t ∈ code, t.op = .parameter → s.op = .parameter → t.position? ≠ s.position? := by
    intro t ht hop hsop heq
    obtain ⟨n, hn, hpos⟩ := h.positions t ht hop
    rw [hpos, (hs.parameter hsop).2, some.injEq] at heq
    omega
  intro t ht u hu htop huop heq
  rw [mem_append, mem_singleton] at ht hu
  rcases ht with ht | rfl <;> rcases hu with hu | rfl
  · exact h.injective t ht u hu htop huop heq
  · exact absurd heq (hnew t ht htop huop)
  · exact absurd heq.symm (hnew u hu huop htop)
  · rfl

/-- **One statement.** -/
theorem next (hs : P.Admits s) : (P.next s).Describes (code ++ [s]) where
  loads := h.loads_next
  args := h.args_next hs
  params := h.params_next
  values := h.values_next
  positions := h.positions_next hs
  injective := h.injective_next hs
  exclusive := by
    have := h.exclusive
    cases hop : s.op <;> simp [Pending.next, hop, this]
  sublist := by
    rw [Pending.next, map_append, map_singleton]
    dsimp only
    split
    · exact h.sublist.append (List.Sublist.refl _)
    · exact nil_sublist _
  last := by
    intro o ho
    simp only [Pending.next] at ho
    split at ho
    · next hop =>
      simp only [Bool.and_eq_true, bne_iff_ne, ne_eq] at hop
      exact ⟨s, by simp, some.inj ho, hop.1.1, hop.1.2, hop.2⟩
    · cases ho

/-- **All of the code.** -/
theorem after {more : Body} (hm : P.Flows more) : (P.after more).Describes (code ++ more) := by
  induction more generalizing P code with
  | nil => rwa [append_nil]
  | cons s more ih =>
    rw [append_cons]
    exact ih (h.next hm.1) hm.2

end

end Describes

end Pending

/-! ## Bodies -/

namespace Ssa.Body

def pendingAt (body : Body) (i : Nat) : Pending := ({} : Pending).after (body.take i)

theorem pendingAt_succ {body : Body} {i : Nat} {s : Statement} (hs : body[i]? = some s) :
    body.pendingAt (i + 1) = (body.pendingAt i).next s := by
  rw [pendingAt, take_add_one, hs, Pending.after_append]
  rfl

/-- A body on which register allocation works: its values in transit arrive, what is stored is read
by stores only, and what the calling convention fixes is pinned. -/
structure Disciplined (body : Body) (next : StmtId) : Prop where
  distinct : body.DistinctIds
  bounded : ∀ s ∈ body, s.id < next
  flows : Pending.Flows {} body
  stored : ∀ s ∈ body, s.op = .store → ∀ o ∈ s.uses, ∀ c, body.cell? o = some c →
    ¬ body.ReadOutside c
  pins : ∀ s ∈ body, s.pin? = s.fixedPin?
  copies : ∀ s ∈ body, s.op = .assignVar → s.right? = none

def Free (body : Body) (c : Nat) : Prop :=
  ∀ s ∈ body, body.cell? s.id = some c → s.fixedPin? = none

theorem of_mem_successorsOf {body : Body} {s : Statement} {i j : Nat}
    (h : j ∈ body.successorsOf s i) : j = i + 1 ∨ ∃ t, body[j]? = some t ∧ t.op = .label := by
  rcases eq_of_mem_successorsOf h with ⟨_, rfl⟩ | ⟨_, l, _, hl⟩
  · exact Or.inl rfl
  · exact Or.inr (getElem?_of_labelPosition? hl)

theorem succ_mem_successorsOf {body : Body} {s : Statement} {i : Nat}
    (hf : s.op.fallsThrough = true) (hlt : i + 1 < body.length) :
    i + 1 ∈ body.successorsOf s i := by
  rw [successorsOf]
  generalize (if s.op.isJump then (s.label?.bind body.labelPosition?).toList else []) = target
  split
  · exact mem_append_right _ mem_cons_self
  · next hnot =>
    by_contra hmem
    exact hnot ⟨hf, hlt, by simpa using hmem⟩

theorem mem_successorsOf_of_jump {body : Body} {s : Statement} {i j : Nat} {l : String}
    (hjump : s.op.isJump = true) (hl : s.label? = some l) (hj : body.labelPosition? l = some j) :
    j ∈ body.successorsOf s i := by
  rw [successorsOf, if_pos hjump, hl, bind_some, hj]
  split <;> simp

namespace Disciplined

variable {body : Body} {next : StmtId} {i j : Nat} {s t : Statement} {o : StmtId} {c d : Nat}

section

variable (h : body.Disciplined next)
include h

theorem admits (hs : body[i]? = some s) : (body.pendingAt i).Admits s := h.flows.admits hs

theorem describes (i : Nat) : (body.pendingAt i).Describes (body.take i) := by
  have hflows := h.flows
  rw [← body.take_append_drop i, Pending.flows_append] at hflows
  exact Pending.describes_nil.after hflows.1

theorem eq_of_id_eq (hs : s ∈ body) (ht : t ∈ body) (heq : s.id = t.id) : s = t := by
  obtain ⟨i, hi⟩ := mem_iff_getElem?.1 hs
  obtain ⟨j, hj⟩ := mem_iff_getElem?.1 ht
  obtain rfl := h.distinct.eq_of_id_eq hi hj heq
  exact some.inj (hi.symm.trans hj)

theorem all_pendingAt_label (hs : body[i]? = some s) (hop : s.op = .label) :
    (body.pendingAt i).all = [] := by
  have hadm := h.admits hs
  obtain ⟨huses, hargs, hparams⟩ := hadm.label hop
  have hloads : (body.pendingAt i).loads = [] := by
    refine eq_nil_iff_forall_not_mem.2 fun o ho => ?_
    have := hadm.consumes (by rw [hop]; nofun) o ho
    rw [huses] at this
    cases this
  rw [Pending.all, hloads, hargs, hparams]
  rfl

theorem of_mem_all (hs : s ∈ body) (ho : s.id ∈ (body.pendingAt i).all) :
    (s.op = .load ∧ s.id ∈ (body.pendingAt i).loads) ∨
      (s.op = .arg ∧ ∃ n, s.position? = some n ∧ (body.pendingAt i).args[n]? = some s.id) ∨
      (s.op = .parameter ∧ s.id ∈ (body.pendingAt i).params) := by
  have hd := h.describes i
  rcases Pending.mem_all.1 ho with ho | ho | ho
  · obtain ⟨t, ht, hid, hop⟩ := hd.loads _ ho
    obtain rfl := h.eq_of_id_eq (mem_of_mem_take ht) hs hid
    exact Or.inl ⟨hop, ho⟩
  · obtain ⟨n, hn⟩ := mem_iff_getElem?.1 ho
    obtain ⟨t, ht, hid, hop, hpos⟩ := hd.args n _ hn
    obtain rfl := h.eq_of_id_eq (mem_of_mem_take ht) hs hid
    exact Or.inr (Or.inl ⟨hop, n, hpos, hn⟩)
  · obtain ⟨t, ht, hid, hop⟩ := hd.params _ ho
    obtain rfl := h.eq_of_id_eq (mem_of_mem_take ht) hs hid
    exact Or.inr (Or.inr ⟨hop, ho⟩)

theorem mem_all_of_le (hs : body[i]? = some s) {m : Nat} (hi : i < m) (hm : m ≤ j)
    (hj : j ≤ body.length) (ho : s.id ∈ (body.pendingAt j).all) :
    s.id ∈ (body.pendingAt m).all := by
  induction j, hm using Nat.le_induction with
  | base => exact ho
  | succ j hm ih =>
    have ht := getElem?_eq_getElem (show j < body.length by omega)
    rw [pendingAt_succ ht] at ho
    rcases Pending.mem_all_of_next ho with ho | ⟨hid, _⟩
    · exact ih (by omega) ho
    · have := h.distinct.eq_of_id_eq hs ht hid
      omega

theorem lt_of_mem_all (hs : body[i]? = some s) (ho : s.id ∈ (body.pendingAt j).all) : i < j := by
  have hbefore : ∃ t ∈ body.take j, t.id = s.id := by
    have hd := h.describes j
    rcases Pending.mem_all.1 ho with ho | ho | ho
    · obtain ⟨t, ht, hid, _⟩ := hd.loads _ ho
      exact ⟨t, ht, hid⟩
    · obtain ⟨n, hn⟩ := mem_iff_getElem?.1 ho
      obtain ⟨t, ht, hid, _⟩ := hd.args n _ hn
      exact ⟨t, ht, hid⟩
    · obtain ⟨t, ht, hid, _⟩ := hd.params _ ho
      exact ⟨t, ht, hid⟩
  obtain ⟨t, ht, hid⟩ := hbefore
  obtain ⟨m, hm⟩ := mem_iff_getElem?.1 ht
  rw [getElem?_take] at hm
  split at hm
  · have := h.distinct.eq_of_id_eq hm hs hid
    omega
  · cases hm

theorem not_transit_of_mem_values (hs : s ∈ body) (ho : s.id ∈ (body.pendingAt i).values) :
    s.op.isTransit = false := by
  obtain ⟨t, ht, hid, _, hop⟩ := (h.describes i).values _ ho
  rwa [← h.eq_of_id_eq (mem_of_mem_take ht) hs hid]

theorem fixedPin?_arg (hs : s ∈ body) (hop : s.op = .arg) : s.fixedPin? ≠ none := by
  obtain ⟨i, hi⟩ := mem_iff_getElem?.1 hs
  rw [Statement.fixedPin?, hop, (h.admits hi).arg hop]
  dsimp only
  split <;> exact some_ne_none _

end

/-! ### Cells of their own -/

theorem isTracked_of_isTransit (h : s.op.isTransit = true) : s.isTracked = true := by
  rw [Statement.isTracked]
  cases hop : s.op <;> simp_all [Op.isTransit, Op.definesValue]

open Classical in
section

variable (h : body.Disciplined next) (hs : s ∈ body) (hop : s.op.isTransit = true)
  (hc : body.cell? s.id = some c)
include h hs hop hc

/-- **A value in transit has a cell of its own.** -/
theorem eq_of_cell?_eq_transit (ho : body.cell? o = some c) : o = s.id := by
  -- The owner of a value is whether it is in transit; merges tie none of those.
  have hown := @eq_of_cell?_eq body Unit
    (fun a => if ∃ t ∈ body, t.id = a ∧ t.op.isTransit = true then none else some ())
    s.id o c ?_ hc ho
  · rcases hown with heq | ⟨_, hne⟩
    · exact heq.symm
    · exact absurd (if_pos ⟨s, hs, rfl, hop⟩) hne
  · intro u hu a ha
    obtain ⟨i, hi⟩ := mem_iff_getElem?.1 hu
    obtain ⟨hmerge, hmem⟩ := Statement.of_mem_mergeOperands ha
    have hself : ¬ ∃ t ∈ body, t.id = u.id ∧ t.op.isTransit = true := by
      rintro ⟨t, ht, hid, htop⟩
      rw [h.eq_of_id_eq ht hu hid] at htop
      revert hmerge htop
      cases u.op <;> simp [Op.isMerge, Op.isTransit]
    have hoperand : ¬ ∃ t ∈ body, t.id = a ∧ t.op.isTransit = true := by
      rintro ⟨t, ht, rfl, htop⟩
      have hval := ((h.admits hi).merge hmerge).2 t.id hmem
      rw [h.not_transit_of_mem_values ht hval] at htop
      cases htop
    rw [if_neg hself, if_neg hoperand]
    exact ⟨rfl, some_ne_none _⟩

/-! ### Live ranges -/

/-- **A value in transit is live only on its way.** -/
theorem mem_pendingAt_of_liveAt (hl : body.LiveAt c i) : s.id ∈ (body.pendingAt i).all := by
  induction hl with
  | read ht ho hoc =>
    obtain rfl := h.eq_of_cell?_eq_transit hs hop hc hoc
    rw [Pending.mem_all]
    rcases (h.admits ht).reads _ ho with hval | hload | ⟨_, harg⟩ | ⟨_, hparam⟩
    · rw [h.not_transit_of_mem_values hs hval] at hop
      cases hop
    · exact Or.inl hload
    · exact Or.inr (Or.inl harg)
    · exact Or.inr (Or.inr hparam)
  | @pass i j t ht hw hj _ ih =>
    rcases of_mem_successorsOf hj with rfl | ⟨u, hu, hlabel⟩
    · rw [pendingAt_succ ht] at ih
      rcases Pending.mem_all_of_next ih with ih | ⟨hid, htop⟩
      · exact ih
      · refine absurd ((h.distinct.writes_iff ht ?_).2 (hid ▸ hc)) hw
        revert htop
        cases t.op <;> simp [Op.isTransit, Op.definesValue]
    · rw [h.all_pendingAt_label hu hlabel] at ih
      cases ih

theorem mem_pendingAt_of_occupies (ho : body.Occupies c i) :
    s.id ∈ (body.pendingAt (i + 1)).all := by
  rcases ho with ⟨t, j, ht, hj, hl⟩ | ⟨t, ht, hd, hcell⟩
  · have hmem := h.mem_pendingAt_of_liveAt hs hop hc hl
    rcases of_mem_successorsOf hj with rfl | ⟨u, hu, hlabel⟩
    · exact hmem
    · rw [h.all_pendingAt_label hu hlabel] at hmem
      cases hmem
  · rw [← h.distinct.cell?_eq_cellAt? ht] at hcell
    have hid := h.eq_of_cell?_eq_transit hs hop hc hcell
    obtain rfl := h.eq_of_id_eq (mem_of_getElem? ht) hs hid
    rw [pendingAt_succ ht]
    exact Pending.mem_all_next_self hop

end

theorem fallsThrough_of_mem_params (hs : body[i]? = some s)
    (ho : o ∈ (body.pendingAt (i + 1)).params) : s.op.fallsThrough = true := by
  rw [pendingAt_succ hs, Pending.next] at ho
  revert ho
  cases s.op <;> simp [Op.fallsThrough]

/-- **A parameter that is read is live until then.** -/
theorem liveAfter_of_parameter (h : body.Disciplined next) (hs : body[i]? = some s)
    (hop : s.op = .parameter) (hc : body.cell? s.id = some c) (hr : body.ReadOutside c) :
    body.LiveAfter c i := by
  have htr : s.op.isTransit = true := by
    rw [hop]
    rfl
  have hmem := mem_of_getElem? hs
  obtain ⟨t, ht, _, o, ho, hoc⟩ := hr
  obtain rfl := h.eq_of_cell?_eq_transit hmem htr hc hoc
  obtain ⟨j, hj⟩ := List.mem_iff_getElem?.1 ht
  have hlive : body.LiveAt c j := .read hj ho hc
  have hlen := lt_of_getElem? hj
  have hall := h.mem_pendingAt_of_liveAt hmem htr hc hlive
  have hij := h.lt_of_mem_all hs hall
  have hparams : ∀ m, i < m → m ≤ j → s.id ∈ (body.pendingAt m).params := by
    intro m him hmj
    rcases h.of_mem_all hmem (h.mem_all_of_le hs him hmj hlen.le hall) with ⟨hop', _⟩ | ⟨hop', _⟩ | hp
    · rw [hop] at hop'
      cases hop'
    · rw [hop] at hop'
      cases hop'
    · exact hp.2
  -- Go back from the read to the parameter; no statement on the way writes the cell.
  have hback : ∀ d m, m + d = j → i < m → body.LiveAt c m := by
    intro d
    induction d with
    | zero =>
      rintro m rfl _
      exact hlive
    | succ d ih =>
      intro m hm him
      have hu := getElem?_eq_getElem (show m < body.length by omega)
      refine .pass hu ?_ (succ_mem_successorsOf
        (fallsThrough_of_mem_params hu (hparams (m + 1) (by omega) (by omega))) (by omega))
        (ih (m + 1) (by omega) (by omega))
      rintro ⟨u, hu', _, hcell⟩
      rw [← h.distinct.cell?_eq_cellAt? hu'] at hcell
      have hid := h.eq_of_cell?_eq_transit hmem htr hc hcell
      have := h.distinct.eq_of_id_eq hu' hs hid
      omega
  refine ⟨s, i + 1, hs, succ_mem_successorsOf ?_ (by omega),
    hback (j - (i + 1)) (i + 1) (by omega) (by omega)⟩
  rw [hop]
  rfl

theorem store_of_liveAt (h : body.Disciplined next) (hr : ¬ body.ReadOutside c)
    (hl : body.LiveAt c j) :
    (∃ t, body[j]? = some t ∧ t.op = .store) ∧ ∃ i, j = i + 1 ∧ body.Writes i c := by
  induction hl with
  | @read i t o ht ho hoc =>
    have hop : t.op = .store := by
      by_contra hop
      exact hr ⟨t, mem_of_getElem? ht, hop, o, ho, hoc⟩
    refine ⟨⟨t, ht, hop⟩, ?_⟩
    obtain ⟨o', hlast, huses⟩ := (h.admits ht).store hop
    rw [huses, mem_singleton] at ho
    subst ho
    obtain ⟨u, hu, hid, hd, _, _⟩ := (h.describes i).last _ hlast
    have hlt : i < body.length := lt_of_getElem? ht
    rw [getLast?_eq_getElem?, length_take, Nat.min_eq_left hlt.le] at hu
    have hpos : 0 < i := by
      by_contra hi
      obtain rfl : i = 0 := by omega
      simp at hu
    obtain ⟨k, rfl⟩ : ∃ k, i = k + 1 := ⟨i - 1, by omega⟩
    rw [getElem?_take_of_lt (by omega), Nat.add_sub_cancel] at hu
    exact ⟨k, rfl, (h.distinct.writes_iff hu hd).2 (hid ▸ hoc)⟩
  | @pass i j t ht hw hj _ ih =>
    obtain ⟨⟨u, hu, hstore⟩, k, hk, hwrites⟩ := ih
    rcases of_mem_successorsOf hj with rfl | ⟨u', hu', hlabel⟩
    · obtain rfl : i = k := by omega
      exact absurd hwrites hw
    · obtain rfl := mem_unique hu hu'
      rw [hstore] at hlabel
      cases hlabel

/-- **A cell that only stores read holds a value only where it is written.** -/
theorem writes_of_occupies (h : body.Disciplined next) (hr : ¬ body.ReadOutside c)
    (ho : body.Occupies c i) : body.Writes i c := by
  rcases ho with ⟨t, j, ht, hj, hl⟩ | hw
  · obtain ⟨⟨u, hu, hstore⟩, k, rfl, hw⟩ := h.store_of_liveAt hr hl
    rcases of_mem_successorsOf hj with hk | ⟨u', hu', hlabel⟩
    · obtain rfl : i = k := by omega
      exact hw
    · obtain rfl := mem_unique hu hu'
      rw [hstore] at hlabel
      cases hlabel
  · exact hw

end Disciplined

end Ssa.Body

end MiniJava
