import MiniJava.Proofs.Lowering.Joins
import MiniJava.Proofs.Results

/-!
# Owners

While a method is lowered, some statements come to hold the value of a local: they are *owned* by it.
Merges tie only statements of one owner together. So the cells of different locals are different,
and a statement without an owner has a cell for itself.

Owners are not part of the code. They are given by a function from statement numbers, of which only
the values at the numbers handed out so far matter.
-/

namespace MiniJava.Ssa

open Ast List Statement Option

variable {x? : Option String} {xs : List String} {before p q g : String → Option StmtId}
  {cell? : StmtId → Option Nat}

abbrev Owners := StmtId → Option String

/-- The owners fit the code: statements are numbered from `base` on, what is owned has a cell, and
merges tie only statements of one owner together. -/
structure Body.Owned (names : List String) (base : Nat) (own : Owners) (body : Body) : Prop where
  numbered : body.map (·.id) = range' base body.length
  named : ∀ s ∈ body, ∀ x, own s.id = some x → x ∈ names
  tracked : ∀ s ∈ body, own s.id ≠ none → s.isTracked = true
  merges : ∀ s ∈ body, ∀ o ∈ s.mergeOperands,
    (∃ t ∈ body, t.id = o) ∧ own o = own s.id ∧ own s.id ≠ none

def OwnedBindings (own : Owners) (body : Body) (bindings : String → Option StmtId) : Prop :=
  ∀ x b, bindings x = some b → (∃ s ∈ body, s.id = b) ∧ own b = some x

structure Scope.Owned (names : List String) (base : Nat) (own : Owners) (sc : Scope) : Prop where
  body : sc.body.Owned names base own
  next : sc.nextId = base + sc.body.length
  bound : OwnedBindings own sc.body sc.locals.find?

def AgreeBelow (n : Nat) (own own' : Owners) : Prop := ∀ b < n, own' b = own b

namespace AgreeBelow

variable {n n' : Nat} {own own₁ own' : Owners}

theorem refl (n : Nat) (own : Owners) : AgreeBelow n own own := fun _ _ => rfl

theorem trans (h : AgreeBelow n own own₁) (h' : AgreeBelow n' own₁ own') (hle : n ≤ n') :
    AgreeBelow n own own' :=
  fun b hb => (h' b (Nat.lt_of_lt_of_le hb hle)).trans (h b hb)

end AgreeBelow

def Owners.set (own : Owners) (n : StmtId) (x? : Option String) : Owners :=
  fun b => if b = n then x? else own b

@[simp] theorem Owners.set_self (own : Owners) (n : StmtId) (x? : Option String) :
    own.set n x? n = x? := if_pos rfl

theorem Owners.set_of_lt (own : Owners) {n b : StmtId} (x? : Option String) (h : b < n) :
    own.set n x? b = own b := if_neg (Nat.ne_of_lt h)

theorem AgreeBelow.set (n : Nat) (own : Owners) (x? : Option String) :
    AgreeBelow n own (own.set n x?) :=
  fun _ hb => own.set_of_lt x? hb

/-! ## Numbers and positions -/

namespace Body.Owned

variable {names : List String} {base : Nat} {own : Owners} {body : Body} {i : Nat} {s : Statement}

section

variable (h : body.Owned names base own)
include h

theorem id_eq (hs : body[i]? = some s) : s.id = base + i := by
  have hmap : (body.map (·.id))[i]? = some s.id := by rw [getElem?_map, hs]; rfl
  rw [h.numbered] at hmap
  have hlt : i < body.length := lt_of_getElem? hs
  rw [getElem?_range' hlt, Nat.one_mul] at hmap
  exact (some.inj hmap).symm

theorem distinct : body.DistinctIds := by
  rw [DistinctIds, h.numbered]
  exact nodup_range'

theorem id_lt (hs : s ∈ body) : s.id < base + body.length := by
  obtain ⟨i, hi⟩ := mem_iff_getElem?.1 hs
  rw [h.id_eq hi]
  exact Nat.add_lt_add_left (lt_of_getElem? hi) base

theorem mem_of_id_lt {earlier : Body} (hp : earlier <+: body) (hs : s ∈ body)
    (hlt : s.id < base + earlier.length) : s ∈ earlier := by
  obtain ⟨i, hi⟩ := mem_iff_getElem?.1 hs
  rw [h.id_eq hi] at hlt
  have hlen : i < earlier.length := Nat.lt_of_add_lt_add_left hlt
  obtain ⟨rest, rfl⟩ := hp
  rw [getElem?_append_left hlen] at hi
  exact mem_of_getElem? hi

/-- **Statements of one cell are equal or have the same owner.** -/
theorem eq_of_cell?_eq {a b : StmtId} {c : Nat} (ha : body.cell? a = some c)
    (hb : body.cell? b = some c) :
    a = b ∨ own a = own b ∧ own a ≠ none :=
  Body.eq_of_cell?_eq (fun s hs o ho => (h.merges s hs o ho).2) ha hb

theorem exists_cell? (hs : s ∈ body) (ht : s.isTracked = true) : ∃ c, body.cell? s.id = some c := by
  obtain ⟨i, hi⟩ := mem_iff_getElem?.1 hs
  exact ⟨_, h.distinct.cell?_eq hi ht⟩

theorem tied : body.Tied := by
  refine Body.tied_of_tracked h.distinct fun s hs o ho => ?_
  obtain ⟨⟨t, ht, rfl⟩, heq, hne⟩ := h.merges s hs o ho
  exact ⟨t, ht, rfl, h.tracked t ht (heq ▸ hne)⟩

end

end Body.Owned

namespace OwnedBindings

variable {own own' : Owners} {body body' : Body} {f : String → Option StmtId}

theorem mono (h : OwnedBindings own body f) (hp : body <+: body')
    (ha : ∀ s ∈ body, own' s.id = own s.id) : OwnedBindings own' body' f := by
  intro x b hx
  obtain ⟨⟨s, hs, rfl⟩, hb⟩ := h x b hx
  exact ⟨⟨s, hp.subset hs, rfl⟩, (ha s hs).trans hb⟩

end OwnedBindings

namespace Scope.Owned

variable {names : List String} {base : Nat} {own : Owners} {sc sc' : Scope} {x : String}
  {b : StmtId}

section

variable (h : sc.Owned names base own)
include h

theorem id_lt {s : Statement} (hs : s ∈ sc.body) : s.id < sc.nextId := by
  rw [h.next]
  exact h.body.id_lt hs

theorem lt_of_bound (hx : sc.locals.find? x = some b) : b < sc.nextId := by
  obtain ⟨⟨s, hs, rfl⟩, _⟩ := h.bound x b hx
  exact h.id_lt hs

theorem congr {own' : Owners} (ha : AgreeBelow sc.nextId own own') : sc.Owned names base own' := by
  have hown : ∀ s ∈ sc.body, own' s.id = own s.id := fun s hs => ha _ (h.id_lt hs)
  refine ⟨⟨h.body.numbered, ?_, ?_, ?_⟩, h.next, h.bound.mono (prefix_refl _) hown⟩
  · intro s hs x hx
    exact h.body.named s hs x (hown s hs ▸ hx)
  · intro s hs hne
    exact h.body.tracked s hs (hown s hs ▸ hne)
  · intro s hs o ho
    obtain ⟨⟨t, ht, rfl⟩, heq, hne⟩ := h.body.merges s hs o ho
    rw [hown s hs, hown t ht]
    exact ⟨⟨t, ht, rfl⟩, heq, hne⟩

theorem of_earlier (hp : sc.body <+: sc'.body) (hb : sc'.body.Owned names base own)
    (hn : sc'.nextId = base + sc'.body.length) (hl : ∀ x, sc'.locals.find? x = sc.locals.find? x) :
    sc'.Owned names base own :=
  ⟨hb, hn, fun x b hx => h.bound.mono hp (fun _ _ => rfl) x b (hl x ▸ hx)⟩

/-! ## Emission -/

theorem append {s : Statement} (hid : s.id = sc.nextId) (hx : ∀ x, x? = some x → x ∈ names)
    (ht : x? ≠ none → s.isTracked = true)
    (hm : ∀ o ∈ s.mergeOperands, (∃ t ∈ sc.body, t.id = o) ∧ own o = x? ∧ x? ≠ none)
    (hb : sc'.body = sc.body ++ [s]) (hn : sc'.nextId = sc.nextId + 1)
    (hl : OwnedBindings (own.set sc.nextId x?) sc'.body sc'.locals.find?) :
    sc'.Owned names base (own.set sc.nextId x?) := by
  have hown : ∀ t ∈ sc.body, own.set sc.nextId x? t.id = own t.id := fun t ht =>
    own.set_of_lt x? (h.id_lt ht)
  have hs : own.set sc.nextId x? s.id = x? := by rw [hid, Owners.set_self]
  refine ⟨⟨?_, ?_, ?_, ?_⟩, ?_, hl⟩
  · rw [hb, map_append, h.body.numbered, length_append, ← range'_append_1]
    simp [hid, h.next]
  · intro t ht x htx
    rw [hb] at ht
    rcases mem_append.1 ht with ht | ht
    · exact h.body.named t ht x (hown t ht ▸ htx)
    · obtain rfl := mem_singleton.1 ht
      exact hx x (hs ▸ htx)
  · intro t ht' hne
    rw [hb] at ht'
    rcases mem_append.1 ht' with ht' | ht'
    · exact h.body.tracked t ht' (hown t ht' ▸ hne)
    · obtain rfl := mem_singleton.1 ht'
      exact ht (hs ▸ hne)
  · intro t ht' o ho
    rw [hb] at ht' ⊢
    rcases mem_append.1 ht' with ht' | ht'
    · obtain ⟨⟨r, hr, rfl⟩, heq, hne⟩ := h.body.merges t ht' o ho
      rw [hown t ht', hown r hr]
      exact ⟨⟨r, mem_append_left _ hr, rfl⟩, heq, hne⟩
    · obtain rfl := mem_singleton.1 ht'
      obtain ⟨⟨r, hr, rfl⟩, heq, hne⟩ := hm o ho
      rw [hs, hown r hr]
      exact ⟨⟨r, mem_append_left _ hr, rfl⟩, heq, hne⟩
  · rw [hn, hb, h.next, length_append]
    rfl

end

theorem mergeOperands_eq_nil {s : Statement} (h : s.op.isMerge = false) :
    s.mergeOperands = [] := by
  unfold mergeOperands
  split <;> simp_all [Op.isMerge]

theorem emit (h : sc.Owned names base own) {op : Op} (left? right? : Option StmtId)
    (payload : Payload) (hop : op.isMerge = false) (hx : ∀ x, x? = some x → x ∈ names)
    (ht : x? ≠ none → op.definesValue = true) :
    (sc.emit op left? right? payload).2.Owned names base (own.set sc.nextId x?) := by
  refine h.append (s := ⟨sc.nextId, op, left?, right?, payload, none, none, none⟩) rfl hx
    (fun hne => ?_) ?_ rfl rfl ?_
  · simp [isTracked, ht hne]
  · rw [mergeOperands_eq_nil hop]
    simp
  · exact h.bound.mono (prefix_append ..) fun s hs => own.set_of_lt x? (h.id_lt hs)

theorem rebind (h : sc.Owned names base own) {id : StmtId} (hs : ∃ s ∈ sc.body, s.id = id)
    (hid : own id = some x) : (sc.rebind x id).Owned names base own := by
  refine ⟨h.body, h.next, fun y b hy => ?_⟩
  rw [locals_rebind] at hy
  by_cases hyx : y = x
  · subst hyx
    rw [if_pos rfl] at hy
    obtain rfl := some.inj hy
    exact ⟨hs, hid⟩
  · rw [if_neg hyx] at hy
    exact h.bound y b hy

/-! ## Joins -/

theorem mergeStep {before left right : StmtId} (h : sc.Owned names base own)
    (hm : MergeStep x before left right sc sc') (hx : x ∈ names)
    (hl : (∃ t ∈ sc.body, t.id = left) ∧ own left = some x)
    (hr : (∃ t ∈ sc.body, t.id = right) ∧ own right = some x) :
    sc'.Owned names base (own.set sc.nextId (some x)) := by
  refine h.append (s := unifyOf sc.nextId left right) rfl (fun y hy => ?_) (fun _ => rfl) ?_
    hm.body hm.nextId fun y b hy => ?_
  · cases hy
    exact hx
  · intro o ho
    have ho : o = left ∨ o = right := by simpa [unifyOf, mergeOperands] using ho
    rcases ho with rfl | rfl
    · exact ⟨hl.1, hl.2, by simp⟩
    · exact ⟨hr.1, hr.2, by simp⟩
  · rw [hm.locals] at hy
    by_cases hyx : y = x
    · subst hyx
      rw [if_pos rfl] at hy
      obtain rfl := some.inj hy
      exact ⟨⟨unifyOf sc.nextId left right, by rw [hm.body]; simp, rfl⟩, own.set_self ..⟩
    · rw [if_neg hyx] at hy
      have hp : sc.body <+: sc'.body := hm.body ▸ prefix_append ..
      exact h.bound.mono hp (fun s hs => own.set_of_lt _ (h.id_lt hs)) y b hy

theorem merges {before left right : String → StmtId} (hm : Merges before left right xs sc sc') :
    ∀ {own : Owners}, sc.Owned names base own →
    (∀ x ∈ xs, x ∈ names ∧ ((∃ t ∈ sc.body, t.id = left x) ∧ own (left x) = some x) ∧
      (∃ t ∈ sc.body, t.id = right x) ∧ own (right x) = some x) →
    ∃ own', AgreeBelow sc.nextId own own' ∧ sc'.Owned names base own' := by
  induction hm with
  | nil sc => exact fun h _ => ⟨_, .refl _ _, h⟩
  | @cons x xs sc sc₁ sc' hstep _ ih =>
    intro own h hxs
    obtain ⟨hx, hl, hr⟩ := hxs x mem_cons_self
    have h₁ := h.mergeStep hstep hx hl hr
    have hkeep : ∀ y id, (∃ t ∈ sc.body, t.id = id) ∧ own id = some y →
        (∃ t ∈ sc₁.body, t.id = id) ∧ own.set sc.nextId (some x) id = some y := by
      rintro y _ ⟨⟨t, ht, rfl⟩, hy⟩
      refine ⟨⟨t, hstep.appends.isPrefix.subset ht, rfl⟩, ?_⟩
      rw [own.set_of_lt _ (h.id_lt ht), hy]
    obtain ⟨own', ha, h'⟩ := ih h₁ fun y hy => by
      obtain ⟨hy, hl, hr⟩ := hxs y (mem_cons_of_mem _ hy)
      exact ⟨hy, hkeep y _ hl, hkeep y _ hr⟩
    exact ⟨own', (AgreeBelow.set _ _ _).trans ha hstep.appends.nextId_le, h'⟩

theorem joins (h : sc.Owned names base own) (hj : Joins xs before p q sc sc')
    (hp : OwnedBindings own sc.body p) (hq : OwnedBindings own sc.body q) :
    ∃ own', AgreeBelow sc.nextId own own' ∧ sc'.Owned names base own' := by
  obtain ⟨_, left, right, _, hm, hmem, _⟩ := hj
  refine merges hm h fun x hx => ?_
  obtain ⟨_, hl, hr⟩ := hmem x hx
  obtain ⟨⟨t, ht, hid⟩, hown⟩ := hp x _ hl
  exact ⟨h.body.named t ht x (hid ▸ hown), hp x _ hl, hq x _ hr⟩

end Scope.Owned

/-! ## Cells of locals -/

def SameCells (cell? : StmtId → Option Nat) (f g : String → Option StmtId) : Prop :=
  ∀ x, (f x).map cell? = (g x).map cell?

theorem SameCells.trans {f h : String → Option StmtId} (hfg : SameCells cell? f g)
    (hgh : SameCells cell? g h) : SameCells cell? f h :=
  fun x => (hfg x).trans (hgh x)

theorem SameCells.symm {f : String → Option StmtId} (h : SameCells cell? f g) :
    SameCells cell? g f :=
  fun x => (h x).symm

/-- **A join gives each local the cell that it has on both paths.** -/
theorem Joins.sameCells {code : Body} {names : List String} {sc sc' : Scope}
    (hj : Joins names before p q sc sc') (hc : code.Tied) (hp : sc'.body <+: code) :
    SameCells code.cell? p sc'.locals.find? ∧ SameCells code.cell? q sc'.locals.find? := by
  constructor <;> intro x <;> rcases hj.cases x with ⟨_, hl, hr⟩ | ⟨m, l, r, _, hl, hr, hm, hu⟩
  · rw [hl]
  · rw [hl, hm, map_some, map_some]
    exact congrArg some (hc _ (hp.subset hu) l (by simp [unifyOf, mergeOperands]))
  · rw [hr]
  · rw [hr, hm, map_some, map_some]
    exact congrArg some (hc _ (hp.subset hu) r (by simp [unifyOf, mergeOperands]))

theorem LoopJoins.sameCells {code : Body} {id : NodeId} {sc sc₁ sc₂ sc' : Scope}
    (h : LoopJoins id sc sc₁ sc₂ sc') (hcode : code.Tied) (hp : sc'.body <+: code) :
    SameCells code.cell? sc'.locals.find? sc.locals.find? ∧
      SameCells code.cell? sc₁.locals.find? sc'.locals.find? ∧
      SameCells code.cell? sc₂.locals.find? sc'.locals.find? := by
  rcases h with ⟨heq, hj⟩ | ⟨mid, _, _, _, hj, hj'⟩
  · obtain ⟨h₁, h₂⟩ := hj.sameCells hcode hp
    exact ⟨heq ▸ h₁.symm, h₁, h₂⟩
  · obtain ⟨h₁, h₂⟩ := hj.sameCells hcode (hj'.appends.isPrefix.trans hp)
    obtain ⟨h, h'⟩ := hj'.sameCells hcode hp
    exact ⟨h.symm, h₁.trans h', h₂.trans h'⟩

end MiniJava.Ssa
