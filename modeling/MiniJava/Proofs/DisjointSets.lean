import Mathlib.Logic.Relation
import Mathlib.Order.Bounds.Defs
import MiniJava.Partition

/-!
# Disjoint sets and their least elements

A partition starts out discrete and is changed by calls that look elements up or join them. Along every
sequence of calls parents lie at or below their children, and two elements have the same root if and only
if the unions made so far connect them. So both walks of a call end, the one that climbs to the root and
the one that shortens the path, and what a call returns is the least element of its class.
-/

namespace MiniJava.Partition

variable {p : Partition} {n x y a b r : Nat}

/-! ## Calls -/

inductive Call where
  | find (x : Nat)
  | union (a b : Nat)

namespace Call

/-- The arguments of the call lie below the bound. -/
def Below (n : Nat) : Call → Prop
  | find x => x < n
  | union a b => a < n ∧ b < n

def run : Call → Partition → Nat × Partition
  | find x, p => p.find x
  | union a b, p => p.union a b

end Call

/-- The partition of the numbers below `n` after calls, the last one first. -/
def after (n : Nat) (calls : List Call) : Partition :=
  calls.foldr (fun c p => (c.run p).2) (discrete n)

/-- Two elements are connected by the unions among the calls. -/
def Joined (calls : List Call) : Nat → Nat → Prop := Relation.EqvGen fun a b => .union a b ∈ calls

/-! ## The walks of a call -/

/-- The walk to a root: it goes on with the parent of an element that is not its own parent. -/
inductive Climbs (p : Partition) : Nat → Nat → Prop
  | root {x : Nat} (h : p.parents[x]? = some x) : Climbs p x x
  | step {x y r : Nat} (h : p.parents[x]? = some y) (hne : y ≠ x) (hr : Climbs p y r) : Climbs p x r

/-- The walk that shortens a path: until it comes to an element whose parent is the root, it makes the
root the parent of the element and goes on with the parent from before. -/
inductive Shortens (r : Nat) : Partition → Nat → Partition → Prop
  | done {p : Partition} {x : Nat} (h : p.parents[x]? = some r) : Shortens r p x p
  | step {p p' : Partition} {x y : Nat} (h : p.parents[x]? = some y) (hne : y ≠ r)
    (hs : Shortens r (p.link x r) y p') : Shortens r p x p'

/-- A call ends with a result. -/
inductive Call.Ends : Call → Partition → Nat → Partition → Prop
  | find {p p' : Partition} {x r : Nat} (hr : p.Climbs x r) (hs : Shortens r p x p') :
    Ends (.find x) p r p'
  | union {p p₁ p₂ : Partition} {a b ra rb : Nat} (ha : Ends (.find a) p ra p₁)
    (hb : Ends (.find b) p₁ rb p₂) :
    Ends (.union a b) p (min ra rb) (p₂.link (max ra rb) (min ra rb))

def Ordered (p : Partition) : Prop := ∀ x y : Nat, p.parents[x]? = some y → y ≤ x

theorem compress_link (p : Partition) (s : Nat) (hlt : y < x) :
    (p.link x r).compress s y = (p.compress s y).link x r := by
  induction y using Nat.strongRecOn with
  | ind y ih =>
    have hy : (p.link x r).parents[y]? = p.parents[y]? := by
      rw [parents_link, if_neg (Nat.ne_of_gt hlt)]
    rw [compress, hy, compress]
    split
    · next z _ =>
      split
      · next hz =>
        rw [ih z hz (Nat.lt_trans hz hlt)]
        exact congrArg mk (Array.setIfInBounds_comm r s (Nat.ne_of_gt hlt))
      · rfl
    · rfl

namespace Ordered

variable (h : p.Ordered)
include h

theorem link (hle : r ≤ x) : (p.link x r).Ordered := by
  intro y z hy
  rw [parents_link] at hy
  split at hy
  · next hxy =>
    split at hy
    · cases hy
      exact hxy ▸ hle
    · cases hy
  · exact h y z hy

/-- A parent is lower, or the element is a root. -/
theorem exists_parent (hx : x < p.parents.size) :
    (∃ y < x, p.parents[x]? = some y ∧ p.root x = p.root y) ∨ p.parents[x]? = some x ∧ p.root x = x := by
  obtain ⟨y, hy⟩ : ∃ y, p.parents[x]? = some y := ⟨_, Array.getElem?_eq_getElem hx⟩
  rcases Nat.lt_or_eq_of_le (h x y hy) with hlt | rfl
  · exact Or.inl ⟨y, hlt, hy, root_of_lt hy hlt⟩
  · refine Or.inr ⟨hy, root_of_not_lt fun z hz => ?_⟩
    cases hy.symm.trans hz
    exact Nat.lt_irrefl _

theorem climbs (hx : x < p.parents.size) : p.Climbs x (p.root x) := by
  induction x using Nat.strongRecOn with
  | ind x ih =>
    rcases h.exists_parent hx with ⟨y, hlt, hy, hr⟩ | ⟨hy, hr⟩
    · rw [hr]
      exact .step hy (Nat.ne_of_lt hlt) (ih y hlt (Nat.lt_trans hlt hx))
    · rw [hr]
      exact .root hy

omit h in
theorem compress_of_root (s : Nat) (hr : p.root x = x) : p.compress s x = p := by
  rw [compress]
  split
  · next y hy =>
    refine if_neg fun hlt => ?_
    have := p.root_le y
    rw [root_of_lt hy hlt] at hr
    omega
  · rfl

omit h in
theorem link_parent (hx : p.parents[x]? = some r) : p.link x r = p := by
  refine congrArg mk (Array.ext_getElem? fun y => ?_)
  rw [Array.getElem?_setIfInBounds]
  split
  · next hxy =>
    subst hxy
    rw [hx, if_pos (Array.getElem?_eq_some_iff.1 hx).1]
  · rfl

theorem shortens (hx : x < p.parents.size) : Shortens (p.root x) p x (p.compress (p.root x) x) := by
  induction x using Nat.strongRecOn generalizing p with
  | ind x ih =>
    rcases h.exists_parent hx with ⟨y, hlt, hy, hr⟩ | ⟨hy, hr⟩
    · have hcompress : p.compress (p.root x) x = (p.compress (p.root x) y).link x (p.root x) := by
        rw [compress, hy]
        exact if_pos hlt
      by_cases hroot : y = p.root x
      · rw [hcompress, compress_of_root _ (by rw [hroot, root_root]), link_parent (hroot ▸ hy)]
        exact .done (hroot ▸ hy)
      · -- The rest of the path lies below and is not changed by the first step.
        refine .step hy hroot ?_
        have hrest := ih y hlt (h.link (p.root_le x)) (by simpa using Nat.lt_trans hlt hx)
        rwa [root_link_root, ← hr, compress_link p _ hlt, ← hcompress] at hrest
    · rw [hr, compress_of_root x hr]
      exact .done hy

theorem find (x : Nat) : (p.find x).2.Ordered := by
  suffices hc : ∀ r, r ≤ p.root x → (p.compress r x).Ordered from hc _ (Nat.le_refl _)
  intro r hle
  induction x using Nat.strongRecOn with
  | ind x ih =>
    rw [compress]
    split
    · next y hy =>
      split
      · next hlt => exact (ih y hlt (root_of_lt hy hlt ▸ hle)).link (Nat.le_trans hle (p.root_le x))
      · exact h
    · exact h

theorem run (c : Call) : (c.run p).2.Ordered := by
  cases c with
  | find x => exact h.find x
  | union a b => exact ((h.find a).find b).link (Nat.le_trans (Nat.min_le_left ..) (Nat.le_max_left ..))

/-- **Both walks of a call end**, with the result of the call. -/
theorem ends {c : Call} (hc : c.Below p.parents.size) : c.Ends p (c.run p).1 (c.run p).2 := by
  have hfind : ∀ {p : Partition} {x}, p.Ordered → x < p.parents.size →
      (Call.find x).Ends p (p.find x).1 (p.find x).2 := fun h hx => .find (h.climbs hx) (h.shortens hx)
  cases c with
  | find x => exact hfind h hc
  | union a b => exact .union (hfind h hc.1) (hfind (h.find a) (by simpa using hc.2))

end Ordered

/-! ## The classes of a sequence of calls -/

/-- The roots of a partition of the numbers below `n` stand for the classes that calls made. -/
structure Represents (n : Nat) (calls : List Call) (p : Partition) : Prop where
  size : p.parents.size = n
  ordered : p.Ordered
  sound : ∀ x, Joined calls x (p.root x)
  complete : ∀ a b, .union a b ∈ calls → p.root a = p.root b

namespace Represents

variable {calls : List Call}

theorem discrete (n : Nat) : Represents n [] (.discrete n) := by
  refine ⟨by simp [Partition.discrete], fun x y h => ?_, fun x => ?_, nofun⟩
  · obtain ⟨_, rfl⟩ := Array.getElem?_eq_some_iff.1 h
    simp [Partition.discrete]
  · rw [root_discrete]
    exact .refl x

variable (h : Represents n calls p)
include h

theorem joined_iff : Joined calls x y ↔ p.root x = p.root y := by
  constructor
  · intro hxy
    induction hxy with
    | rel a b hab => exact h.complete a b hab
    | refl => rfl
    | symm _ _ _ ih => exact ih.symm
    | trans _ _ _ _ _ ih₁ ih₂ => exact ih₁.trans ih₂
  · intro hxy
    exact .trans _ _ _ (h.sound x) (hxy ▸ .symm _ _ (h.sound y))

/-- **A root is the least element of its class.** -/
theorem isLeast : IsLeast {y | Joined calls x y} (p.root x) :=
  ⟨h.sound x, fun _ hy => h.joined_iff.1 hy ▸ p.root_le _⟩

theorem find (x : Nat) : Represents n (.find x :: calls) (p.find x).2 := by
  have hjoined : Joined (.find x :: calls) = Joined calls := by simp [Joined]
  refine ⟨by simp [h.size], h.ordered.find x, fun y => ?_, fun a b hab => ?_⟩
  · rw [root_find, hjoined]
    exact h.sound y
  · rw [root_find, root_find, h.complete a b (by simpa using hab)]

theorem union (ha : a < n) (hb : b < n) : Represents n (.union a b :: calls) (p.union a b).2 := by
  rw [← h.size] at ha hb
  have hroot : ∀ {x y}, p.root x = p.root y → Joined (.union a b :: calls) x y := fun hxy =>
    Relation.EqvGen.mono (fun _ _ => List.mem_cons_of_mem _) _ _ (h.joined_iff.2 hxy)
  have hab : Joined (.union a b :: calls) a b := .rel _ _ (by simp)
  refine ⟨by simp [Partition.union, h.size], h.ordered.run (.union a b), fun x => ?_, fun c d hcd => ?_⟩
  · -- An element with another root than before is connected with `a` and `b`.
    rw [root_union ha hb]
    split
    · next hx =>
      have hxa : Joined (.union a b :: calls) x a :=
        hx.elim hroot fun hx => .trans _ _ _ (hroot hx) (.symm _ _ hab)
      rcases Nat.le_total (p.root a) (p.root b) with hle | hle
      · rw [Nat.min_eq_left hle]
        exact .trans _ _ _ hxa (hroot (p.root_root a).symm)
      · rw [Nat.min_eq_right hle]
        exact .trans _ _ _ hxa (.trans _ _ _ hab (hroot (p.root_root b).symm))
    · exact hroot (p.root_root x).symm
  · rw [root_union ha hb, root_union ha hb]
    rcases List.mem_cons.1 hcd with hcd | hcd
    · cases hcd
      rw [if_pos (Or.inl rfl), if_pos (Or.inr rfl)]
    · rw [h.complete c d hcd]

omit h in
theorem after (hcalls : ∀ c ∈ calls, c.Below n) : Represents n calls (.after n calls) := by
  induction calls with
  | nil => exact .discrete n
  | cons c calls ih =>
    obtain ⟨hc, hrest⟩ := List.forall_mem_cons.1 hcalls
    cases c with
    | find x => exact (ih hrest).find x
    | union a b => exact (ih hrest).union hc.1 hc.2

end Represents

/-- **Representatives are least elements.** Whatever calls were made before, a call ends. Looking an
element up returns the least element of its class and changes no class, and joining two elements returns
the least element of the joined class. -/
theorem representatives_are_least {calls : List Call} (h : ∀ c ∈ calls, c.Below n) :
    (∀ x y, Joined calls x y ↔ (after n calls).root x = (after n calls).root y) ∧
    (∀ c : Call, c.Below n → c.Ends (after n calls) (c.run (after n calls)).1 (c.run (after n calls)).2) ∧
    (∀ x < n, IsLeast {y | Joined calls x y} ((after n calls).find x).1 ∧
      ∀ y, ((after n calls).find x).2.root y = (after n calls).root y) ∧
    ∀ a < n, ∀ b < n, IsLeast {y | Joined (.union a b :: calls) a y} ((after n calls).union a b).1 := by
  have hp := Represents.after h
  refine ⟨fun x y => hp.joined_iff, fun c hc => ?_, fun x _ => ⟨hp.isLeast, root_find _ x⟩,
    fun a ha b hb => ?_⟩
  · rw [← hp.size] at hc
    exact hp.ordered.ends hc
  · have hleast := (hp.union ha hb).isLeast (x := a)
    rw [← hp.size] at ha hb
    rwa [root_union ha hb, if_pos (Or.inl rfl), ← union_fst] at hleast

theorem representatives_are_least_chain :
    (∀ c ∈ [Call.union 3 1, .find 4, .union 4 3], c.Below 5) ∧
      IsLeast {y | Joined [.union 3 1, .find 4, .union 4 3] 4 y} 1 := by
  have h : ∀ c ∈ [Call.union 3 1, .find 4, .union 4 3], c.Below 5 := by simp [Call.Below]
  have hfind : ((after 5 [.union 3 1, .find 4, .union 4 3]).find 4).1 = 1 := by decide +kernel
  have hleast := ((representatives_are_least h).2.2.1 4 (by decide)).1
  rw [hfind] at hleast
  exact ⟨h, hleast⟩

end MiniJava.Partition
