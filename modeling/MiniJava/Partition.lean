/-!
# Partitions of the numbers below a bound

Disjoint sets as a forest: each element points at its parent, and the root of a tree points at
itself. A parent never lies above its child, so following parents ends, and the root of a tree is its
least element. When two trees are joined, the lower root survives.
-/

namespace MiniJava

/-- A forest of parent pointers. An element outside the array is a class of its own. -/
structure Partition where
  parents : Array Nat
  deriving DecidableEq, Repr

namespace Partition

/-- The partition of the numbers below `n` into singletons. -/
def discrete (n : Nat) : Partition := ⟨Array.range n⟩

def root (p : Partition) (x : Nat) : Nat :=
  match p.parents[x]? with
  | some parent => if parent < x then p.root parent else x
  | none => x
termination_by x

def link (p : Partition) (x parent : Nat) : Partition :=
  ⟨p.parents.setIfInBounds x parent⟩

/-- Makes every element on the path from `x` to its root point at `root`. -/
def compress (p : Partition) (root x : Nat) : Partition :=
  match p.parents[x]? with
  | some parent => if parent < x then (p.compress root parent).link x root else p
  | none => p
termination_by x

/-- The root of an element, and the partition with a shorter path to it. -/
def find (p : Partition) (x : Nat) : Nat × Partition := (p.root x, p.compress (p.root x) x)

/-- Joins the classes of two elements. The lower of their roots survives and is returned. -/
def union (p : Partition) (a b : Nat) : Nat × Partition :=
  let (ra, p) := p.find a
  let (rb, p) := p.find b
  (min ra rb, p.link (max ra rb) (min ra rb))

/-! ## Roots -/

theorem root_of_lt {p : Partition} {x parent : Nat} (h : p.parents[x]? = some parent)
    (hlt : parent < x) : p.root x = p.root parent := by
  rw [root, h]
  exact if_pos hlt

theorem root_of_not_lt {p : Partition} {x : Nat}
    (h : ∀ parent, p.parents[x]? = some parent → ¬ parent < x) : p.root x = x := by
  rw [root]
  split
  · rename_i parent hp
    exact if_neg (h parent hp)
  · rfl

theorem root_cases (p : Partition) (x : Nat) :
    (∃ parent, p.parents[x]? = some parent ∧ parent < x ∧ p.root x = p.root parent) ∨
      ((∀ parent, p.parents[x]? = some parent → ¬ parent < x) ∧ p.root x = x) := by
  by_cases h : ∃ parent, p.parents[x]? = some parent ∧ parent < x
  · obtain ⟨parent, hp, hlt⟩ := h
    exact Or.inl ⟨parent, hp, hlt, root_of_lt hp hlt⟩
  · have h' : ∀ parent, p.parents[x]? = some parent → ¬ parent < x :=
      fun parent hp hlt => h ⟨parent, hp, hlt⟩
    exact Or.inr ⟨h', root_of_not_lt h'⟩

theorem root_le (p : Partition) (x : Nat) : p.root x ≤ x := by
  induction x using Nat.strongRecOn with
  | ind x ih =>
    rcases p.root_cases x with ⟨parent, _, hlt, hr⟩ | ⟨_, hr⟩
    · have := ih parent hlt
      omega
    · omega

@[simp] theorem root_root (p : Partition) (x : Nat) : p.root (p.root x) = p.root x := by
  induction x using Nat.strongRecOn with
  | ind x ih =>
    rcases p.root_cases x with ⟨parent, _, hlt, hr⟩ | ⟨_, hr⟩
    · rw [hr]
      exact ih parent hlt
    · rw [hr, hr]

@[simp] theorem root_discrete (n x : Nat) : (discrete n).root x = x := by
  apply root_of_not_lt
  intro parent h
  obtain ⟨_, h⟩ := Array.getElem?_eq_some_iff.1 h
  simp only [discrete, Array.getElem_range] at h
  omega

theorem parents_link (p : Partition) (x parent y : Nat) :
    (p.link x parent).parents[y]? =
      if x = y then if y < p.parents.size then some parent else none else p.parents[y]? := by
  simp only [link, Array.getElem?_setIfInBounds]
  split
  · rename_i h
    subst h
    rfl
  · rfl

theorem root_link_root (p : Partition) (x y : Nat) : (p.link x (p.root x)).root y = p.root y := by
  induction y using Nat.strongRecOn with
  | ind y ih =>
    rcases (p.link x (p.root x)).root_cases y with ⟨parent, hp, hlt, hr⟩ | ⟨hn, hr⟩
    · rw [hr, ih parent hlt]
      rw [parents_link] at hp
      split at hp
      · rename_i hxy
        split at hp
        · obtain rfl : p.root x = parent := by simpa using hp
          rw [root_root, hxy]
        · cases hp
      · exact (root_of_lt hp hlt).symm
    · rw [hr]
      by_cases hxy : x = y
      · subst hxy
        by_cases hlt : x < p.parents.size
        · have := hn (p.root x) (by rw [parents_link, if_pos rfl, if_pos hlt])
          have := p.root_le x
          omega
        · refine (root_of_not_lt fun parent hp => ?_).symm
          rw [Array.getElem?_eq_none (by omega)] at hp
          cases hp
      · refine (root_of_not_lt fun parent hp => hn parent ?_).symm
        rw [parents_link, if_neg hxy, hp]

theorem root_compress (p : Partition) (x y : Nat) :
    (p.compress (p.root x) x).root y = p.root y := by
  induction x using Nat.strongRecOn generalizing y with
  | ind x ih =>
    rw [compress]
    split
    · rename_i parent hp
      split
      · rename_i hlt
        have hx := root_of_lt hp hlt
        have h := (p.compress (p.root x) parent).root_link_root x y
        rw [hx] at h ⊢
        rwa [ih parent hlt x, hx, ih parent hlt y] at h
      · rfl
    · rfl

@[simp] theorem find_fst (p : Partition) (x : Nat) : (p.find x).1 = p.root x := rfl

@[simp] theorem root_find (p : Partition) (x y : Nat) : (p.find x).2.root y = p.root y :=
  root_compress p x y

@[simp] theorem size_link (p : Partition) (x parent : Nat) :
    (p.link x parent).parents.size = p.parents.size := by simp [link]

@[simp] theorem size_compress (p : Partition) (r x : Nat) :
    (p.compress r x).parents.size = p.parents.size := by
  induction x using Nat.strongRecOn with
  | ind x ih =>
    rw [compress]
    split
    · split
      · rename_i hlt
        rw [size_link, ih _ hlt]
      · rfl
    · rfl

@[simp] theorem size_find (p : Partition) (x : Nat) :
    (p.find x).2.parents.size = p.parents.size := size_compress _ _ _

theorem root_link_of_root {p : Partition} {r s : Nat} (hr : p.root r = r) (hs : p.root s = s)
    (hlt : s < r) (hsize : r < p.parents.size) (y : Nat) :
    (p.link r s).root y = if p.root y = r then s else p.root y := by
  induction y using Nat.strongRecOn with
  | ind y ih =>
    by_cases hy : r = y
    · subst hy
      rw [if_pos hr]
      have hp : (p.link r s).parents[r]? = some s := by
        rw [parents_link, if_pos rfl, if_pos hsize]
      rw [root_of_lt hp hlt, ih s hlt, hs, if_neg (by omega)]
    · have hp : (p.link r s).parents[y]? = p.parents[y]? := by rw [parents_link, if_neg hy]
      rcases p.root_cases y with ⟨parent, hpar, hpl, hroot⟩ | ⟨hn, hroot⟩
      · rw [root_of_lt (hp.trans hpar) hpl, ih parent hpl, hroot]
      · rw [hroot, if_neg (Ne.symm hy)]
        exact root_of_not_lt fun parent h => hn parent (hp ▸ h)

theorem root_link_self {p : Partition} {r : Nat} (hr : p.root r = r) (y : Nat) :
    (p.link r r).root y = p.root y := by
  have h := p.root_link_root r y
  rwa [hr] at h

@[simp] theorem union_fst (p : Partition) (a b : Nat) :
    (p.union a b).1 = min (p.root a) (p.root b) := by
  simp [union]

theorem root_union {p : Partition} {a b : Nat} (ha : a < p.parents.size) (hb : b < p.parents.size)
    (y : Nat) : (p.union a b).2.root y =
      if p.root y = p.root a ∨ p.root y = p.root b then min (p.root a) (p.root b)
      else p.root y := by
  have hra := p.root_le a
  have hrb := p.root_le b
  let q := ((p.find a).2.find b).2
  have hq (z : Nat) : q.root z = p.root z := by simp [q]
  have hqs : q.parents.size = p.parents.size := by simp [q]
  have hu : (p.union a b).2 = q.link (max (p.root a) (p.root b)) (min (p.root a) (p.root b)) := by
    simp [union, q]
  rw [hu]
  rcases Nat.lt_trichotomy (p.root a) (p.root b) with h | h | h
  · rw [Nat.max_eq_right (by omega), Nat.min_eq_left (by omega),
      root_link_of_root (by simp [hq]) (by simp [hq]) h (by omega), hq]
    split
    · simp [*]
    · rename_i hb'
      by_cases hya : p.root y = p.root a <;> simp [hya, hb']
  · rw [h, Nat.max_self, Nat.min_self, root_link_self (by simp [hq]), hq]
    split
    · rename_i hy
      simpa using hy
    · rfl
  · rw [Nat.max_eq_left (by omega), Nat.min_eq_right (by omega),
      root_link_of_root (by simp [hq]) (by simp [hq]) h (by omega), hq]
    split
    · simp [*]
    · rename_i ha'
      by_cases hyb : p.root y = p.root b <;> simp [hyb, ha']

end Partition

end MiniJava
