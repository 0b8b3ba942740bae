import MiniJava.Proofs.Allocation.LiveRanges

/-!
# Paths that read before they write

Whether a cell is live at a position, and whether a slot may be loaded there that was not stored
before, is the same question about paths: does one of them come to a read before it comes to a write?
Here paths have a bound on their length, so that what holds along a loop can be proved by induction on
the bound.
-/

namespace MiniJava

open List

namespace Ssa.Body

variable {body : Body} {reads writes : Nat → Prop} {n m i j c : Nat} {s : Statement}

/-! ## Exposed reads -/

/-- Some path of at most `n` positions comes to a read before it comes to a write. -/
def Exposed (body : Body) (reads writes : Nat → Prop) : Nat → Nat → Prop
  | 0, _ => False
  | n + 1, i => ∃ s, body[i]? = some s ∧
      (reads i ∨ ¬ writes i ∧ ∃ j ∈ body.successorsOf s i, body.Exposed reads writes n j)

section

variable (h : body.Exposed reads writes n i)
include h

theorem Exposed.imp {reads' writes' : Nat → Prop} (hr : ∀ i, reads i → reads' i)
    (hw : ∀ i, writes' i → writes i) :
    body.Exposed reads' writes' n i := by
  induction n generalizing i with
  | zero => exact h.elim
  | succ n ih =>
    obtain ⟨s, hs, hread | ⟨hnot, j, hj, hrest⟩⟩ := h
    · exact ⟨s, hs, Or.inl (hr i hread)⟩
    · exact ⟨s, hs, Or.inr ⟨fun h => hnot (hw i h), j, hj, ih hrest⟩⟩

theorem Exposed.exists_reads : ∃ j, reads j := by
  induction n generalizing i with
  | zero => exact h.elim
  | succ n ih =>
    obtain ⟨_, _, hread | ⟨_, _, _, hrest⟩⟩ := h
    · exact ⟨i, hread⟩
    · exact ih hrest

theorem Exposed.cases (hs : body[i]? = some s) :
    reads i ∨ ¬ writes i ∧ ∃ j ∈ body.successorsOf s i, ∃ m < n, body.Exposed reads writes m j := by
  cases n with
  | zero => exact h.elim
  | succ n =>
    obtain ⟨t, ht, hread | ⟨hw, j, hj, hrest⟩⟩ := h
    · exact Or.inl hread
    · obtain rfl := Option.mem_unique hs ht
      exact Or.inr ⟨hw, j, hj, n, Nat.lt_succ_self n, hrest⟩

theorem Exposed.lt_length : i < body.length := by
  cases n with
  | zero => exact h.elim
  | succ n =>
    obtain ⟨s, hs, _⟩ := h
    exact lt_of_getElem? hs

end

/-! ## Control flow -/

theorem eq_of_mem_successorsOf (h : j ∈ body.successorsOf s i) :
    (s.op.fallsThrough = true ∧ j = i + 1) ∨
      s.op.isJump = true ∧ ∃ l, s.label? = some l ∧ body.labelPosition? l = some j := by
  have htarget : j ∈ (if s.op.isJump then (s.label?.bind body.labelPosition?).toList else []) →
      s.op.isJump = true ∧ ∃ l, s.label? = some l ∧ body.labelPosition? l = some j := by
    intro hj
    split at hj
    · next hjump => exact ⟨hjump, Option.bind_eq_some_iff.1 (Option.mem_toList.1 hj)⟩
    · cases hj
  rw [successorsOf] at h
  generalize (if s.op.isJump then (s.label?.bind body.labelPosition?).toList else []) = target
    at h htarget
  split at h
  · next hfalls =>
    rcases List.mem_append.1 h with h | h
    · exact Or.inr (htarget h)
    · exact Or.inl ⟨hfalls.1, List.mem_singleton.1 h⟩
  · exact Or.inr (htarget h)

theorem Exposed.walk {l : Nat} (h : body.Exposed reads writes n i)
    (hl : ∀ k < l, ∃ s, body[i + k]? = some s ∧ s.op.isJump = false) :
    (∃ k < l, reads (i + k) ∧ ∀ k' < k, ¬ writes (i + k')) ∨
      (∀ k < l, ¬ writes (i + k)) ∧ ∃ m ≤ n, body.Exposed reads writes m (i + l) := by
  induction l with
  | zero => exact Or.inr ⟨fun k hk => absurd hk (Nat.not_lt_zero k), n, Nat.le_refl n, h⟩
  | succ l ih =>
    rcases ih fun k hk => hl k (Nat.lt_succ_of_lt hk) with
      ⟨k, hk, hread⟩ | ⟨hnot, m, hm, hrest⟩
    · exact Or.inl ⟨k, Nat.lt_succ_of_lt hk, hread⟩
    · obtain ⟨s, hs, hjump⟩ := hl l (Nat.lt_succ_self l)
      rcases hrest.cases hs with hread | ⟨hw, j, hj, m', hm', hrest⟩
      · exact Or.inl ⟨l, Nat.lt_succ_self l, hread, hnot⟩
      · refine Or.inr ⟨fun k hk => ?_, m', Nat.le_trans (Nat.le_of_lt hm') hm, ?_⟩
        · rcases Nat.lt_succ_iff_lt_or_eq.1 hk with hk | rfl
          · exact hnot k hk
          · exact hw
        · rcases eq_of_mem_successorsOf hj with ⟨_, rfl⟩ | ⟨hc, _⟩
          · exact hrest
          · rw [hjump] at hc
            cases hc

/-! ## Paths -/

def IsPath (body : Body) (path : List Nat) : Prop :=
  path.IsChain fun i j => ∃ s, body[i]? = some s ∧ j ∈ body.successorsOf s i

theorem exposed_of_path {path : List Nat} {last : Nat} (h : body.IsPath (path ++ [last]))
    (hi : (path ++ [last]).head? = some i) (hread : reads last) (hlast : last < body.length)
    (hw : ∀ j ∈ path, ¬ writes j) : body.Exposed reads writes (path.length + 1) i := by
  induction path generalizing i with
  | nil =>
    obtain rfl : last = i := Option.some.inj hi
    exact ⟨_, getElem?_eq_getElem hlast, Or.inl hread⟩
  | cons k path ih =>
    obtain rfl : k = i := Option.some.inj hi
    obtain ⟨j, hj⟩ : ∃ j, (path ++ [last]).head? = some j := by
      cases path with
      | nil => exact ⟨last, rfl⟩
      | cons j path => exact ⟨j, rfl⟩
    obtain ⟨hstep, hrest⟩ := List.isChain_cons.1 h
    obtain ⟨s, hs, hmem⟩ := hstep j hj
    exact ⟨s, hs, Or.inr ⟨hw k mem_cons_self, j, hmem,
      ih hrest hj fun j hj => hw j (mem_cons_of_mem _ hj)⟩⟩

/-- **What is not exposed at the start of a path is written on it before it is read.** -/
theorem exists_write_of_path {path : List Nat} {last : Nat}
    (h : ∀ n, ¬ body.Exposed reads writes n i) (hpath : body.IsPath (path ++ [last]))
    (hi : (path ++ [last]).head? = some i) (hread : reads last) (hlast : last < body.length) :
    ∃ j ∈ path, writes j := by
  by_contra hnone
  exact h _ (exposed_of_path hpath hi hread hlast fun j hj hw => hnone ⟨j, hj, hw⟩)

/-! ## Cells and slots -/

def Reads (body : Body) (i c : Nat) : Prop :=
  ∃ s o, body[i]? = some s ∧ o ∈ s.uses ∧ body.cell? o = some c

/-- Some path of at most `n` positions reads a cell before it is written. -/
def LiveWithin (body : Body) (c : Nat) : Nat → Nat → Prop :=
  body.Exposed (body.Reads · c) (body.Writes · c)

def Loads (body : Body) (i slot : Nat) : Prop :=
  ∃ s, body[i]? = some s ∧ s.op = .load ∧ s.slot? = some slot

def Stores (body : Body) (i slot : Nat) : Prop :=
  ∃ s, body[i]? = some s ∧ s.op = .store ∧ s.slot? = some slot

/-- Some path of at most `n` positions loads a slot before it is stored to. -/
def LoadedWithin (body : Body) (slot : Nat) : Nat → Nat → Prop :=
  body.Exposed (body.Loads · slot) (body.Stores · slot)

theorem LiveWithin.liveAt (h : body.LiveWithin c n i) : body.LiveAt c i := by
  induction n generalizing i with
  | zero => exact h.elim
  | succ n ih =>
    obtain ⟨s, hs, ⟨t, o, ht, ho, hc⟩ | ⟨hw, j, hj, hrest⟩⟩ := h
    · exact .read ht ho hc
    · exact .pass hs hw hj (ih hrest)

/-- **A cell is live if it is exposed within some bound.** -/
theorem liveAt_iff : body.LiveAt c i ↔ ∃ n, body.LiveWithin c n i := by
  constructor
  · intro h
    induction h with
    | read hs ho hc => exact ⟨1, _, hs, Or.inl ⟨_, _, hs, ho, hc⟩⟩
    | pass hs hw hj _ ih =>
      obtain ⟨n, hn⟩ := ih
      exact ⟨n + 1, _, hs, Or.inr ⟨hw, _, hj, hn⟩⟩
  · rintro ⟨n, h⟩
    exact h.liveAt

theorem LiveAt.exists_reads (h : body.LiveAt c i) : ∃ j, body.Reads j c := by
  obtain ⟨n, hn⟩ := liveAt_iff.1 h
  exact hn.exists_reads

end Ssa.Body

/-! ## Live sets -/

open Ssa

/-- **Nothing is live at the start** if no path reads a cell before it is written. -/
theorem Liveness.eq_empty_of_liveIn {body : Body} {vs : Variables} (hn : Numbers body vs)
    (h : ∀ c, ¬ body.LiveAt c 0) {live : VarSet}
    (hlive : (compute body vs).liveIn[0]? = some live) : live = .empty := by
  have hget : (solve (nodesOf body vs) vs.size).liveIn.getD 0 .empty = live := by
    rw [compute, Array.getElem?_toList] at hlive
    rw [Array.getD_eq_getD_getElem?, hlive]
    rfl
  refine VarSet.ext fun v => ⟨fun hv => ?_, fun hv => absurd hv (VarSet.not_mem_empty v)⟩
  rw [← hget] at hv
  have hneeds := (mem_solve (fun _ _ _ hi hv => lt_of_mem_uses hn hi hv) 0).1 hv
  have hlt := lt_of_needs hn hneeds
  rw [hn.size_eq] at hlt
  exact absurd ((needs_iff hn (getElem?_eq_getElem hlt)).1 hneeds) (h _)

end MiniJava
