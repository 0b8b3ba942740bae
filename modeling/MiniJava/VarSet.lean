/-!
# Finite sets of small numbers

A set of numbers as the bits of one number. Two sets with the same elements are equal.
-/

namespace MiniJava

/-- A finite set of numbers; `v` is in it if bit `v` is set. -/
structure VarSet where
  bits : Nat
  deriving DecidableEq, Repr

namespace VarSet

def contains (s : VarSet) (v : Nat) : Bool := s.bits.testBit v

instance : Membership Nat VarSet := ⟨fun s v => s.contains v = true⟩

instance (v : Nat) (s : VarSet) : Decidable (v ∈ s) :=
  inferInstanceAs (Decidable (s.contains v = true))

def empty : VarSet := ⟨0⟩

def singleton (v : Nat) : VarSet := ⟨1 <<< v⟩

def union (s t : VarSet) : VarSet := ⟨s.bits ||| t.bits⟩

def inter (s t : VarSet) : VarSet := ⟨s.bits &&& t.bits⟩

def erase (s : VarSet) (v : Nat) : VarSet := ⟨s.bits ^^^ (s.bits &&& 1 <<< v)⟩

def insert (s : VarSet) (v : Nat) : VarSet := s.union (singleton v)

def ofList : List Nat → VarSet
  | [] => empty
  | v :: vs => (singleton v).union (ofList vs)

def unions : List VarSet → VarSet
  | [] => empty
  | s :: ss => s.union (unions ss)

def toList (s : VarSet) : List Nat := (List.range (s.bits.log2 + 1)).filter s.contains

theorem mem_def {v : Nat} {s : VarSet} : v ∈ s ↔ s.bits.testBit v = true := Iff.rfl

@[ext] theorem ext {s t : VarSet} (h : ∀ v, v ∈ s ↔ v ∈ t) : s = t := by
  obtain ⟨a⟩ := s
  obtain ⟨b⟩ := t
  congr
  exact Nat.eq_of_testBit_eq fun v => Bool.eq_iff_iff.2 (h v)

@[simp] theorem not_mem_empty (v : Nat) : v ∉ empty := by simp [mem_def, empty]

@[simp] theorem mem_singleton {v w : Nat} : v ∈ singleton w ↔ v = w := by
  simp only [mem_def, singleton, Nat.one_shiftLeft, Nat.testBit_two_pow, decide_eq_true_eq]
  exact eq_comm

@[simp] theorem mem_union {v : Nat} {s t : VarSet} : v ∈ s.union t ↔ v ∈ s ∨ v ∈ t := by
  simp [mem_def, union]

@[simp] theorem mem_inter {v : Nat} {s t : VarSet} : v ∈ s.inter t ↔ v ∈ s ∧ v ∈ t := by
  simp [mem_def, inter]

@[simp] theorem mem_erase {v w : Nat} {s : VarSet} : v ∈ s.erase w ↔ v ∈ s ∧ v ≠ w := by
  simp only [mem_def, erase, Nat.one_shiftLeft, Nat.testBit_xor, Nat.testBit_and,
    Nat.testBit_two_pow]
  by_cases h : v = w
  · cases s.bits.testBit v <;> simp [h]
  · cases s.bits.testBit v <;> simp [h, Ne.symm h]

@[simp] theorem mem_insert {v w : Nat} {s : VarSet} : v ∈ s.insert w ↔ v ∈ s ∨ v = w := by
  simp [insert]

@[simp] theorem mem_ofList {v : Nat} {vs : List Nat} : v ∈ ofList vs ↔ v ∈ vs := by
  induction vs with
  | nil => simp [ofList]
  | cons w ws ih => simp [ofList, ih]

@[simp] theorem mem_unions {v : Nat} {ss : List VarSet} : v ∈ unions ss ↔ ∃ s ∈ ss, v ∈ s := by
  induction ss with
  | nil => simp [unions]
  | cons s ss ih => simp [unions, ih]

@[simp] theorem contains_iff {v : Nat} {s : VarSet} : s.contains v = true ↔ v ∈ s := Iff.rfl

@[simp] theorem mem_toList {v : Nat} {s : VarSet} : v ∈ s.toList ↔ v ∈ s := by
  simp only [toList, List.mem_filter, List.mem_range, contains_iff, and_iff_right_iff_imp]
  intro h
  have hle : 2 ^ v ≤ s.bits := Nat.ge_two_pow_of_testBit h
  have hne : s.bits ≠ 0 := by
    have := Nat.two_pow_pos v
    omega
  have := (Nat.le_log2 hne).2 hle
  omega

theorem bits_le_of_subset {s t : VarSet} (h : ∀ v, v ∈ s → v ∈ t) : s.bits ≤ t.bits := by
  have hs : t.inter s = s := ext fun v => by simpa using h v
  exact hs ▸ Nat.and_le_left

theorem bits_erase_lt {v : Nat} {s : VarSet} (h : v ∈ s) : (s.erase v).bits < s.bits := by
  refine Nat.lt_of_le_of_ne (bits_le_of_subset fun w hw => (mem_erase.1 hw).1) fun heq => ?_
  have hv : v ∈ s.erase v := by rwa [mem_def, heq]
  simp at hv

theorem pairwise_toList (s : VarSet) : s.toList.Pairwise (· < ·) :=
  List.Pairwise.filter _ List.pairwise_lt_range

end VarSet

end MiniJava
