import MiniJava.Ssa.Statement

/-!
# Bindings of names to statements

A finite map from variable names to statement numbers. Its entries are sorted by name, so a walk over
a map visits the names in ascending order and two maps with the same entries are equal.
-/

namespace MiniJava.Ssa

/-- Names with the statements they are bound to, sorted by name. -/
structure Bindings where
  entries : List (String × StmtId)
  sorted : entries.Pairwise (·.1 < ·.1)
  deriving Repr

namespace Bindings

def empty : Bindings := ⟨[], .nil⟩

def find? (b : Bindings) (name : String) : Option StmtId := b.entries.lookup name

def contains (b : Bindings) (name : String) : Bool := (b.find? name).isSome

def isEmpty (b : Bindings) : Bool := b.entries.isEmpty

def names (b : Bindings) : List String := b.entries.map (·.1)

def nameOf? (b : Bindings) (id : StmtId) : Option String :=
  (b.entries.find? (·.2 == id)).map (·.1)

def insertEntry (name : String) (id : StmtId) :
    List (String × StmtId) → List (String × StmtId)
  | [] => [(name, id)]
  | e :: es =>
    if name < e.1 then (name, id) :: e :: es
    else if name = e.1 then (name, id) :: es
    else e :: insertEntry name id es

theorem mem_insertEntry {name : String} {id : StmtId} {es : List (String × StmtId)}
    {e : String × StmtId} (h : e ∈ insertEntry name id es) : e = (name, id) ∨ e ∈ es := by
  induction es with
  | nil => simpa [insertEntry] using h
  | cons f fs ih =>
    unfold insertEntry at h
    split at h
    · simpa using h
    · split at h
      · rcases List.mem_cons.1 h with h | h
        · exact Or.inl h
        · exact Or.inr (List.mem_cons_of_mem _ h)
      · rcases List.mem_cons.1 h with h | h
        · exact Or.inr (h ▸ List.mem_cons_self)
        · rcases ih h with h | h
          · exact Or.inl h
          · exact Or.inr (List.mem_cons_of_mem _ h)

theorem sorted_insertEntry (name : String) (id : StmtId) {es : List (String × StmtId)}
    (h : es.Pairwise (·.1 < ·.1)) : (insertEntry name id es).Pairwise (·.1 < ·.1) := by
  induction es with
  | nil => simp [insertEntry]
  | cons f fs ih =>
    obtain ⟨hf, hfs⟩ := List.pairwise_cons.1 h
    unfold insertEntry
    split
    · rename_i hlt
      refine List.pairwise_cons.2 ⟨fun e he => ?_, h⟩
      rcases List.mem_cons.1 he with rfl | he
      · exact hlt
      · exact String.lt_trans hlt (hf e he)
    · rename_i hnlt
      split
      · rename_i heq
        exact List.pairwise_cons.2 ⟨fun e he => heq ▸ hf e he, hfs⟩
      · rename_i hne
        refine List.pairwise_cons.2 ⟨fun e he => ?_, ih hfs⟩
        rcases mem_insertEntry he with rfl | he
        · exact Std.lt_of_le_of_ne (String.not_lt.1 hnlt) (Ne.symm hne)
        · exact hf e he

/-- Binds a name, in place of what it was bound to. -/
def insert (b : Bindings) (name : String) (id : StmtId) : Bindings :=
  ⟨insertEntry name id b.entries, sorted_insertEntry name id b.sorted⟩

theorem lookup_insertEntry (name : String) (id : StmtId) {es : List (String × StmtId)}
    (h : es.Pairwise (·.1 < ·.1)) (other : String) :
    (insertEntry name id es).lookup other = if other = name then some id else es.lookup other := by
  have hcons (k : String) (v : StmtId) (fs : List (String × StmtId)) :
      ((k, v) :: fs).lookup other = if other = k then some v else fs.lookup other := by
    by_cases hk : other = k
    · simp [hk]
    · simp [List.lookup_cons, beq_eq_false_iff_ne.2 hk, hk]
  induction es with
  | nil => simp [insertEntry, hcons]
  | cons f fs ih =>
    obtain ⟨k, v⟩ := f
    unfold insertEntry
    split
    · exact hcons _ _ _
    · split
      · rename_i heq
        obtain rfl : name = k := heq
        rw [hcons, hcons]
        split <;> rfl
      · rename_i hne
        rw [hcons, hcons, ih (List.pairwise_cons.1 h).2]
        split
        · rename_i hok
          have hno : other ≠ name := fun hc => hne (hc.symm.trans hok)
          rw [if_neg hno]
        · rfl

@[simp] theorem find?_insert (b : Bindings) (name : String) (id : StmtId) (other : String) :
    (b.insert name id).find? other = if other = name then some id else b.find? other :=
  lookup_insertEntry name id b.sorted other

/-- The bindings of a list of pairs; a later pair takes precedence. -/
def ofList (es : List (String × StmtId)) : Bindings :=
  es.foldl (fun b e => b.insert e.1 e.2) .empty

/-- The bindings of both maps; the second takes precedence. -/
def union (a b : Bindings) : Bindings := b.entries.foldl (fun m e => m.insert e.1 e.2) a

end Bindings

end MiniJava.Ssa
