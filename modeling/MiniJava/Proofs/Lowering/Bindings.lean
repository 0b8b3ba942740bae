import MiniJava.Ssa.Scope

/-!
# Look-ups in bindings

What each operation on bindings does to look-ups. The sorted list behind a map is not mentioned after
this file: a map is the function `find?`, and two names are bound once each.
-/

namespace MiniJava.Ssa

open List

variable {b : Bindings} {x : String} {id : StmtId}

namespace Bindings

@[simp] theorem find?_empty (x : String) : empty.find? x = none := rfl

theorem mem_entries : (x, id) ∈ b.entries ↔ b.find? x = some id := by
  obtain ⟨es, hs⟩ := b
  change (x, id) ∈ es ↔ es.lookup x = some id
  induction es with
  | nil => simp
  | cons e es ih =>
    obtain ⟨k, v⟩ := e
    obtain ⟨hlt, hs⟩ := pairwise_cons.1 hs
    by_cases hk : x = k
    · subst hk
      have hnot : (x, id) ∉ es := fun h => String.lt_irrefl x (hlt _ h)
      simp [hnot, eq_comm]
    · simp [lookup_cons, beq_eq_false_iff_ne.2 hk, hk, ih hs]

theorem mem_names : x ∈ b.names ↔ (b.find? x).isSome = true := by
  rw [Option.isSome_iff_exists, names, mem_map]
  constructor
  · rintro ⟨⟨_, id⟩, h, rfl⟩
    exact ⟨id, mem_entries.1 h⟩
  · rintro ⟨id, h⟩
    exact ⟨(x, id), mem_entries.2 h, rfl⟩

theorem nodup_names (b : Bindings) : b.names.Nodup := by
  refine pairwise_map.2 (b.sorted.imp fun {e f} h => ?_)
  exact String.ne_of_lt h

theorem isEmpty_iff : b.isEmpty = true ↔ ∀ x, b.find? x = none := by
  constructor
  · intro h x
    have hnil : b.entries = [] := List.isEmpty_iff.1 h
    rw [find?, hnil]
    rfl
  · intro h
    refine List.isEmpty_iff.2 (List.eq_nil_iff_forall_not_mem.2 fun e he => ?_)
    have hfind : b.find? e.1 = some e.2 := mem_entries.1 he
    rw [h] at hfind
    cases hfind

theorem find?_foldl_insert {f : String → StmtId} {es : List (String × StmtId)} :
    ∀ {b : Bindings}, (∀ e ∈ es, e.2 = f e.1) → ∀ x,
      (es.foldl (fun m e => m.insert e.1 e.2) b).find? x =
        if x ∈ es.map (·.1) then some (f x) else b.find? x := by
  induction es with
  | nil => simp
  | cons e es ih =>
    intro b h x
    rw [foldl_cons, ih fun e' he' => h e' (mem_cons_of_mem _ he'), find?_insert]
    by_cases hx : x ∈ es.map (·.1)
    · simp [hx]
    · rw [if_neg hx]
      by_cases hxe : x = e.1
      · subst hxe
        simp [h e mem_cons_self]
      · have hnot : x ∉ (e :: es).map (·.1) := by
          rw [map_cons, mem_cons]
          exact fun h => h.elim hxe hx
        rw [if_neg hxe, if_neg hnot]

@[simp] theorem find?_union (a b : Bindings) (x : String) :
    (a.union b).find? x = (b.find? x).or (a.find? x) := by
  have hf : ∀ e ∈ b.entries, e.2 = (b.find? e.1).getD 0 := by
    intro e he
    have hfind : b.find? e.1 = some e.2 := mem_entries.1 he
    rw [hfind]
    rfl
  rw [union, find?_foldl_insert (f := fun x => (b.find? x).getD 0) hf]
  change (if x ∈ b.names then _ else _) = _
  cases h : b.find? x with
  | none => rw [if_neg (by simp [mem_names, h])]; rfl
  | some id => rw [if_pos (by simp [mem_names, h])]; rfl

theorem nameOf?_eq_some (h : b.nameOf? id = some x) : b.find? x = some id := by
  obtain ⟨⟨k, v⟩, hfind, rfl⟩ := Option.map_eq_some_iff.1 h
  have hv : v = id := by simpa using find?_some hfind
  exact hv ▸ mem_entries.1 (mem_of_find?_eq_some hfind)

theorem nameOf?_eq_none (h : b.nameOf? id = none) (x : String) : b.find? x ≠ some id := by
  intro hx
  have := find?_eq_none.1 (Option.map_eq_none_iff.1 h) _ (mem_entries.2 hx)
  simp at this

end Bindings

namespace Scope

@[simp] theorem locals_rebind (sc : Scope) (x : String) (id : StmtId) (y : String) :
    (sc.rebind x id).locals.find? y = if y = x then some id else sc.locals.find? y :=
  Bindings.find?_insert ..

theorem find?_restore (sc : Scope) (captured : Bindings) (x : String) :
    (sc.restore captured).1.find? x =
      if (captured.find? x).isSome then sc.locals.find? x else none := by
  let latest := captured.names.filterMap fun name => (sc.locals.find? name).map (name, ·)
  have hf : ∀ e ∈ latest, e.2 = (sc.locals.find? e.1).getD 0 := by
    intro e he
    obtain ⟨name, _, he⟩ := mem_filterMap.1 he
    obtain ⟨id, hid, rfl⟩ := Option.map_eq_some_iff.1 he
    simp [hid]
  have hmem : x ∈ latest.map (·.1) ↔
      (captured.find? x).isSome = true ∧ (sc.locals.find? x).isSome = true := by
    rw [← Bindings.mem_names, Option.isSome_iff_exists]
    constructor
    · intro h
      obtain ⟨e, he, rfl⟩ := mem_map.1 h
      obtain ⟨name, hname, he⟩ := mem_filterMap.1 he
      obtain ⟨id, hid, rfl⟩ := Option.map_eq_some_iff.1 he
      exact ⟨hname, id, hid⟩
    · rintro ⟨hname, id, hid⟩
      exact mem_map.2 ⟨(x, id), mem_filterMap.2 ⟨x, hname, by simp [hid]⟩, rfl⟩
  change (Bindings.ofList latest).find? x = _
  rw [Bindings.ofList, Bindings.find?_foldl_insert (f := fun x => (sc.locals.find? x).getD 0) hf,
    Bindings.find?_empty]
  cases hx : sc.locals.find? x with
  | none => simp [hmem, hx]
  | some id => simp [hmem, hx]

@[simp] theorem locals_restore (sc : Scope) (captured : Bindings) (x : String) :
    (sc.restore captured).2.locals.find? x = (captured.find? x).or (sc.locals.find? x) :=
  Bindings.find?_union ..

end Scope

end MiniJava.Ssa
