import MiniJava.Proofs.Assembly.Provision
import MiniJava.Proofs.Semantics.Effect
import MiniJava.Proofs.Soundness.Fields

/-!
# Typed values and safe operations

A value has a type in a heap: an object has the type of its class and all types above it. A heap is
typed if every object belongs to a class of the program and holds a value of the declared type for each
field of the classes on its chain. Operations never change the class of an object, so a value keeps its
types while the heap grows.
-/

namespace MiniJava

open Ssa List TypeTable

/-! ## Values -/

def HeapCell.class? : HeapCell → Option String
  | .object className _ => some className
  | .array _ => none

def HeapCell.type? (types : TypeTable) (cell : HeapCell) : Option TypeId :=
  match cell.class? with
  | some className => types.lookup? className
  | none => some .intArray

def Value.HasType (types : TypeTable) (heap : List HeapCell) (v : Value) (t : TypeId) : Prop :=
  match v with
  | .int _ => t = .int
  | .bool _ => t = .boolean
  | .null => types.isObject t = true
  | .ref a => ∃ cell u, heap[a]? = some cell ∧ cell.type? types = some u ∧ types.isSubtype u t = true

/-- A later heap: there may be more on it, and what was there has kept its class. -/
def HeapExtends (heap heap' : List HeapCell) : Prop := heap.map (·.class?) <+: heap'.map (·.class?)

namespace HeapExtends

variable {heap heap₁ heap₂ : List HeapCell} {a : Nat} {cell : HeapCell}

theorem refl (heap : List HeapCell) : HeapExtends heap heap := prefix_rfl

theorem trans (h : HeapExtends heap heap₁) (h' : HeapExtends heap₁ heap₂) : HeapExtends heap heap₂ :=
  List.IsPrefix.trans h h'

theorem append (heap : List HeapCell) (more : List HeapCell) : HeapExtends heap (heap ++ more) := by
  rw [HeapExtends, map_append]
  exact prefix_append _ _

theorem set (h : heap[a]? = some cell) {cell' : HeapCell} (hclass : cell'.class? = cell.class?) :
    HeapExtends heap (heap.set a cell') := by
  have hsame : (heap.set a cell').map (·.class?) = heap.map (·.class?) := by
    rw [map_set, hclass]
    refine ext_getElem? fun i => ?_
    rw [getElem?_set]
    split
    · next heq =>
      subst heq
      rw [getElem?_map, h, length_map]
      simp [(lt_of_getElem? h)]
    · rfl
  rw [HeapExtends, hsame]

theorem exists_getElem? (h : HeapExtends heap heap₁) (ha : heap[a]? = some cell) :
    ∃ cell', heap₁[a]? = some cell' ∧ cell'.class? = cell.class? := by
  obtain ⟨more, hmore⟩ := h
  have hclass : (heap.map (·.class?))[a]? = some cell.class? := by
    rw [getElem?_map, ha]
    rfl
  have hlater : (heap₁.map (·.class?))[a]? = some cell.class? := by
    rw [← hmore, getElem?_append_left (lt_of_getElem? hclass), hclass]
  rwa [getElem?_map, Option.map_eq_some_iff] at hlater

end HeapExtends

namespace Value.HasType

variable {types : TypeTable} {cs : List ClassDef} {heap heap' : List HeapCell} {v : Value}
  {t t' : TypeId}

theorem extend (h : v.HasType types heap t) (hext : HeapExtends heap heap') :
    v.HasType types heap' t := by
  cases v with
  | ref a =>
    obtain ⟨cell, u, hcell, hu, hsub⟩ := h
    obtain ⟨cell', hcell', hclass⟩ := hext.exists_getElem? hcell
    refine ⟨cell', u, hcell', ?_, hsub⟩
    rwa [HeapCell.type?, hclass]
  | int _ | bool _ | null => exact h

theorem mono (h : v.HasType types heap t) (hh : types.Hierarchy cs)
    (hsub : types.isSubtype t t' = true) : v.HasType types heap t' := by
  cases v with
  | ref a =>
    obtain ⟨cell, u, hcell, hu, hsub'⟩ := h
    exact ⟨cell, u, hcell, hu, hh.isSubtype_trans hsub' hsub⟩
  | null => exact (hh.isObject_iff_of_isSubtype hsub).1 h
  | int _ =>
    obtain rfl : t = .int := h
    exact hh.eq_of_isSubtype hsub (isObject_eq (hh.get?_builtin
      (show builtin.get? .int = some _ from rfl)))
  | bool _ =>
    obtain rfl : t = .boolean := h
    exact hh.eq_of_isSubtype hsub (isObject_eq (hh.get?_builtin
      (show builtin.get? .boolean = some _ from rfl)))

end Value.HasType

/-! ## Heaps -/

def CellTyped (cx : TypeContext) (naming : FieldNaming) (heap : List HeapCell) : HeapCell → Prop
  | .object className fields => (∃ c ∈ cx.classes, c.name = className) ∧
      ∀ c ∈ chainIn cx.classes className, ∀ f ∈ c.fields, ∃ v t,
        fields.lookup (naming c.name f.name) = some v ∧ f.type? = some t ∧ v.HasType cx.types heap t
  | .array _ => True

def HeapTyped (cx : TypeContext) (naming : FieldNaming) (heap : List HeapCell) : Prop :=
  ∀ cell ∈ heap, CellTyped cx naming heap cell

section Heaps

variable {cx : TypeContext} {naming : FieldNaming} {heap heap' : List HeapCell} {cell : HeapCell}
  {a : Nat} {v : Value} {t u : TypeId}

theorem CellTyped.extend (h : CellTyped cx naming heap cell) (hext : HeapExtends heap heap') :
    CellTyped cx naming heap' cell := by
  cases cell with
  | array _ => trivial
  | object className fields =>
    refine ⟨h.1, fun c hc f hf => ?_⟩
    obtain ⟨v, t, hv, ht, htyped⟩ := h.2 c hc f hf
    exact ⟨v, t, hv, ht, htyped.extend hext⟩

namespace HeapTyped

theorem append (h : HeapTyped cx naming heap) (hcell : CellTyped cx naming (heap ++ [cell]) cell) :
    HeapTyped cx naming (heap ++ [cell]) := by
  intro other hmem
  rcases List.mem_append.1 hmem with hmem | hmem
  · exact (h other hmem).extend (.append heap [cell])
  · rw [List.mem_singleton.1 hmem]
    exact hcell

theorem set (h : HeapTyped cx naming heap) {old : HeapCell} (ha : heap[a]? = some old)
    (hclass : cell.class? = old.class?) (hcell : CellTyped cx naming (heap.set a cell) cell) :
    HeapTyped cx naming (heap.set a cell) := by
  intro other hmem
  rcases mem_or_eq_of_mem_set hmem with hmem | rfl
  · exact (h other hmem).extend (.set ha hclass)
  · exact hcell

theorem type?_object (h : HeapTyped cx naming heap) (hl : cx.Lawful) {className : String}
    {fields : List (String × Value)} (ha : heap[a]? = some (.object className fields))
    (hu : HeapCell.type? cx.types (.object className fields) = some u) :
    cx.types.name u = className ∧ cx.types.isObject u = true ∧ u ≠ .intArray := by
  obtain ⟨⟨c, hc, rfl⟩, _⟩ := h _ (mem_of_getElem? ha)
  obtain ⟨e, he, hname⟩ := of_lookup? hu
  obtain ⟨_, rfl, _, _, hle⟩ := hl.hierarchy.of_class hc he hname
  refine ⟨name_eq he, isObject_eq he, ?_⟩
  rintro rfl
  exact absurd hle (by decide)

theorem isObject (h : HeapTyped cx naming heap) (hl : cx.Lawful) (ha : heap[a]? = some cell)
    (hu : cell.type? cx.types = some u) : cx.types.isObject u = true := by
  cases cell with
  | object className fields => exact (h.type?_object hl ha hu).2.1
  | array items =>
    cases hu
    exact isObject_eq (hl.hierarchy.get?_builtin
      (show builtin.get? .intArray = some _ from rfl))

end HeapTyped

/-! ### Values of certain types -/

namespace Value.HasType

theorem not_ref (h : v.HasType cx.types heap t) (hh : HeapTyped cx naming heap) (hl : cx.Lawful)
    (ht : cx.types.isObject t = false) :
    (∃ n, v = .int n ∧ t = .int) ∨ ∃ b, v = .bool b ∧ t = .boolean := by
  cases v with
  | int n => exact Or.inl ⟨n, rfl, h⟩
  | bool b => exact Or.inr ⟨b, rfl, h⟩
  | null =>
    rw [show cx.types.isObject t = true from h] at ht
    cases ht
  | ref a =>
    obtain ⟨cell, u, hcell, hu, hsub⟩ := h
    rw [(hl.hierarchy.isObject_iff_of_isSubtype hsub).1 (hh.isObject hl hcell hu)] at ht
    cases ht

theorem int (h : v.HasType cx.types heap .int) (hh : HeapTyped cx naming heap) (hl : cx.Lawful) :
    ∃ n, v = .int n := by
  have hnot : cx.types.isObject .int = false := isObject_eq (hl.hierarchy.get?_builtin
    (show builtin.get? .int = some _ from rfl))
  rcases h.not_ref hh hl hnot with ⟨n, rfl, _⟩ | ⟨_, _, heq⟩
  · exact ⟨n, rfl⟩
  · cases heq

theorem boolean (h : v.HasType cx.types heap .boolean) (hh : HeapTyped cx naming heap)
    (hl : cx.Lawful) : ∃ b, v = .bool b := by
  have hnot : cx.types.isObject .boolean = false := isObject_eq (hl.hierarchy.get?_builtin
    (show builtin.get? .boolean = some _ from rfl))
  rcases h.not_ref hh hl hnot with ⟨_, _, heq⟩ | ⟨b, rfl, _⟩
  · cases heq
  · exact ⟨b, rfl⟩

theorem reference (h : v.HasType cx.types heap t) (hl : cx.Lawful)
    (ht : cx.types.isObject t = true) : v = .null ∨ ∃ a cell u, v = .ref a ∧
      heap[a]? = some cell ∧ cell.type? cx.types = some u ∧ cx.types.isSubtype u t = true := by
  have hnot : ∀ {id e}, builtin.get? id = some e → e.isObject = false → t ≠ id := by
    rintro id e hid he rfl
    rw [isObject_eq (hl.hierarchy.get?_builtin hid), he] at ht
    cases ht
  cases v with
  | int _ => exact absurd h (hnot (show builtin.get? .int = some _ from rfl) rfl)
  | bool _ => exact absurd h (hnot (show builtin.get? .boolean = some _ from rfl) rfl)
  | null => exact Or.inl rfl
  | ref a =>
    obtain ⟨cell, u, hcell⟩ := h
    exact Or.inr ⟨a, cell, u, rfl, hcell⟩

theorem intArray (h : v.HasType cx.types heap .intArray) (hh : HeapTyped cx naming heap)
    (hl : cx.Lawful) : v = .null ∨ ∃ a items, v = .ref a ∧ heap[a]? = some (.array items) := by
  have hobj : cx.types.isObject .intArray = true := isObject_eq
    (hl.hierarchy.get?_builtin (show builtin.get? .intArray = some _ from rfl))
  rcases h.reference hl hobj with rfl | ⟨a, cell, u, rfl, hcell, hu, hsub⟩
  · exact Or.inl rfl
  · cases cell with
    | array items => exact Or.inr ⟨a, items, rfl, hcell⟩
    | object className fields =>
      have hne := (hh.type?_object hl hcell hu).2.2
      exact absurd (hl.hierarchy.eq_intArray_of_isSubtype hsub) hne

end Value.HasType

end Heaps

/-! ## Safe effects -/

def Stop.isBenign : Stop → Bool
  | .unfinished => true
  | .fault .nullReference | .fault .divisionByZero | .fault .negativeSize
  | .fault .indexOutOfRange => true
  | .fault _ => false

def Safe {α : Type} (cx : TypeContext) (naming : FieldNaming) (w : World) (x : Effect α)
    (post : List HeapCell → α → Prop) : Prop :=
  match x w with
  | .ok a w' => HeapExtends w.heap w'.heap ∧ HeapTyped cx naming w'.heap ∧ post w'.heap a
  | .error e _ => e.isBenign = true

section Effects

variable {α β : Type} {cx : TypeContext} {naming : FieldNaming} {w w' : World} {x : Effect α}
  {f : α → Effect β} {a : α} {P P' : List HeapCell → α → Prop} {Q : List HeapCell → β → Prop}

namespace Safe

theorem of_ok (h : x w = .ok a w') (hext : HeapExtends w.heap w'.heap)
    (hh : HeapTyped cx naming w'.heap) (hpost : P w'.heap a) : Safe cx naming w x P := by
  rw [Safe, h]
  exact ⟨hext, hh, hpost⟩

theorem of_error {e : Stop} (h : x w = .error e w') (he : e.isBenign = true) :
    Safe cx naming w x P := by
  rw [Safe, h]
  exact he

theorem congr {y : Effect α} (h : x w = y w) (hy : Safe cx naming w y P) :
    Safe cx naming w x P := by
  rwa [Safe, h]

theorem pure (hh : HeapTyped cx naming w.heap) (hpost : P w.heap a) :
    Safe cx naming w (pure a) P := of_ok rfl (.refl _) hh hpost

theorem mono (h : Safe cx naming w x P) (hpost : ∀ heap a, P heap a → P' heap a) :
    Safe cx naming w x P' := by
  rw [Safe] at h ⊢
  split at h
  · exact ⟨h.1, h.2.1, hpost _ _ h.2.2⟩
  · exact h

/-- **One effect after another.** -/
theorem bind (h : Safe cx naming w x P) (hf : ∀ a w', HeapExtends w.heap w'.heap →
    HeapTyped cx naming w'.heap → P w'.heap a → Safe cx naming w' (f a) Q) :
    Safe cx naming w (x >>= f) Q := by
  rw [Safe] at h
  split at h
  · next a w' hx =>
    have hrest := hf a w' h.1 h.2.1 h.2.2
    rw [Safe] at hrest
    rw [Safe, bind_of_ok hx]
    split at hrest
    · exact ⟨h.1.trans hrest.1, hrest.2⟩
    · exact hrest
  · next e w' hx => exact of_error (bind_of_error hx) h

theorem map {g : α → β} (h : Safe cx naming w x fun heap a => Q heap (g a)) :
    Safe cx naming w (g <$> x) Q := by
  rw [map_eq_pure_bind]
  exact h.bind fun a w' _ hh hpost => .pure hh hpost

end Safe

/-! ## Operators -/

variable {types : TypeTable} {heap : List HeapCell} {u v : Value} {t left right : TypeId}

theorem division_of_ne {f : Int32 → Int32 → Int32} {m n : Int32} (hn : n ≠ 0) :
    BinOp.division f (.int m) (.int n) = pure (.int (f m n)) := by
  simp only [BinOp.division, BinOp.onInts, Value.toInt, pure_bind, if_neg hn]

section

variable (hl : cx.Lawful) (hh : HeapTyped cx naming w.heap)
include hl hh

theorem safe_apply {op : BinOp} (hop : TypeContext.BinaryFollows (some left) (some right) t op)
    (hu : u.HasType cx.types w.heap left) (hv : v.HasType cx.types w.heap right) :
    Safe cx naming w (op.apply u v) fun heap r => r.HasType cx.types heap t := by
  cases op with
  | eq | ne =>
    obtain ⟨_, _, rfl⟩ := hop
    exact .pure hh rfl
  | and | or =>
    obtain ⟨hleft, hright, rfl⟩ := hop
    cases hleft
    cases hright
    obtain ⟨p, rfl⟩ := hu.boolean hh hl
    obtain ⟨q, rfl⟩ := hv.boolean hh hl
    exact .pure hh rfl
  | add | sub | mul | lt | le | gt | ge =>
    obtain ⟨hleft, hright, rfl⟩ := hop
    cases hleft
    cases hright
    obtain ⟨m, rfl⟩ := hu.int hh hl
    obtain ⟨n, rfl⟩ := hv.int hh hl
    exact .pure hh rfl
  | div | mod =>
    obtain ⟨hleft, hright, rfl⟩ := hop
    cases hleft
    cases hright
    obtain ⟨m, rfl⟩ := hu.int hh hl
    obtain ⟨n, rfl⟩ := hv.int hh hl
    -- Both stop exactly if the divisor is zero.
    by_cases hn : n = 0
    · subst hn
      exact .of_error rfl rfl
    · change Safe cx naming w (BinOp.division _ _ _) _
      rw [division_of_ne hn]
      exact .pure hh rfl

theorem safe_negate (hv : v.HasType cx.types w.heap .boolean) :
    Safe cx naming w v.negate fun heap r => r.HasType cx.types heap .boolean := by
  obtain ⟨b, rfl⟩ := hv.boolean hh hl
  exact .pure hh rfl

theorem safe_printInt (hv : v.HasType cx.types w.heap .int) :
    Safe cx naming w (printInt v) fun _ _ => True := by
  obtain ⟨n, rfl⟩ := hv.int hh hl
  exact .of_ok rfl (.refl _) hh trivial

end

/-! ## Objects and arrays -/

theorem deref_ref {a : Nat} {cell : HeapCell} (h : w.heap[a]? = some cell) :
    deref (.ref a) w = .ok (a, cell) w := by
  rw [deref, bind_of_ok (show (get : Effect World) w = .ok w w from rfl)]
  simp only [h]
  rfl

theorem safe_allocate {cell : HeapCell} (hh : HeapTyped cx naming w.heap)
    (hcell : CellTyped cx naming (w.heap ++ [cell]) cell) (ht : cell.type? cx.types = some t) :
    Safe cx naming w (allocate cell) fun heap r => r.HasType cx.types heap t := by
  have hat : (w.heap ++ [cell])[w.heap.length]? = some cell := getElem?_concat_length
  exact .of_ok rfl (.append _ _) (hh.append hcell)
    ⟨cell, t, hat, ht, TypeTable.Hierarchy.isSubtype_refl _ _⟩

section

variable (hl : cx.Lawful) (hh : HeapTyped cx naming w.heap)
include hl hh

theorem safe_newArray (hv : v.HasType cx.types w.heap .int) :
    Safe cx naming w (newArray v) fun heap r => r.HasType cx.types heap .intArray := by
  obtain ⟨n, rfl⟩ := hv.int hh hl
  rw [newArray, Value.toInt, pure_bind]
  split
  · exact .of_error rfl rfl
  · exact safe_allocate hh trivial rfl

theorem safe_readLength (hv : v.HasType cx.types w.heap .intArray) :
    Safe cx naming w (readMember v "length") fun heap r => r.HasType cx.types heap .int := by
  rcases hv.intArray hh hl with rfl | ⟨a, items, rfl, ha⟩
  · exact .of_error rfl rfl
  · rw [Safe, readMember, bind_of_ok (deref_ref ha)]
    exact ⟨.refl _, hh, rfl⟩

theorem safe_readIndex (hu : u.HasType cx.types w.heap .intArray)
    (hv : v.HasType cx.types w.heap .int) :
    Safe cx naming w (readIndex u v) fun heap r => r.HasType cx.types heap .int := by
  obtain ⟨i, rfl⟩ := hv.int hh hl
  rcases hu.intArray hh hl with rfl | ⟨a, items, rfl, ha⟩
  · exact .of_error rfl rfl
  · rw [Safe, readIndex, bind_of_ok (deref_ref ha)]
    simp only [Value.toInt, pure_bind]
    cases (position? items i).bind (items[·]?) with
    | none => rfl
    | some n => exact ⟨.refl _, hh, rfl⟩

theorem safe_writeIndex {index : Value} (hu : u.HasType cx.types w.heap .intArray)
    (hv : v.HasType cx.types w.heap .int) (hi : index.HasType cx.types w.heap .int) :
    Safe cx naming w (writeIndex u v index) fun _ _ => True := by
  obtain ⟨n, rfl⟩ := hv.int hh hl
  obtain ⟨i, rfl⟩ := hi.int hh hl
  rcases hu.intArray hh hl with rfl | ⟨a, items, rfl, ha⟩
  · exact .of_error rfl rfl
  · rw [Safe, writeIndex, bind_of_ok (deref_ref ha)]
    simp only [Value.toInt, pure_bind]
    cases position? items i with
    | none => rfl
    | some p => exact ⟨.set ha rfl, hh.set ha rfl trivial, trivial⟩

end

end Effects

/-! ## Fields -/

section Members

variable {cx : TypeContext} {naming : FieldNaming} {w : World} {u v : Value} {t type value : TypeId}
  {field : String}

theorem exists_find?_of_findSome? {α β γ : Type} {g : α → Option β} {h : β → Option γ} {l : List α}
    {c : γ} (hall : ∀ a ∈ l, ∀ b, g a = some b → (h b).isSome = true)
    (hc : l.findSome? (fun a => (g a).bind h) = some c) :
    ∃ a b, l.find? (fun a => (g a).isSome) = some a ∧ g a = some b ∧ h b = some c := by
  induction l with
  | nil => cases hc
  | cons a l ih =>
    rw [forall_mem_cons] at hall
    rw [findSome?_cons] at hc
    rw [find?_cons]
    cases hg : g a with
    | none =>
      rw [hg] at hc
      exact ih hall.2 hc
    | some b =>
      obtain ⟨c', hc'⟩ := Option.isSome_iff_exists.1 (hall.1 b hg)
      rw [hg, Option.bind_some, hc'] at hc
      exact ⟨a, b, rfl, hg, hc'.trans hc⟩

theorem TypeContext.Lawful.resolve_field (hl : cx.Lawful) {c : ClassDef} (hc : c ∈ cx.classes)
    {f : Field} (hf : f ∈ c.fields) : ∃ t, f.type? = some t ∧ cx.types.resolve f.decl = .ok t := by
  obtain ⟨decl, hdecl⟩ := hl.resolved c hc
  obtain ⟨fields, _, hfields, _, rfl⟩ := ClassDef.resolve_eq_ok.1 hdecl
  obtain ⟨f₀, _, hf₀⟩ := exists_left_of_forall₂ hfields hf
  obtain ⟨t, ht, rfl⟩ := Field.resolve_eq_ok.1 hf₀
  exact ⟨t, rfl, ht⟩

theorem TypeContext.Lawful.exists_owner (hl : cx.Lawful) (naming : FieldNaming)
    (ht : cx.types.Has t) (hf : cx.fieldType? t field = some type) :
    ∃ owner ∈ chainIn cx.classes (cx.types.name t), ∃ f ∈ owner.fields, f.type? = some type ∧
      naming.access cx.types cx.classes t field = naming owner.name f.name := by
  obtain ⟨e, he⟩ := ht
  rw [hl.fieldType?_eq he] at hf
  have hall : ∀ c ∈ chainIn cx.classes (cx.types.name t), ∀ f, c.field? field = some f →
      f.type?.isSome = true := by
    intro c hc f hf
    obtain ⟨_, ht, _⟩ := hl.resolve_field (mem_of_mem_chainIn hc) (mem_of_find?_eq_some hf)
    rw [ht]
    rfl
  obtain ⟨owner, f, howner, hf, htype⟩ := exists_find?_of_findSome? hall hf
  have hname : f.name = field := by simpa using find?_some hf
  refine ⟨owner, mem_of_find?_eq_some howner, f, mem_of_find?_eq_some hf, htype, ?_⟩
  rw [FieldNaming.access, fieldOwner?, howner, hname]

/-- **An object has the fields of its types.** -/
theorem HeapTyped.exists_owner {heap : List HeapCell} (hh : HeapTyped cx naming heap)
    (hl : cx.Lawful) {a : Nat} {cell : HeapCell} (ha : heap[a]? = some cell) {u : TypeId}
    (hu : cell.type? cx.types = some u) (hsub : cx.types.isSubtype u t = true)
    (ht : cx.types.Has t) (hf : cx.fieldType? t field = some type) :
    ∃ className fields, cell = .object className fields ∧
      ∃ owner ∈ chainIn cx.classes className, ∃ f ∈ owner.fields, f.type? = some type ∧
        naming.access cx.types cx.classes t field = naming owner.name f.name := by
  obtain ⟨owner, howner, f, hf, htype, haccess⟩ := hl.exists_owner naming ht hf
  obtain ⟨e, he⟩ := ht
  have hmem : ∀ {e'}, cx.types.get? u = some e' → owner ∈ chainIn cx.classes (cx.types.name u) :=
    fun he' => (hl.hierarchy.chainIn_suffix he' he hsub).subset howner
  cases cell with
  | object className fields =>
    obtain ⟨e', he', _⟩ := of_lookup? hu
    rw [← (hh.type?_object hl ha hu).1]
    exact ⟨_, fields, by rw [(hh.type?_object hl ha hu).1], owner, hmem he', f, hf, htype, haccess⟩
  | array items =>
    cases hu
    obtain ⟨e', he'⟩ := hl.has_intArray
    exact absurd rfl (TypeContext.Describes.ne_intArray hl (hmem he'))

theorem safe_readMember (hl : cx.Lawful) (hh : HeapTyped cx naming w.heap)
    (hv : v.HasType cx.types w.heap t) (hobj : cx.types.isObject t = true) (ht : cx.types.Has t)
    (hf : cx.fieldType? t field = some type) :
    Safe cx naming w (readMember v (naming.access cx.types cx.classes t field))
      fun heap r => r.HasType cx.types heap type := by
  rcases hv.reference hl hobj with rfl | ⟨a, cell, u, rfl, ha, hu, hsub⟩
  · exact .of_error rfl rfl
  · obtain ⟨className, fields, rfl, owner, howner, f, hf, htype, haccess⟩ :=
      hh.exists_owner hl ha hu hsub ht hf
    obtain ⟨r, t', hlookup, ht', hr⟩ := (hh _ (mem_of_getElem? ha)).2 owner howner f hf
    rw [htype] at ht'
    cases ht'
    refine .of_ok (a := r) ?_ (.refl _) hh hr
    rw [readMember, bind_of_ok (deref_ref ha)]
    simp only [haccess, hlookup]
    rfl

theorem lookup_setField (name key : String) (v : Value) (fields : List (String × Value)) :
    (setField name v fields).lookup key = if key = name then some v else fields.lookup key := by
  rw [setField, lookup_cons]
  by_cases hkey : key = name
  · rw [if_pos hkey, beq_iff_eq.2 hkey]
  · rw [if_neg hkey, beq_eq_false_iff_ne.2 hkey]
    change (fields.filter (·.1 != name)).lookup key = fields.lookup key
    induction fields with
    | nil => rfl
    | cons e fields ih =>
      rw [lookup_cons]
      by_cases he : e.1 = name
      · rw [filter_cons_of_neg (by simp [he]), ih, he, beq_eq_false_iff_ne.2 hkey]
      · rw [filter_cons_of_pos (by simp [he]), lookup_cons, ih]

theorem safe_writeMember (hl : cx.Lawful) (hagree : FieldsAgree naming cx.classes)
    (hh : HeapTyped cx naming w.heap) (hu : u.HasType cx.types w.heap t)
    (hobj : cx.types.isObject t = true) (ht : cx.types.Has t)
    (hf : cx.fieldType? t field = some type) (hv : v.HasType cx.types w.heap type) :
    Safe cx naming w (writeMember u v (naming.access cx.types cx.classes t field))
      fun _ _ => True := by
  rcases hu.reference hl hobj with rfl | ⟨a, cell, u, rfl, ha, hu, hsub⟩
  · exact .of_error rfl rfl
  · obtain ⟨className, fields, rfl, owner, howner, f, hf, htype, haccess⟩ :=
      hh.exists_owner hl ha hu hsub ht hf
    obtain ⟨hclass, hfields⟩ := hh _ (mem_of_getElem? ha)
    rw [Safe, writeMember, bind_of_ok (deref_ref ha), haccess]
    have hext : HeapExtends w.heap (w.heap.set a
        (.object className (setField (naming owner.name f.name) v fields))) := .set ha rfl
    refine ⟨hext, hh.set ha rfl ⟨hclass, fun c hc g hg => ?_⟩, trivial⟩
    rw [lookup_setField]
    split
    · next heq =>
      exact ⟨v, type, rfl, (hagree _ c hc owner howner g hg f hf heq).trans htype, hv.extend hext⟩
    · obtain ⟨r, t', hlookup, ht', hr⟩ := hfields c hc g hg
      exact ⟨r, t', hlookup, ht', hr.extend hext⟩

end Members

end MiniJava
