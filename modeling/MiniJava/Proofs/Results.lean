import Mathlib.Data.List.Forall2
import Mathlib.Data.List.Nodup

/-!
# Computations that may fail, and lists that correspond
-/

namespace MiniJava

open List

variable {ε α β γ : Type} {R S : α → β → Prop} {a : α} {b : β} {as : List α} {bs : List β} {i : Nat}

/-! ## Success -/

theorem except_bind_eq_ok {x : Except ε α} {f : α → Except ε β} :
    x >>= f = .ok b ↔ ∃ a, x = .ok a ∧ f a = .ok b := by
  cases x with
  | error e =>
    constructor
    · intro h
      cases h
    · rintro ⟨_, h, _⟩
      cases h
  | ok a =>
    constructor
    · exact fun h => ⟨a, rfl, h⟩
    · rintro ⟨_, ⟨⟩, h⟩
      exact h

theorem except_ok_bind (a : α) (f : α → Except ε β) : Except.ok a >>= f = f a := rfl

theorem mapError_eq_ok {ε' : Type} {f : ε → ε'} {x : Except ε α} :
    x.mapError f = .ok a ↔ x = .ok a := by
  cases x <;> simp [Except.mapError]

theorem exists_eq_ok_of_isOk {x : Except ε α} (h : x.isOk = true) : ∃ a, x = .ok a := by
  cases x with
  | ok a => exact ⟨a, rfl⟩
  | error e => cases h

theorem exists_eq_ok_of_map_toOption {x : Except ε α} {f : α → β}
    (h : x.toOption.map f = some b) : ∃ a, x = .ok a ∧ f a = b := by
  cases x with
  | ok a => exact ⟨a, rfl, Option.some.inj h⟩
  | error e => cases h

theorem mapM_eq_ok_iff {f : α → Except ε β} :
    as.mapM f = .ok bs ↔ Forall₂ (fun a b => f a = .ok b) as bs := by
  induction as generalizing bs with
  | nil =>
    constructor
    · rintro ⟨⟩
      exact .nil
    · rintro ⟨⟩
      rfl
  | cons a as ih =>
    rw [mapM_cons, except_bind_eq_ok]
    constructor
    · rintro ⟨b, hb, h⟩
      obtain ⟨bs', hbs, h⟩ := except_bind_eq_ok.1 h
      cases h
      exact .cons hb (ih.1 hbs)
    · rintro (_ | ⟨hb, hbs⟩)
      exact ⟨_, hb, except_bind_eq_ok.2 ⟨_, ih.2 hbs, rfl⟩⟩

theorem exists_mapM_eq_ok {f : α → Except ε β}
    (h : ∀ a ∈ as, ∃ b, f a = .ok b) : ∃ bs, as.mapM f = .ok bs := by
  induction as with
  | nil => exact ⟨[], rfl⟩
  | cons a as ih =>
    obtain ⟨b, hb⟩ := h a mem_cons_self
    obtain ⟨bs, hbs⟩ := ih fun a ha => h a (mem_cons_of_mem _ ha)
    exact ⟨b :: bs, by rw [mapM_cons, hb, hbs]; rfl⟩

/-! ## Lists that correspond -/

theorem forall₂_trans {S : β → γ → Prop} {T : α → γ → Prop} {cs : List γ}
    (h : Forall₂ R as bs) (h' : Forall₂ S bs cs)
    (hT : ∀ a b c, R a b → S b c → T a c) : Forall₂ T as cs := by
  induction h generalizing cs with
  | nil =>
    cases h'
    exact .nil
  | cons hab _ ih =>
    cases h' with
    | cons hbc h' => exact .cons (hT _ _ _ hab hbc) (ih h')

theorem exists_left_of_forall₂ (h : Forall₂ R as bs) (hb : b ∈ bs) : ∃ a ∈ as, R a b := by
  induction h with
  | nil => cases hb
  | cons hr _ ih =>
    rcases mem_cons.1 hb with rfl | hb
    · exact ⟨_, mem_cons_self, hr⟩
    · obtain ⟨a, ha, hr⟩ := ih hb
      exact ⟨a, mem_cons_of_mem _ ha, hr⟩

theorem exists_right_of_forall₂ (h : Forall₂ R as bs) (ha : a ∈ as) : ∃ b ∈ bs, R a b :=
  exists_left_of_forall₂ h.flip ha

theorem forall₂_imp_mem (h : Forall₂ R as bs) (hRS : ∀ a ∈ as, ∀ b, R a b → S a b) :
    Forall₂ S as bs := by
  induction h with
  | nil => exact .nil
  | @cons a b as bs hr _ ih =>
    exact .cons (hRS a mem_cons_self b hr) (ih fun a ha => hRS a (mem_cons_of_mem _ ha))

theorem of_forall₂_one (h : Forall₂ R [a] bs) : ∃ b, bs = [b] ∧ R a b := by
  obtain ⟨b, _, hb, hnil, rfl⟩ := forall₂_cons_left_iff.1 h
  cases hnil
  exact ⟨b, rfl, hb⟩

theorem of_forall₂_two {a' : α} (h : Forall₂ R [a, a'] bs) :
    ∃ b b', bs = [b, b'] ∧ R a b ∧ R a' b' := by
  obtain ⟨b, _, hb, hrest, rfl⟩ := forall₂_cons_left_iff.1 h
  obtain ⟨b', rfl, hb'⟩ := of_forall₂_one hrest
  exact ⟨b, b', rfl, hb, hb'⟩

theorem of_forall₂_three {a' a'' : α} (h : Forall₂ R [a, a', a''] bs) :
    ∃ b b' b'', bs = [b, b', b''] ∧ R a b ∧ R a' b' ∧ R a'' b'' := by
  obtain ⟨b, _, hb, hrest, rfl⟩ := forall₂_cons_left_iff.1 h
  obtain ⟨b', b'', rfl, hb', hb''⟩ := of_forall₂_two hrest
  exact ⟨b, b', b'', rfl, hb, hb', hb''⟩

theorem exists_left_of_getElem? (h : Forall₂ R as bs) (hb : bs[i]? = some b) :
    ∃ a, as[i]? = some a ∧ R a b := by
  induction h generalizing i with
  | nil => cases hb
  | @cons a b' as bs hab _ ih =>
    cases i with
    | zero =>
      cases hb
      exact ⟨a, rfl, hab⟩
    | succ i => exact ih hb

theorem map_eq_of_forall₂ {f : α → γ} {g : β → γ} (h : Forall₂ R as bs)
    (hfg : ∀ a b, R a b → g b = f a) : bs.map g = as.map f := by
  induction h with
  | nil => rfl
  | @cons a b as bs hr _ ih => rw [map_cons, map_cons, hfg a b hr, ih]

theorem lt_of_getElem? (h : as[i]? = some a) : i < as.length := (List.getElem?_eq_some_iff.1 h).1

theorem getElem?_of_prefix {as' : List α} (hp : as <+: as') (h : as[i]? = some a) : as'[i]? = some a := by
  obtain ⟨more, rfl⟩ := hp
  rw [getElem?_append_left (lt_of_getElem? h), h]

section

variable [BEq β] [LawfulBEq β] {key : α → β} (h : (as.map key).Nodup)
include h

theorem find?_eq_some_iff_of_nodup : as.find? (key · == b) = some a ↔ a ∈ as ∧ key a = b := by
  constructor
  · intro hfind
    have hkey := find?_some hfind
    exact ⟨mem_of_find?_eq_some hfind, eq_of_beq hkey⟩
  · rintro ⟨ha, rfl⟩
    cases hfind : as.find? (key · == key a) with
    | none => exact absurd (find?_eq_none.1 hfind a ha) (by simp)
    | some a' =>
      have hkey := find?_some hfind
      rw [inj_on_of_nodup_map h (mem_of_find?_eq_some hfind) ha (eq_of_beq hkey)]

theorem findIdx?_eq_some_iff_of_nodup :
    as.findIdx? (key · == b) = some i ↔ (as.map key)[i]? = some b := by
  rw [findIdx?_eq_some_iff_getElem, getElem?_eq_some_iff]
  constructor
  · rintro ⟨hi, hkey, _⟩
    exact ⟨by rwa [length_map], by rw [getElem_map]; exact eq_of_beq hkey⟩
  · rintro ⟨hi, rfl⟩
    refine ⟨by rwa [length_map] at hi, by rw [getElem_map]; exact beq_self_eq_true _, ?_⟩
    intro j hj hkey
    have hlt : j < (as.map key).length := Nat.lt_trans hj hi
    have heq : (as.map key)[j] = (as.map key)[i] := by
      rw [getElem_map]
      exact eq_of_beq hkey
    exact Nat.ne_of_lt hj (h.getElem_inj_iff.1 heq)

theorem find?_reverse_of_nodup (b : β) : as.reverse.find? (key · == b) = as.find? (key · == b) := by
  refine Option.ext fun a => ?_
  have hrev : (as.reverse.map key).Nodup := by
    rw [map_reverse]
    exact nodup_reverse.2 h
  rw [find?_eq_some_iff_of_nodup h, find?_eq_some_iff_of_nodup hrev, mem_reverse]

end

theorem find?_forall₂ {f : α → Bool} {g : β → Bool} (h : Forall₂ S as bs) (hfg : ∀ a b, S a b → g b = f a) :
    as.find? f = none ∧ bs.find? g = none ∨
      ∃ a b, S a b ∧ as.find? f = some a ∧ bs.find? g = some b := by
  induction h with
  | nil => exact Or.inl ⟨rfl, rfl⟩
  | @cons a b as bs hab _ ih =>
    rw [find?_cons, find?_cons, hfg a b hab]
    cases f a with
    | true => exact Or.inr ⟨a, b, hab, rfl, rfl⟩
    | false => exact ih

theorem findSome?_forall₂ {δ : Type} {R : γ → δ → Prop} {f : α → Option γ} {g : β → Option δ}
    (h : Forall₂ S as bs)
    (hfg : ∀ a b, S a b → f a = none ∧ g b = none ∨ ∃ x y, R x y ∧ f a = some x ∧ g b = some y) :
    as.findSome? f = none ∧ bs.findSome? g = none ∨
      ∃ x y, R x y ∧ as.findSome? f = some x ∧ bs.findSome? g = some y := by
  induction h with
  | nil => exact Or.inl ⟨rfl, rfl⟩
  | @cons a b as bs hab _ ih =>
    rw [findSome?_cons, findSome?_cons]
    rcases hfg a b hab with ⟨ha, hb⟩ | ⟨x, y, hr, ha, hb⟩
    · rw [ha, hb]
      exact ih
    · rw [ha, hb]
      exact Or.inr ⟨x, y, hr, rfl, rfl⟩

end MiniJava
