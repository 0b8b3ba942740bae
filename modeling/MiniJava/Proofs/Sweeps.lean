import MiniJava.Proofs.Results
import MiniJava.Ssa.Sweep

/-!
# What sweeps keep

A sweep goes over the methods of a program with a state. Three things are used about it: what every
step keeps of a method holds after the sweep, whether it fails or not; if a sweep succeeds, each
method went through a step from a state with the invariant; and a sweep succeeds if each step does.
-/

namespace MiniJava.Ssa

open List Program

/-! ## Lists -/

section Lists

variable {σ α ε : Type} {f : σ → α → α × Except ε σ} {R : α → α → Prop} {I : σ → Prop} {s s' : σ}
  {as bs : List α}

theorem forall₂_sweep (hrefl : ∀ a, R a a) (hstep : ∀ s a, R a (f s a).1) (s : σ) (as : List α) :
    List.Forall₂ R as (sweep f s as).1 := by
  induction as generalizing s with
  | nil => exact .nil
  | cons a as ih =>
    unfold sweep
    have ha := hstep s a
    split
    · next b s' heq =>
      rw [heq] at ha
      exact .cons ha (ih s')
    · next b e heq =>
      rw [heq] at ha
      exact .cons ha (forall₂_same.2 fun a _ => hrefl a)

theorem sweep_cons_eq_ok {a : α} (h : sweep f s (a :: as) = (bs, .ok s')) :
    ∃ b s₁ bs', bs = b :: bs' ∧ f s a = (b, .ok s₁) ∧ sweep f s₁ as = (bs', .ok s') := by
  rw [sweep] at h
  split at h
  · next b s₁ heq =>
    obtain ⟨rfl, hok⟩ := Prod.mk.inj h
    exact ⟨b, s₁, _, rfl, heq, Prod.ext rfl hok⟩
  · cases (Prod.mk.inj h).2

theorem sweep_append (s : σ) (as as' : List α) : sweep f s (as ++ as') =
    match sweep f s as with
    | (bs, .ok s') => (bs ++ (sweep f s' as').1, (sweep f s' as').2)
    | (bs, .error e) => (bs ++ as', .error e) := by
  induction as generalizing s with
  | nil => rfl
  | cons a as ih =>
    rw [cons_append, sweep, sweep]
    rcases f s a with ⟨b, e | s'⟩
    · rfl
    · simp only [ih s']
      rcases sweep f s' as with ⟨bs, e | s''⟩ <;> rfl

theorem sweep_append_eq_ok {as' : List α} : sweep f s (as ++ as') = (bs, .ok s') ↔
      ∃ bs₁ s₁ bs₂, sweep f s as = (bs₁, .ok s₁) ∧ sweep f s₁ as' = (bs₂, .ok s') ∧
        bs = bs₁ ++ bs₂ := by
  rw [sweep_append]
  rcases sweep f s as with ⟨bs₁, e | s₁⟩
  · simp
  · simp only [Prod.mk.injEq]
    constructor
    · rintro ⟨rfl, hok⟩
      exact ⟨bs₁, s₁, _, ⟨rfl, rfl⟩, Prod.ext rfl hok, rfl⟩
    · rintro ⟨_, _, bs₂, ⟨rfl, ⟨⟩⟩, h, rfl⟩
      rw [h]
      exact ⟨rfl, rfl⟩

theorem forall₂_of_sweep_ok (h : sweep f s as = (bs, .ok s')) (hs : I s)
    (hstep : ∀ s a b s', a ∈ as → I s → f s a = (b, .ok s') → I s' ∧ R a b) :
    I s' ∧ List.Forall₂ R as bs := by
  induction as generalizing s bs with
  | nil =>
    cases h
    exact ⟨hs, .nil⟩
  | cons a as ih =>
    obtain ⟨b, s₁, bs', rfl, hf, hrest⟩ := sweep_cons_eq_ok h
    obtain ⟨hs₁, hr⟩ := hstep _ _ _ _ mem_cons_self hs hf
    obtain ⟨hs', hrs⟩ := ih hrest hs₁ fun s a b s' ha => hstep s a b s' (mem_cons_of_mem _ ha)
    exact ⟨hs', .cons hr hrs⟩

theorem exists_of_sweep_error {e : ε} (h : (sweep f s as).2 = .error e) :
    ∃ before a after bs s', as = before ++ a :: after ∧ sweep f s before = (bs, .ok s') ∧
      (f s' a).2 = .error e := by
  induction as generalizing s with
  | nil => cases h
  | cons a as ih =>
    rw [sweep] at h
    split at h
    · next b s₁ heq =>
      obtain ⟨before, a', after, bs, s', rfl, hbefore, hfail⟩ := ih h
      refine ⟨a :: before, a', after, b :: bs, s', rfl, ?_, hfail⟩
      rw [sweep, heq]
      simp only [hbefore]
    · next b e' heq =>
      refine ⟨[], a, as, [], s, rfl, rfl, ?_⟩
      rw [heq]
      exact h

theorem exists_sweep_ok (hs : I s)
    (hstep : ∀ s, ∀ a ∈ as, I s → ∃ b s', f s a = (b, .ok s') ∧ I s') :
    ∃ bs s', sweep f s as = (bs, .ok s') ∧ I s' := by
  induction as generalizing s with
  | nil => exact ⟨[], s, rfl, hs⟩
  | cons a as ih =>
    obtain ⟨b, s₁, hf, hs₁⟩ := hstep s a mem_cons_self hs
    obtain ⟨bs, s', hrest, hs'⟩ := ih hs₁ fun s a ha => hstep s a (mem_cons_of_mem _ ha)
    refine ⟨b :: bs, s', ?_, hs'⟩
    rw [sweep, hf]
    simp only [hrest]

end Lists

/-! ## Programs -/

def ClassDef.Matches (R : Method → Method → Prop) (c d : ClassDef) : Prop :=
  d = { c with methods := d.methods } ∧ List.Forall₂ R c.methods d.methods

structure Program.Matches (R : Method → Method → Prop) (p q : Program) : Prop where
  main : R p.main q.main
  classes : List.Forall₂ (ClassDef.Matches R) p.classes q.classes

theorem ClassDef.Matches.trans {R S T : Method → Method → Prop} {c d e : ClassDef}
    (h : c.Matches R d) (h' : d.Matches S e) (hT : ∀ m₁ m₂ m₃, R m₁ m₂ → S m₂ m₃ → T m₁ m₃) :
    c.Matches T e := by
  refine ⟨?_, forall₂_trans h.2 h'.2 hT⟩
  rw [h'.1, h.1]

namespace Program.Matches

variable {R S T : Method → Method → Prop} {p q r : Program}

theorem methods (h : Matches R p q) : List.Forall₂ R p.methods q.methods :=
  .cons h.main (rel_flatMap h.classes fun _ _ hc => hc.2)

theorem imp_mem (h : Matches R p q) (hRS : ∀ m ∈ p.methods, ∀ m', R m m' → S m m') :
    Matches S p q := by
  refine ⟨hRS _ mem_cons_self _ h.main, forall₂_imp_mem h.classes fun c hc d hcd => ?_⟩
  refine ⟨hcd.1, forall₂_imp_mem hcd.2 fun m hm => hRS m ?_⟩
  exact mem_cons_of_mem _ (mem_flatMap.2 ⟨c, hc, hm⟩)

theorem imp (h : Matches R p q) (hRS : ∀ m m', R m m' → S m m') : Matches S p q :=
  h.imp_mem fun m _ => hRS m

theorem trans (h : Matches R p q) (h' : Matches S q r)
    (hT : ∀ m₁ m₂ m₃, R m₁ m₂ → S m₂ m₃ → T m₁ m₃) : Matches T p r :=
  ⟨hT _ _ _ h.main h'.main, forall₂_trans h.classes h'.classes fun _ _ _ hc hd => hc.trans hd hT⟩

end Program.Matches

section Programs

variable {σ ε : Type} {f : σ → Method → Method × Except ε σ} {R : Method → Method → Prop}
  {I : σ → Prop} {s s' : σ} {p q : Program}

theorem Program.matches_sweep (hrefl : ∀ m, R m m) (hstep : ∀ s m, R m (f s m).1) (s : σ)
    (p : Program) : Program.Matches R p (p.sweep f s).1 := by
  have hclass : ∀ c : ClassDef, ClassDef.Matches R c c := fun c =>
    ⟨rfl, forall₂_same.2 fun m _ => hrefl m⟩
  have hmain := hstep s p.main
  unfold Program.sweep
  split
  · next main e heq =>
    rw [heq] at hmain
    exact ⟨hmain, forall₂_same.2 fun c _ => hclass c⟩
  · next main s' heq =>
    rw [heq] at hmain
    exact ⟨hmain, forall₂_sweep hclass (fun s c => ⟨rfl, forall₂_sweep hrefl hstep s c.methods⟩) ..⟩

theorem Program.nextId_sweep (f : σ → Method → Method × Except ε σ) (s : σ) (p : Program) :
    (p.sweep f s).1.nextId = p.nextId := by
  rw [Program.sweep]
  split <;> rfl

theorem Program.matches_of_sweep_ok (h : p.sweep f s = (q, .ok s')) (hs : I s)
    (hstep : ∀ s m m' s', m ∈ p.methods → I s → f s m = (m', .ok s') → I s' ∧ R m m') :
    I s' ∧ Program.Matches R p q ∧ q.types = p.types ∧ q.nextId = p.nextId := by
  have hclass : ∀ s c d s', c ∈ p.classes → I s → ClassDef.sweep f s c = (d, .ok s') →
      I s' ∧ ClassDef.Matches R c d := by
    intro s c d s' hc hs hsweep
    obtain ⟨rfl, hok⟩ := Prod.mk.inj hsweep
    obtain ⟨hs', hms⟩ := forall₂_of_sweep_ok (Prod.ext rfl hok) hs fun s m m' s' hm =>
      hstep s m m' s' (mem_cons_of_mem _ (mem_flatMap.2 ⟨c, hc, hm⟩))
    exact ⟨hs', rfl, hms⟩
  unfold Program.sweep at h
  split at h
  · cases (Prod.mk.inj h).2
  · next main s₁ heq =>
    obtain ⟨rfl, hok⟩ := Prod.mk.inj h
    obtain ⟨hs₁, hmain⟩ := hstep _ _ _ _ mem_cons_self hs heq
    obtain ⟨hs', hclasses⟩ := forall₂_of_sweep_ok (Prod.ext rfl hok) hs₁ hclass
    exact ⟨hs', ⟨hmain, hclasses⟩, rfl, rfl⟩

theorem sweep_flatMap (s : σ) (cs : List ClassDef) : sweep f s (cs.flatMap (·.methods)) =
    ((sweep (ClassDef.sweep f) s cs).1.flatMap (·.methods), (sweep (ClassDef.sweep f) s cs).2) := by
  induction cs generalizing s with
  | nil => rfl
  | cons c cs ih =>
    rw [flatMap_cons, sweep_append, sweep, ClassDef.sweep]
    rcases sweep f s c.methods with ⟨ms, e | s'⟩
    · rfl
    · simp only [ih s', flatMap_cons]

theorem Program.sweep_methods (s : σ) (p : Program) :
    Ssa.sweep f s p.methods = ((p.sweep f s).1.methods, (p.sweep f s).2) := by
  rw [methods, Ssa.sweep, Program.sweep]
  rcases f s p.main with ⟨main, e | s'⟩
  · rfl
  · simp only [sweep_flatMap]
    rfl

theorem Program.exists_sweep_ok (hs : I s)
    (hstep : ∀ s, ∀ m ∈ p.methods, I s → ∃ m' s', f s m = (m', .ok s') ∧ I s') :
    ∃ q s', p.sweep f s = (q, .ok s') ∧ I s' := by
  obtain ⟨main, s₁, hf, hs₁⟩ := hstep s p.main mem_cons_self hs
  have hclass : ∀ s, ∀ c ∈ p.classes, I s →
      ∃ d s', ClassDef.sweep f s c = (d, .ok s') ∧ I s' := by
    intro s c hc hs
    obtain ⟨methods, s', hsweep, hs'⟩ := Ssa.exists_sweep_ok hs fun s m hm =>
      hstep s m (mem_cons_of_mem _ (mem_flatMap.2 ⟨c, hc, hm⟩))
    refine ⟨{ c with methods }, s', ?_, hs'⟩
    rw [ClassDef.sweep, hsweep]
  obtain ⟨classes, s', hsweep, hs'⟩ := Ssa.exists_sweep_ok hs₁ hclass
  refine ⟨{ p with main, classes }, s', ?_, hs'⟩
  rw [sweep, hf]
  simp only [hsweep]

end Programs

end MiniJava.Ssa
