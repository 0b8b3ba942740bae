import MiniJava.Ssa.Program

/-!
# Passes that keep what they did when they fail

A pass that goes through a program and stops at the first error leaves the work done so far in place.
A sweep applies a step to the elements of a list from left to right, with a state; the step returns
the changed element and either the next state or an error, and elements after an error stay as they
are.
-/

namespace MiniJava.Ssa

/-- Applies `f` to the elements in order until one fails. -/
def sweep {σ α ε : Type} (f : σ → α → α × Except ε σ) : σ → List α → List α × Except ε σ
  | s, [] => ([], .ok s)
  | s, a :: as =>
    match f s a with
    | (a, .ok s) =>
      let (as, result) := sweep f s as
      (a :: as, result)
    | (a, .error e) => (a :: as, .error e)

@[simp] theorem sweep_nil {σ α ε : Type} (f : σ → α → α × Except ε σ) (s : σ) :
    sweep f s [] = ([], .ok s) := rfl

theorem length_sweep {σ α ε : Type} (f : σ → α → α × Except ε σ) (s : σ) (as : List α) :
    (sweep f s as).1.length = as.length := by
  induction as generalizing s with
  | nil => rfl
  | cons a as ih =>
    unfold sweep
    split
    · simpa using ih _
    · rfl

def ClassDef.sweep {σ ε : Type} (f : σ → Method → Method × Except ε σ) (s : σ) (c : ClassDef) :
    ClassDef × Except ε σ :=
  let (methods, result) := Ssa.sweep f s c.methods
  ({ c with methods }, result)

/-- A sweep over the methods of a program: the entry point, then the classes in order. -/
def Program.sweep {σ ε : Type} (f : σ → Method → Method × Except ε σ) (s : σ) (p : Program) :
    Program × Except ε σ :=
  match f s p.main with
  | (main, .error e) => ({ p with main }, .error e)
  | (main, .ok s) =>
    let (classes, result) := Ssa.sweep (ClassDef.sweep f) s p.classes
    ({ p with main, classes }, result)

end MiniJava.Ssa
