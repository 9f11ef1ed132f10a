/-!
# Walking a list with a state

A pass that carries a cursor along the glyphs is a step function handed to `sweep`, which replaces
each element by what its step gives and returns the state left at the end.
-/

namespace Typeset

variable {σ α β : Type}

/-- Replaces each element by what `step` makes of it and of the state so far. -/
def sweep (step : σ → α → σ × β) (s : σ) (l : List α) : σ × List β :=
  let r := l.foldl (fun p a => let q := step p.1 a; (q.1, q.2 :: p.2)) (s, [])
  (r.1, r.2.reverse)

@[simp] theorem sweep_nil (step : σ → α → σ × β) (s : σ) : sweep step s [] = (s, []) := rfl

theorem foldl_sweep (step : σ → α → σ × β) (s : σ) (out : List β) (l : List α) :
    l.foldl (fun p a => let q := step p.1 a; (q.1, q.2 :: p.2)) (s, out) =
      ((sweep step s l).1, (sweep step s l).2.reverse ++ out) := by
  induction l generalizing s out with
  | nil => simp
  | cons a l ih =>
    simp only [sweep, List.foldl_cons]
    rw [ih, ih]
    simp

theorem sweep_cons (step : σ → α → σ × β) (s : σ) (a : α) (l : List α) :
    sweep step s (a :: l) =
      ((sweep step (step s a).1 l).1, (step s a).2 :: (sweep step (step s a).1 l).2) := by
  rw [sweep, List.foldl_cons, foldl_sweep]
  simp

theorem sweep_append (step : σ → α → σ × β) (s : σ) (l m : List α) :
    sweep step s (l ++ m) =
      ((sweep step (sweep step s l).1 m).1,
        (sweep step s l).2 ++ (sweep step (sweep step s l).1 m).2) := by
  induction l generalizing s with
  | nil => simp
  | cons a l ih => simp [sweep_cons, ih]

@[simp] theorem length_sweep (step : σ → α → σ × β) (s : σ) (l : List α) :
    (sweep step s l).2.length = l.length := by
  induction l generalizing s with
  | nil => rfl
  | cons a l ih => simp [sweep_cons, ih]

end Typeset
