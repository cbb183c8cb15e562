import Mathlib

/-!
# Transducers

A loop that carries a state over a list and emits something for each element
is a step function `σ → α → σ × β`. `run` pairs each element with what was
emitted for it. The output at a position is that of one step, from the state
the elements before it lead to (`run_at`); an invariant bounds all outputs
(`run_invariant`), and two transducers whose steps agree along their own runs
emit the same (`run_outputs_ext`).
-/

namespace Transducer

variable {σ τ α β : Type}

def run (step : σ → α → σ × β) : σ → List α → σ × List (α × β)
  | s, [] => (s, [])
  | s, x :: xs =>
      let (t, y) := step s x
      let (u, out) := run step t xs
      (u, (x, y) :: out)

variable {step : σ → α → σ × β}

@[simp] theorem run_nil (s : σ) : run step s [] = (s, []) := rfl

@[simp] theorem run_cons (s : σ) (x : α) (xs : List α) :
    run step s (x :: xs)
      = ((run step (step s x).1 xs).1, (x, (step s x).2) :: (run step (step s x).1 xs).2) := rfl

/-- The run keeps its input, element by element. -/
theorem run_inputs (step : σ → α → σ × β) (s : σ) (xs : List α) :
    (run step s xs).2.map Prod.fst = xs := by
  induction xs generalizing s with
  | nil => rfl
  | cons x xs ih => rw [run_cons, List.map_cons, ih]

theorem run_append (s : σ) (xs ys : List α) :
    run step s (xs ++ ys)
      = ((run step (run step s xs).1 ys).1,
          (run step s xs).2 ++ (run step (run step s xs).1 ys).2) := by
  induction xs generalizing s with
  | nil => rfl
  | cons x xs ih => rw [List.cons_append, run_cons, ih, run_cons, List.cons_append]

/-- A run splits where its outputs do. -/
theorem run_split {s : σ} {xs : List α} {above below : List (α × β)}
    (h : (run step s xs).2 = above ++ below) :
    (run step s (above.map Prod.fst)).2 = above
      ∧ (run step (run step s (above.map Prod.fst)).1 (below.map Prod.fst)).2 = below := by
  have hxs : xs = above.map Prod.fst ++ below.map Prod.fst := by
    rw [← run_inputs step s xs, h, List.map_append]
  rw [hxs, run_append] at h
  have hlength : (run step s (above.map Prod.fst)).2.length = above.length := by
    have hinputs := congrArg List.length (run_inputs step s (above.map Prod.fst))
    rwa [List.length_map, List.length_map] at hinputs
  exact List.append_inj h hlength

/-- **The output at a position** is that of the step from the state there. -/
theorem run_at {s : σ} {xs : List α} {above below : List (α × β)} {x : α} {y : β}
    (h : (run step s xs).2 = above ++ (x, y) :: below) :
    y = (step (run step s (above.map Prod.fst)).1 x).2 := by
  have hrest := (run_split h).2
  rw [List.map_cons, run_cons] at hrest
  exact ((Prod.mk.inj (List.cons.inj hrest).1).2).symm

/-- What every step keeps holds at the end, and what every step emits from a
state with the invariant is so throughout. -/
theorem run_invariant {I : σ → Prop} {P : α → β → Prop}
    (hstep : ∀ s x, I s → I (step s x).1 ∧ P x (step s x).2) :
    ∀ {xs : List α} {s : σ}, I s →
      I (run step s xs).1 ∧ ∀ e ∈ (run step s xs).2, P e.1 e.2 := by
  intro xs
  induction xs with
  | nil =>
      intro s hs
      exact ⟨hs, by simp⟩
  | cons x xs ih =>
      intro s hs
      obtain ⟨hnext, hout⟩ := hstep s x hs
      obtain ⟨hend, hrest⟩ := ih hnext
      refine ⟨hend, ?_⟩
      intro e he
      rcases List.mem_cons.mp he with rfl | he
      · exact hout
      · exact hrest e he

/-- Two runs over the same input emit the same if their steps do, each from
the state of its own run. -/
theorem run_outputs_ext {step' : τ → α → τ × β} {xs : List α} {s : σ} {t : τ}
    (h : ∀ above x below, xs = above ++ x :: below →
      (step (run step s above).1 x).2 = (step' (run step' t above).1 x).2) :
    (run step s xs).2 = (run step' t xs).2 := by
  induction xs generalizing s t with
  | nil => rfl
  | cons x xs ih =>
      have hhead : (step s x).2 = (step' t x).2 := h [] x xs rfl
      have htail : (run step (step s x).1 xs).2 = (run step' (step' t x).1 xs).2 := by
        apply ih
        rintro above y below rfl
        exact h (x :: above) y below rfl
      rw [run_cons, run_cons, hhead, htail]

end Transducer
