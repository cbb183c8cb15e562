import RiscvTe.Lib.EventRun

/-!
# Partial machines that emit

A loop over a list that may stop with an error and hands on some outputs for
each element: a step function `σ → α → Except ε (σ × List β)`. `run` collects
the outputs. Runs compose (`run_append_ok`), and a machine that follows
another one step by step emits the image of its outputs (`run_sim`).
-/

namespace Emitter

open EventRun (bind_ok_iff)

variable {σ τ α β γ ε : Type}

def run (step : σ → α → Except ε (σ × List β)) : σ → List α → Except ε (σ × List β)
  | s, [] => .ok (s, [])
  | s, x :: xs => do
      let (s, out) ← step s x
      let (s, more) ← run step s xs
      return (s, out ++ more)

variable {step : σ → α → Except ε (σ × List β)}

@[simp] theorem run_nil (s : σ) : run step s [] = .ok (s, []) := rfl

theorem run_cons {s t u : σ} {x : α} {xs : List α} {out more : List β}
    (hx : step s x = .ok (t, out)) (hxs : run step t xs = .ok (u, more)) :
    run step s (x :: xs) = .ok (u, out ++ more) := by
  rw [run, hx]
  show (run step t xs >>= _) = _
  rw [hxs]
  rfl

theorem run_cons_ok {s u : σ} {x : α} {xs : List α} {all : List β} :
    run step s (x :: xs) = .ok (u, all)
      ↔ ∃ t out more, step s x = .ok (t, out) ∧ run step t xs = .ok (u, more)
          ∧ all = out ++ more := by
  constructor
  · intro h
    obtain ⟨⟨t, out⟩, hx, h⟩ := bind_ok_iff.mp h
    obtain ⟨⟨u', more⟩, hxs, h⟩ := bind_ok_iff.mp h
    cases h
    exact ⟨t, out, more, hx, hxs, rfl⟩
  · intro h
    obtain ⟨t, out, more, hx, hxs, rfl⟩ := h
    exact run_cons hx hxs

/-- Runs go on where they stop. -/
theorem run_append_ok {s u : σ} {xs ys : List α} {all : List β} :
    run step s (xs ++ ys) = .ok (u, all)
      ↔ ∃ t out more, run step s xs = .ok (t, out) ∧ run step t ys = .ok (u, more)
          ∧ all = out ++ more := by
  induction xs generalizing s all with
  | nil =>
      constructor
      · intro h
        exact ⟨s, [], all, rfl, h, rfl⟩
      · intro h
        obtain ⟨t, out, more, hxs, hys, rfl⟩ := h
        cases hxs
        exact hys
  | cons x xs ih =>
      constructor
      · intro h
        obtain ⟨m, first, rest, hx, hrest, rfl⟩ := run_cons_ok.mp h
        obtain ⟨t, out, more, hxs, hys, rfl⟩ := ih.mp hrest
        exact ⟨t, first ++ out, more, run_cons hx hxs, hys, by rw [List.append_assoc]⟩
      · intro h
        obtain ⟨t, out, more, hxs, hys, rfl⟩ := h
        obtain ⟨m, first, rest, hx, hrest, rfl⟩ := run_cons_ok.mp hxs
        rw [List.append_assoc]
        exact run_cons hx (ih.mpr ⟨t, rest, more, hrest, hys, rfl⟩)

theorem run_append {s t u : σ} {xs ys : List α} {out more : List β}
    (hxs : run step s xs = .ok (t, out)) (hys : run step t ys = .ok (u, more)) :
    run step s (xs ++ ys) = .ok (u, out ++ more) :=
  run_append_ok.mpr ⟨t, out, more, hxs, hys, rfl⟩

theorem run_map {δ : Type} (f : δ → α) (s : σ) (xs : List δ) :
    run step s (xs.map f) = run (fun s x => step s (f x)) s xs := by
  induction xs generalizing s with
  | nil => rfl
  | cons x xs ih => simp only [List.map_cons, run, ih]

/-- A machine that follows another one step by step, in the same states and
with an image of its outputs, does so along whole runs. -/
theorem run_sim {I : σ → Prop} {step' : σ → α → Except ε (σ × List γ)} {f : List β → List γ}
    (hnil : f [] = []) (happend : ∀ xs ys, f (xs ++ ys) = f xs ++ f ys)
    (hstep : ∀ s x t out, I s → step s x = .ok (t, out) →
      I t ∧ step' s x = .ok (t, f out)) :
    ∀ {xs : List α} {s t : σ} {out : List β}, I s → run step s xs = .ok (t, out) →
      run step' s xs = .ok (t, f out) := by
  intro xs
  induction xs with
  | nil =>
      intro s t out _ h
      cases h
      rw [hnil]
      rfl
  | cons x xs ih =>
      intro s t out hs h
      obtain ⟨m, first, rest, hx, hrest, rfl⟩ := run_cons_ok.mp h
      obtain ⟨hm, hx'⟩ := hstep s x m first hs hx
      rw [happend]
      exact run_cons hx' (ih hm hrest)

end Emitter
