import RiscvTe.Lib.Transducer

/-!
# Results of partial operations

A component whose operations may have no meaning in some states is a step
`σ → α → Except ε (σ × β)`: the next state and the result of the call.
`observe` collects the results of a sequence of calls. A component that
`Implements` a total one, its specification, answers every sequence as the
specification does (`Implements.observe`).
-/

namespace Observation

open Transducer

variable {σ τ α β γ ε : Type}

/-- The state behind the calls and their results, in order. -/
def observe (step : σ → α → Except ε (σ × β)) : σ → List α → Except ε (σ × List β)
  | s, [] => .ok (s, [])
  | s, x :: xs => do
      let (t, y) ← step s x
      let (u, out) ← observe step t xs
      return (u, y :: out)

/-- The results of the specification. -/
def outputs (spec : τ → α → τ × γ) (t : τ) (xs : List α) : List γ :=
  (run spec t xs).2.map Prod.snd

@[simp] theorem outputs_nil (spec : τ → α → τ × γ) (t : τ) : outputs spec t [] = [] := rfl

@[simp] theorem outputs_cons (spec : τ → α → τ × γ) (t : τ) (x : α) (xs : List α) :
    outputs spec t (x :: xs) = (spec t x).2 :: outputs spec (spec t x).1 xs := rfl

theorem outputs_append (spec : τ → α → τ × γ) (t : τ) (xs ys : List α) :
    outputs spec t (xs ++ ys)
      = outputs spec t xs ++ outputs spec (run spec t xs).1 ys := by
  rw [outputs, run_append, List.map_append]
  rfl

/-- In related states every call has a meaning, the result the specification
gives under `encode`, and related states behind it. -/
structure Implements (R : σ → τ → Prop) (encode : γ → β) (step : σ → α → Except ε (σ × β))
    (spec : τ → α → τ × γ) : Prop where
  call : ∀ s t x, R s t →
    ∃ s', step s x = .ok (s', encode (spec t x).2) ∧ R s' (spec t x).1

/-- **Refinement of whole sequences.** -/
theorem Implements.observe {R : σ → τ → Prop} {encode : γ → β}
    {step : σ → α → Except ε (σ × β)} {spec : τ → α → τ × γ}
    (h : Implements R encode step spec) {s : σ} {t : τ} (hst : R s t) (xs : List α) :
    ∃ s', observe step s xs = .ok (s', (outputs spec t xs).map encode)
      ∧ R s' (run spec t xs).1 := by
  induction xs generalizing s t with
  | nil => exact ⟨s, rfl, hst⟩
  | cons x xs ih =>
      obtain ⟨u, hcall, hu⟩ := h.call s t x hst
      obtain ⟨s', hrest, hs'⟩ := ih hu
      refine ⟨s', ?_, hs'⟩
      rw [Observation.observe, hcall]
      show (Observation.observe step u xs >>= fun p => _) = _
      rw [hrest]
      rfl

/-- The results alone. -/
theorem Implements.results {R : σ → τ → Prop} {encode : γ → β}
    {step : σ → α → Except ε (σ × β)} {spec : τ → α → τ × γ}
    (h : Implements R encode step spec) {s : σ} {t : τ} (hst : R s t) (xs : List α) :
    (Observation.observe step s xs).map Prod.snd = .ok ((outputs spec t xs).map encode) := by
  obtain ⟨s', hs', _⟩ := h.observe hst xs
  rw [hs']
  rfl

end Observation
