import RiscvTe.Lib.EventRun

/-!
# Simulation of partial systems

A system simulates another one, through a relation of their states, when each
of its events is either silent and keeps the relation, or stands for an event
of the other system and is answered as that one is: both go on to related
states, or both stop for the same reason. Whole runs are then answered alike
(`Simulates.run`). `Q` says which steps the simulation is about.
-/

namespace Simulation

open EventRun

variable {σ τ α β ε : Type}

/-- Answers of the two systems that agree. -/
inductive Alike (R : σ → τ → Prop) : Except ε σ → Except ε τ → Prop where
  | ok {s : σ} {t : τ} : R s t → Alike R (.ok s) (.ok t)
  | error (e : ε) : Alike R (.error e) (.error e)

namespace Alike

variable {R : σ → τ → Prop} {x : Except ε σ} {y : Except ε τ}

theorem ok_iff (h : Alike R x y) : (∃ s, x = .ok s) ↔ ∃ t, y = .ok t := by
  cases h with
  | ok hst => simp
  | error e => simp

theorem of_ok {s : σ} (h : Alike R (.ok s) y) : ∃ t, y = .ok t ∧ R s t := by
  cases h with
  | ok hst => exact ⟨_, rfl, hst⟩

theorem of_error {e : ε} (h : Alike R (.error e) y) : y = .error e := by
  cases h
  rfl

/-- Related answers go on alike. -/
theorem bind {f : σ → Except ε σ} {g : τ → Except ε τ} (h : Alike R x y)
    (hnext : ∀ s t, x = .ok s → R s t → Alike R (f s) (g t)) : Alike R (x >>= f) (y >>= g) := by
  cases h with
  | ok hst => exact hnext _ _ rfl hst
  | error e => exact .error e

/-- A change that the relation does not see. -/
theorem map {f : σ → σ} (h : Alike R x y) (hf : ∀ s t, R s t → R (f s) t) :
    Alike R (x.map f) y := by
  cases h with
  | ok hst => exact .ok (hf _ _ hst)
  | error e => exact .error e

end Alike

structure Simulates (R : σ → τ → Prop) (Q : σ → α → Prop) (f : α → Option β)
    (step : σ → α → Except ε σ) (spec : τ → β → Except ε τ) : Prop where
  silent : ∀ {s t a}, R s t → Q s a → f a = none → ∃ s', step s a = .ok s' ∧ R s' t
  visible : ∀ {s t a b}, R s t → Q s a → f a = some b → Alike R (step s a) (spec t b)

variable {R : σ → τ → Prop} {Q : σ → α → Prop} {f : α → Option β}
  {step : σ → α → Except ε σ} {spec : τ → β → Except ε τ}

/-- **Whole runs are answered alike.** -/
theorem Simulates.run (h : Simulates R Q f step spec) {as : List α} {s : σ} {t : τ}
    (hst : R s t) (hQ : Along step s Q as) :
    Alike R (run step s as) (run spec t (as.filterMap f)) := by
  induction as generalizing s t with
  | nil => exact .ok hst
  | cons a as ih =>
      rw [run_cons]
      cases hf : f a with
      | none =>
          obtain ⟨s', hstep, hst'⟩ := h.silent hst hQ.head hf
          rw [List.filterMap_cons_none hf, hstep]
          exact ih hst' (hQ.tail hstep)
      | some b =>
          rw [List.filterMap_cons_some hf, run_cons]
          exact (h.visible hst hQ.head hf).bind fun s' t' hstep hst' => ih hst' (hQ.tail hstep)

/-- A system with the same silent and visible events, up to changes that the
relation does not see. -/
theorem Simulates.map (h : Simulates R Q f step spec) {γ : Type} {g : γ → α}
    {change : γ → σ → σ} (hchange : ∀ e s t, R s t → R (change e s) t) :
    Simulates R (fun s e => Q s (g e)) (fun e => f (g e))
      (fun s e => (step s (g e)).map (change e)) spec where
  silent := by
    intro s t e hst hQ hf
    obtain ⟨s', hstep, hst'⟩ := h.silent hst hQ hf
    exact ⟨change e s', by rw [hstep]; rfl, hchange e s' t hst'⟩
  visible := by
    intro s t e b hst hQ hf
    exact (h.visible hst hQ hf).map (hchange e)

end Simulation
