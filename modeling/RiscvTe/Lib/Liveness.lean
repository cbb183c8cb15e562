import Mathlib

/-!
# Code inserted into dead registers

A machine executes instructions at program points. Of each point it is known
which registers the instruction there reads and which it writes (`frame`,
`depends`). A register is live in a configuration when the run from it reads
the register before it writes it (`Live`).

Inserted code changes one register `x` on arrival at some points. Then the
run stays the same, up to the value of `x` where nothing reads it, exactly
when `x` is dead, or gets the value it has, wherever it is changed
(`insertion_iff`).
-/

namespace Liveness

/-- Iteration of a partial step. -/
def iterate {C : Type} (f : C → Option C) : Nat → C → Option C
  | 0, c => some c
  | n + 1, c => (iterate f n c).bind f

/-- Register files `S` with registers `R`, other state `M`, program points `P`. -/
structure Machine (S R V M P : Type) where
  get : S → R → V
  exec : P → S → M → Option (S × M × P)
  reads : P → R → Prop
  writes : P → R → Prop
  ext : ∀ s t, (∀ r, get s r = get t r) → s = t
  frame : ∀ {p s m t n q r}, exec p s m = some (t, n, q) → ¬ writes p r → get t r = get s r
  depends : ∀ {p s s' m}, (∀ r, reads p r → get s r = get s' r) →
    (exec p s m = none ∧ exec p s' m = none)
      ∨ ∃ t t' n q, exec p s m = some (t, n, q) ∧ exec p s' m = some (t', n, q)
          ∧ ∀ r, writes p r → get t r = get t' r

/-- About to execute the instruction at `point`. -/
@[ext]
structure Config (S M P : Type) where
  point : P
  regs : S
  mem : M

variable {S R V M P : Type} (mach : Machine S R V M P)

namespace Machine

def step (c : Config S M P) : Option (Config S M P) :=
  (mach.exec c.point c.regs c.mem).map fun o => { point := o.2.2, regs := o.1, mem := o.2.1 }

/-- The run from the configuration reads the register before it writes it. -/
inductive Live : Config S M P → R → Prop
  | read {c r} : mach.reads c.point r → Live c r
  | later {c c' r} : ¬ mach.writes c.point r → mach.step c = some c' → Live c' r → Live c r

/-- The same point and memory, and the same value in every live register. -/
structure Agrees (c c' : Config S M P) : Prop where
  point : c'.point = c.point
  mem : c'.mem = c.mem
  live : ∀ r, mach.Live c r → mach.get c'.regs r = mach.get c.regs r

/-- Two runs at the same step: both over, or in agreement. -/
def AgreeAt (o o' : Option (Config S M P)) : Prop :=
  (o = none ∧ o' = none) ∨ ∃ c c', o = some c ∧ o' = some c' ∧ mach.Agrees c c'

/-! ## Insertion -/

section Insertion

variable (insert : P → S → S)

/-- The configuration behind the code inserted at its point. -/
def settle (c : Config S M P) : Config S M P :=
  { c with regs := insert c.point c.regs }

/-- One instruction of the program with the inserted code, from the arrival
at its point. -/
def insertStep (c : Config S M P) : Option (Config S M P) := mach.step (settle insert c)

/-- From the same start, the instructions are executed at the same points, in
the same memory and the same live registers. -/
def Preserves (start : Config S M P) : Prop :=
  ∀ n, mach.AgreeAt (iterate mach.step n start)
    ((iterate (mach.insertStep insert) n start).map (settle insert))

end Insertion

variable {mach} {insert : P → S → S} {x : R}

/-- Arrival at the same point, with only `x` different, and that only if it
is dead. -/
structure Near (mach : Machine S R V M P) (x : R) (c c' : Config S M P) : Prop where
  point : c'.point = c.point
  mem : c'.mem = c.mem
  others : ∀ r, r ≠ x → mach.get c'.regs r = mach.get c.regs r
  live : mach.Live c x → mach.get c'.regs x = mach.get c.regs x

theorem Near.refl (c : Config S M P) : Near mach x c c :=
  ⟨rfl, rfl, fun _ _ => rfl, fun _ => rfl⟩

theorem Near.agrees {c c' : Config S M P} (h : Near mach x c c') : mach.Agrees c c' := by
  refine ⟨h.point, h.mem, fun r hr => ?_⟩
  by_cases hx : r = x
  · subst hx
    exact h.live hr
  · exact h.others r hx

/-- With `x` live nothing differs. -/
theorem Near.regs_eq {c c' : Config S M P} (h : Near mach x c c') (hlive : mach.Live c x) :
    c'.regs = c.regs := by
  apply mach.ext
  intro r
  by_cases hx : r = x
  · subst hx
    exact h.live hlive
  · exact h.others r hx

/-- An instruction keeps the difference to a dead `x`. -/
theorem Near.step {c c' : Config S M P} (h : Near mach x c c') :
    (mach.step c = none ∧ mach.step c' = none)
      ∨ ∃ d d', mach.step c = some d ∧ mach.step c' = some d' ∧ Near mach x d d' := by
  have hreads : ∀ r, mach.reads c.point r → mach.get c.regs r = mach.get c'.regs r :=
    fun r hr => (h.agrees.live r (.read hr)).symm
  rcases mach.depends (m := c.mem) hreads with ⟨hnone, hnone'⟩ | ⟨t, t', n, q, hexec, hexec', hw⟩
  · left
    constructor
    · rw [Machine.step, hnone]
      rfl
    · rw [Machine.step, h.point, h.mem, hnone']
      rfl
  · right
    have hstep : mach.step c = some { point := q, regs := t, mem := n } := by
      rw [Machine.step, hexec]
      rfl
    have hstep' : mach.step c' = some { point := q, regs := t', mem := n } := by
      rw [Machine.step, h.point, h.mem, hexec']
      rfl
    refine ⟨_, _, hstep, hstep', rfl, rfl, ?_, ?_⟩
    · intro r hr
      by_cases hwrites : mach.writes c.point r
      · exact (hw r hwrites).symm
      · show mach.get t' r = mach.get t r
        rw [mach.frame hexec hwrites, mach.frame hexec' hwrites]
        exact h.others r hr
    · intro hlive
      by_cases hwrites : mach.writes c.point x
      · exact (hw x hwrites).symm
      · show mach.get t' x = mach.get t x
        rw [mach.frame hexec hwrites, mach.frame hexec' hwrites]
        exact h.live (.later hwrites hstep hlive)

/-- Inserted code keeps to `x`; it is left to see what it does to a live one. -/
theorem Near.settle {c c' : Config S M P} (h : Near mach x c c')
    (hothers : ∀ p s r, r ≠ x → mach.get (insert p s) r = mach.get s r)
    (hlive : mach.Live c x →
      mach.get (Machine.settle insert c').regs x = mach.get c.regs x) :
    Near mach x c (Machine.settle insert c') := by
  refine ⟨h.point, h.mem, fun r hr => ?_, hlive⟩
  rw [Machine.settle, hothers _ _ r hr]
  exact h.others r hr

/-- Two runs that stay near through the inserted code stay near. -/
theorem near_run {start : Config S M P}
    (hsettle : ∀ n c c', iterate mach.step n start = some c →
      iterate (mach.insertStep insert) n start = some c' → Near mach x c c' →
        Near mach x c (settle insert c')) (n : Nat) :
    (iterate mach.step n start = none ∧ iterate (mach.insertStep insert) n start = none)
      ∨ ∃ c c', iterate mach.step n start = some c
          ∧ iterate (mach.insertStep insert) n start = some c' ∧ Near mach x c c' := by
  induction n with
  | zero => exact .inr ⟨start, start, rfl, rfl, .refl start⟩
  | succ n ih =>
      rcases ih with ⟨hnone, hnone'⟩ | ⟨c, c', hc, hc', hnear⟩
      · left
        rw [iterate, iterate, hnone, hnone']
        exact ⟨rfl, rfl⟩
      · have hsettled := hsettle n c c' hc hc' hnear
        rw [iterate, iterate, hc, hc']
        rcases hsettled.step with ⟨hnone, hnone'⟩ | ⟨d, d', hd, hd', hnext⟩
        · exact .inl ⟨hnone, hnone'⟩
        · exact .inr ⟨d, d', hd, hd', hnext⟩

/-- **Insertion into a register**: code that changes `x` alone leaves the run
as it is exactly if, wherever it changes `x`, nothing reads `x` before it is
written again. -/
theorem insertion_iff (hothers : ∀ p s r, r ≠ x → mach.get (insert p s) r = mach.get s r)
    (start : Config S M P) :
    mach.Preserves insert start
      ↔ ∀ n c, iterate mach.step n start = some c → mach.Live c x →
          mach.get (insert c.point c.regs) x = mach.get c.regs x := by
  constructor
  · intro hpreserves
    -- agreement at `n` is about the state behind the inserted code
    have hsettle : ∀ n c c', iterate mach.step n start = some c →
        iterate (mach.insertStep insert) n start = some c' → Near mach x c c' →
          Near mach x c (Machine.settle insert c') := by
      intro n c c' hc hc' hnear
      refine hnear.settle hothers fun hlive => ?_
      have hagree := hpreserves n
      rw [hc, hc'] at hagree
      rcases hagree with ⟨hnone, _⟩ | ⟨d, d', hd, hd', hagrees⟩
      · cases hnone
      · cases hd
        cases hd'
        exact hagrees.live x hlive
    intro n c hc hlive
    rcases near_run hsettle n with ⟨hnone, _⟩ | ⟨d, c', hd, hc', hnear⟩
    · rw [hc] at hnone
      cases hnone
    · rw [hc] at hd
      cases hd
      have hsame := (hsettle n c c' hc hc' hnear).live hlive
      rwa [Machine.settle, hnear.point, hnear.regs_eq hlive] at hsame
  · intro hdead n
    have hsettle : ∀ n c c', iterate mach.step n start = some c →
        iterate (mach.insertStep insert) n start = some c' → Near mach x c c' →
          Near mach x c (Machine.settle insert c') := by
      intro n c c' hc _ hnear
      refine hnear.settle hothers fun hlive => ?_
      rw [Machine.settle, hnear.point, hnear.regs_eq hlive]
      exact hdead n c hc hlive
    rcases near_run hsettle n with ⟨hnone, hnone'⟩ | ⟨c, c', hc, hc', hnear⟩
    · left
      rw [hnone, hnone']
      exact ⟨rfl, rfl⟩
    · right
      exact ⟨c, settle insert c', hc, by rw [hc']; rfl, (hsettle n c c' hc hc' hnear).agrees⟩

end Machine

end Liveness
