import RiscvTe.Lib.Observation

/-!
# Bounded stacks

The stack of capacity `cap` as a list with the newest element first. A push
is refused when the list is full, a pop of the empty list yields nothing;
either leaves the list as it is.

`outputs_on_base` compares a stack with one that has some elements under it:
the calls cannot tell them apart exactly as long as they never reach down to
these elements and never run into the smaller room above them.
-/

namespace BoundedStack

open Transducer Observation

variable {α : Type}

inductive Op (α : Type) where
  | push (v : α)
  | pop
  deriving DecidableEq, Repr

inductive Outcome (α : Type) where
  | pushed (stored : Bool)
  | popped (v : Option α)
  deriving DecidableEq, Repr

def step (cap : Nat) : List α → Op α → List α × Outcome α
  | l, .push v => if l.length < cap then (v :: l, .pushed true) else (l, .pushed false)
  | [], .pop => ([], .popped none)
  | v :: l, .pop => (l, .popped (some v))

theorem step_push_room {cap : Nat} {l : List α} (h : l.length < cap) (v : α) :
    step cap l (.push v) = (v :: l, .pushed true) := if_pos h

theorem step_push_full {cap : Nat} {l : List α} (h : cap ≤ l.length) (v : α) :
    step cap l (.push v) = (l, .pushed false) := if_neg (Nat.not_lt.mpr h)

/-! ## Where the elements come from -/

theorem run_mem {cap : Nat} {l : List α} {ops : List (Op α)} {v : α}
    (h : v ∈ (run (step cap) l ops).1) : v ∈ l ∨ .push v ∈ ops := by
  induction ops generalizing l with
  | nil => exact .inl h
  | cons op ops ih =>
      rw [run_cons] at h
      rcases ih h with hstep | hlater
      · cases op with
        | push w =>
            by_cases hroom : l.length < cap
            · rw [step_push_room hroom] at hstep
              rcases List.mem_cons.mp hstep with rfl | hold
              · exact .inr (by simp)
              · exact .inl hold
            · rw [step_push_full (Nat.not_lt.mp hroom)] at hstep
              exact .inl hstep
        | pop =>
            cases l with
            | nil => cases hstep
            | cons w l => exact .inl (List.mem_cons_of_mem _ hstep)
      · exact .inr (List.mem_cons_of_mem _ hlater)

/-- **Provenance**: what a pop yields was there at the start or has been pushed
since. -/
theorem popped_pushed {cap : Nat} {l : List α} {before : List (Op α)} {v : α}
    (h : (step cap (run (step cap) l before).1 .pop).2 = .popped (some v)) :
    v ∈ l ∨ .push v ∈ before := by
  have hin : v ∈ (run (step cap) l before).1 := by
    cases hlist : (run (step cap) l before).1 with
    | nil =>
        rw [hlist] at h
        cases h
    | cons w m =>
        rw [hlist] at h
        cases h
        exact List.mem_cons_self
  exact run_mem hin

/-! ## Elements under the stack -/

def Op.delta : Op α → Int
  | .push _ => 1
  | .pop => -1

/-- Number of pushes minus number of pops. -/
def level (ops : List (Op α)) : Int := (ops.map Op.delta).sum

/-- No part of the calls from the start pops more than it has pushed, or
holds more than `room` elements. -/
def Within (room : Int) (ops : List (Op α)) : Prop :=
  ∀ pre, pre <+: ops → 0 ≤ level pre ∧ level pre ≤ room

theorem Within.initial {room : Int} {ops before : List (Op α)} (h : Within room ops)
    (hbefore : before <+: ops) : Within room before :=
  fun pre hpre => h pre (hpre.trans hbefore)

theorem forall_initial_cons {β : Type} {P : List β → Prop} {x : β} {xs : List β} :
    (∀ pre, pre <+: x :: xs → P pre) ↔ P [] ∧ ∀ pre, pre <+: xs → P (x :: pre) := by
  constructor
  · intro h
    exact ⟨h [] List.nil_prefix, fun pre hpre => h _ (List.cons_prefix_cons.mpr ⟨rfl, hpre⟩)⟩
  · intro h pre hpre
    obtain ⟨hnil, hcons⟩ := h
    rcases List.prefix_cons_iff.mp hpre with rfl | ⟨pre', rfl, hpre'⟩
    · exact hnil
    · exact hcons pre' hpre'

theorem level_cons (op : Op α) (ops : List (Op α)) : level (op :: ops) = op.delta + level ops :=
  List.sum_cons

section Base

variable {β : Type} {encode : Outcome α → β} {cap : Nat} {base : List α}

/-- From `l`, with and without the elements of `base` under it, as far as an
encoding of the outcomes shows. -/
theorem outputs_on_base (hpush : encode (.pushed true) ≠ encode (.pushed false))
    (hpop : ∀ b ∈ base, encode (.popped (some b)) ≠ encode (.popped none)) (hbase : base ≠ [])
    {l : List α} (hroom : l.length + base.length ≤ cap) (ops : List (Op α)) :
    (outputs (step cap) (l ++ base) ops).map encode = (outputs (step cap) l ops).map encode
      ↔ ∀ pre, pre <+: ops →
          0 ≤ l.length + level pre ∧ l.length + level pre ≤ (cap : Int) - base.length := by
  have hpos : 0 < base.length := List.length_pos_iff.mpr hbase
  induction ops generalizing l with
  | nil =>
      refine iff_of_true rfl fun pre hpre => ?_
      rw [List.prefix_nil.mp hpre]
      simp only [level, List.map_nil, List.sum_nil]
      omega
  | cons op ops ih =>
      rw [forall_initial_cons, outputs_cons, outputs_cons, List.map_cons, List.map_cons]
      simp only [level_cons]
      have hnil : 0 ≤ (l.length : Int) + level ([] : List (Op α))
          ∧ (l.length : Int) + level ([] : List (Op α)) ≤ (cap : Int) - base.length := by
        simp only [level, List.map_nil, List.sum_nil]
        omega
      cases op with
      | push v =>
          by_cases hfits : l.length + base.length < cap
          · have hnext : (v :: l).length + base.length ≤ cap := by
              rw [List.length_cons]
              omega
            rw [step_push_room (by simpa using hfits), step_push_room (by omega),
              ← List.cons_append, List.cons_inj_right, and_iff_right hnil]
            refine (ih hnext).trans (forall₂_congr fun pre _ => ?_)
            rw [List.length_cons, Op.delta, Nat.cast_add, Nat.cast_one, add_assoc]
          · -- the base has used up the room that is there without it
            rw [step_push_full (by simpa using hfits), step_push_room (by omega)]
            refine iff_of_false (fun h => hpush (List.cons.inj h).1.symm) fun h => ?_
            have hlevel := (h.2 [] List.nil_prefix).2
            simp only [Op.delta, level, List.map_nil, List.sum_nil] at hlevel
            omega
      | pop =>
          cases l with
          | nil =>
              -- the base gives an element where there is none without it
              obtain ⟨b, bs, rfl⟩ := List.exists_cons_of_ne_nil hbase
              refine iff_of_false (fun h => hpop b (by simp) (List.cons.inj h).1) fun h => ?_
              have hlevel := (h.2 [] List.nil_prefix).1
              simp only [Op.delta, level, List.map_nil, List.sum_nil, List.length_nil] at hlevel
              exact absurd hlevel (by decide)
          | cons v l =>
              have hnext : l.length + base.length ≤ cap := by
                rw [List.length_cons] at hroom
                omega
              rw [List.cons_append, step, step, List.cons_inj_right, and_iff_right hnil]
              refine (ih hnext).trans (forall₂_congr fun pre _ => ?_)
              rw [List.length_cons, Op.delta, Nat.cast_add, Nat.cast_one]
              constructor <;> intro h <;> constructor <;> omega

/-- From the empty list the condition is about the calls alone. -/
theorem outputs_on_base_nil (hpush : encode (.pushed true) ≠ encode (.pushed false))
    (hpop : ∀ b ∈ base, encode (.popped (some b)) ≠ encode (.popped none)) (hbase : base ≠ [])
    (hroom : base.length ≤ cap) (ops : List (Op α)) :
    (outputs (step cap) base ops).map encode = (outputs (step cap) [] ops).map encode
      ↔ Within ((cap : Int) - base.length) ops := by
  have h := outputs_on_base hpush hpop hbase (l := []) (by simpa using hroom) ops
  rw [List.nil_append] at h
  rw [h, Within]
  simp only [List.length_nil, Nat.cast_zero, zero_add]

end Base

end BoundedStack
