import RiscvTe.Lifo

/-!
# What `initStack` leaves behind

`initStack` overwrites the cells and leaves `top` alone, so a stack with
entries keeps as many of them, each now the filler `1`. Calls notice this
as soon as they pop below their own pushes, or push into the room the fillers
take up; only an empty stack is fresh again for every sequence of calls.
-/

namespace RiscvTe

open Memory Transducer Observation BoundedStack

/-- The results of a sequence of calls. -/
def results (stack : SStack) (ops : List (Op Word)) : Except Stop (List Returned) :=
  (observe call stack ops).map Prod.snd

/-- `initStack` gives a fresh stack, as far as these calls can tell: they are
answered as on `{.top = -1}`, and a pop among them yields `0` or an address
pushed since. -/
structure FreshAfterInit (stack : SStack) (ops : List (Op Word)) : Prop where
  same : (initStack stack >>= fun cleared => results cleared ops)
    = results initialShadowStack ops
  onlyNew : ∀ cleared before behind address outs behind', before ++ [.pop] <+: ops →
    initStack stack = .ok cleared → observe call cleared before = .ok (behind, outs) →
    call behind .pop = .ok (behind', .popped address) → address = 0 ∨ .push address ∈ before

/-- The fillers below the calls. -/
theorem initStack_holds {stack : SStack} (h : stack.WF) {k : Nat} (hk : stack.top + 1 = k) :
    ∃ cleared, initStack stack = .ok cleared ∧ Holds cleared (List.replicate k 1) := by
  have hup := h.upper
  have hk' : ({ addresses := Vector.replicate maxSize 1, top := stack.top } : SStack).top + 1
      = k := hk
  refine ⟨_, initStack_ok stack, ⟨h.lower, h.upper⟩, ?_⟩
  rw [SStack.contents_eq hk', Vector.toList_replicate, List.take_replicate, List.reverse_replicate,
    Nat.min_eq_left (by omega)]

theorem results_initial (ops : List (Op Word)) :
    results initialShadowStack ops
      = .ok ((outputs (BoundedStack.step maxSize) [] ops).map returned) :=
  call_implements.results ⟨initialShadowStack_wf, initialShadowStack_contents⟩ ops

theorem returned_pushed : returned (.pushed true) ≠ returned (.pushed false) := by decide

theorem returned_filler {k : Nat} :
    ∀ b ∈ List.replicate k (1 : Word), returned (.popped (some b)) ≠ returned (.popped none) := by
  intro b hb
  rw [List.eq_of_mem_replicate hb]
  decide

/-- The results are the fresh ones exactly when the bounded stack cannot tell
that the fillers are there. -/
theorem same_iff {stack : SStack} (h : stack.WF) {k : Nat} (hk : stack.top + 1 = k)
    (ops : List (Op Word)) :
    (initStack stack >>= fun cleared => results cleared ops) = results initialShadowStack ops
      ↔ (outputs (BoundedStack.step maxSize) (List.replicate k 1) ops).map returned
        = (outputs (BoundedStack.step maxSize) [] ops).map returned := by
  obtain ⟨cleared, hinit, hholds⟩ := initStack_holds h hk
  rw [hinit, results_initial]
  show results cleared ops = _ ↔ _
  rw [results, call_implements.results hholds, Except.ok.injEq]

/-- Where the fillers do not show, a pop among the calls yields `0` or an
address pushed since. -/
theorem popped_new {k : Nat} {cleared behind behind' : SStack} {before : List (Op Word)}
    {outs : List Returned} {address : Word} (hholds : Holds cleared (List.replicate k 1))
    (hbehind : observe call cleared before = .ok (behind, outs))
    (hpop : call behind .pop = .ok (behind', .popped address))
    (hsame : (outputs (BoundedStack.step maxSize) (List.replicate k 1) (before ++ [.pop])).map
        returned
      = (outputs (BoundedStack.step maxSize) [] (before ++ [.pop])).map returned) :
    address = 0 ∨ .push address ∈ before := by
  obtain ⟨s, hs, hrel⟩ := call_implements.observe hholds before
  obtain ⟨rfl, -⟩ := Prod.mk.inj (Except.ok.inj (hbehind.symm.trans hs))
  obtain ⟨s', hs', -⟩ := call_implements.call _ _ .pop hrel
  have hfiller := (Prod.mk.inj (Except.ok.inj (hpop.symm.trans hs'))).2
  -- the last result of the run without the fillers is the same
  rw [outputs_append, outputs_append, List.map_append, List.map_append] at hsame
  have hlast := (List.append_inj' hsame rfl).2
  simp only [outputs_cons, outputs_nil, List.map_cons, List.map_nil, List.cons.injEq,
    and_true] at hlast
  rw [← hfiller] at hlast
  cases hout : (BoundedStack.step maxSize (run (BoundedStack.step maxSize) [] before).1
      .pop).2 with
  | pushed stored =>
      rw [hout] at hlast
      cases stored <;> cases hlast
  | popped v =>
      rw [hout] at hlast
      cases v with
      | none =>
          left
          exact Returned.popped.inj hlast
      | some v =>
          right
          rw [Returned.popped.inj hlast]
          exact (popped_pushed hout).resolve_left (List.not_mem_nil)

/-- An empty stack is fresh behind `initStack` for all calls. -/
theorem freshAfterInit_empty {stack : SStack} (h : stack.WF) (htop : stack.top = -1)
    (ops : List (Op Word)) : FreshAfterInit stack ops := by
  have hk : stack.top + 1 = (0 : Nat) := by omega
  refine ⟨(same_iff h hk ops).mpr rfl, ?_⟩
  intro cleared before behind address outs behind' _ hinit hbehind hpop
  obtain ⟨s, hs, hholds⟩ := initStack_holds h hk
  obtain rfl := Except.ok.inj (hinit.symm.trans hs)
  exact popped_new hholds hbehind hpop rfl

/-- A stack with entries is fresh for the calls that stay above the fillers
and within the room they leave. -/
theorem freshAfterInit_iff {stack : SStack} (h : stack.WF) (hne : stack.top ≠ -1)
    (ops : List (Op Word)) :
    FreshAfterInit stack ops ↔ Within (62 - stack.top) ops := by
  have hlo := h.lower
  have hup := h.upper
  obtain ⟨k, hk⟩ := Int.eq_ofNat_of_zero_le (show 0 ≤ stack.top + 1 by omega)
  have hbase : List.replicate k (1 : Word) ≠ [] := by
    rw [ne_eq, List.replicate_eq_nil_iff]
    omega
  have hlength : (List.replicate k (1 : Word)).length ≤ maxSize := by
    rw [List.length_replicate]
    omega
  have hroom : (maxSize : Int) - (List.replicate k (1 : Word)).length = 62 - stack.top := by
    have hmax : (maxSize : Int) = 63 := rfl
    rw [List.length_replicate]
    omega
  have hout : ∀ ops, _ ↔ Within (62 - stack.top) ops := fun ops =>
    hroom ▸ outputs_on_base_nil returned_pushed returned_filler hbase hlength ops
  constructor
  · intro hfresh
    exact (hout ops).mp ((same_iff h hk ops).mp hfresh.same)
  · intro hwithin
    refine ⟨(same_iff h hk ops).mpr ((hout ops).mpr hwithin), ?_⟩
    intro cleared before behind address outs behind' hbefore hinit hbehind hpop
    obtain ⟨s, hs, hholds⟩ := initStack_holds h hk
    obtain rfl := Except.ok.inj (hinit.symm.trans hs)
    exact popped_new hholds hbehind hpop ((hout _).mpr (hwithin.initial hbefore))

/-- With entries left, the first pop tells. -/
theorem not_within_pop (room : Int) : ¬ Within room [(.pop : Op Word)] := by
  intro h
  have hlevel := (h [.pop] List.prefix_rfl).1
  exact absurd hlevel (by decide)

/-- **When `initStack` gives a fresh stack.** For a sequence of calls: when the
stack is empty, or the calls never pop below their own pushes and never hold
more than the room above the entries. For all sequences: only when the stack
is empty already. -/
theorem initStack_fresh_iff (stack : SStack) (h : stack.WF) :
    (∀ ops, FreshAfterInit stack ops ↔ stack.top = -1 ∨ Within (62 - stack.top) ops)
      ∧ ((∀ ops, FreshAfterInit stack ops) ↔ stack.top = -1) := by
  have hops : ∀ ops, FreshAfterInit stack ops ↔ stack.top = -1 ∨ Within (62 - stack.top) ops := by
    intro ops
    by_cases htop : stack.top = -1
    · exact iff_of_true (freshAfterInit_empty h htop ops) (.inl htop)
    · rw [freshAfterInit_iff h htop, or_iff_right htop]
  refine ⟨hops, fun hall => ?_, fun htop ops => (hops ops).mpr (.inl htop)⟩
  exact ((hops [.pop]).mp (hall [.pop])).resolve_right (not_within_pop _)

/-- A stack with one entry, and a push and a pop behind `initStack`. -/
theorem initStack_fresh_iff_one :
    FreshAfterInit { addresses := Vector.replicate maxSize 0, top := 0 } [.push 5, .pop] := by
  have hwf : SStack.WF { addresses := Vector.replicate maxSize 0, top := 0 } := by
    constructor <;> decide
  refine ((initStack_fresh_iff _ hwf).1 [.push 5, .pop]).mpr (.inr ?_)
  rw [Within, forall_initial_cons, forall_initial_cons]
  refine ⟨by decide, by decide, fun pre hpre => ?_⟩
  rw [List.prefix_nil.mp hpre]
  decide

/-- After `initStack` on a stack with one entry a pop returns the filler `1`;
on the initial stack it returns `0`. -/
theorem initStack_not_fresh :
    ¬ ∀ stack : SStack, stack.WF → ∀ ops, FreshAfterInit stack ops := by
  intro h
  have hwf : SStack.WF { addresses := Vector.replicate maxSize 0, top := 0 } := by
    constructor <;> decide
  have hsame := (h _ hwf [.pop]).same
  rw [initStack_ok] at hsame
  exact absurd hsame (by decide)

end RiscvTe
