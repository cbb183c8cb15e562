import RiscvTe.Lib.BoundedStack
import RiscvTe.ShadowStack

/-!
# The shadow stack as a bounded stack

Seen through its two functions the C object is the list `addresses[0..top]`
with room for 63 addresses. `Holds` is the representation relation; the
cells above `top` are stale and take no part in it.
-/

namespace RiscvTe

open Memory Transducer Observation BoundedStack

/-- What a call returns: the `short` of `push`, the address of `pop`. -/
inductive Returned where
  | pushed (result : Int)
  | popped (address : Word)
  deriving DecidableEq, Repr

/-- One call on the object. -/
def call (stack : SStack) : Op Word → Except Stop (SStack × Returned)
  | .push address => do
      let (stack, result) ← push stack address
      return (stack, .pushed result)
  | .pop => do
      let (stack, address) ← pop stack
      return (stack, .popped address)

/-- How the C functions encode the outcomes: an empty stack answers `0`. -/
def returned : Outcome Word → Returned
  | .pushed true => .pushed 1
  | .pushed false => .pushed 0
  | .popped none => .popped 0
  | .popped (some address) => .popped address

/-- The object stands for the list, newest address first. -/
structure Holds (stack : SStack) (l : List Word) : Prop where
  wf : stack.WF
  contents : stack.contents = l

/-- With `top = -1` the cells do not matter. -/
theorem holds_empty (cells : Vector Word maxSize) :
    Holds { addresses := cells, top := -1 } [] := by
  have hlt : (-1 : Int) < maxSize := by decide
  refine ⟨⟨Int.le_refl _, hlt⟩, ?_⟩
  rw [SStack.contents_eq (n := 0) rfl, List.take_zero, List.reverse_nil]

/-- A push on a full stack changes nothing. -/
theorem call_push_full {stack : SStack} (h : stack.WF)
    (hfull : stack.contents.length = maxSize) (address : Word) :
    call stack (.push address) = .ok (stack, .pushed 0) := by
  rw [call, push_full ((isFull_iff h).mpr hfull)]
  rfl

/-- A pop of an empty stack changes nothing. -/
theorem call_pop_empty {stack : SStack} (h : stack.WF) (hempty : stack.contents = []) :
    call stack .pop = .ok (stack, .popped 0) := by
  rw [call, pop_empty ((isEmpty_iff h).mpr hempty)]
  rfl

/-- **One call**: the C functions implement the bounded stack. -/
theorem call_implements : Implements Holds returned call (BoundedStack.step maxSize) := by
  constructor
  intro stack l op hholds
  obtain ⟨hwf, rfl⟩ := hholds
  cases op with
  | push address =>
      by_cases hroom : stack.contents.length < maxSize
      · have hfull : isFull stack = false := by
          rw [← Bool.not_eq_true, isFull_iff hwf]
          omega
        obtain ⟨stack', hpush, hwf', hcontents⟩ := push_ok hwf hfull address
        rw [step_push_room hroom, call, hpush]
        exact ⟨stack', rfl, hwf', hcontents⟩
      · have hfull : stack.contents.length = maxSize :=
          Nat.le_antisymm hwf.contents_le (Nat.not_lt.mp hroom)
        rw [step_push_full (Nat.not_lt.mp hroom), call_push_full hwf hfull]
        exact ⟨stack, rfl, hwf, rfl⟩
  | pop =>
      cases hcontents : stack.contents with
      | nil =>
          rw [call_pop_empty hwf hcontents]
          exact ⟨stack, rfl, hwf, hcontents⟩
      | cons address rest =>
          have hne : isEmpty stack = false := by
            rw [← Bool.not_eq_true, isEmpty_iff hwf, hcontents]
            simp
          obtain ⟨stack', address', hpop, hwf', hnewest⟩ := pop_ok hwf hne
          rw [hcontents] at hnewest
          obtain ⟨rfl, rfl⟩ := List.cons.inj hnewest
          rw [call, hpop]
          exact ⟨stack', rfl, hwf', rfl⟩

/-- Objects for the same list answer alike, whatever else is in their cells. -/
theorem results_of_holds {stack stack' : SStack} {l : List Word} (h : Holds stack l)
    (h' : Holds stack' l) (ops : List (Op Word)) :
    (observe call stack' ops).map Prod.snd = (observe call stack ops).map Prod.snd := by
  rw [call_implements.results h, call_implements.results h']

/-- **The shadow stack is a bounded stack.** From `top = -1`, whatever the
cells hold, no sequence of calls leaves the array, and it is answered as the
list of capacity 63 answers it. Behind it `top` is in range and the entries
are the list; a refused push and a pop of the empty stack leave the object
as it is, and the cells above `top` influence no later result. -/
theorem shadow_stack_lifo (cells : Vector Word maxSize) (ops : List (Op Word)) :
    ∃ stack, observe call { addresses := cells, top := -1 } ops
        = .ok (stack, (outputs (BoundedStack.step maxSize) [] ops).map returned)
      ∧ (-1 ≤ stack.top ∧ stack.top ≤ 62)
      ∧ stack.contents = (run (BoundedStack.step maxSize) [] ops).1
      ∧ (stack.contents.length = maxSize →
          ∀ address, call stack (.push address) = .ok (stack, .pushed 0))
      ∧ (stack.contents = [] → call stack .pop = .ok (stack, .popped 0))
      ∧ ∀ stack' : SStack, stack'.top = stack.top → stack'.entries = stack.entries →
          ∀ later, (observe call stack' later).map Prod.snd
            = (observe call stack later).map Prod.snd := by
  obtain ⟨stack, hrun, hholds⟩ := call_implements.observe (holds_empty cells) ops
  have hwf := hholds.wf
  refine ⟨stack, hrun, ⟨hwf.lower, Int.le_of_lt_add_one hwf.upper⟩, hholds.contents,
    call_push_full hwf, call_pop_empty hwf, ?_⟩
  intro stack' htop hentries later
  have hholds' : Holds stack' (run (BoundedStack.step maxSize) [] ops).1 := by
    refine ⟨⟨htop ▸ hwf.lower, htop ▸ hwf.upper⟩, ?_⟩
    rw [SStack.contents, hentries]
    exact hholds.contents
  exact results_of_holds hholds hholds' later

end RiscvTe
