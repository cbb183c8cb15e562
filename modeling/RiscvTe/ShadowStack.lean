import RiscvTe.Lib.Memory

/-!
# The shadow stack (`shadow_stack.h`, `shadow_stack.c`)

`SStack` is the C object: a fixed array of return addresses and the signed
index of its newest entry. `push` and `pop` are the C functions, with the
array access made partial: an index outside `addresses` has no meaning in
C, so it stops the run with `Stop.outOfBounds`. `SStack.entries` is the
list `addresses[0..top]`, and `SStack.WF` the index range under which the
two functions act on it as on a bounded stack.
-/

namespace RiscvTe

open Memory

/-- Why a run of the monitor stops: `code_termination` hands the hart to
`terminate_execution`, which loops; an access outside `addresses` has no
meaning in C. -/
inductive Stop where
  | terminated
  | outOfBounds
  deriving DecidableEq, Repr

/-- `#define MAX_SIZE 63` -/
def maxSize : Nat := 63

/-- `typedef struct { unsigned int addresses[MAX_SIZE]; short top; } SStack` -/
structure SStack where
  addresses : Vector Word maxSize
  top : Int
  deriving DecidableEq, Repr

/-- `SStack shadow_stack = {.top = -1}`; the array starts as zeroes. -/
def initialShadowStack : SStack :=
  { addresses := Vector.replicate maxSize 0, top := -1 }

def isFull (stack : SStack) : Bool := stack.top == (maxSize : Int) - 1

def isEmpty (stack : SStack) : Bool := stack.top == -1

/-- The access `stack->addresses[i]`, as a read. -/
def SStack.read (stack : SStack) (i : Int) : Except Stop Word :=
  if h : 0 ≤ i ∧ i < maxSize then .ok (stack.addresses.get ⟨i.toNat, by omega⟩)
  else .error .outOfBounds

/-- The access `stack->addresses[i] = address`. -/
def SStack.write (stack : SStack) (i : Int) (address : Word) : Except Stop SStack :=
  if h : 0 ≤ i ∧ i < maxSize then
    .ok { stack with addresses := stack.addresses.set i.toNat address (by omega) }
  else .error .outOfBounds

/-- `push`: the new state and the `short` returned. -/
def push (stack : SStack) (address : Word) : Except Stop (SStack × Int) :=
  if isFull stack then .ok (stack, 0)
  else do
    let stack := { stack with top := stack.top + 1 }
    let stack ← stack.write stack.top address
    return (stack, 1)

/-- `pop`: the new state and the address returned, `0` for an empty stack. -/
def pop (stack : SStack) : Except Stop (SStack × Word) :=
  if isEmpty stack then .ok (stack, 0)
  else do
    let address ← stack.read stack.top
    return ({ stack with top := stack.top - 1 }, address)

/-- `initStack`: every cell is set to `1`, `top` is not touched. -/
def initStack (stack : SStack) : Except Stop SStack :=
  (List.range maxSize).foldlM (fun stack (i : Nat) => stack.write i 1) stack

theorem SStack.read_ok {stack : SStack} {i : Int} {n : Nat} (hi : i = n)
    (hn : n < maxSize) : stack.read i = .ok stack.addresses[n] := by
  subst hi
  have hidx : (0 : Int) ≤ n ∧ (n : Int) < maxSize := by omega
  rw [SStack.read, dif_pos hidx]
  rfl

theorem SStack.write_ok {stack : SStack} {i : Int} {n : Nat} (hi : i = n)
    (hn : n < maxSize) (address : Word) :
    stack.write i address
      = .ok { stack with addresses := stack.addresses.set n address } := by
  subst hi
  have hidx : (0 : Int) ≤ n ∧ (n : Int) < maxSize := by omega
  rw [SStack.write, dif_pos hidx]
  rfl

/-! ## The index range and the entries -/

/-- The range of `top` in every state the code can produce. -/
structure SStack.WF (stack : SStack) : Prop where
  lower : -1 ≤ stack.top
  upper : stack.top < maxSize

/-- `addresses[0..top]`, oldest first. -/
def SStack.entries (stack : SStack) : List Word :=
  stack.addresses.toList.take (stack.top + 1).toNat

/-- The entries with the newest first. -/
def SStack.contents (stack : SStack) : List Word := stack.entries.reverse

theorem initialShadowStack_wf : initialShadowStack.WF := by
  constructor <;> decide

@[simp] theorem initialShadowStack_contents : initialShadowStack.contents = [] := rfl

theorem SStack.WF.length_entries {stack : SStack} (h : stack.WF) :
    (stack.entries.length : Int) = stack.top + 1 := by
  have hlo := h.lower
  have hup := h.upper
  simp only [SStack.entries, List.length_take, Vector.length_toList]
  omega

theorem SStack.WF.length_contents {stack : SStack} (h : stack.WF) :
    (stack.contents.length : Int) = stack.top + 1 := by
  rw [SStack.contents, List.length_reverse, h.length_entries]

theorem SStack.WF.contents_le {stack : SStack} (h : stack.WF) :
    stack.contents.length ≤ maxSize := by
  have hlen := h.length_contents
  have hup := h.upper
  omega

theorem isFull_iff {stack : SStack} (h : stack.WF) :
    isFull stack = true ↔ stack.contents.length = maxSize := by
  have hlen := h.length_contents
  simp only [isFull, maxSize, beq_iff_eq] at hlen ⊢
  omega

theorem isEmpty_iff {stack : SStack} (h : stack.WF) :
    isEmpty stack = true ↔ stack.contents = [] := by
  have hlen := h.length_contents
  rw [isEmpty, beq_iff_eq, ← List.length_eq_zero_iff]
  omega

/-- A full stack refuses the address and stays as it is. -/
theorem push_full {stack : SStack} (h : isFull stack = true) (address : Word) :
    push stack address = .ok (stack, 0) := by
  rw [push, if_pos h]

/-- An empty stack yields the sentinel and stays as it is. -/
theorem pop_empty {stack : SStack} (h : isEmpty stack = true) :
    pop stack = .ok (stack, 0) := by
  rw [pop, if_pos h]

theorem SStack.contents_eq {stack : SStack} {n : Nat} (h : stack.top + 1 = n) :
    stack.contents = (stack.addresses.toList.take n).reverse := by
  rw [SStack.contents, SStack.entries, h, Int.toNat_natCast]

/-- With room left, `push` adds the address as the newest entry. -/
theorem push_ok {stack : SStack} (h : stack.WF) (hroom : isFull stack = false)
    (address : Word) :
    ∃ stack', push stack address = .ok (stack', 1) ∧ stack'.WF
      ∧ stack'.contents = address :: stack.contents := by
  have hlo := h.lower
  have hup := h.upper
  have hne : stack.top ≠ maxSize - 1 := by simpa [isFull] using hroom
  have hidx : 0 ≤ stack.top + 1 ∧ stack.top + 1 < maxSize := by omega
  obtain ⟨n, hn⟩ := Int.eq_ofNat_of_zero_le hidx.1
  have hlt : n < maxSize := by omega
  refine ⟨{ addresses := stack.addresses.set n address, top := stack.top + 1 },
    ?_, ⟨by simp only; omega, hidx.2⟩, ?_⟩
  · rw [push, if_neg (by simp [hroom])]
    simp only [SStack.write_ok hn hlt]
    rfl
  · rw [SStack.contents_eq hn, SStack.contents_eq (n := n + 1) (by simp only; omega)]
    simp only [Vector.toList_set]
    rw [List.take_succ_eq_append_getElem (by simpa using hlt), List.getElem_set_self,
      List.take_set_of_le (Nat.le_refl n), List.reverse_append]
    rfl

/-- A non-empty stack gives up its newest entry. -/
theorem pop_ok {stack : SStack} (h : stack.WF) (hne : isEmpty stack = false) :
    ∃ stack' address, pop stack = .ok (stack', address) ∧ stack'.WF
      ∧ stack.contents = address :: stack'.contents := by
  have hlo := h.lower
  have hup := h.upper
  have htop : stack.top ≠ -1 := by simpa [isEmpty] using hne
  have hidx : 0 ≤ stack.top ∧ stack.top < maxSize := by omega
  obtain ⟨n, hn⟩ := Int.eq_ofNat_of_zero_le hidx.1
  have hlt : n < maxSize := by omega
  refine ⟨{ stack with top := stack.top - 1 }, stack.addresses[n],
    ?_, ⟨by simp only; omega, by simp only; omega⟩, ?_⟩
  · rw [pop, if_neg (by simp [hne]), SStack.read_ok hn hlt]
    rfl
  · rw [SStack.contents_eq (n := n + 1) (by omega),
      SStack.contents_eq (n := n) (by simp only; omega)]
    rw [List.take_succ_eq_append_getElem (by simpa using hlt), List.reverse_append]
    simp

/-! ## Clearing the cells -/

/-- The loop of `initStack` behind its first `n` turns. -/
theorem initStack_loop (stack : SStack) {n : Nat} (hn : n ≤ maxSize) :
    ∃ stack', (List.range n).foldlM (fun stack (i : Nat) => stack.write i 1) stack = .ok stack'
      ∧ stack'.top = stack.top ∧ ∀ i (hi : i < maxSize), i < n → stack'.addresses[i] = 1 := by
  induction n with
  | zero => exact ⟨stack, rfl, rfl, fun i _ h => absurd h (Nat.not_lt_zero i)⟩
  | succ n ih =>
      obtain ⟨stack', hrun, htop, hcells⟩ := ih (Nat.le_of_succ_le hn)
      refine ⟨{ stack' with addresses := stack'.addresses.set n 1 }, ?_, htop, ?_⟩
      · rw [List.range_succ, List.foldlM_append, hrun]
        show (stack'.write n 1 >>= fun s => _) = _
        rw [SStack.write_ok rfl hn]
        rfl
      · intro i hi hlt
        by_cases hlast : i = n
        · subst hlast
          exact Vector.getElem_set_self hn
        · have hne : n ≠ i := fun heq => hlast heq.symm
          exact (Vector.getElem_set_ne hn hi hne).trans (hcells i hi (by omega))

theorem initStack_ok (stack : SStack) :
    initStack stack = .ok { addresses := Vector.replicate maxSize 1, top := stack.top } := by
  obtain ⟨stack', hrun, htop, hcells⟩ := initStack_loop stack (Nat.le_refl maxSize)
  have haddresses : stack'.addresses = Vector.replicate maxSize 1 := by
    apply Vector.ext
    intro i hi
    rw [hcells i hi hi, Vector.getElem_replicate]
  rw [initStack, hrun, ← htop, ← haddresses]

end RiscvTe
