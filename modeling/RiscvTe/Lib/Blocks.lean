import Mathlib

/-!
# Blocks

A list cut into blocks of `n`, of which only the last may be shorter. Block
`i` holds the elements from `i * n` on (`blocks_getElem`), the blocks together
are the list (`blocks_flatten`), and taking one block off the front is the
recursion rule (`blocks_cons`).
-/

namespace Blocks

variable {α : Type}

/-- How many blocks of `n` hold `len` elements. -/
def count (n len : Nat) : Nat := (len + (n - 1)) / n

def blocks (n : Nat) (xs : List α) : List (List α) :=
  (List.range (count n xs.length)).map fun i => (xs.drop (i * n)).take n

variable {n : Nat} {xs : List α}

theorem count_zero (hn : 0 < n) : count n 0 = 0 := by
  rw [count, Nat.zero_add, Nat.div_eq_of_lt]
  omega

/-- One block less behind the first `n` elements. -/
theorem count_sub {len : Nat} (hn : 0 < n) (hlen : 0 < len) :
    count n len = count n (len - n) + 1 := by
  unfold count
  by_cases hle : n ≤ len
  · rw [show len + (n - 1) = (len - n + (n - 1)) + n by omega, Nat.add_div_right _ hn]
  · rw [show len - n = 0 by omega, Nat.zero_add, Nat.div_eq_of_lt (show n - 1 < n by omega)]
    exact Nat.div_eq_of_lt_le (by omega) (by omega)

@[simp] theorem blocks_length (n : Nat) (xs : List α) :
    (blocks n xs).length = count n xs.length := by
  simp [blocks]

theorem blocks_nil (hn : 0 < n) : blocks n ([] : List α) = [] := by
  simp [blocks, count_zero hn]

theorem blocks_cons (hn : 0 < n) (hxs : xs ≠ []) :
    blocks n xs = xs.take n :: blocks n (xs.drop n) := by
  have hlen : 0 < xs.length := List.length_pos_iff.mpr hxs
  unfold blocks
  rw [count_sub hn hlen, List.range_succ_eq_map, List.map_cons, List.map_map,
    List.length_drop]
  simp only [Nat.zero_mul, List.drop_zero, List.cons.injEq, true_and]
  apply List.map_congr_left
  intro i _
  rw [Function.comp_apply, List.drop_drop, Nat.succ_mul, Nat.add_comm]

theorem blocks_getElem {i : Nat} (hi : i < (blocks n xs).length) :
    (blocks n xs)[i] = (xs.drop (i * n)).take n := by
  simp [blocks]

/-- **The induction rule**: a list is empty, or a block and the rest. -/
theorem blocks_induction (hn : 0 < n) {P : List α → Prop} (nil : P [])
    (cons : ∀ xs, xs ≠ [] → P (xs.drop n) → P xs) (xs : List α) : P xs := by
  by_cases hxs : xs = []
  · exact hxs ▸ nil
  · exact cons xs hxs (blocks_induction hn nil cons (xs.drop n))
termination_by xs.length
decreasing_by
  have hlen : 0 < xs.length := List.length_pos_iff.mpr hxs
  rw [List.length_drop]
  omega

theorem blocks_flatten (hn : 0 < n) (xs : List α) : (blocks n xs).flatten = xs := by
  induction xs using blocks_induction hn with
  | nil => rw [blocks_nil hn, List.flatten_nil]
  | cons xs hxs ih => rw [blocks_cons hn hxs, List.flatten_cons, ih, List.take_append_drop]

/-- No block is empty or longer than `n`. -/
theorem length_of_mem_blocks (hn : 0 < n) {b : List α} (hb : b ∈ blocks n xs) :
    0 < b.length ∧ b.length ≤ n := by
  induction xs using blocks_induction hn with
  | nil => simp [blocks_nil hn] at hb
  | cons xs hxs ih =>
      have hlen : 0 < xs.length := List.length_pos_iff.mpr hxs
      rw [blocks_cons hn hxs] at hb
      rcases List.mem_cons.mp hb with rfl | hb
      · rw [List.length_take]
        omega
      · exact ih hb

end Blocks
