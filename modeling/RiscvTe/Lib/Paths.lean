import Mathlib

/-!
# Paths through a list of lines

Execution goes from a line to the next one, or jumps to an entry. A path is
kept with the newest position first. A stretch of lines with no entry behind
its first one is only ever run through from its start (`Path.window`); the
lines run through last can be read off the list (`executed_window`).
-/

namespace Paths

variable {α : Type}

/-- A path through `n` lines that starts at an entry. -/
inductive Path (n : Nat) (entry : Nat → Prop) : List Nat → Prop
  | start {i : Nat} : entry i → i < n → Path n entry [i]
  | fall {i : Nat} {past : List Nat} :
      Path n entry (i :: past) → i + 1 < n → Path n entry ((i + 1) :: i :: past)
  | jump {i j : Nat} {past : List Nat} :
      Path n entry (i :: past) → entry j → j < n → Path n entry (j :: i :: past)

variable {n : Nat} {entry : Nat → Prop}

/-- **No entry, no way around**: who is behind lines without an entry has come
through all of them. -/
theorem Path.window {s k : Nat} {past : List Nat} (hnone : ∀ j, s < j → j ≤ s + k → ¬ entry j)
    (h : Path n entry ((s + k) :: past)) : (List.range' s k).reverse <+: past := by
  induction k generalizing past with
  | zero => exact List.nil_prefix
  | succ k ih =>
      have hlast : ¬ entry (s + (k + 1)) := hnone _ (by omega) (Nat.le_refl _)
      cases h with
      | start hentry _ => exact absurd hentry hlast
      | jump _ hentry _ => exact absurd hentry hlast
      | fall hpath _ =>
          have hprev := ih (fun j hlo hhi => hnone j hlo (by omega)) hpath
          rw [List.range'_1_concat, List.reverse_append]
          exact List.prefix_cons_inj _ |>.mpr hprev

/-- From an entry a path can fall through to every later line. -/
theorem Path.fallThrough {s k : Nat} (h : entry s) (hn : s + k < n) :
    Path n entry ((s + k) :: (List.range' s k).reverse) := by
  induction k with
  | zero => exact .start h hn
  | succ k ih =>
      rw [List.range'_1_concat, List.reverse_append]
      exact .fall (ih (by omega)) hn

/-- The block is what the path has run through last. -/
def Executed (lines : List α) (block : List α) (past : List Nat) : Prop :=
  (past.take block.length).map (fun i => lines[i]?) = block.reverse.map some

theorem lines_window (above block below : List α) :
    (List.range' above.length block.length).map (fun i => (above ++ (block ++ below))[i]?)
      = block.map some := by
  apply List.ext_getElem
  · simp
  · intro i hi hi'
    have hlt : i < block.length := by simpa using hi'
    simp [List.getElem?_append_right, List.getElem?_append_left, hlt]

/-- Behind a stretch without entries its lines have been executed. -/
theorem executed_window {above block below : List α} {past : List Nat}
    (hnone : ∀ j, above.length < j → j ≤ above.length + block.length → ¬ entry j)
    (h : Path n entry ((above.length + block.length) :: past)) :
    Executed (above ++ (block ++ below)) block past := by
  obtain ⟨rest, rfl⟩ := h.window hnone
  have hlength : (List.range' above.length block.length).reverse.length = block.length := by simp
  rw [Executed, List.take_left' hlength, List.map_reverse, lines_window, List.map_reverse]

/-- What the path that falls through from the first line has executed ends the
lines above. -/
theorem suffix_of_executed {above below block : List α}
    (h : Executed (above ++ below) block (List.range' 0 above.length).reverse) :
    block <:+ above := by
  have hlines : (List.range' 0 above.length).map (fun i => (above ++ below)[i]?)
      = above.map some := by
    simpa using lines_window [] above below
  rw [Executed, List.map_take, List.map_reverse, hlines, ← List.map_reverse,
    ← List.map_take] at h
  have hsame : above.reverse.take block.length = block.reverse :=
    List.map_injective_iff.mpr (Option.some_injective α) h
  rw [← List.reverse_prefix, ← hsame]
  exact List.take_prefix _ _

end Paths
