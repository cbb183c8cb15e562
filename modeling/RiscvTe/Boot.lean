import RiscvTe.Lib.Memory
import RiscvTe.Lib.Transducer

/-!
# Start-up and the heap (`esp32c3/boot.c`)

`_reset` sets the three heap pointers, clears `.bss`, and calls `main`. `sbrk`
hands out the memory between the end of the program and the end of `dram`: the
blocks it gives lie one behind the other (`sbrk_blocks`).

The pointers are static variables without an initial value. `link.ld` places
these in `.bss`, so the loop that clears it clears the pointers as well, and
`sbrk` has nothing to hand out (`heap_empty`).
-/

namespace RiscvTe

open Memory Transducer

/-! ## The linked program -/

/-- The symbols of `link.ld` that `boot.c` refers to, and where its static
variables are: `.bss` with everything in it lies from `_sbss` to `_ebss`, and
the two pointers that `sbrk` uses do not overlap. -/
structure BootLayout where
  sbss : Word
  ebss : Word
  endOfProgram : Word
  eram : Word
  sHeapStart : Word
  sHeapEnd : Word
  sBrk : Word
  inBss : ∀ v ∈ [sHeapStart, sHeapEnd, sBrk], ∀ k < 4,
    sbss ≤ v + BitVec.ofNat 32 k ∧ v + BitVec.ofNat 32 k < ebss
  apart : ∀ i < 4, ∀ k < 4, sHeapEnd + BitVec.ofNat 32 k ≠ sBrk + BitVec.ofNat 32 i

variable (l : BootLayout)

/-- `for (char *p = &_sbss; p < &_ebss;) *p++ = '\0'` -/
def clearBss (m : Mem) (p ebss : Word) : Mem :=
  if p < ebss then clearBss (Function.update m p 0) (p + 1) ebss else m
termination_by ebss.toNat - p.toNat
decreasing_by
  rename_i hlt
  bv_omega

/-- The memory in which `_reset` calls `main`. -/
def reset (m : Mem) : Mem :=
  let m := storeWord m l.sBrk l.endOfProgram
  let m := storeWord m l.sHeapStart (loadWord m l.sBrk)
  let m := storeWord m l.sHeapEnd l.eram
  clearBss m l.sbss l.ebss

/-- `sbrk`: the memory and the pointer returned, `0` for `NULL`. The compiler
compares pointers as unsigned numbers. -/
def sbrk (m : Mem) (diff : Word) : Mem × Word :=
  let old := loadWord m l.sBrk
  if loadWord m l.sHeapEnd < old + diff then (m, 0)
  else (storeWord m l.sBrk (old + diff), old)

/-! ## Runs of the program -/

/-- A call of `sbrk`, or a store of the program that leaves the two pointers
alone. -/
inductive HeapEvent where
  | sbrk (diff : Word)
  | store (a : Word) (bytes : List Byte)
      (brkApart : ∀ i < bytes.length, ∀ k < 4,
        l.sBrk + BitVec.ofNat 32 k ≠ a + BitVec.ofNat 32 i)
      (endApart : ∀ i < bytes.length, ∀ k < 4,
        l.sHeapEnd + BitVec.ofNat 32 k ≠ a + BitVec.ofNat 32 i)

/-- The memory, and what `sbrk` has returned. -/
def heapStep (m : Mem) : HeapEvent l → Mem × Option Word
  | .sbrk diff => ((sbrk l m diff).1, some (sbrk l m diff).2)
  | .store a bytes _ _ => (storeBytes m a bytes, none)

/-! ## Clearing `.bss` -/

/-- The loop clears the bytes from `p` up to `ebss`. -/
theorem clearBss_at (m : Mem) (p ebss x : Word) :
    clearBss m p ebss x = if p ≤ x ∧ x < ebss then 0 else m x := by
  fun_induction clearBss m p ebss with
  | case1 m p hlt ih =>
      rw [ih]
      by_cases hx : x = p
      · subst hx
        have hbehind : ¬ (x + 1 ≤ x ∧ x < ebss) := by
          intro h
          bv_omega
        rw [if_neg hbehind, Function.update_self, if_pos ⟨BitVec.le_refl x, hlt⟩]
      · have hsame : (p + 1 ≤ x ∧ x < ebss) ↔ (p ≤ x ∧ x < ebss) := by
          constructor <;> intro h <;> constructor <;> bv_omega
        rw [Function.update_of_ne hx]
        simp only [hsame]
  | case2 m p hge =>
      have hempty : ¬ (p ≤ x ∧ x < ebss) := by
        intro h
        bv_omega
      rw [if_neg hempty]

variable {l}

/-- The variables are cleared with the rest of `.bss`. -/
theorem reset_variable (m : Mem) {v : Word} (hv : v ∈ [l.sHeapStart, l.sHeapEnd, l.sBrk]) :
    loadWord (reset l m) v = 0 := by
  have hzero : loadWord (fun _ => 0) v = 0 := by
    show (0 : Byte) ++ (0 : Byte) ++ (0 : Byte) ++ (0 : Byte) = (0 : Word)
    decide
  rw [← hzero]
  apply loadWord_congr
  intro k hk
  rw [reset, clearBss_at, if_pos (l.inBss v hv k hk)]

/-- Behind `_reset` all of `.bss` is zero and the rest of memory as loaded. -/
theorem reset_at (m : Mem) (x : Word) :
    reset l m x = if l.sbss ≤ x ∧ x < l.ebss then 0 else m x := by
  rw [reset, clearBss_at]
  split
  · rfl
  · rename_i hout
    have hother : ∀ v ∈ [l.sHeapStart, l.sHeapEnd, l.sBrk], ∀ (m : Mem) (w : Word),
        storeWord m v w x = m x := by
      intro v hv m w
      rw [storeWord, storeBytes_other]
      intro i hi heq
      exact hout (heq ▸ l.inBss v hv i hi)
    rw [hother _ (by simp), hother _ (by simp), hother _ (by simp)]

/-! ## The pointers along a run -/

/-- What one event does to the two pointers. -/
theorem heapStep_pointers (m : Mem) (e : HeapEvent l) :
    loadWord (heapStep l m e).1 l.sHeapEnd = loadWord m l.sHeapEnd
      ∧ (loadWord (heapStep l m e).1 l.sBrk = loadWord m l.sBrk
            ∧ ((heapStep l m e).2 = none ∨ (heapStep l m e).2 = some 0)
          ∨ ∃ diff, e = .sbrk diff ∧ (heapStep l m e).2 = some (loadWord m l.sBrk)
            ∧ loadWord (heapStep l m e).1 l.sBrk = loadWord m l.sBrk + diff
            ∧ loadWord m l.sBrk + diff ≤ loadWord m l.sHeapEnd) := by
  cases e with
  | store a bytes brkApart endApart =>
      exact ⟨loadWord_storeBytes endApart, .inl ⟨loadWord_storeBytes brkApart, .inl rfl⟩⟩
  | sbrk diff =>
      unfold heapStep sbrk
      dsimp only
      split
      · exact ⟨rfl, .inl ⟨rfl, .inr rfl⟩⟩
      · rename_i hroom
        exact ⟨loadWord_storeBytes l.apart, .inr ⟨diff, rfl, rfl, loadWord_storeWord _ _ _,
          BitVec.not_lt.mp hroom⟩⟩

/-- **The heap is empty.** `_reset` leaves `.bss` cleared and the rest of the
memory as it was loaded; what `soc_init` does to device registers and in the ROM
is left out here. The pointers of the heap are in `.bss`, so every call of `sbrk`
from then on, with any argument and whatever the program stores elsewhere,
returns `NULL`. -/
theorem heap_empty (l : BootLayout) (m : Mem) :
    (∀ x, reset l m x = if l.sbss ≤ x ∧ x < l.ebss then 0 else m x)
      ∧ ∀ (es : List (HeapEvent l)) (entry : HeapEvent l × Option Word),
          entry ∈ (run (heapStep l) (reset l m) es).2 → ∀ p, entry.2 = some p → p = 0 := by
  refine ⟨reset_at m, fun es => ?_⟩
  have hstart : loadWord (reset l m) l.sBrk = 0 ∧ loadWord (reset l m) l.sHeapEnd = 0 :=
    ⟨reset_variable m (by simp), reset_variable m (by simp)⟩
  refine (run_invariant (I := fun m => loadWord m l.sBrk = 0 ∧ loadWord m l.sHeapEnd = 0)
    (P := fun _ result => ∀ p, result = some p → p = 0) ?_ hstart).2
  intro m e h
  obtain ⟨hbrk, hend⟩ := h
  obtain ⟨hsame, hcases⟩ := heapStep_pointers m e
  rw [hend] at hsame
  rcases hcases with ⟨hbrk', hresult⟩ | ⟨diff, -, hresult, hbrk', hroom⟩
  · refine ⟨⟨hbrk'.trans hbrk, hsame⟩, fun p hp => ?_⟩
    rcases hresult with hnone | hnull
    · rw [hnone] at hp
      cases hp
    · rw [hnull] at hp
      exact (Option.some.inj hp).symm
  · -- only `sbrk(0)` gets past the guard
    rw [hbrk, hend] at hroom
    refine ⟨⟨?_, hsame⟩, fun p hp => ?_⟩
    · rw [hbrk', hbrk]
      bv_omega
    · rw [hresult, hbrk] at hp
      exact (Option.some.inj hp).symm

/-! ## What `sbrk` would hand out -/

/-- The blocks handed out: where they start, and how long they are. -/
def blocksOf (entries : List (HeapEvent l × Option Word)) : List (Word × Word) :=
  entries.filterMap fun
    | (.sbrk diff, some p) => if p = 0 then none else some (p, diff)
    | _ => none

theorem blocksOf_cons (entry : HeapEvent l × Option Word)
    (entries : List (HeapEvent l × Option Word)) :
    blocksOf (entry :: entries) = blocksOf [entry] ++ blocksOf entries := by
  rw [← List.singleton_append, blocksOf, List.filterMap_append]
  rfl

/-- **The blocks of `sbrk`** lie one behind the other inside the heap, as long
as the heap ends in the lower half of the address space, as `dram` does, and
nothing is given back. -/
theorem sbrk_blocks {m : Mem} (hbrk : 0 < loadWord m l.sBrk)
    (hle : loadWord m l.sBrk ≤ loadWord m l.sHeapEnd)
    (hend : (loadWord m l.sHeapEnd).toNat < 2 ^ 31) {es : List (HeapEvent l)}
    (hdiff : ∀ diff, .sbrk diff ∈ es → diff.toNat < 2 ^ 31) :
    (∀ b ∈ blocksOf (run (heapStep l) m es).2, (loadWord m l.sBrk).toNat ≤ b.1.toNat
        ∧ b.1.toNat + b.2.toNat ≤ (loadWord m l.sHeapEnd).toNat)
      ∧ (blocksOf (run (heapStep l) m es).2).Pairwise
          fun b c => b.1.toNat + b.2.toNat ≤ c.1.toNat := by
  induction es generalizing m with
  | nil => exact ⟨by simp [blocksOf], .nil⟩
  | cons e es ih =>
      obtain ⟨hsame, hcases⟩ := heapStep_pointers m e
      have hdiff' : ∀ diff, .sbrk diff ∈ es → diff.toNat < 2 ^ 31 :=
        fun diff hin => hdiff diff (List.mem_cons_of_mem _ hin)
      rw [run_cons, blocksOf_cons]
      rcases hcases with ⟨hbrk', hresult⟩ | ⟨diff, rfl, hresult, hbrk', hroom⟩
      · have hnone : blocksOf [(e, (heapStep l m e).2)] = [] := by
          rcases hresult with hresult | hresult <;> rw [hresult] <;> cases e <;> rfl
        rw [hnone, List.nil_append]
        have hrest := ih (m := (heapStep l m e).1) (by rwa [hbrk']) (by rwa [hbrk', hsame])
          (by rwa [hsame]) hdiff'
        rwa [hbrk', hsame] at hrest
      · have hpos : diff.toNat < 2 ^ 31 := hdiff diff List.mem_cons_self
        have hsum : (loadWord m l.sBrk + diff).toNat
            = (loadWord m l.sBrk).toNat + diff.toNat := by
          bv_omega
        have hone : blocksOf (l := l) [(.sbrk diff, (heapStep l m (.sbrk diff)).2)]
            = [(loadWord m l.sBrk, diff)] := by
          have hne : loadWord m l.sBrk ≠ 0 := by
            intro h0
            bv_omega
          rw [hresult, blocksOf, List.filterMap_cons, List.filterMap_nil]
          dsimp only
          rw [if_neg hne]
        obtain ⟨hin, hpairs⟩ := ih (m := (heapStep l m (.sbrk diff)).1)
          (by bv_omega) (by rwa [hsame, hbrk']) (by rwa [hsame]) hdiff'
        rw [hsame, hbrk', hsum] at hin
        rw [hone, List.singleton_append]
        refine ⟨?_, List.pairwise_cons.mpr ⟨fun b hb => (hin b hb).1, hpairs⟩⟩
        intro b hb
        rcases List.mem_cons.mp hb with rfl | hb
        · refine ⟨Nat.le_refl _, ?_⟩
          bv_omega
        · obtain ⟨hlow, hhigh⟩ := hin b hb
          exact ⟨by omega, hhigh⟩

/-- A program with nothing in `.bss` but the pointers. -/
def pointersOnly : BootLayout :=
  { sbss := 0x3fc88000, ebss := 0x3fc88010, endOfProgram := 0x3fc88010, eram := 0x3fca8000
    sHeapStart := 0x3fc88000, sHeapEnd := 0x3fc88004, sBrk := 0x3fc88008
    inBss := by
      intro v hv k hk
      simp only [List.mem_cons, List.not_mem_nil, or_false] at hv
      rcases hv with rfl | rfl | rfl <;> constructor <;> bv_omega
    apart := by
      intro i hi k hk
      bv_omega }

/-- The pointers as `_reset` sets them before it clears `.bss`. -/
def pointersSet : Mem :=
  storeWord (storeWord (fun _ => 0) 0x3fc88008 0x3fc88010) 0x3fc88004 0x3fca8000

theorem sbrk_blocks_two :
    let es : List (HeapEvent pointersOnly) := [.sbrk 64, .sbrk 32]
    (∀ b ∈ blocksOf (run (heapStep pointersOnly) pointersSet es).2,
        (loadWord pointersSet pointersOnly.sBrk).toNat ≤ b.1.toNat
          ∧ b.1.toNat + b.2.toNat ≤ (loadWord pointersSet pointersOnly.sHeapEnd).toNat)
      ∧ (blocksOf (run (heapStep pointersOnly) pointersSet es).2).Pairwise
          fun b c => b.1.toNat + b.2.toNat ≤ c.1.toNat := by
  apply sbrk_blocks
  · decide
  · decide
  · decide
  · intro diff hdiff
    simp only [List.mem_cons, List.not_mem_nil, or_false, HeapEvent.sbrk.injEq] at hdiff
    rcases hdiff with rfl | rfl <;> decide

end RiscvTe
