import RiscvTe.Isolation

/-!
# The registers of a resumed trap

`synchronous_exception_handler` is compiled as an ordinary function and left
by a hand-written epilogue. Register by register: `sp` and the callee-saved
ones come back, `ra` comes back from its stack slot, `t0` holds the new
`mepc`, and everything else is what the compiled C body left in it.
-/

namespace RiscvTe

open Memory

/-- Every general-purpose register is as it was at the trap. -/
def Transparent (h h' : Hart) : Prop := ∀ x : Reg, h'.regs x = h.regs x

/-- The caller-saved registers apart from `ra` and `t0`: `t1`, `t2`,
`a0`..`a7`, `t3`..`t6`. -/
def callerSaved (x : Reg) : Bool :=
  !Reg.calleeSaved x && x != 0 && x != Reg.ra && x != Reg.t0

theorem callerSaved_ne {x : Reg} (hx : callerSaved x = true) :
    Reg.calleeSaved x = false ∧ x ≠ 0 ∧ x ≠ Reg.ra ∧ x ≠ Reg.t0 := by
  simpa [callerSaved, and_assoc] using hx

/-- The push or pop `s` of the monitor leaves the slot of the saved `ra`
alone, as it does when the slot lies outside `shadow_stack`. -/
def SavedRaKept (c : CCode) (h : Hart) (s : SStack) : Prop :=
  loadWord (writeSStack (c.entryMem h) shadowStackAddr s) (raSlot h)
    = loadWord (c.entryMem h) (raSlot h)

/-- The callees' frames lie below the slot. -/
theorem slot_not_callee {c : CCode} {h : Hart} {k : Nat} (hk : k < 4) :
    ¬ InRegion ((h.line prologue).regs Reg.sp - BitVec.ofNat 32 c.depth) c.depth
        (raSlot h + BitVec.ofNat 32 k) := by
  have hfits := c.depthFits
  have hoff : raSlot h + BitVec.ofNat 32 k
      = (h.line prologue).regs Reg.sp - BitVec.ofNat 32 c.depth
        + BitVec.ofNat 32 (c.depth + (12 + k)) := by
    rw [prologue_sp, raSlot, BitVec.ofNat_add, BitVec.ofNat_add]
    generalize BitVec.ofNat 32 c.depth = d
    generalize BitVec.ofNat 32 k = k'
    generalize h.regs Reg.sp = sp
    bv_omega
  rw [hoff, InRegion, offset_toNat (by omega)]
  omega

/-- Frame stores below the slot do not change the word in it. -/
theorem slot_spill {c : CCode} {h : Hart} {m : Mem} {stores : List (Word × Byte)}
    (hin : ∀ w ∈ stores,
      InRegion ((h.line prologue).regs Reg.sp - BitVec.ofNat 32 c.depth) c.depth w.1) :
    loadWord (spill m stores) (raSlot h) = loadWord m (raSlot h) := by
  have hbyte : ∀ k < 4, spill m stores (raSlot h + BitVec.ofNat 32 k)
      = m (raSlot h + BitVec.ofNat 32 k) := by
    intro k hk
    apply spill_other
    intro w hw heq
    exact slot_not_callee hk (heq ▸ hin w hw)
  have hslot : raSlot h = raSlot h + BitVec.ofNat 32 0 := by simp
  rw [hslot, loadWord_at, loadWord_at, hbyte _ (by decide), hbyte _ (by decide),
    hbyte _ (by decide), hbyte _ (by decide)]

theorem entry_slot (c : CCode) (h : Hart) :
    loadWord (c.entryMem h) (raSlot h) = h.regs Reg.ra := by
  rw [CCode.entryMem, slot_spill (c.beforeInFrames _), prologue_mem, loadWord_storeWord]

/-- With the slot outside the object the monitor cannot push over it. -/
theorem savedRa_apart {c : CCode} {h : Hart} (s : SStack)
    (hapart : ∀ k < 4, ¬ InRegion shadowStackAddr shadowStackSize
      (raSlot h + BitVec.ofNat 32 k)) : SavedRaKept c h s := by
  have hslot : raSlot h = raSlot h + BitVec.ofNat 32 0 := by simp
  rw [SavedRaKept, hslot, loadWord_at, loadWord_at, writeSStack_outside (hapart 0 (by decide)),
    writeSStack_outside (hapart 1 (by decide)), writeSStack_outside (hapart 2 (by decide)),
    writeSStack_outside (hapart 3 (by decide))]

theorem exit_slot (c : CCode) (h : Hart) (s : SStack) :
    loadWord (c.exitMem h s) (raSlot h)
      = loadWord (writeSStack (c.entryMem h) shadowStackAddr s) (raSlot h) := by
  rw [CCode.exitMem, slot_spill (c.afterInFrames _)]

/-- The callee-saved registers come back in every resumed trap. -/
theorem resumed_calleeSaved (c : CCode) (h : Hart) (s : SStack) {x : Reg}
    (hx : Reg.calleeSaved x = true) : (c.resumed h s).regs x = h.regs x := by
  by_cases hsp : x = Reg.sp
  · subst hsp
    exact resumed_sp c h s
  · have hra : x ≠ Reg.ra := by
      rintro rfl
      exact absurd hx (by decide)
    have ht0 : x ≠ Reg.t0 := by
      rintro rfl
      exact absurd hx (by decide)
    rw [resumed_other c h s hra hsp ht0, c.keepsSaved _ _ hx, prologue_other h hsp]

theorem transparent_resumed_iff (c : CCode) (h : Hart) (s : SStack) :
    Transparent h (c.resumed h s)
      ↔ h.regs Reg.t0 = h.csr .mepc + 4
        ∧ (∀ x, callerSaved x = true → c.regs (h.line prologue) x = h.regs x)
        ∧ SavedRaKept c h s := by
  constructor
  · intro ht
    refine ⟨?_, ?_, ?_⟩
    · rw [← ht Reg.t0, resumed_t0]
    · intro x hx
      obtain ⟨hsaved, -, hra, ht0⟩ := callerSaved_ne hx
      have hsp : x ≠ Reg.sp := by
        rintro rfl
        exact absurd hsaved (by decide)
      rw [← resumed_other c h s hra hsp ht0, ht x]
    · rw [SavedRaKept, ← exit_slot, ← resumed_ra, ht Reg.ra, entry_slot]
  · rintro ⟨ht0, hcaller, hslot⟩ x
    -- `x0`, `ra` and `t0` one by one; of the others the ABI promises some
    by_cases hzero : x = 0
    · subst hzero
      rw [(c.resumed h s).regs.zero, h.regs.zero]
    by_cases hra : x = Reg.ra
    · subst hra
      rw [resumed_ra, exit_slot, hslot, entry_slot]
    by_cases hx : x = Reg.t0
    · subst hx
      rw [resumed_t0, ht0]
    cases hsaved : Reg.calleeSaved x with
    | true => exact resumed_calleeSaved c h s hsaved
    | false =>
        have hsp : x ≠ Reg.sp := by
          rintro rfl
          exact absurd hsaved (by decide)
        rw [resumed_other c h s hra hsp hx]
        exact hcaller x (by simp [callerSaved, hsaved, hzero, hra, hx])

/-- Compiled code like `c`, except that it leaves `v` in the caller-saved
register `x`. -/
def CCode.leaving (c : CCode) (x : Reg) (hx : callerSaved x = true) (v : Word) : CCode :=
  { c with
    regs := fun h => (c.regs h).set x v
    keepsSaved := by
      intro h y hy
      have hne : y ≠ x := by
        rintro rfl
        rw [(callerSaved_ne hx).1] at hy
        cases hy
      rw [RegFile.set_other hne, c.keepsSaved h y hy] }

theorem leaving_resumed (c : CCode) (h : Hart) (s : SStack) {x : Reg}
    (hx : callerSaved x = true) (v : Word) :
    ((c.leaving x hx v).resumed h s).regs x = v := by
  obtain ⟨hsaved, hzero, hra, ht0⟩ := callerSaved_ne hx
  have hsp : x ≠ Reg.sp := by
    rintro rfl
    exact absurd hsaved (by decide)
  rw [resumed_other _ _ _ hra hsp ht0, CCode.leaving, RegFile.set_self hzero]

/-- **No resumed trap is transparent.** Whatever registers a trap comes with
that some C code resumes: of the C code that keeps to the ABI some does not
hand them back, for each of the caller-saved registers some that does not hand
back this one; and unless `t0` held `mepc + 4` before, none hands back all. -/
theorem never_transparent (c : CCode) (h h' : Hart)
    (hrun : synchronousExceptionHandler c h = .ok h') :
    (¬ ∀ c' h'', synchronousExceptionHandler c' h = .ok h'' → Transparent h h'')
      ∧ (∀ x, callerSaved x = true →
          ∃ c' h'', synchronousExceptionHandler c' h = .ok h'' ∧ h''.regs x ≠ h.regs x)
      ∧ (h.regs Reg.t0 ≠ h.csr .mepc + 4 →
          ∀ c' h'', synchronousExceptionHandler c' h = .ok h'' → ¬ Transparent h h'') := by
  obtain ⟨s, hs, rfl⟩ := handler_ok_iff.mp hrun
  have hlost : ∀ x, callerSaved x = true →
      ∃ c' h'', synchronousExceptionHandler c' h = .ok h'' ∧ h''.regs x ≠ h.regs x := by
    intro x hx
    refine ⟨c.leaving x hx (h.regs x + 1), _, handler_ok_iff.mpr ⟨s, hs, rfl⟩, ?_⟩
    rw [leaving_resumed]
    simp
  refine ⟨?_, hlost, ?_⟩
  · intro hall
    obtain ⟨c', h'', hrun', ht1⟩ := hlost Reg.t1 (by decide)
    exact ht1 (hall c' h'' hrun' Reg.t1)
  · intro hne c' h'' hrun' ht
    obtain ⟨s', _, rfl⟩ := handler_ok_iff.mp hrun'
    exact hne ((transparent_resumed_iff c' h s').mp ht).1

/-- A jump check with the stack in `dram` and zeroes in the other registers. -/
def jumpCheckHart : Hart := (boot zeroHart).ecallTrap (dramRegs 0) 0x40380800

theorem jumpCheck_resumes :
    ∃ h', synchronousExceptionHandler frugalCode jumpCheckHart = .ok h' :=
  ⟨_, rfl⟩

theorem never_transparent_jumpCheck :
    (¬ ∀ c' h'', synchronousExceptionHandler c' jumpCheckHart = .ok h'' →
        Transparent jumpCheckHart h'')
      ∧ (∀ x, callerSaved x = true → ∃ c' h'',
          synchronousExceptionHandler c' jumpCheckHart = .ok h''
            ∧ h''.regs x ≠ jumpCheckHart.regs x)
      ∧ (jumpCheckHart.regs Reg.t0 ≠ jumpCheckHart.csr .mepc + 4 →
          ∀ c' h'', synchronousExceptionHandler c' jumpCheckHart = .ok h'' →
            ¬ Transparent jumpCheckHart h'') := by
  obtain ⟨h', hrun⟩ := jumpCheck_resumes
  exact never_transparent frugalCode jumpCheckHart h' hrun

/-- Even compiled code that touches no register leaves `t0` changed. -/
theorem jumpCheck_not_transparent :
    ∃ h', synchronousExceptionHandler frugalCode jumpCheckHart = .ok h'
      ∧ ¬ Transparent jumpCheckHart h' := by
  obtain ⟨h', hrun⟩ := jumpCheck_resumes
  refine ⟨h', hrun, fun ht => ?_⟩
  obtain ⟨s, _, rfl⟩ := handler_ok_iff.mp hrun
  have ht0 := ht Reg.t0
  rw [resumed_t0] at ht0
  revert ht0
  decide

end RiscvTe
