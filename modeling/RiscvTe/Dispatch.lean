import RiscvTe.Trap

/-!
# The dispatch against the table of causes

The comment above `interrupt_vector_table` says what each value of `mcause`
stands for, over all 31 bits of the exception code. The if-chain compares
the low eight bits. `DispatchedAsDocumented` says that the two agree on a
cause and that only the environment call from U-mode touches `shadow_stack`;
`dispatch_iff` says for which causes it holds.
-/

namespace RiscvTe

open Memory

/-! ## The table -/

/-- The descriptions in the table, without the `Interrupt` column. -/
inductive Description where
  | userSoftwareInterrupt
  | supervisorSoftwareInterrupt
  | machineSoftwareInterrupt
  | userTimerInterrupt
  | supervisorTimerInterrupt
  | machineTimerInterrupt
  | userExternalInterrupt
  | supervisorExternalInterrupt
  | machineExternalInterrupt
  | instructionAddressMisaligned
  | instructionAccessFault
  | illegalInstruction
  | breakpoint
  | loadAddressMisaligned
  | loadAccessFault
  | storeAMOAddressMisaligned
  | storeAMOAccessFault
  | environmentCallFromUMode
  | environmentCallFromSMode
  | environmentCallFromMMode
  | instructionPageFault
  | loadPageFault
  | storeAMOPageFault
  | reserved
  deriving DecidableEq, Repr

/-- The codes of a row: one, or all from one on. -/
inductive Codes where
  | only (code : Nat)
  | atLeast (code : Nat)
  deriving DecidableEq, Repr

def Codes.covers : Codes → Nat → Bool
  | .only code, n => n == code
  | .atLeast code, n => decide (code ≤ n)

structure Row where
  interrupt : Bool
  codes : Codes
  description : Description
  deriving DecidableEq, Repr

def mcauseTable : List Row :=
  [⟨true, .only 0, .userSoftwareInterrupt⟩,
    ⟨true, .only 1, .supervisorSoftwareInterrupt⟩,
    ⟨true, .only 2, .reserved⟩,
    ⟨true, .only 3, .machineSoftwareInterrupt⟩,
    ⟨true, .only 4, .userTimerInterrupt⟩,
    ⟨true, .only 5, .supervisorTimerInterrupt⟩,
    ⟨true, .only 6, .reserved⟩,
    ⟨true, .only 7, .machineTimerInterrupt⟩,
    ⟨true, .only 8, .userExternalInterrupt⟩,
    ⟨true, .only 9, .supervisorExternalInterrupt⟩,
    ⟨true, .only 10, .reserved⟩,
    ⟨true, .only 11, .machineExternalInterrupt⟩,
    ⟨true, .atLeast 12, .reserved⟩,
    ⟨false, .only 0, .instructionAddressMisaligned⟩,
    ⟨false, .only 1, .instructionAccessFault⟩,
    ⟨false, .only 2, .illegalInstruction⟩,
    ⟨false, .only 3, .breakpoint⟩,
    ⟨false, .only 4, .loadAddressMisaligned⟩,
    ⟨false, .only 5, .loadAccessFault⟩,
    ⟨false, .only 6, .storeAMOAddressMisaligned⟩,
    ⟨false, .only 7, .storeAMOAccessFault⟩,
    ⟨false, .only 8, .environmentCallFromUMode⟩,
    ⟨false, .only 9, .environmentCallFromSMode⟩,
    ⟨false, .only 10, .reserved⟩,
    ⟨false, .only 11, .environmentCallFromMMode⟩,
    ⟨false, .only 12, .instructionPageFault⟩,
    ⟨false, .only 13, .loadPageFault⟩,
    ⟨false, .only 14, .reserved⟩,
    ⟨false, .only 15, .storeAMOPageFault⟩,
    ⟨false, .atLeast 16, .reserved⟩]

/-- What the table says about a code, with the `Interrupt` column. -/
def tableEntry (interrupt : Bool) (code : Nat) : Option (Bool × Description) :=
  (mcauseTable.find? fun row => row.interrupt == interrupt && row.codes.covers code).map
    fun row => (row.interrupt, row.description)

/-- Bit 31 of `mcause`. -/
def isInterrupt (mcause : Word) : Bool := mcause.msb

/-- Bits 30 to 0 of `mcause`. -/
def exceptionCode (mcause : Word) : Nat := (mcause &&& 0x7FFFFFFF).toNat

/-- What the table says about `mcause`. -/
def documented (mcause : Word) : Option (Bool × Description) :=
  tableEntry (isInterrupt mcause) (exceptionCode mcause)

/-- The entry each handler is for, by its name and by the text it prints. -/
def Handler.cause : Handler → Bool × Description
  | .isrUserSoftware => (true, .userSoftwareInterrupt)
  | .esrHandlerInstrAddrMis => (false, .instructionAddressMisaligned)
  | .esrHandlerInstrAccFault => (false, .instructionAccessFault)
  | .esrHandlerIllegalInstr => (false, .illegalInstruction)
  | .esrHandlerBreakpoint => (false, .breakpoint)
  | .esrHandlerLoadAddrMis => (false, .loadAddressMisaligned)
  | .esrHandlerLoadAccFault => (false, .loadAccessFault)
  | .esrHandlerAMOAddrMis => (false, .storeAMOAddressMisaligned)
  | .esrHandlerAMOAccFault => (false, .storeAMOAccessFault)
  | .esrHandlerUModeEcall => (false, .environmentCallFromUMode)
  | .esrHandlerSModeEcall => (false, .environmentCallFromSMode)
  | .esrHandlerMModeEcall => (false, .environmentCallFromMMode)
  | .esrHandlerInstrPageFault => (false, .instructionPageFault)
  | .esrHandlerLoadPageFault => (false, .loadPageFault)
  | .esrHandlerAMOPageFault => (false, .storeAMOPageFault)
  | .esrHandlerReserved => (false, .reserved)

/-- The C functions stand for different entries. -/
theorem Handler.cause_injective : ∀ h h' : Handler, h.cause = h'.cause → h = h' := by
  intro h h' heq
  cases h <;> cases h' <;> first | rfl | cases heq

/-! ## The entries -/

/-- Exception codes from 16 on are reserved. -/
theorem tableEntry_exception {code : Nat} (h : 16 ≤ code) :
    tableEntry false code = some (false, .reserved) := by
  obtain ⟨n, rfl⟩ := Nat.exists_eq_add_of_le' h
  simp [tableEntry, mcauseTable, Codes.covers]

/-- Interrupt codes from 12 on are reserved. -/
theorem tableEntry_interrupt {code : Nat} (h : 12 ≤ code) :
    tableEntry true code = some (true, .reserved) := by
  obtain ⟨n, rfl⟩ := Nat.exists_eq_add_of_le' h
  simp [tableEntry, mcauseTable, Codes.covers]

theorem tableEntry_reserved_iff (code : Nat) :
    tableEntry false code = some (false, .reserved) ↔ code = 10 ∨ code = 14 ∨ 16 ≤ code := by
  by_cases hlarge : 16 ≤ code
  · exact iff_of_true (tableEntry_exception hlarge) (.inr (.inr hlarge))
  · have hsmall : ∀ n : Fin 16, tableEntry false n = some (false, .reserved)
        ↔ n.val = 10 ∨ n.val = 14 ∨ 16 ≤ n.val := by decide
    exact hsmall ⟨code, by omega⟩

theorem tableEntry_ecall_iff (code : Nat) :
    tableEntry false code = some (false, .environmentCallFromUMode) ↔ code = 8 := by
  by_cases hlarge : 16 ≤ code
  · rw [tableEntry_exception hlarge]
    exact iff_of_false (by decide) (by omega)
  · have hsmall : ∀ n : Fin 16, tableEntry false n = some (false, .environmentCallFromUMode)
        ↔ n.val = 8 := by decide
    exact hsmall ⟨code, by omega⟩

theorem tableEntry_userSoftware_iff (code : Nat) :
    tableEntry true code = some (true, .userSoftwareInterrupt) ↔ code = 0 := by
  by_cases hlarge : 12 ≤ code
  · rw [tableEntry_interrupt hlarge]
    exact iff_of_false (by decide) (by omega)
  · have hsmall : ∀ n : Fin 12, tableEntry true n = some (true, .userSoftwareInterrupt)
        ↔ n.val = 0 := by decide
    exact hsmall ⟨code, by omega⟩

/-! ## The if-chain -/

theorem isInterrupt_iff (mcause : Word) :
    isInterrupt mcause = true ↔ mcause &&& 0x80000000 ≠ 0 := by
  have hbit : (0x80000000 : Word) = BitVec.twoPow 32 31 := by decide
  rw [isInterrupt, BitVec.msb_eq_getLsbD_last, hbit, BitVec.and_twoPow]
  cases mcause.getLsbD 31 <;> decide

theorem exceptionCode_eq (mcause : Word) : exceptionCode mcause = mcause.toNat % 2 ^ 31 := by
  have hmask : (0x7FFFFFFF : Word).toNat = 2 ^ 31 - 1 := rfl
  rw [exceptionCode, BitVec.toNat_and, hmask, Nat.and_two_pow_sub_one_eq_mod]

/-- The low byte of `mcause` is that of the code. -/
theorem lowByte (mcause : Word) :
    mcause &&& 0xFF = BitVec.ofNat 32 (exceptionCode mcause % 256) := by
  have hmask : (0xFF : Word).toNat = 2 ^ 8 - 1 := rfl
  apply BitVec.eq_of_toNat_eq
  rw [BitVec.toNat_and, hmask, Nat.and_two_pow_sub_one_eq_mod, exceptionCode_eq,
    BitVec.toNat_ofNat]
  omega

theorem selectHandler_interrupt {mcause : Word} (h : isInterrupt mcause = true) :
    selectHandler mcause = .isrUserSoftware :=
  if_pos ((isInterrupt_iff mcause).mp h)

/-- An exception is dispatched on the low byte alone. -/
theorem selectHandler_lowByte {mcause : Word} (h : isInterrupt mcause = false) :
    selectHandler mcause = selectHandler (mcause &&& 0xFF) := by
  have hbit : mcause &&& 0x80000000 = 0 := by
    rw [← Bool.not_eq_true, isInterrupt_iff] at h
    exact not_not.mp h
  have hlow : mcause &&& 0xFF &&& 0x80000000 = 0 := by
    rw [BitVec.and_assoc, show (0xFF : Word) &&& 0x80000000 = 0#32 from rfl, BitVec.and_zero]
    rfl
  have htwice : mcause &&& 0xFF &&& 0xFF = mcause &&& 0xFF := by
    rw [BitVec.and_assoc, BitVec.and_self]
  simp only [selectHandler, hbit, hlow, htwice]

/-- Up to eight bits the chain and the table agree. -/
theorem selectHandler_table :
    ∀ n : Fin 256, some (selectHandler (BitVec.ofNat 32 n)).cause = tableEntry false n := by
  decide +kernel

theorem selectHandler_exception {mcause : Word} (h : isInterrupt mcause = false) :
    some (selectHandler mcause).cause = tableEntry false (exceptionCode mcause % 256) := by
  rw [selectHandler_lowByte h, lowByte]
  exact selectHandler_table ⟨exceptionCode mcause % 256, Nat.mod_lt _ (by decide)⟩

/-! ## The effect on `shadow_stack` -/

/-- Every handler but one leaves `shadow_stack` alone and comes back. -/
theorem runHandler_other {handler : Handler} (h : handler ≠ .esrHandlerUModeEcall)
    (a7 a6 mepc : Word) (shadowStack : SStack) :
    runHandler handler a7 a6 mepc shadowStack = .ok shadowStack := by
  cases handler <;> first | rfl | exact absurd rfl h

/-- `mcause` of an environment call from U-mode. -/
def IsUserEcall (mcause : Word) : Prop :=
  isInterrupt mcause = false ∧ exceptionCode mcause = 8

/-- `synchronous_exception_handler` treats `mcause` as the table says: it
changes `shadow_stack` or ends the run for an environment call from U-mode
only; every other cause leaves `shadow_stack` as it is and gets the handler of
its entry, the exception codes 10, 14 and from 16 on `esr_handler_reserved`. -/
structure DispatchedAsDocumented (mcause : Word) : Prop where
  monitored : ∀ a7 a6 mepc shadowStack,
    runHandler (selectHandler mcause) a7 a6 mepc shadowStack ≠ .ok shadowStack →
      IsUserEcall mcause
  frame : ¬ IsUserEcall mcause → ∀ a7 a6 mepc shadowStack,
    runHandler (selectHandler mcause) a7 a6 mepc shadowStack = .ok shadowStack
  handler : ¬ IsUserEcall mcause → documented mcause = some (selectHandler mcause).cause
  reserved : isInterrupt mcause = false →
    exceptionCode mcause = 10 ∨ exceptionCode mcause = 14 ∨ 16 ≤ exceptionCode mcause →
      selectHandler mcause = .esrHandlerReserved

/-- It is enough that the handlers agree: the entry of the environment call is
on one line of the table. -/
theorem dispatchedAsDocumented_of_handler {mcause : Word}
    (h : documented mcause = some (selectHandler mcause).cause) :
    DispatchedAsDocumented mcause := by
  have hframe : ¬ IsUserEcall mcause → ∀ a7 a6 mepc shadowStack,
      runHandler (selectHandler mcause) a7 a6 mepc shadowStack = .ok shadowStack := by
    intro hnot
    apply runHandler_other
    intro hselect
    cases hinterrupt : isInterrupt mcause with
    | true =>
        rw [selectHandler_interrupt hinterrupt] at hselect
        cases hselect
    | false =>
        rw [documented, hinterrupt, hselect] at h
        exact hnot ⟨hinterrupt, (tableEntry_ecall_iff _).mp h⟩
  refine ⟨?_, hframe, fun _ => h, ?_⟩
  · intro a7 a6 mepc shadowStack hchanged
    by_contra hnot
    exact hchanged (hframe hnot a7 a6 mepc shadowStack)
  · intro hinterrupt hcode
    apply Handler.cause_injective
    rw [documented, hinterrupt, (tableEntry_reserved_iff _).mpr hcode] at h
    exact (Option.some.inj h).symm

/-- **Which causes are dispatched as documented**: of the interrupts the user
software interrupt, of the exceptions the codes of eight bits and those whose
low byte is a reserved code itself. -/
theorem dispatch_iff (mcause : Word) :
    DispatchedAsDocumented mcause
      ↔ if isInterrupt mcause then exceptionCode mcause = 0
        else exceptionCode mcause < 256 ∨ exceptionCode mcause % 256 = 10
          ∨ exceptionCode mcause % 256 = 14 ∨ 16 ≤ exceptionCode mcause % 256 := by
  cases hinterrupt : isInterrupt mcause with
  | true =>
      have hnot : ¬ IsUserEcall mcause := by
        intro hecall
        have hexception := hecall.1
        rw [hinterrupt] at hexception
        cases hexception
      rw [if_pos rfl, ← tableEntry_userSoftware_iff]
      constructor
      · intro h
        have hentry := h.handler hnot
        rwa [documented, hinterrupt, selectHandler_interrupt hinterrupt] at hentry
      · intro hentry
        apply dispatchedAsDocumented_of_handler
        rwa [documented, hinterrupt, selectHandler_interrupt hinterrupt]
  | false =>
      rw [if_neg Bool.false_ne_true]
      constructor
      · intro h
        by_cases hsmall : exceptionCode mcause < 256
        · exact .inl hsmall
        · -- the table has the code as reserved, so the low byte is dispatched so too
          right
          have hselect := h.reserved hinterrupt (.inr (.inr (by omega)))
          have hentry := selectHandler_exception hinterrupt
          rw [hselect] at hentry
          exact (tableEntry_reserved_iff _).mp hentry.symm
      · intro hcode
        apply dispatchedAsDocumented_of_handler
        rw [documented, hinterrupt, selectHandler_exception hinterrupt]
        rcases hcode with hsmall | hlow
        · rw [Nat.mod_eq_of_lt hsmall]
        · rw [(tableEntry_reserved_iff _).mpr hlow]
          by_cases hsmall : exceptionCode mcause < 256
          · rw [Nat.mod_eq_of_lt hsmall] at hlow
            exact (tableEntry_reserved_iff _).mpr hlow
          · exact tableEntry_exception (by omega)

/-- On the hart: a trap with any other cause comes back with the object it
found. -/
theorem handler_frame {c : CCode} {h : Hart} (hdispatch : DispatchedAsDocumented (h.csr .mcause))
    (hnot : ¬ IsUserEcall (h.csr .mcause)) :
    synchronousExceptionHandler c h
      = .ok (c.resumed h (readSStack (c.entryMem h) shadowStackAddr)) :=
  handler_ok_iff.mpr ⟨_, hdispatch.frame hnot _ _ _ _, rfl⟩

/-- The exception code 264 is a reserved one, and an exit request in `a7`
terminates the run. -/
theorem dispatch_truncated : ¬ ∀ mcause, DispatchedAsDocumented mcause := by
  intro h
  have hecall := (h 0x108).monitored 1 0 0 initialShadowStack (by decide)
  exact absurd hecall.2 (by decide)

end RiscvTe
