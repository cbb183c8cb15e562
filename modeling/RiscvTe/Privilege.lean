import RiscvTe.Isolation

/-!
# Privilege after `main`

`main` hands the hart to user mode; from then on machine mode is entered by
traps through `interrupt_vector_table` and has to be left by whatever the
vector entry jumps to. The entries end in three ways: the hand-written
`mret` of `synchronous_exception_handler`, the `mret` of `code_termination`,
and, for every `isr_*`, the `ret` of a plain C function.

The first two restore user mode, so user mode is kept along every run
without interrupts in which the handlers find their code, their data and
`shadow_stack` in order, on a stack of their own. The third does not: `ret`
jumps to the interrupted program's `ra` in machine mode.
-/

namespace RiscvTe

open Memory EventRun

/-! ## The vector table -/

/-- What the entries of `interrupt_vector_table` jump to. -/
inductive Routine where
  | synchronousExceptionHandler
  | isrSupervisorSoftware
  | isrReserved
  | isrMachineSoftware
  | isrUserTimer
  | isrSupervisorTimer
  | isrMachineTimer
  | isrUserExternal
  | isrSupervisorExternal
  | isrMachineExternal
  deriving DecidableEq, Repr

/-- `interrupt_vector_table`: one `j` of four bytes for each cause. -/
def interruptVectorTable : List Routine :=
  [.synchronousExceptionHandler, .isrSupervisorSoftware, .isrReserved, .isrMachineSoftware,
    .isrUserTimer, .isrSupervisorTimer, .isrReserved, .isrMachineTimer, .isrUserExternal,
    .isrSupervisorExternal, .isrReserved, .isrMachineExternal, .isrReserved]

/-- The linked program, as far as the trap path depends on it: the image a
trap relies on, addresses, and the other compiled C functions. When the
handler calls `code_termination` it has changed registers at will, and of the
memory its frames and `shadow_stack`. -/
structure Firmware extends TrapImage where
  vectorTable : Word
  userModeEntryPoint : Word
  terminateExecution : Word
  isr : Routine → CCode
  terminationRegs : Hart → RegFile
  terminationMem : Hart → Mem
  aligned : vectorTable &&& 3 = 0
  terminationFrame : ∀ h x, ¬ InFrames handler h x →
    ¬ InRegion shadowStackAddr shadowStackSize x → terminationMem h x = h.mem x

namespace Firmware

variable (fw : Firmware)

/-- The code of the trap handlers contains `pc`. -/
def inHandlers (pc : Word) : Bool := fw.code.any fun p => p.1 == pc

/-- The entry of the vector table at `pc`. -/
def routineAt (pc : Word) : Option Routine :=
  if (pc - fw.vectorTable) % 4 = 0 then
    interruptVectorTable[(pc - fw.vectorTable).toNat / 4]?
  else none

/-- The lines of `main` that set up traps and the entry to user mode. -/
def mainSetup : List Instr :=
  [.reg (.li Reg.t0 fw.vectorTable), .reg (.ori Reg.t0 Reg.t0 1), .csrw .mtvec Reg.t0,
    -- `MPP` is cleared; `or` with 8 turns interrupts on, not off
    .csrr Reg.t0 .mstatus, .reg (.li Reg.t1 0xFFFFE7FF), .reg (.and Reg.t0 Reg.t0 Reg.t1),
    .reg (.ori Reg.t0 Reg.t0 8), .csrw .mstatus Reg.t0,
    .reg (.li Reg.t0 fw.userModeEntryPoint), .csrw .mepc Reg.t0]

/-- The hart after the `mret` of `main`. -/
def mainExit (h : Hart) : Hart :=
  ((h.line fw.mainSetup).line (pmpSetup shadowStackAddr)).mret

/-- The lines of `code_termination`, without `mret`. -/
def codeTerminationBlock : List Instr :=
  [.reg (.li Reg.t0 fw.terminateExecution), .csrw .mepc Reg.t0]

/-- The hart after `code_termination`. -/
def terminated (h : Hart) : Hart :=
  (({ h with regs := fw.terminationRegs h, mem := fw.terminationMem h } : Hart).line
    fw.codeTerminationBlock).mret

/-- An `isr_*` is a plain C function: it ends with `ret`. -/
def callIsr (r : Routine) (h : Hart) : Hart :=
  { h with
    regs := (fw.isr r).regs h
    mem := spill h.mem ((fw.isr r).before h)
    pc := jumpTarget (h.regs Reg.ra) }

/-- What the routine of a vector entry makes of the trap; an access outside
`addresses` is the one way to have no answer. -/
def runRoutine (r : Routine) (h : Hart) : Except Stop Hart :=
  match r with
  | .synchronousExceptionHandler =>
      match synchronousExceptionHandler fw.handler h with
      | .error .terminated => .ok (fw.terminated h)
      | result => result
  | r => .ok (fw.callIsr r h)

/-- The compiled code a vector entry runs. -/
def codeOf (r : Routine) : CCode :=
  match r with
  | .synchronousExceptionHandler => fw.handler
  | r => fw.isr r

/-- What the routine has on the stack is there when it needs it. -/
def framesKept (r : Routine) (h : Hart) : Bool :=
  match r with
  | .synchronousExceptionHandler => fw.handler.framesKept h
  | _ => true

/-- A trap, from the trapping instruction to the exit of its routine. Code
that has been overwritten does what it likes, and so does code that finds its
data or its stack overwritten, and an access outside `addresses`: `patched`. -/
def trap (h : Hart) (mcause : Word) (patched : Hart) : Except Stop Hart :=
  let h := h.takeTrap mcause
  match fw.routineAt (vectorTarget (h.csr .mtvec) mcause) with
  | some r =>
      if fw.intact h.mem && fw.framesApart (fw.codeOf r) h && fw.framesKept r h then
        match fw.runRoutine r h with
        | .ok h' => .ok h'
        | .error _ => .ok patched
      else .ok patched
  | none => .ok patched

end Firmware

/-! ## Runs -/

/-- What can happen after `main`: an instruction with any effect, an
exception, an interrupt. -/
inductive SysEvent where
  | instr (next : Hart)
  | exception (code : Word) (patched : Hart)
  | interrupt (code : Fin 13) (patched : Hart)

def exceptionCause (code : Word) : Word := code &&& 0x7FFFFFFF

def interruptCause (code : Fin 13) : Word := 0x80000000 ||| BitVec.ofNat 32 code.val

/-- A user instruction changes registers, memory and `pc`; the CSRs and the
mode are out of its reach. In machine mode nothing is. -/
def sysStep (fw : Firmware) (h : Hart) : SysEvent → Except Stop Hart
  | .instr next =>
      match h.mode with
      | .user => .ok { next with csr := h.csr, mode := .user }
      | .machine => .ok next
  | .exception code patched => fw.trap h (exceptionCause code) patched
  | .interrupt code patched => fw.trap h (interruptCause code) patched

/-- Outside the trap handlers the hart is in user mode, and an interrupt that
has left them resumes where it was taken. -/
def PrivilegeKept (fw : Firmware) (h : Hart) (e : SysEvent) : Prop :=
  ∀ h', sysStep fw h e = .ok h' → fw.inHandlers h'.pc = false →
    h'.mode = .user ∧ ∀ code patched, e = .interrupt code patched → h'.pc = h.pc

/-- What the ecall handler asks for: frames that do not meet `shadow_stack`,
and an index in range there. -/
structure ObjectSound (fw : Firmware) (h : Hart) : Prop where
  off : fw.handler.framesOff h = true
  wf : (readSStack h.mem shadowStackAddr).WF

/-- No interrupt is taken. An exception finds the handlers' code and data as
they were loaded and a stack apart from them; an exception that the ecall
handler answers finds `shadow_stack` sound. -/
def Undisturbed (fw : Firmware) (h : Hart) : SysEvent → Prop
  | .instr _ => True
  | .exception code _ =>
      fw.intact h.mem = true ∧ fw.framesApart fw.handler h = true
        ∧ (selectHandler (exceptionCause code) = .esrHandlerUModeEcall → ObjectSound fw h)
  | .interrupt _ _ => False

/-! ## Trap entry -/

/-- The hart is in user mode and traps go through the vector table. -/
structure UserReady (fw : Firmware) (h : Hart) : Prop where
  mode : h.mode = .user
  mtvec : h.csr .mtvec = fw.vectorTable ||| 1

theorem UserReady.trap_mpp {fw : Firmware} {h : Hart} (hr : UserReady fw h) (mcause : Word) :
    mpp ((h.takeTrap mcause).csr .mstatus) = .user := by
  show mpp (trapMstatus (h.csr .mstatus) h.mode) = .user
  rw [hr.mode]
  exact mpp_setMpp _ _

/-- The two low bits of `mtvec` are the mode. -/
theorem or_one_base {base : Word} (h : base &&& 3 = 0) :
    (base ||| 1) &&& ~~~(3 : Word) = base := by
  ext i hi
  have hbit : (base &&& 3)[i] = (0 : Word)[i] := by rw [h]
  have hzero : (0 : Word)[i] = false := BitVec.getElem_zero hi
  rw [BitVec.getElem_and, hzero] at hbit
  rw [BitVec.getElem_and, BitVec.getElem_or, BitVec.getElem_not]
  have hcases : i = 0 ∨ i = 1 ∨ 2 ≤ i := by omega
  rcases hcases with rfl | rfl | h2
  · simpa using hbit
  · simpa using hbit
  · rw [one_high hi (by omega), three_high hi h2]
    simp

theorem or_one_vectored (base : Word) : (base ||| 1) &&& 1 = 1 := by
  ext i hi
  rw [BitVec.getElem_and, BitVec.getElem_or]
  cases (1 : Word)[i] <;> simp

/-- Every exception enters at the first entry of the table. -/
theorem routineAt_exception (fw : Firmware) (code : Word) :
    fw.routineAt (vectorTarget (fw.vectorTable ||| 1) (exceptionCause code))
      = some .synchronousExceptionHandler := by
  have hsync : exceptionCause code &&& 0x80000000 = 0 := by
    rw [exceptionCause, BitVec.and_assoc]
    exact BitVec.and_zero
  rw [vectorTarget, if_neg (fun h => h.1 hsync), or_one_base fw.aligned, Firmware.routineAt,
    BitVec.sub_self]
  rfl

/-- An interrupt enters at the entry of its code. -/
theorem routineAt_interrupt (fw : Firmware) (code : Fin 13) :
    fw.routineAt (vectorTarget (fw.vectorTable ||| 1) (interruptCause code))
      = interruptVectorTable[code.val]? := by
  have hint : interruptCause code &&& 0x80000000 ≠ 0 := by
    revert code
    decide
  have hcode : 4 * (interruptCause code &&& 0x7FFFFFFF) = BitVec.ofNat 32 (4 * code.val) := by
    revert code
    decide
  have hlt := code.isLt
  rw [vectorTarget, if_pos ⟨hint, or_one_vectored _⟩, or_one_base fw.aligned, hcode,
    Firmware.routineAt, add_sub_base, BitVec.toNat_ofNat, Nat.mod_eq_of_lt (by omega),
    Nat.mul_div_cancel_left _ (by decide), if_pos]
  revert code
  decide

/-! ## One step -/

section Step

variable {fw : Firmware} {h h' : Hart}

/-- A hart that `mret` has left after a trap from user mode is ready again. -/
theorem terminated_ready (hr : UserReady fw h) (mcause : Word) :
    UserReady fw (fw.terminated (h.takeTrap mcause)) := by
  constructor
  · exact hr.trap_mpp mcause
  · exact hr.mtvec

theorem resumed_ready (hr : UserReady fw h) (mcause : Word) (s : SStack) :
    UserReady fw (fw.handler.resumed (h.takeTrap mcause) s) := by
  constructor
  · rw [resumed_mode]
    exact hr.trap_mpp mcause
  · rw [resumed_csr _ _ _ (by decide) (by decide)]
    exact hr.mtvec

/-- Where the index is in range the handler stops in `code_termination` only,
and in both cases it has its frames. -/
theorem handler_decision {mcause : Word}
    (hsound : selectHandler mcause = .esrHandlerUModeEcall → ObjectSound fw h) :
    fw.handler.framesKept (h.takeTrap mcause) = true
      ∧ ((∃ s, fw.handler.decision (h.takeTrap mcause) = .ok s)
        ∨ fw.handler.decision (h.takeTrap mcause) = .error .terminated) := by
  have hcause : (h.takeTrap mcause).csr .mcause = mcause := rfl
  cases hselect : selectHandler mcause with
  | esrHandlerUModeEcall =>
      obtain ⟨hoff, hwf⟩ := hsound hselect
      have htrap : fw.handler.framesOff (h.takeTrap mcause) = true := hoff
      have hread : readSStack (fw.handler.entryMem (h.takeTrap mcause)) shadowStackAddr
          = readSStack h.mem shadowStackAddr :=
        readSStack_congr fun x hx => entryMem_other (framesOff_iff.mp htrap x hx)
      refine ⟨framesKept_of_off htrap, ?_⟩
      cases hdecision : fw.handler.decision (h.takeTrap mcause) with
      | ok s => exact .inl ⟨s, rfl⟩
      | error e =>
          rw [CCode.decision, hcause, hselect, hread] at hdecision
          exact .inr (congrArg Except.error (esr_error hwf hdecision))
  | _ =>
      have hprint : fw.handler.decision (h.takeTrap mcause)
          = .ok (readSStack (fw.handler.entryMem (h.takeTrap mcause)) shadowStackAddr) := by
        rw [CCode.decision, hcause, hselect]
        rfl
      exact ⟨framesKept_of_print hprint, .inl ⟨_, hprint⟩⟩

/-- Both ways out of `synchronous_exception_handler` lead to user mode. -/
theorem handler_ready (hr : UserReady fw h) {mcause : Word}
    (hsound : selectHandler mcause = .esrHandlerUModeEcall → ObjectSound fw h) :
    ∃ h', fw.runRoutine .synchronousExceptionHandler (h.takeTrap mcause) = .ok h'
      ∧ UserReady fw h' := by
  obtain ⟨s, hdecision⟩ | hdecision := (handler_decision hsound).2
  · refine ⟨fw.handler.resumed (h.takeTrap mcause) s, ?_, resumed_ready hr mcause s⟩
    rw [Firmware.runRoutine, handler_ok_iff.mpr ⟨s, hdecision, rfl⟩]
  · refine ⟨fw.terminated (h.takeTrap mcause), ?_, terminated_ready hr mcause⟩
    rw [Firmware.runRoutine, handler_error_iff.mpr hdecision]

/-- An undisturbed step ends in user mode. -/
theorem undisturbed_ready {e : SysEvent} (hr : UserReady fw h) (hu : Undisturbed fw h e)
    (hstep : sysStep fw h e = .ok h') : UserReady fw h' := by
  cases e with
  | instr next =>
      simp only [sysStep, hr.mode] at hstep
      cases hstep
      exact ⟨rfl, hr.mtvec⟩
  | exception code patched =>
      have hroutine : fw.routineAt (vectorTarget
          ((h.takeTrap (exceptionCause code)).csr .mtvec) (exceptionCause code))
            = some .synchronousExceptionHandler := by
        rw [← routineAt_exception fw code, ← hr.mtvec]
        rfl
      obtain ⟨hintact, hapart, hsound⟩ := hu
      have hcode : (fw.intact (h.takeTrap (exceptionCause code)).mem
          && fw.framesApart fw.handler (h.takeTrap (exceptionCause code))
          && fw.handler.framesKept (h.takeTrap (exceptionCause code))) = true :=
        Bool.and_eq_true_iff.mpr
          ⟨Bool.and_eq_true_iff.mpr ⟨hintact, hapart⟩, (handler_decision hsound).1⟩
      obtain ⟨g, hrun, hready⟩ := handler_ready hr hsound
      rw [sysStep, Firmware.trap, hroutine] at hstep
      have hg := (if_pos hcode).symm.trans hstep
      rw [hrun] at hg
      cases hg
      exact hready
  | interrupt code patched => exact hu.elim

/-- Where an interrupt leaves its routine. Cause 0 shares the entry of the
exceptions and is resumed four bytes on; every other routine returns to the
`ra` it was interrupted with. -/
def interruptExit (h : Hart) (code : Fin 13) : Word :=
  if code = 0 then h.pc + 4 else jumpTarget (h.regs Reg.ra)

/-- Only the first entry of the table is the exception handler's. -/
theorem isr_of_ne_zero {code : Fin 13} (hcode : code ≠ 0) :
    ∃ r, interruptVectorTable[code.val]? = some r ∧ r ≠ .synchronousExceptionHandler := by
  revert code
  decide

theorem isr_run {r : Routine} (hr : r ≠ .synchronousExceptionHandler) (h : Hart) :
    fw.runRoutine r h = .ok (fw.callIsr r h) := by
  cases r with
  | synchronousExceptionHandler => exact absurd rfl hr
  | _ => rfl

/-- The dispatcher answers an interrupt with `isr_user_software`, which only
prints. -/
theorem interrupt_decision (fw : Firmware) (h : Hart) :
    fw.handler.decision (h.takeTrap (interruptCause 0))
      = .ok (readSStack (fw.handler.entryMem (h.takeTrap (interruptCause 0)))
          shadowStackAddr) := by
  have hselect : selectHandler ((h.takeTrap (interruptCause 0)).csr .mcause)
      = .isrUserSoftware := by
    show selectHandler (interruptCause 0) = _
    decide
  rw [CCode.decision, hselect]
  rfl

theorem interrupt_zero_run (fw : Firmware) (h : Hart) :
    ∃ s, fw.runRoutine .synchronousExceptionHandler (h.takeTrap (interruptCause 0))
      = .ok (fw.handler.resumed (h.takeTrap (interruptCause 0)) s) := by
  refine ⟨readSStack (fw.handler.entryMem (h.takeTrap (interruptCause 0))) shadowStackAddr, ?_⟩
  rw [Firmware.runRoutine, handler_ok_iff.mpr ⟨_, interrupt_decision fw h, rfl⟩]

/-- What an interrupt that finds the handlers' code as it was loaded makes of
the hart. -/
theorem interrupt_step (code : Fin 13) (hr : UserReady fw h) (hintact : fw.intact h.mem = true)
    (hapart : ∀ r, fw.framesApart (fw.codeOf r) h = true) (patched : Hart) :
    ∃ h', sysStep fw h (.interrupt code patched) = .ok h' ∧ h'.pc = interruptExit h code
      ∧ (h'.mode = .user ↔ code = 0) := by
  have hroutine : fw.routineAt (vectorTarget
      ((h.takeTrap (interruptCause code)).csr .mtvec) (interruptCause code))
        = interruptVectorTable[code.val]? := by
    rw [← routineAt_interrupt fw code, ← hr.mtvec]
    rfl
  have hcode : ∀ r, fw.framesKept r (h.takeTrap (interruptCause code)) = true →
      (fw.intact (h.takeTrap (interruptCause code)).mem
        && fw.framesApart (fw.codeOf r) (h.takeTrap (interruptCause code))
        && fw.framesKept r (h.takeTrap (interruptCause code))) = true :=
    fun r hkept => Bool.and_eq_true_iff.mpr
      ⟨Bool.and_eq_true_iff.mpr ⟨hintact, hapart r⟩, hkept⟩
  rw [sysStep, Firmware.trap, hroutine]
  by_cases hzero : code = 0
  · subst hzero
    obtain ⟨s, hs⟩ := interrupt_zero_run fw h
    have hkept := framesKept_of_print (interrupt_decision fw h)
    refine ⟨_, (if_pos (hcode .synchronousExceptionHandler hkept)).trans (by rw [hs]), ?_, ?_⟩
    · rw [resumed_pc, interruptExit, if_pos rfl]
      rfl
    · rw [resumed_mode, hr.trap_mpp]
      simp
  · obtain ⟨r, htable, hne⟩ := isr_of_ne_zero hzero
    rw [htable]
    have hkept : fw.framesKept r (h.takeTrap (interruptCause code)) = true := by
      cases r with
      | synchronousExceptionHandler => exact absurd rfl hne
      | _ => rfl
    refine ⟨_, (if_pos (hcode r hkept)).trans (by rw [isr_run hne]), ?_, ?_⟩
    · rw [interruptExit, if_neg hzero]
      rfl
    · exact iff_of_false (by intro h; cases h) hzero

/-- Such an interrupt breaks the property unless it lands in the handlers'
own code. -/
theorem interrupt_kept_iff {code : Fin 13} (hr : UserReady fw h)
    (hintact : fw.intact h.mem = true)
    (hapart : ∀ r, fw.framesApart (fw.codeOf r) h = true) (patched : Hart) :
    PrivilegeKept fw h (.interrupt code patched)
      ↔ fw.inHandlers (interruptExit h code) = true := by
  obtain ⟨h', hstep, hpc, hmode⟩ := interrupt_step code hr hintact hapart patched
  constructor
  · intro hkept
    by_contra hout
    rw [Bool.not_eq_true, ← hpc] at hout
    obtain ⟨huser, hresume⟩ := hkept h' hstep hout
    -- user mode is back for cause 0 alone, and then four bytes too far
    have hzero : code = 0 := hmode.mp huser
    have hsame : h.pc + 4 = h.pc := by
      have hback := hresume code patched rfl
      rwa [hpc, interruptExit, if_pos hzero] at hback
    have hfour : (4 : Word) = 0 := by
      rw [← add_sub_base h.pc 4, hsame, BitVec.sub_self]
      rfl
    exact absurd hfour (by decide)
  · intro hin g hg hout
    rw [hstep] at hg
    cases hg
    rw [hpc, hin] at hout
    cases hout

end Step

/-! ## Whole runs -/

/-- `main` clears `MPP`. -/
theorem mpp_cleared (mstatus : Word) : mpp ((mstatus &&& 0xFFFFE7FF) ||| 8) = .user := by
  have hbits : (((mstatus &&& 0xFFFFE7FF) ||| 8) >>> 11) &&& 3 = 0 := by
    ext i hi
    have h2 : i = 0 ∨ i = 1 ∨ 2 ≤ i := by omega
    rcases h2 with rfl | rfl | h2
    · simp
    · simp
    · rw [BitVec.getElem_and, three_high hi h2, Bool.and_false]
      exact (BitVec.getElem_zero hi).symm
  rw [mpp, hbits]
  rfl

theorem mainExit_ready (fw : Firmware) (h : Hart) : UserReady fw (fw.mainExit h) := by
  constructor
  · exact mpp_cleared (h.csr .mstatus)
  · rfl

/-- **User mode along undisturbed runs.** In every run after `main`, of any
instructions and exceptions, without interrupts and with what the handlers
rely on left alone, the hart is in user mode whenever it is outside the
handlers; and in every state such a run reaches, an
interrupt breaks this, unless its routine happens to return into the
handlers' code. -/
theorem user_mode_along (fw : Firmware) (h : Hart) (es : List SysEvent)
    (hu : Along (sysStep fw) (fw.mainExit h) (Undisturbed fw) es) :
    Along (sysStep fw) (fw.mainExit h) (PrivilegeKept fw) es
      ∧ ∀ t, run (sysStep fw) (fw.mainExit h) es = .ok t → t.mode = .user
        ∧ ∀ code patched, fw.intact t.mem = true →
            (∀ r, fw.framesApart (fw.codeOf r) t = true) →
            (PrivilegeKept fw t (.interrupt code patched)
              ↔ fw.inHandlers (interruptExit t code) = true) := by
  have hstep : ∀ s e t, UserReady fw s → Undisturbed fw s e → sysStep fw s e = .ok t →
      UserReady fw t := fun _ _ _ => undisturbed_ready
  constructor
  · refine Along.imp (mainExit_ready fw h) hstep ?_ hu
    intro s e hs he t ht _
    refine ⟨(undisturbed_ready hs he ht).mode, ?_⟩
    rintro code patched rfl
    exact he.elim
  · intro t ht
    have hready : UserReady fw t := Along.invariant hstep (mainExit_ready fw h) hu ht
    exact ⟨hready.mode, fun code patched hintact hapart =>
      interrupt_kept_iff hready hintact hapart patched⟩

/-! ## An interrupted run -/

/-- The vector table of `smallImage`, where the linker puts it, and C code that
changes nothing. -/
def smallFirmware : Firmware :=
  { smallImage with
    vectorTable := 0x40380500
    userModeEntryPoint := 0x40380c00
    terminateExecution := 0x40381000
    isr := fun _ => frugalCode
    terminationRegs := Hart.regs
    terminationMem := Hart.mem
    aligned := by decide
    terminationFrame := fun _ _ _ _ => rfl }

/-- User code about to run at `0x40380c00` with a return address of its own. -/
def userHart : Hart :=
  { zeroHart with regs := dramRegs 0x40380c10, mode := .user, pc := 0x40380c00 }

/-- A run that passes through a jump check and stays in user mode. -/
theorem user_mode_along_jumpCheck :
    Along (sysStep smallFirmware) (smallFirmware.mainExit zeroHart)
      (PrivilegeKept smallFirmware) [.instr userHart, .exception 8 zeroHart] := by
  refine (user_mode_along smallFirmware zeroHart _ ?_).1
  refine Along.cons trivial fun g hg => Along.singleton ?_
  cases hg
  have hstack : smallImage.StackApart userHart := dram_apart rfl
  refine ⟨by decide, hstack.apart, fun _ => ⟨hstack.off, ?_⟩⟩
  constructor <;> decide

/-- If an interrupt of this user code keeps the property, it leaves its routine
in the handlers. -/
theorem userHart_interrupt {code : Fin 13}
    (h : Along (sysStep smallFirmware) (smallFirmware.mainExit zeroHart)
      (PrivilegeKept smallFirmware) [.instr userHart, .interrupt code zeroHart]) :
    smallFirmware.inHandlers (interruptExit userHart code) = true := by
  have hstack : smallImage.StackApart userHart := dram_apart rfl
  have hready : UserReady smallFirmware
      { userHart with csr := (smallFirmware.mainExit zeroHart).csr, mode := .user } := ⟨rfl, rfl⟩
  refine (interrupt_kept_iff hready (by decide) (fun r => ?_) zeroHart).mp (h.tail rfl).head
  cases r <;> exact hstack.apart

/-- A machine timer interrupt ends at the user's `ra` in machine mode; a user
software interrupt resumes one word too far. -/
theorem interrupt_breaks_privilege :
    ¬ Along (sysStep smallFirmware) (smallFirmware.mainExit zeroHart)
        (PrivilegeKept smallFirmware) [.instr userHart, .interrupt 7 zeroHart]
      ∧ ¬ Along (sysStep smallFirmware) (smallFirmware.mainExit zeroHart)
        (PrivilegeKept smallFirmware) [.instr userHart, .interrupt 0 zeroHart] := by
  constructor
  · intro h
    have hinside := userHart_interrupt h
    revert hinside
    decide
  · intro h
    have hinside := userHart_interrupt h
    revert hinside
    decide

end RiscvTe
