import RiscvTe.ShadowStack

/-!
# The trap dispatcher and the ecall monitor (`intr_vector_table.c`)

The C part of the trap path: the if-chain of
`synchronous_exception_handler`, which picks a handler from `mcause`, and
`esr_handler_U_mode_ecall`, the only handler that touches `shadow_stack`.
The `printf` texts are left out: nothing reads them.

`code_termination` replaces `mepc` and leaves with `mret`, so the C code
after a call of it is never reached: it is an error of the run here.
-/

namespace RiscvTe

open Memory

/-- The C functions the dispatcher calls. -/
inductive Handler where
  | isrUserSoftware
  | esrHandlerInstrAddrMis
  | esrHandlerInstrAccFault
  | esrHandlerIllegalInstr
  | esrHandlerBreakpoint
  | esrHandlerLoadAddrMis
  | esrHandlerLoadAccFault
  | esrHandlerAMOAddrMis
  | esrHandlerAMOAccFault
  | esrHandlerUModeEcall
  | esrHandlerSModeEcall
  | esrHandlerMModeEcall
  | esrHandlerInstrPageFault
  | esrHandlerLoadPageFault
  | esrHandlerAMOPageFault
  | esrHandlerReserved
  deriving DecidableEq, Repr

/-- The if-chain of `synchronous_exception_handler`. -/
def selectHandler (mcause : Word) : Handler :=
  if mcause &&& 0x80000000 ≠ 0 then .isrUserSoftware
  else if mcause &&& 0xFF = 0 then .esrHandlerInstrAddrMis
  else if mcause &&& 0xFF = 1 then .esrHandlerInstrAccFault
  else if mcause &&& 0xFF = 2 then .esrHandlerIllegalInstr
  else if mcause &&& 0xFF = 3 then .esrHandlerBreakpoint
  else if mcause &&& 0xFF = 4 then .esrHandlerLoadAddrMis
  else if mcause &&& 0xFF = 5 then .esrHandlerLoadAccFault
  else if mcause &&& 0xFF = 6 then .esrHandlerAMOAddrMis
  else if mcause &&& 0xFF = 7 then .esrHandlerAMOAccFault
  else if mcause &&& 0xFF = 8 then .esrHandlerUModeEcall
  else if mcause &&& 0xFF = 9 then .esrHandlerSModeEcall
  else if mcause &&& 0xFF = 11 then .esrHandlerMModeEcall
  else if mcause &&& 0xFF = 12 then .esrHandlerInstrPageFault
  else if mcause &&& 0xFF = 13 then .esrHandlerLoadPageFault
  else if mcause &&& 0xFF = 15 then .esrHandlerAMOPageFault
  else .esrHandlerReserved

/-- `code_termination` does not come back. -/
def codeTermination {α : Type} : Except Stop α := .error .terminated

/-- `esr_handler_U_mode_ecall`, on the `shadow_stack` object. -/
def esrHandlerUModeEcall (ecodeAddressEncoding paramNumber mepc : Word)
    (shadowStack : SStack) : Except Stop SStack :=
  if ecodeAddressEncoding = 1 then codeTermination
  else if ecodeAddressEncoding % 2 = 0 then do
    -- jump check
    let addressToStore := mepc + 6 + 2 * paramNumber
    let (shadowStack, result) ← push shadowStack addressToStore
    if result ≠ 1 then codeTermination else return shadowStack
  else if ecodeAddressEncoding % 2 ≠ 0 then do
    -- return check
    let ecodeAddressEncoding := ecodeAddressEncoding - 1
    let (shadowStack, storedAddress) ← pop shadowStack
    if storedAddress = 0 ∨ storedAddress ≠ ecodeAddressEncoding then codeTermination
    else return shadowStack
  else return shadowStack

/-- What the handler picked by `selectHandler` does to `shadow_stack`: all
but one only print. -/
def runHandler (handler : Handler) (a7 a6 mepc : Word) (shadowStack : SStack) :
    Except Stop SStack :=
  match handler with
  | .esrHandlerUModeEcall => esrHandlerUModeEcall a7 a6 mepc shadowStack
  | _ => .ok shadowStack

/-! ## One lemma per outcome of the ecall handler -/

section Outcomes

variable {a7 a6 mepc : Word} {s : SStack}

theorem esr_exit (h : a7 = 1) :
    esrHandlerUModeEcall a7 a6 mepc s = .error .terminated := by
  rw [esrHandlerUModeEcall, if_pos h]
  rfl

/-- The code `1` is odd, so an even code is never the exit code. -/
theorem ne_one_of_even (h : a7 % 2 = 0) : a7 ≠ 1 := by
  rintro rfl
  exact absurd h (by decide)

theorem esr_jump_eq (heven : a7 % 2 = 0) :
    esrHandlerUModeEcall a7 a6 mepc s
      = push s (mepc + 6 + 2 * a6) >>= fun p =>
          if p.2 ≠ 1 then codeTermination else .ok p.1 := by
  rw [esrHandlerUModeEcall, if_neg (ne_one_of_even heven), if_pos heven]
  rfl

theorem esr_return_eq (hexit : a7 ≠ 1) (hodd : a7 % 2 ≠ 0) :
    esrHandlerUModeEcall a7 a6 mepc s
      = pop s >>= fun p =>
          if p.2 = 0 ∨ p.2 ≠ a7 - 1 then codeTermination else .ok p.1 := by
  rw [esrHandlerUModeEcall, if_neg hexit, if_neg hodd, if_pos hodd]
  rfl

/-- A jump check on a full stack ends the run. -/
theorem esr_jump_full (heven : a7 % 2 = 0) (hfull : isFull s = true) :
    esrHandlerUModeEcall a7 a6 mepc s = .error .terminated := by
  rw [esr_jump_eq heven, push_full hfull]
  rfl

/-- A jump check with room left pushes `mepc + 6 + 2 * a6`. -/
theorem esr_jump_ok (a6 mepc : Word) (heven : a7 % 2 = 0) (h : s.WF) (hroom : isFull s = false) :
    ∃ s', esrHandlerUModeEcall a7 a6 mepc s = .ok s' ∧ s'.WF
      ∧ s'.contents = (mepc + 6 + 2 * a6) :: s.contents := by
  obtain ⟨s', hpush, hwf, hcontents⟩ := push_ok h hroom (mepc + 6 + 2 * a6)
  refine ⟨s', ?_, hwf, hcontents⟩
  rw [esr_jump_eq heven, hpush]
  rfl

/-- A return check whose address is the newest entry removes that entry.
The sentinel `0` is out of the way: an odd code other than `1` never asks
for the address `0`. -/
theorem esr_return_ok (a6 mepc : Word) (hexit : a7 ≠ 1) (hodd : a7 % 2 ≠ 0) (h : s.WF)
    {rest : List Word} (htop : s.contents = (a7 - 1) :: rest) :
    ∃ s', esrHandlerUModeEcall a7 a6 mepc s = .ok s' ∧ s'.WF ∧ s'.contents = rest := by
  have hne : isEmpty s = false := by
    rw [← Bool.not_eq_true, isEmpty_iff h, htop]
    simp
  obtain ⟨s', v, hpop, hwf, hcontents⟩ := pop_ok h hne
  rw [htop] at hcontents
  obtain ⟨rfl, rfl⟩ := List.cons.inj hcontents
  have hzero : a7 - 1 ≠ 0 := by
    intro h0
    exact hexit (by bv_omega)
  refine ⟨s', ?_, hwf, rfl⟩
  rw [esr_return_eq hexit hodd, hpop]
  exact if_neg (by simpa using hzero)

/-- Every other return check ends the run. -/
theorem esr_return_stop (hexit : a7 ≠ 1) (hodd : a7 % 2 ≠ 0) (h : s.WF)
    (htop : s.contents.head? ≠ some (a7 - 1)) :
    esrHandlerUModeEcall a7 a6 mepc s = .error .terminated := by
  rw [esr_return_eq hexit hodd]
  cases hne : isEmpty s with
  | true =>
      rw [pop_empty hne]
      rfl
  | false =>
      obtain ⟨s', v, hpop, _, hcontents⟩ := pop_ok h hne
      have hv : v ≠ a7 - 1 := by
        rintro rfl
        exact htop (by rw [hcontents]; rfl)
      rw [hpop]
      exact if_pos (.inr hv)

/-- **The ecall handler, case by case**: it pushed for a jump check, popped
for a return check, or ended the run. -/
theorem esr_cases (a7 a6 mepc : Word) {s : SStack} (h : s.WF) :
    (∃ s', esrHandlerUModeEcall a7 a6 mepc s = .ok s' ∧ s'.WF
        ∧ ((a7 % 2 = 0 ∧ isFull s = false
              ∧ s'.contents = (mepc + 6 + 2 * a6) :: s.contents)
          ∨ (a7 ≠ 1 ∧ a7 % 2 ≠ 0 ∧ s.contents = (a7 - 1) :: s'.contents)))
      ∨ esrHandlerUModeEcall a7 a6 mepc s = .error .terminated := by
  by_cases hexit : a7 = 1
  · exact .inr (esr_exit hexit)
  by_cases heven : a7 % 2 = 0
  · cases hfull : isFull s with
    | true => exact .inr (esr_jump_full heven hfull)
    | false =>
        obtain ⟨s', hrun, hwf, hc⟩ := esr_jump_ok a6 mepc heven h hfull
        exact .inl ⟨s', hrun, hwf, .inl ⟨heven, rfl, hc⟩⟩
  · by_cases htop : s.contents.head? = some (a7 - 1)
    · obtain ⟨rest, hcontents⟩ := List.head?_eq_some_iff.mp htop
      obtain ⟨s', hrun, hwf, hc⟩ := esr_return_ok a6 mepc hexit heven h hcontents
      exact .inl ⟨s', hrun, hwf, .inr ⟨hexit, heven, by rw [hcontents, hc]⟩⟩
    · exact .inr (esr_return_stop hexit heven h htop)

theorem esr_wf {s' : SStack} (h : s.WF)
    (hrun : esrHandlerUModeEcall a7 a6 mepc s = .ok s') : s'.WF := by
  rcases esr_cases a7 a6 mepc h with ⟨t, ht, hwf, _⟩ | herr
  · rw [ht] at hrun
    cases hrun
    exact hwf
  · rw [herr] at hrun
    cases hrun

/-- A run stops in `code_termination`, never at an access outside the array. -/
theorem esr_error {e : Stop} (h : s.WF)
    (hrun : esrHandlerUModeEcall a7 a6 mepc s = .error e) : e = .terminated := by
  rcases esr_cases a7 a6 mepc h with ⟨t, ht, _⟩ | herr
  · rw [ht] at hrun
    cases hrun
  · rw [herr] at hrun
    exact (Except.error.inj hrun).symm

end Outcomes

end RiscvTe
