import RiscvTe.Lib.EventRun
import RiscvTe.Isa
import RiscvTe.Monitor

/-!
# Runs of instrumented code and backward-edge integrity

The two blocks the instrumenter inserts, executed on an arbitrary register
file up to and through their `ecall`, and runs of them in any order. User
code between two checks may leave anything in its registers, so every event
carries a register file of its own; the shadow stack is only reached
through the monitor.

The return check encodes "return to `a`" as `a + 1`, and the handler tells
returns from jumps by parity. An odd `ra` therefore arrives as a jump check:
it pushes instead of popping and the `jr ra` goes ahead unchecked.
`return_integrity` says that this is the only hole.
-/

namespace RiscvTe

open Memory EventRun

/-- The registers after a trap that was resumed. Of these the return check
only relies on `ra`. -/
structure TrapEffect where
  regs : RegFile → RegFile
  keepsRa : ∀ r, regs r Reg.ra = r Reg.ra

/-- `JUMP_TEMPLATE`: `la a7,label; ecall`, with the `ecall` at `mepc`. -/
def jumpCheck (mepc label : Word) (regs : RegFile) (shadowStack : SStack) :
    Except Stop SStack :=
  let regs := regs.line [.li Reg.a7 label]
  esrHandlerUModeEcall (regs Reg.a7) (regs Reg.a6) mepc shadowStack

/-- `RET_TEMPLATE` for `jr ra`: `mv a7,ra; addi a7,a7,1; ecall`. -/
def retCheck (mepc : Word) (regs : RegFile) (shadowStack : SStack) :
    Except Stop SStack :=
  let regs := regs.line [.mv Reg.a7 Reg.ra, .addi Reg.a7 Reg.a7 1]
  esrHandlerUModeEcall (regs Reg.a7) (regs Reg.a6) mepc shadowStack

/-- The return check and the `jr ra` after it: the shadow stack and the
address the jump lands on. -/
def checkedReturn (effect : TrapEffect) (mepc : Word) (regs : RegFile)
    (shadowStack : SStack) : Except Stop (SStack × Word) := do
  let shadowStack ← retCheck mepc regs shadowStack
  return (shadowStack, jumpTarget (effect.regs regs Reg.ra))

/-- An instrumented call or return, with the registers it finds. -/
inductive CheckEvent where
  | call (mepc label : Word) (regs : RegFile)
  | ret (mepc : Word) (regs : RegFile)

def checkStep (shadowStack : SStack) : CheckEvent → Except Stop SStack
  | .call mepc label regs => jumpCheck mepc label regs shadowStack
  | .ret mepc regs => retCheck mepc regs shadowStack

theorem jumpCheck_eq (mepc label : Word) (regs : RegFile) (s : SStack) :
    jumpCheck mepc label regs s
      = esrHandlerUModeEcall label (regs Reg.a6) mepc s := by
  rfl

theorem retCheck_eq (mepc : Word) (regs : RegFile) (s : SStack) :
    retCheck mepc regs s
      = esrHandlerUModeEcall (regs Reg.ra + 1) (regs Reg.a6) mepc s := by
  rfl

theorem checkStep_wf {s s' : SStack} {e : CheckEvent} (h : s.WF)
    (hstep : checkStep s e = .ok s') : s'.WF := by
  cases e with
  | call mepc label regs => exact esr_wf h hstep
  | ret mepc regs => exact esr_wf h hstep

/-! ## What a return check does, by the parity of `ra` -/

theorem succ_odd_of_even {a : Word} (h : a % 2 = 0) : (a + 1) % 2 ≠ 0 := by
  rw [even_iff] at h
  rw [Ne, even_iff, BitVec.toNat_add, show (1 : Word).toNat = 1 from rfl]
  omega

theorem succ_even_of_odd {a : Word} (h : a % 2 ≠ 0) : (a + 1) % 2 = 0 := by
  rw [Ne, even_iff] at h
  rw [even_iff, BitVec.toNat_add, show (1 : Word).toNat = 1 from rfl]
  omega

theorem succ_sub_one (a : Word) : a + 1 - 1 = a := BitVec.add_sub_cancel a 1

/-- With an even `ra` the check lets exactly the newest entry through. -/
theorem retCheck_even_ok {mepc : Word} {regs : RegFile} {s s' : SStack}
    (h : s.WF) (heven : regs Reg.ra % 2 = 0) (hrun : retCheck mepc regs s = .ok s') :
    s.contents = regs Reg.ra :: s'.contents := by
  rw [retCheck_eq] at hrun
  rcases esr_cases (regs Reg.ra + 1) (regs Reg.a6) mepc h with ⟨t, ht, _, hcase⟩ | herr
  · rw [ht] at hrun
    cases hrun
    rcases hcase with ⟨hjump, _⟩ | ⟨_, _, hc⟩
    · exact absurd hjump (succ_odd_of_even heven)
    · rwa [succ_sub_one] at hc
  · rw [herr] at hrun
    cases hrun

theorem retCheck_even_stop {mepc : Word} {regs : RegFile} {s : SStack}
    (h : s.WF) (heven : regs Reg.ra % 2 = 0)
    (htop : s.contents.head? ≠ some (regs Reg.ra)) :
    retCheck mepc regs s = .error .terminated := by
  rw [retCheck_eq]
  by_cases hexit : regs Reg.ra + 1 = 1
  · exact esr_exit hexit
  · exact esr_return_stop hexit (succ_odd_of_even heven) h (by rwa [succ_sub_one])

/-- With an odd `ra` the check is taken for a jump check: it pushes. -/
theorem retCheck_odd_pushes (mepc : Word) {regs : RegFile} {s : SStack}
    (h : s.WF) (hodd : regs Reg.ra % 2 ≠ 0) (hroom : isFull s = false) :
    ∃ s', retCheck mepc regs s = .ok s'
      ∧ s'.contents = (mepc + 6 + 2 * regs Reg.a6) :: s.contents := by
  obtain ⟨s', hs', _, hc⟩ :=
    esr_jump_ok (regs Reg.a6) mepc (succ_even_of_odd hodd) h hroom
  exact ⟨s', hs', hc⟩

theorem retCheck_odd_full (mepc : Word) {regs : RegFile} {s : SStack}
    (hodd : regs Reg.ra % 2 ≠ 0) (hfull : isFull s = true) :
    retCheck mepc regs s = .error .terminated := by
  rw [retCheck_eq]
  exact esr_jump_full (succ_even_of_odd hodd) hfull

/-! ## Integrity -/

/-- Backward-edge integrity of one return: if the check lets it through, the
`jr ra` lands on the newest entry and that entry, alone, is gone; if the
newest entry is not where the jump would land, or there is none, the run
ends. -/
structure ReturnIntegrity (effect : TrapEffect) (s : SStack) (mepc : Word)
    (regs : RegFile) : Prop where
  lands : ∀ s' landing, checkedReturn effect mepc regs s = .ok (s', landing) →
    s.contents = landing :: s'.contents
  stops : s.contents.head? ≠ some (jumpTarget (regs Reg.ra)) →
    checkedReturn effect mepc regs s = .error .terminated

/-- `P` holds at every return of the run, of the state before its check. -/
def AtReturns (P : SStack → Word → RegFile → Prop) (t : List CheckEvent) : Prop :=
  Along checkStep initialShadowStack
    (fun s e => ∀ mepc regs, e = .ret mepc regs → P s mepc regs) t

theorem checkedReturn_ok {effect : TrapEffect} {mepc : Word} {regs : RegFile}
    {s s' : SStack} {landing : Word} :
    checkedReturn effect mepc regs s = .ok (s', landing)
      ↔ retCheck mepc regs s = .ok s' ∧ landing = jumpTarget (regs Reg.ra) := by
  rw [checkedReturn, bind_ok_iff, effect.keepsRa]
  constructor
  · rintro ⟨t, ht, heq⟩
    cases heq
    exact ⟨ht, rfl⟩
  · rintro ⟨ht, rfl⟩
    exact ⟨s', ht, rfl⟩

theorem checkedReturn_error {effect : TrapEffect} {mepc : Word} {regs : RegFile}
    {s : SStack} {e : Stop} (h : retCheck mepc regs s = .error e) :
    checkedReturn effect mepc regs s = .error e := by
  rw [checkedReturn, h]
  rfl

/-- One return has integrity exactly when `ra` is even, or odd on a stack so
full that the push it is mistaken for fails. -/
theorem return_integrity (effect : TrapEffect) {s : SStack} (h : s.WF)
    (mepc : Word) (regs : RegFile) :
    ReturnIntegrity effect s mepc regs
      ↔ regs Reg.ra % 2 = 0 ∨ isFull s = true := by
  by_cases heven : regs Reg.ra % 2 = 0
  · refine ⟨fun _ => .inl heven, fun _ => ⟨?_, ?_⟩⟩
    · intro s' landing hrun
      obtain ⟨hcheck, rfl⟩ := checkedReturn_ok.mp hrun
      rw [jumpTarget_even heven]
      exact retCheck_even_ok h heven hcheck
    · intro htop
      rw [jumpTarget_even heven] at htop
      exact checkedReturn_error (retCheck_even_stop h heven htop)
  · cases hfull : isFull s with
    | true =>
        refine ⟨fun _ => .inr rfl, fun _ => ⟨?_, ?_⟩⟩
        · intro s' landing hrun
          obtain ⟨hcheck, _⟩ := checkedReturn_ok.mp hrun
          rw [retCheck_odd_full mepc heven hfull] at hcheck
          cases hcheck
        · intro _
          exact checkedReturn_error (retCheck_odd_full mepc heven hfull)
    | false =>
        refine ⟨fun hint => ?_, fun hcond => ?_⟩
        · -- the check pushed, so the stack has grown
          obtain ⟨s', hcheck, hc⟩ := retCheck_odd_pushes mepc h heven hfull
          have hlands := hint.lands s' _ (checkedReturn_ok.mpr ⟨hcheck, rfl⟩)
          have hlen := congrArg List.length hlands
          rw [hc] at hlen
          simp at hlen
          omega
        · rcases hcond with hcond | hcond
          · exact absurd hcond heven
          · cases hcond

/-- **Backward-edge integrity, and its exact scope.** In every run of
instrumented calls and returns, with any register contents at any check,
every return has integrity iff every return check finds an even `ra`, or an
odd one while the shadow stack is full. -/
theorem backward_edge_integrity_iff (effect : TrapEffect) (t : List CheckEvent) :
    AtReturns (ReturnIntegrity effect) t
      ↔ AtReturns (fun s _ regs => regs Reg.ra % 2 = 0 ∨ isFull s = true) t := by
  constructor
  · refine Along.imp initialShadowStack_wf (fun _ _ _ hs _ hstep => checkStep_wf hs hstep) ?_
    intro s e hs hint mepc regs he
    exact (return_integrity effect hs mepc regs).mp (hint mepc regs he)
  · refine Along.imp initialShadowStack_wf (fun _ _ _ hs _ hstep => checkStep_wf hs hstep) ?_
    intro s e hs hcond mepc regs he
    exact (return_integrity effect hs mepc regs).mpr (hcond mepc regs he)

/-- The trap that changes no register. -/
def idealTrap : TrapEffect := { regs := id, keepsRa := fun _ => rfl }

/-- A register file with `v` in `ra` and zeroes elsewhere. -/
def regsWithRa (v : Word) : RegFile :=
  { val := fun x => if x = Reg.ra then v else 0, zero := if_neg (by decide) }

/-- A call whose check stores `0x40380806`, and a return before which the
attacker has put the odd address `0x42000001` into `ra`: the return check
pushes a second entry and `jr ra` lands on `0x42000000`. -/
theorem backward_edge_broken :
    ¬ AtReturns (ReturnIntegrity idealTrap)
        [.call 0x40380800 0x40380900 (regsWithRa 0),
          .ret 0x40380a00 (regsWithRa 0x42000001)] := by
  intro h
  have hint := h [.call 0x40380800 0x40380900 (regsWithRa 0)] _ [] _ rfl rfl
    0x40380a00 (regsWithRa 0x42000001) rfl
  have hlands := hint.lands _ 0x42000000 rfl
  revert hlands
  decide

end RiscvTe
