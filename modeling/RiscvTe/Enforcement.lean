import RiscvTe.Lib.Simulation
import RiscvTe.NoFalseAlarm
import RiscvTe.Transparency
import RiscvTe.WellNested

/-!
# What the monitor enforces on the hart

The monitor as a step function on `SStack` and the trap path on a hart are two
levels of one design. As long as stores and stack frames keep to `Harmless`
the hart simulates the monitor: stores and faults are silent, and an ecall is
answered as the monitor answers it, on the object in memory.

So the runs of the hart that are not stopped are the well-nested ones
(`hart_enforces`), and instrumented code whose return addresses are even
returns to where the matching call was checked (`returns_land`).
-/

namespace RiscvTe

open Memory EventRun Nesting Simulation

/-! ## The hart simulates the monitor -/

/-- The ecall as the handler captures it. -/
def UserEvent.ecall? : UserEvent → Option Ecall
  | .ecall regs pc _ => some { a7 := regs Reg.a7, a6 := regs Reg.a6, mepc := pc }
  | _ => none

/-- The object in the hart's memory is `s`, behind the PMP entries of `main`,
and the handlers are as they were loaded. -/
structure Represents (img : TrapImage) (h : Hart) (s : SStack) : Prop where
  guarded : Guarded img h
  wf : s.WF
  object : readSStack h.mem shadowStackAddr = s

theorem boot_represents {img : TrapImage} {h : Hart} (hloaded : img.intact h.mem = true) :
    Represents img (boot h) initialShadowStack :=
  ⟨boot_guarded hloaded, initialShadowStack_wf, boot_stack h⟩

section OneStep

variable {img : TrapImage} {h : Hart} {s : SStack} {regs : RegFile} {mcause pc : Word}
  {patched : Hart}

/-- A harmless step that leaves the object alone is silent. -/
theorem silent_represents {e : UserEvent} (hrep : Represents img h s)
    (hharmless : Harmless img h e) (hok : ∃ h', userStep img h e = .ok h')
    (hsame : ∀ h', userStep img h e = .ok h' →
      ∀ x, InRegion shadowStackAddr shadowStackSize x → h'.mem x = h.mem x) :
    ∃ h', userStep img h e = .ok h' ∧ Represents img h' s := by
  obtain ⟨h', hstep⟩ := hok
  refine ⟨h', hstep, harmless_guarded hrep.guarded hharmless hstep, hrep.wf, ?_⟩
  rw [readSStack_congr (hsame h' hstep), hrep.object]

theorem store_ok (img : TrapImage) (h : Hart) (a : Word) (bytes : List Byte) :
    ∃ h', userStep img h (.store a bytes) = .ok h' := by
  rw [userStep]
  split
  · exact ⟨_, rfl⟩
  · exact ⟨_, rfl⟩

theorem fault_ok {exc : Fault} (hg : Guarded img h)
    (hharmless : Harmless img h (.fault exc regs pc patched)) :
    ∃ h', userStep img h (.fault exc regs pc patched) = .ok h' := by
  have hstack : img.StackApart (h.userTrap exc.cause regs pc) := hharmless
  exact ⟨_, (userTrap_handle hg hstack).mpr ⟨_, fault_run exc _ _ _ _, rfl⟩⟩

/-- The object reads back what the monitor has written. -/
theorem userTrap_readBack (hstack : img.StackApart (h.userTrap mcause regs pc)) (hs : s.WF) :
    readSStack (img.handler.resumed (h.userTrap mcause regs pc) s).mem shadowStackAddr = s := by
  rw [readSStack_congr fun x hx => userTrap_object hstack.off s hx, readSStack_writeSStack hs]

/-- And `ra` comes back: its slot lies in the frames. -/
theorem userTrap_ra (hstack : img.StackApart (h.userTrap mcause regs pc)) (s : SStack) :
    (img.handler.resumed (h.userTrap mcause regs pc) s).regs Reg.ra = regs Reg.ra := by
  have hslot : SavedRaKept img.handler (h.userTrap mcause regs pc) s := by
    apply savedRa_apart
    intro k hk hin
    have hx : InRegion (raSlot (h.userTrap mcause regs pc)) 4
        (raSlot (h.userTrap mcause regs pc) + BitVec.ofNat 32 k) := by
      rw [InRegion, offset_toNat (by omega)]
      exact hk
    exact framesOff_iff.mp hstack.off _ hin (raSlot_inFrames hx)
  rw [resumed_ra, exit_slot, hslot, entry_slot]
  rfl

theorem ecall_represents (hrep : Represents img h s)
    (hharmless : Harmless img h (.ecall regs pc patched)) :
    Alike (Represents img) (userStep img h (.ecall regs pc patched))
      (monitorStep s { a7 := regs Reg.a7, a6 := regs Reg.a6, mepc := pc }) := by
  have hstack : img.StackApart (h.userTrap 8 regs pc) := hharmless
  have hintact : img.intact (h.userTrap 8 regs pc).mem = true := hrep.guarded.intact
  have hstep : userStep img h (.ecall regs pc patched)
      = synchronousExceptionHandler img.handler (h.userTrap 8 regs pc) :=
    hstack.handle_eq hintact patched
  have hselect : selectHandler 8 = .esrHandlerUModeEcall := by decide
  have hdecision : img.handler.decision (h.userTrap 8 regs pc)
      = monitorStep s { a7 := regs Reg.a7, a6 := regs Reg.a6, mepc := pc } := by
    rw [userTrap_decision hstack.off, hselect, hrep.object]
    rfl
  rw [hstep, ← hdecision]
  cases hanswer : img.handler.decision (h.userTrap 8 regs pc) with
  | error e =>
      rw [handler_error_iff.mpr hanswer]
      exact .error e
  | ok s' =>
      rw [handler_ok_iff.mpr ⟨s', hanswer, rfl⟩]
      have hwf : s'.WF := esr_wf hrep.wf (hdecision.symm.trans hanswer)
      exact .ok ⟨resumed_guarded hrep.guarded hstack s', hwf, userTrap_readBack hstack hwf⟩

end OneStep

/-- **The hart simulates the monitor**, as far as its steps are harmless. -/
theorem hart_simulates (img : TrapImage) :
    Simulates (Represents img) (Harmless img) UserEvent.ecall? (userStep img) monitorStep where
  silent := by
    intro h s e hrep hharmless he
    cases e with
    | store a bytes =>
        exact silent_represents hrep hharmless (store_ok img h a bytes)
          (store_isolated hrep.guarded.entries hharmless.1)
    | ecall regs pc patched => cases he
    | fault exc regs pc patched =>
        exact silent_represents hrep hharmless (fault_ok hrep.guarded hharmless)
          (fault_isolated hrep.guarded hharmless)
  visible := by
    intro h s e e' hrep hharmless he
    cases e with
    | ecall regs pc patched =>
        cases he
        exact ecall_represents hrep hharmless
    | store a bytes => cases he
    | fault exc regs pc patched => cases he

/-! ## The runs that are not stopped -/

/-- The brackets of a run. -/
def marks (t : List UserEvent) : List (Mark Word) :=
  (t.filterMap UserEvent.ecall?).map Ecall.mark

/-- **The hart enforces well-nestedness.** Whatever is linked for the traps: a
run of harmless stores, ecalls and faults goes through exactly if no ecall
asks for the exit, the return checks match the jump checks, and at most 63 of
these are open; the object in memory then holds the addresses still open, and
a run that is stopped is stopped by the monitor. -/
theorem hart_enforces (img : TrapImage) (h : Hart) {t : List UserEvent}
    (hloaded : img.intact h.mem = true)
    (hharmless : Along (userStep img) (boot h) (Harmless img) t) :
    ((∃ h', run (userStep img) (boot h) t = .ok h')
        ↔ (∀ e ∈ t.filterMap UserEvent.ecall?, e.a7 ≠ 1) ∧ ClosesEarlier (marks t)
          ∧ DepthBound 63 (marks t))
      ∧ (∀ h', run (userStep img) (boot h) t = .ok h' →
          (readSStack h'.mem shadowStackAddr).entries = unmatched (marks t))
      ∧ ∀ e, run (userStep img) (boot h) t = .error e → e = .terminated := by
  have halike := (hart_simulates img).run (boot_represents hloaded) hharmless
  refine ⟨halike.ok_iff.trans ⟨?_, ?_⟩, ?_, ?_⟩
  · intro hok
    obtain ⟨s, hs⟩ := hok
    obtain ⟨-, hexits, htrack⟩ := monitor_run_sim initialShadowStack_wf hs
    exact ⟨hexits, track_accepts_iff.mp ⟨s.contents, htrack⟩⟩
  · intro hnested
    obtain ⟨hexits, hmarks⟩ := hnested
    obtain ⟨l, hl⟩ := track_accepts_iff.mpr hmarks
    exact monitor_run_of_track initialShadowStack_wf hexits hl
  · intro h' hrun
    rw [hrun] at halike
    obtain ⟨s, hs, hrep⟩ := halike.of_ok
    obtain ⟨-, -, htrack⟩ := monitor_run_sim initialShadowStack_wf hs
    have hstack := track_stack htrack
    rw [SStack.contents, List.reverse_reverse] at hstack
    rw [hrep.object, hstack]
    rfl
  · intro e hrun
    rw [hrun] at halike
    exact run_error (P := SStack.WF) (fun s e t hs ht => (monitor_step_sim hs ht).1)
      (fun s e err hs hstop => esr_error hs hstop) initialShadowStack_wf halike.of_error

theorem hart_enforces_jumpCheck :
    let t := [UserEvent.ecall (dramRegs 0) 0x40380800 zeroHart]
    ((∃ h', run (userStep smallImage) (boot zeroHart) t = .ok h')
        ↔ (∀ e ∈ t.filterMap UserEvent.ecall?, e.a7 ≠ 1) ∧ ClosesEarlier (marks t)
          ∧ DepthBound 63 (marks t))
      ∧ (∀ h', run (userStep smallImage) (boot zeroHart) t = .ok h' →
          (readSStack h'.mem shadowStackAddr).entries = unmatched (marks t))
      ∧ ∀ e, run (userStep smallImage) (boot zeroHart) t = .error e → e = .terminated :=
  hart_enforces smallImage zeroHart (by decide) (Along.singleton (dram_apart rfl))

/-! ## Where instrumented returns land -/

/-- Instrumented code: a store, a call behind its check, a return behind its
check, a fault, each with any registers. -/
inductive CodeEvent where
  | store (a : Word) (bytes : List Byte)
  | fault (exc : Fault) (regs : RegFile) (pc : Word) (patched : Hart)
  | call (site : CallSite) (regs : RegFile) (patched : Hart)
  | ret (mepc : Word) (regs : RegFile) (patched : Hart)

/-- Up to the check: `JUMP_TEMPLATE` and `RET_TEMPLATE` end with the `ecall`. -/
def CodeEvent.check : CodeEvent → UserEvent
  | .store a bytes => .store a bytes
  | .fault exc regs pc patched => .fault exc regs pc patched
  | .call site regs patched =>
      .ecall (regs.line [.li Reg.a7 site.label]) site.ecall patched
  | .ret mepc regs patched =>
      .ecall (regs.line [.mv Reg.a7 Reg.ra, .addi Reg.a7 Reg.a7 1]) mepc patched

/-- Behind the check: the call line writes `ra`, `jr ra` jumps to it. -/
def CodeEvent.transfer (e : CodeEvent) (h : Hart) : Hart :=
  match e with
  | .call site _ _ => { h with regs := h.regs.set Reg.ra site.returnAddress, pc := site.label }
  | .ret _ _ _ => { h with pc := jumpTarget (h.regs Reg.ra) }
  | _ => h

def codeStep (img : TrapImage) (h : Hart) (e : CodeEvent) : Except Stop Hart :=
  (userStep img h e.check).map e.transfer

/-- The frames and stores of an event are harmless, and a return finds an even
`ra`: an odd one is taken for a jump check. -/
def Sound (img : TrapImage) (h : Hart) (e : CodeEvent) : Prop :=
  Harmless img h e.check
    ∧ ∀ mepc regs patched, e = .ret mepc regs patched → regs Reg.ra % 2 = 0

/-- The brackets of instrumented code. -/
def CodeEvent.mark? : CodeEvent → Option (Mark Word)
  | .call site regs _ => some (.enter (site.pushed regs))
  | .ret _ regs _ => some (.leave (regs Reg.ra))
  | _ => none

/-- Each check reaches the monitor as the bracket it is meant to be. -/
theorem mark_check {img : TrapImage} {h : Hart} {e : CodeEvent} (hsound : Sound img h e) :
    e.check.ecall?.map Ecall.mark = e.mark? := by
  cases e with
  | store a bytes => rfl
  | fault exc regs pc patched => rfl
  | call site regs patched =>
      show some (Ecall.mark { a7 := site.label, a6 := regs Reg.a6, mepc := site.ecall }) = _
      rw [Ecall.mark, if_pos site.labelEven]
      rfl
  | ret mepc regs patched =>
      have hodd := succ_odd_of_even (hsound.2 mepc regs patched rfl)
      show some (Ecall.mark { a7 := regs Reg.ra + 1, a6 := regs Reg.a6, mepc := mepc }) = _
      rw [Ecall.mark, if_neg hodd, succ_sub_one]
      rfl

theorem code_simulates (img : TrapImage) :
    Simulates (Represents img) (Sound img) (fun e => e.check.ecall?) (codeStep img) monitorStep := by
  have hmap := @Simulates.map _ _ _ _ _ _ _ _ _ _ (hart_simulates img) _ CodeEvent.check
    CodeEvent.transfer
    (by
      intro e h s hrep
      cases e <;> exact ⟨⟨hrep.guarded.entries, hrep.guarded.intact⟩, hrep.wf, hrep.object⟩)
  exact ⟨fun hrep hsound => hmap.silent hrep hsound.1,
    fun hrep hsound => hmap.visible hrep hsound.1⟩

/-- The brackets that the monitor has seen in a run. -/
theorem marks_check {img : TrapImage} {h h' : Hart} {t : List CodeEvent}
    (hsound : Along (codeStep img) h (Sound img) t) (hrun : run (codeStep img) h t = .ok h') :
    (t.filterMap fun e => e.check.ecall?).map Ecall.mark = t.filterMap CodeEvent.mark? := by
  rw [List.map_filterMap]
  apply List.filterMap_congr
  intro e he
  obtain ⟨m, hm⟩ := hsound.of_mem hrun he
  exact mark_check hm

/-- A return that goes through has found its address on top of the stack, and
has jumped there. -/
theorem return_lands {img : TrapImage} {h h' : Hart} {s : SStack} {mepc : Word} {regs : RegFile}
    {patched : Hart} (hrep : Represents img h s)
    (hsound : Sound img h (.ret mepc regs patched))
    (hstep : codeStep img h (.ret mepc regs patched) = .ok h') :
    (∃ rest, s.contents = regs Reg.ra :: rest) ∧ h'.pc = regs Reg.ra := by
  have heven := hsound.2 mepc regs patched rfl
  have hstack : img.StackApart (h.userTrap 8
      (regs.line [.mv Reg.a7 Reg.ra, .addi Reg.a7 Reg.a7 1]) mepc) := hsound.1
  have halike : Alike (Represents img) (userStep img h (CodeEvent.ret mepc regs patched).check)
      (retCheck mepc regs s) := ecall_represents hrep hsound.1
  rw [codeStep] at hstep
  cases hrun : userStep img h (CodeEvent.ret mepc regs patched).check with
  | error e =>
      rw [hrun] at hstep
      cases hstep
  | ok g =>
      rw [hrun] at hstep halike
      cases hstep
      obtain ⟨s', hs', -⟩ := halike.of_ok
      obtain ⟨s'', -, rfl⟩ := (userTrap_handle hrep.guarded hstack).mp hrun
      refine ⟨⟨s'.contents, retCheck_even_ok hrep.wf heven hs'⟩, ?_⟩
      show jumpTarget _ = _
      rw [userTrap_ra hstack s'']
      exact jumpTarget_even heven

/-- **Returns land where the matching call was checked.** In every run of
instrumented code with harmless frames and stores and with even return
addresses, a return that goes through has a call before it with everything in
between matched, and lands at the address that this call's check has stored:
behind the call line exactly if the monitor has guessed its length. -/
theorem returns_land (img : TrapImage) (h : Hart) {t : List CodeEvent} {mepc : Word}
    {regs : RegFile} {patched h' : Hart} (hloaded : img.intact h.mem = true)
    (hsound : Along (codeStep img) (boot h) (Sound img) (t ++ [.ret mepc regs patched]))
    (hrun : run (codeStep img) (boot h) (t ++ [.ret mepc regs patched]) = .ok h') :
    ∃ before site regs' patched' between, t = before ++ .call site regs' patched' :: between
      ∧ Nesting.Matched (between.filterMap CodeEvent.mark?)
      ∧ h'.pc = site.pushed regs'
      ∧ (h'.pc = site.returnAddress ↔ site.Guessed regs') := by
  obtain ⟨m, hm, hret⟩ := run_snoc_ok.mp hrun
  have halike := (code_simulates img).run (boot_represents hloaded) hsound.initial
  rw [hm] at halike
  obtain ⟨s, hs, hrep⟩ := halike.of_ok
  obtain ⟨-, -, htrack⟩ := monitor_run_sim initialShadowStack_wf hs
  rw [marks_check hsound.initial hm] at htrack
  obtain ⟨⟨rest, htop⟩, hpc⟩ := return_lands hrep (hsound t _ [] m rfl hm) hret
  rw [htop] at htrack
  -- the newest open bracket is the one of a call
  obtain ⟨pre, w, hsplit, hmatched, -⟩ := follow_top (track_run_ok.mp htrack).1
  obtain ⟨before, after, rfl, -, hafter⟩ := List.filterMap_eq_append_iff.mp hsplit
  obtain ⟨silent, e, between, rfl, -, he, hbetween⟩ := List.filterMap_eq_cons_iff.mp hafter
  cases e with
  | store a bytes => cases he
  | fault exc regs' pc patched' => cases he
  | ret mepc' regs' patched' => cases he
  | call site regs' patched' =>
      have hpushed : site.pushed regs' = regs Reg.ra := Mark.enter.inj (Option.some.inj he)
      refine ⟨before ++ silent, site, regs', patched', between, by simp, hbetween ▸ hmatched,
        hpc.trans hpushed.symm, ?_⟩
      rw [hpc, ← hpushed]
      exact site.pushed_eq_iff regs'

/-- A call through the `c.jal` and the return from it. -/
def callAndReturn : List CodeEvent :=
  [.call cjalSite (dramRegs 0) zeroHart]
    ++ [.ret 0x40380a04 (dramRegs 0x40380806) zeroHart]

theorem callAndReturn_sound :
    Along (codeStep smallImage) (boot zeroHart) (Sound smallImage) callAndReturn := by
  refine Along.cons ⟨dram_apart rfl, fun _ _ _ h => by cases h⟩ fun _ _ => ?_
  refine Along.singleton ⟨dram_apart rfl, fun mepc regs patched h => ?_⟩
  cases h
  decide

theorem returns_land_cjal :
    ∃ h', run (codeStep smallImage) (boot zeroHart) callAndReturn = .ok h'
      ∧ ∃ before site regs' patched' between,
        [CodeEvent.call cjalSite (dramRegs 0) zeroHart]
            = before ++ .call site regs' patched' :: between
        ∧ Nesting.Matched (between.filterMap CodeEvent.mark?)
        ∧ h'.pc = site.pushed regs'
        ∧ (h'.pc = site.returnAddress ↔ site.Guessed regs') := by
  have hloaded : smallImage.intact zeroHart.mem = true := by decide
  have halike := (code_simulates smallImage).run (boot_represents hloaded) callAndReturn_sound
  obtain ⟨h', hrun⟩ := halike.ok_iff.mpr ⟨_, rfl⟩
  exact ⟨h', hrun, returns_land smallImage zeroHart hloaded callAndReturn_sound hrun⟩

end RiscvTe
