import RiscvTe.BackwardEdge
import RiscvTe.Lib.Nesting

/-!
# Honest runs and false alarms

An honest run is one in which no return address is corrupted: seen through
the addresses the `call` instructions really write to `ra`, it is well
nested, at most 63 deep. The monitor does not see those addresses; it
stores `mepc + 6 + 2 * a6`, a guess from the address of the `ecall` and
whatever `a6` holds. The guess is right at a call iff the call line has
`2 + 2 * a6` bytes, and one wrong guess ends the run at the return of that
call.
-/

namespace RiscvTe

open Memory EventRun Nesting

/-- An instrumented call site as the linker has laid it out: the `ecall` of
its check, and behind it the call line of `len` bytes (`c.jal`, `jal` or
`auipc`+`jalr`), with the instruction after the call still inside the
address space. -/
structure CallSite where
  ecall : Word
  label : Word
  len : Nat
  ecallEven : ecall % 2 = 0
  labelEven : label % 2 = 0
  encoded : len = 2 ∨ len = 4 ∨ len = 8
  fits : ecall.toNat + 4 + len < 2 ^ 32

/-- The address the call writes to `ra`: that of the instruction after it. -/
def CallSite.returnAddress (site : CallSite) : Word :=
  site.ecall + 4 + BitVec.ofNat 32 site.len

/-- An instrumented call at a laid-out site, or an instrumented return. -/
inductive SiteEvent where
  | call (site : CallSite) (regs : RegFile)
  | ret (mepc : Word) (regs : RegFile)

/-- What the monitor gets to see. -/
def SiteEvent.check : SiteEvent → CheckEvent
  | .call site regs => .call site.ecall site.label regs
  | .ret mepc regs => .ret mepc regs

/-- What really happens to return addresses. -/
def SiteEvent.mark : SiteEvent → Mark Word
  | .call site _ => .enter site.returnAddress
  | .ret _ regs => .leave (regs Reg.ra)

/-- No return address is corrupted and at most 63 calls are open at once. -/
def Honest (t : List SiteEvent) : Prop :=
  ClosesEarlier (t.map SiteEvent.mark) ∧ DepthBound 63 (t.map SiteEvent.mark)

/-- The monitor on such a run. -/
def siteStep (shadowStack : SStack) (e : SiteEvent) : Except Stop SStack :=
  checkStep shadowStack e.check

/-- The address the jump check of `site` stores. -/
def CallSite.pushed (site : CallSite) (regs : RegFile) : Word :=
  site.ecall + 6 + 2 * regs Reg.a6

/-- The monitor's guess of the length of the call line is right. -/
def CallSite.Guessed (site : CallSite) (regs : RegFile) : Prop :=
  2 + 2 * regs Reg.a6 = BitVec.ofNat 32 site.len

theorem CallSite.pushed_eq_iff (site : CallSite) (regs : RegFile) :
    site.pushed regs = site.returnAddress ↔ site.Guessed regs := by
  rw [CallSite.pushed, CallSite.returnAddress, CallSite.Guessed,
    show (6 : Word) = 4 + 2 from rfl, BitVec.add_assoc, BitVec.add_assoc, BitVec.add_assoc,
    BitVec.add_right_inj, BitVec.add_right_inj]

theorem CallSite.toNat_returnAddress (site : CallSite) :
    site.returnAddress.toNat = site.ecall.toNat + 4 + site.len := by
  have hfits := site.fits
  rw [CallSite.returnAddress, BitVec.toNat_add, BitVec.toNat_add, BitVec.toNat_ofNat,
    show (4 : Word).toNat = 4 from rfl]
  omega

/-- A return address is even and not 0, so its check code is odd and not 1. -/
theorem CallSite.returnAddress_code (site : CallSite) :
    site.returnAddress + 1 ≠ 1 ∧ (site.returnAddress + 1) % 2 ≠ 0 := by
  have hnat := site.toNat_returnAddress
  have hfits := site.fits
  have heven := even_iff.mp site.ecallEven
  have hsucc : (site.returnAddress + 1).toNat = site.returnAddress.toNat + 1 := by
    rw [BitVec.toNat_add, show (1 : Word).toNat = 1 from rfl]
    rcases site.encoded with h | h | h <;> omega
  constructor
  · intro h
    have := congrArg BitVec.toNat h
    rw [hsucc, show (1 : Word).toNat = 1 from rfl] at this
    omega
  · rw [Ne, even_iff, hsucc]
    rcases site.encoded with h | h | h <;> omega

/-! ## The two stacks side by side -/

theorem siteStep_wf {s s' : SStack} {e : SiteEvent} (h : s.WF)
    (hstep : siteStep s e = .ok s') : s'.WF :=
  checkStep_wf h hstep

/-- A surviving call has pushed its guess. -/
theorem siteStep_call_ok {s s' : SStack} {site : CallSite} {regs : RegFile}
    (h : s.WF) (hstep : siteStep s (.call site regs) = .ok s') :
    s'.contents = site.pushed regs :: s.contents := by
  rw [siteStep, SiteEvent.check, checkStep, jumpCheck_eq] at hstep
  rcases esr_cases site.label (regs Reg.a6) site.ecall h with ⟨t, ht, _, hcase⟩ | herr
  · rw [ht] at hstep
    cases hstep
    rcases hcase with ⟨_, _, hc⟩ | ⟨_, hodd, _⟩
    · exact hc
    · exact absurd site.labelEven hodd
  · rw [herr] at hstep
    cases hstep

/-- A surviving return through an honest address has popped that address. -/
theorem siteStep_ret_ok {s s' : SStack} {mepc : Word} {regs : RegFile}
    (h : s.WF) (hodd : (regs Reg.ra + 1) % 2 ≠ 0)
    (hstep : siteStep s (.ret mepc regs) = .ok s') :
    s.contents = regs Reg.ra :: s'.contents := by
  rw [siteStep, SiteEvent.check, checkStep, retCheck_eq] at hstep
  rcases esr_cases (regs Reg.ra + 1) (regs Reg.a6) mepc h with ⟨t, ht, _, hcase⟩ | herr
  · rw [ht] at hstep
    cases hstep
    rcases hcase with ⟨heven, _⟩ | ⟨_, _, hc⟩
    · exact absurd heven hodd
    · rwa [succ_sub_one] at hc
  · rw [herr] at hstep
    cases hstep

/-- With every guess right, the shadow stack is the list of the open return
addresses, and every check passes. -/
theorem honest_run_ok {t : List SiteEvent} {s : SStack} {r : List Word} (h : s.WF)
    (hreal : run (track maxSize) s.contents (t.map SiteEvent.mark) = .ok r)
    (hsites : ∀ a ∈ s.contents, ∃ site : CallSite, a = site.returnAddress)
    (hguess : ∀ site regs, .call site regs ∈ t → site.Guessed regs) :
    ∃ s', run siteStep s t = .ok s' ∧ s'.contents = r := by
  induction t generalizing s with
  | nil =>
      cases hreal
      exact ⟨s, rfl, rfl⟩
  | cons e t ih =>
      rw [List.map_cons] at hreal
      obtain ⟨m, hm, hrest⟩ := run_cons_ok.mp hreal
      have hguess' : ∀ site regs, .call site regs ∈ t → site.Guessed regs :=
        fun site regs hmem => hguess site regs (List.mem_cons_of_mem _ hmem)
      cases e with
      | call site regs =>
          have hroom : isFull s = false := by
            rw [SiteEvent.mark, track] at hm
            split at hm
            · rename_i hlt
              rw [← Bool.not_eq_true, isFull_iff h]
              omega
            · cases hm
          obtain ⟨s1, hs1, hwf, hc⟩ :=
            esr_jump_ok (regs Reg.a6) site.ecall site.labelEven h hroom
          have hpushed := (site.pushed_eq_iff regs).mpr (hguess site regs (by simp))
          have hm' : m = s1.contents := by
            have hf := ((track_ok h.contents_le).mp hm).1
            rw [SiteEvent.mark, follow_enter_ok] at hf
            rw [hf, hc, ← hpushed]
            rfl
          subst hm'
          have hsites' : ∀ a ∈ s1.contents, ∃ site : CallSite, a = site.returnAddress := by
            intro a ha
            rw [hc] at ha
            rcases List.mem_cons.mp ha with rfl | ha
            · exact ⟨site, hpushed⟩
            · exact hsites a ha
          obtain ⟨s', hs', hr⟩ := ih hwf hrest hsites' hguess'
          exact ⟨s', run_cons_ok.mpr ⟨s1, hs1, hs'⟩, hr⟩
      | ret mepc regs =>
          have htop : s.contents = regs Reg.ra :: m := follow_leave_ok.mp hm
          obtain ⟨site, hsite⟩ := hsites (regs Reg.ra) (by simp [htop])
          obtain ⟨hexit, hodd⟩ := site.returnAddress_code
          rw [← hsite] at hexit hodd
          have hcode : s.contents = (regs Reg.ra + 1 - 1) :: m := by rw [succ_sub_one, htop]
          obtain ⟨s1, hs1, hwf, hc⟩ := esr_return_ok (regs Reg.a6) mepc hexit hodd h hcode
          subst hc
          obtain ⟨s', hs', hr⟩ := ih hwf hrest
            (fun a ha => hsites a (by simp [htop, ha])) hguess'
          exact ⟨s', run_cons_ok.mpr ⟨s1, hs1, hs'⟩, hr⟩

/-- A run that returns from everything it has called agrees with the real
stack from its start, and every guess in it was right: what was pushed wrong
would have to come off again at a return. -/
theorem guessed_of_run_ok {t : List SiteEvent} {s s' : SStack} {r : List Word}
    (h : s.WF) (hrun : run siteStep s t = .ok s')
    (hreal : run follow r (t.map SiteEvent.mark) = .ok [])
    (hsites : ∀ a ∈ r, ∃ site : CallSite, a = site.returnAddress)
    (hlen : s.contents.length = r.length) :
    s.contents = r ∧ ∀ site regs, .call site regs ∈ t → site.Guessed regs := by
  induction t generalizing s r with
  | nil =>
      cases hreal
      exact ⟨List.length_eq_zero_iff.mp hlen, by simp⟩
  | cons e t ih =>
      rw [List.map_cons] at hreal
      obtain ⟨s1, hs1, hrest⟩ := run_cons_ok.mp hrun
      obtain ⟨r1, hr1, hreal'⟩ := run_cons_ok.mp hreal
      cases e with
      | call site regs =>
          rw [SiteEvent.mark, follow_enter_ok] at hr1
          subst hr1
          have hpush := siteStep_call_ok h hs1
          have hsites' : ∀ a ∈ site.returnAddress :: r,
              ∃ site : CallSite, a = site.returnAddress := by
            intro a ha
            rcases List.mem_cons.mp ha with rfl | ha
            · exact ⟨site, rfl⟩
            · exact hsites a ha
          -- the two stacks agree behind the call, so what was pushed is right
          obtain ⟨heq, hguess⟩ :=
            ih (siteStep_wf h hs1) hrest hreal' hsites' (by simp [hpush, hlen])
          rw [hpush] at heq
          obtain ⟨hpushed, htail⟩ := List.cons.inj heq
          refine ⟨htail, fun site' regs' hmem => ?_⟩
          rcases List.mem_cons.mp hmem with hhead | hmem
          · cases hhead
            exact (site.pushed_eq_iff regs).mp hpushed
          · exact hguess site' regs' hmem
      | ret mepc regs =>
          rw [SiteEvent.mark, follow_leave_ok] at hr1
          subst hr1
          obtain ⟨site, hsite⟩ := hsites (regs Reg.ra) (by simp)
          obtain ⟨_, hodd⟩ := site.returnAddress_code
          rw [← hsite] at hodd
          have hpop := siteStep_ret_ok h hodd hs1
          obtain ⟨heq, hguess⟩ := ih (siteStep_wf h hs1) hrest hreal'
            (fun a ha => hsites a (List.mem_cons_of_mem _ ha)) (by simpa [hpop] using hlen)
          refine ⟨by rw [hpop, heq], fun site' regs' hmem => ?_⟩
          rcases List.mem_cons.mp hmem with hhead | hmem
          · cases hhead
          · exact hguess site' regs' hmem

/-! ## No false alarm -/

/-- What an honest run is owed: no check ends it, every jump check stores the
address of the instruction after its call, and the shadow stack is empty
whenever no call is open. -/
structure NoFalseAlarm (t : List SiteEvent) : Prop where
  passes : ∃ s, run siteStep initialShadowStack t = .ok s
  pushes : ∀ pre site regs post s s', t = pre ++ .call site regs :: post →
    run siteStep initialShadowStack pre = .ok s →
    siteStep s (.call site regs) = .ok s' →
    s'.contents = site.returnAddress :: s.contents
  empties : ∀ pre s, pre <+: t → depth (pre.map SiteEvent.mark) = 0 →
    run siteStep initialShadowStack pre = .ok s → s.contents = []

theorem honest_iff_track {t : List SiteEvent} :
    Honest t ↔ ∃ r, run (track maxSize) [] (t.map SiteEvent.mark) = .ok r :=
  track_accepts_iff.symm

theorem Honest.initial {t pre : List SiteEvent} (h : Honest t) (hpre : pre <+: t) :
    Honest pre := by
  obtain ⟨r, hr⟩ := honest_iff_track.mp h
  obtain ⟨post, rfl⟩ := hpre
  rw [List.map_append] at hr
  exact honest_iff_track.mpr (run_initial hr)

theorem siteRun_wf {t : List SiteEvent} {s : SStack}
    (h : run siteStep initialShadowStack t = .ok s) : s.WF :=
  run_invariant (P := fun _ => True) (fun _ _ _ hs _ hstep => siteStep_wf hs hstep)
    initialShadowStack_wf (by simp) h

/-- The open return addresses of an honest run at depth 0: none. -/
theorem real_empty {t : List SiteEvent} {r : List Word}
    (hr : run (track maxSize) [] (t.map SiteEvent.mark) = .ok r)
    (hdepth : depth (t.map SiteEvent.mark) = 0) : r = [] := by
  have hlen := follow_length (track_run_ok.mp hr).1
  rw [hdepth] at hlen
  simpa using hlen

theorem NoFalseAlarm.of_guessed {t : List SiteEvent} (h : Honest t)
    (hguess : ∀ site regs, .call site regs ∈ t → site.Guessed regs) :
    NoFalseAlarm t := by
  refine ⟨?_, ?_, ?_⟩
  · obtain ⟨r, hr⟩ := honest_iff_track.mp h
    obtain ⟨s, hs, _⟩ := honest_run_ok initialShadowStack_wf hr (by simp) hguess
    exact ⟨s, hs⟩
  · rintro pre site regs post s s' rfl hs hstep
    rw [siteStep_call_ok (siteRun_wf hs) hstep,
      (site.pushed_eq_iff regs).mpr (hguess site regs (by simp))]
  · intro pre s hpre hdepth hs
    obtain ⟨r, hr⟩ := honest_iff_track.mp (h.initial hpre)
    obtain ⟨post, rfl⟩ := hpre
    obtain ⟨s1, hs1, hc⟩ := honest_run_ok initialShadowStack_wf hr (by simp)
      (fun site regs hmem => hguess site regs (List.mem_append_left post hmem))
    rw [hs1] at hs
    cases hs
    rw [hc, real_empty hr hdepth]

theorem NoFalseAlarm.guessed {t : List SiteEvent} (h : NoFalseAlarm t)
    {site : CallSite} {regs : RegFile} (hmem : .call site regs ∈ t) :
    site.Guessed regs := by
  obtain ⟨pre, post, rfl⟩ := List.append_of_mem hmem
  obtain ⟨s', hs'⟩ := h.passes
  obtain ⟨s, hs, hrest⟩ := run_append_ok.mp hs'
  obtain ⟨s1, hs1, _⟩ := run_cons_ok.mp hrest
  have hpush := h.pushes pre site regs post s s1 rfl hs hs1
  rw [siteStep_call_ok (siteRun_wf hs) hs1] at hpush
  exact (site.pushed_eq_iff regs).mp (List.cons.inj hpush).1

/-- A completed honest run that gets through has had every guess right. -/
theorem guessed_of_complete {t : List SiteEvent} (h : Honest t)
    (hdepth : depth (t.map SiteEvent.mark) = 0) {s : SStack}
    (hs : run siteStep initialShadowStack t = .ok s) :
    ∀ site regs, .call site regs ∈ t → site.Guessed regs := by
  obtain ⟨r, hr⟩ := honest_iff_track.mp h
  have hreal := (track_run_ok.mp hr).1
  rw [real_empty hr hdepth] at hreal
  exact (guessed_of_run_ok initialShadowStack_wf hs hreal (by simp) rfl).2

/-- **No false alarm, exactly when the guess is right.** An honest run is
free of false alarms iff at every instrumented call `2 + 2 * a6` is the
encoded length of the call line; and once every call has returned, merely
getting through means that it was so everywhere. -/
theorem no_false_alarm_iff (t : List SiteEvent) (h : Honest t) :
    (NoFalseAlarm t ↔ ∀ site regs, .call site regs ∈ t → site.Guessed regs)
      ∧ (depth (t.map SiteEvent.mark) = 0 →
          ((∃ s, run siteStep initialShadowStack t = .ok s)
            ↔ ∀ site regs, .call site regs ∈ t → site.Guessed regs)) := by
  refine ⟨⟨fun hna site regs hmem => hna.guessed hmem, .of_guessed h⟩, fun hdepth => ⟨?_, ?_⟩⟩
  · rintro ⟨s, hs⟩
    exact guessed_of_complete h hdepth hs
  · intro hguess
    exact (NoFalseAlarm.of_guessed h hguess).passes

/-- A `c.jal` site at the start of `iram`. -/
def cjalSite : CallSite :=
  { ecall := 0x40380800, label := 0x40380900, len := 2, ecallEven := by decide,
    labelEven := by decide, encoded := .inl rfl, fits := by decide }

/-- The same site with a 4-byte `jal`. -/
def jalSite : CallSite :=
  { ecall := 0x40380800, label := 0x40380900, len := 4, ecallEven := by decide,
    labelEven := by decide, encoded := .inr (.inl rfl), fits := by decide }

/-- One call through the `c.jal`, with `a6 = 0`, and its return. -/
def cjalRun : List SiteEvent :=
  [.call cjalSite (regsWithRa 0), .ret 0x40380a00 (regsWithRa 0x40380806)]

theorem no_false_alarm_cjal : NoFalseAlarm cjalRun := by
  refine (no_false_alarm_iff cjalRun (honest_iff_track.mpr ⟨[], rfl⟩)).1.mpr ?_
  intro site regs hmem
  simp only [cjalRun, List.mem_cons, SiteEvent.call.injEq, reduceCtorEq, or_false,
    List.not_mem_nil] at hmem
  obtain ⟨rfl, rfl⟩ := hmem
  rfl

/-- One call through a 4-byte `jal` with `a6 = 0`, and its return: the check
stored `0x40380806`, the call wrote `0x40380808`, and the return check ends
the run. -/
theorem jal_false_alarm :
    Honest [.call jalSite (regsWithRa 0), .ret 0x40380a00 (regsWithRa 0x40380808)]
      ∧ ¬ NoFalseAlarm
          [.call jalSite (regsWithRa 0), .ret 0x40380a00 (regsWithRa 0x40380808)] := by
  refine ⟨honest_iff_track.mpr ⟨[], rfl⟩, fun h => ?_⟩
  obtain ⟨s, hs⟩ := h.passes
  cases hs

end RiscvTe
