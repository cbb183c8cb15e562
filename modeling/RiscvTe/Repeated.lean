import RiscvTe.BackwardEdge
import RiscvTe.Balance
import RiscvTe.OrderIndependence

/-!
# Instrumenting what is instrumented

`instrumenter.py` rewrites the files it is given in place, and nothing in them
says that they have been rewritten before. The checks match no pattern, so
another run decides every line as the first one did and puts its block in
front once more: behind `n` runs there are `n` copies (`instrument_repeated`).

Two copies are one too many. A call then leaves two different addresses on the
shadow stack and a return asks for the same one twice, so no function of code
instrumented twice comes back (`doubled_return_stops`).
-/

namespace RiscvTe

open Scan Transducer

variable {cls : CharClass} {Path : Type}

/-! ## Lines behind copies of their blocks -/

def thicken (n : Nat) (body : List (Line × Checks)) : List Line :=
  body.flatMap fun entry => (List.replicate n entry.2.block).flatten ++ [entry.1]

@[simp] theorem thicken_nil (n : Nat) : thicken n [] = [] := rfl

@[simp] theorem thicken_cons (n : Nat) (entry : Line × Checks) (body : List (Line × Checks)) :
    thicken n (entry :: body)
      = (List.replicate n entry.2.block).flatten ++ entry.1 :: thicken n body := by
  simp [thicken]

theorem thicken_zero (body : List (Line × Checks)) : thicken 0 body = body.map Prod.fst := by
  induction body with
  | nil => rfl
  | cons entry body ih => simp [ih]

theorem inert_copies {entry : Line × Checks} (h : Matched cls entry) (n : Nat) :
    ∀ b ∈ (List.replicate n entry.2.block).flatten, Inert cls b := by
  intro b hb
  obtain ⟨block, hblock, hb⟩ := List.mem_flatten.mp hb
  rw [List.eq_of_mem_replicate hblock] at hb
  exact inert_block h b hb

/-- Nothing is called in a block. -/
theorem calledNames_thicken {n : Nat} {body : List (Line × Checks)}
    (h : ∀ entry ∈ body, Matched cls entry) :
    calledNames cls (thicken n body) = calledNames cls (body.map Prod.fst) := by
  induction body with
  | nil => rfl
  | cons entry body ih =>
      have hnone : calledNames cls (List.replicate n entry.2.block).flatten = [] := by
        apply List.filterMap_eq_nil_iff.mpr
        intro b hb
        exact (inert_copies (h entry (by simp)) n b hb).dirJump
      have hrest := ih fun e he => h e (List.mem_cons_of_mem _ he)
      rw [thicken_cons, calledNames_append, hnone, List.nil_append, List.map_cons,
        ← List.singleton_append, calledNames_append, hrest, ← calledNames_append,
        List.singleton_append]

/-! ## The plan for such lines -/

section Plan

variable {exit : Name → Option LeafExit}

theorem planLine_matched (st : LineState) (line : Line) :
    Matched cls (line, (planLine cls exit st line).2) := by
  constructor
  · intro label h
    exact (Option.filter_eq_some_iff.mp h).1
  · intro label h
    exact (Option.ite_none_left_eq_some.mp h).2

theorem plan_matched (st : LineState) (lines : List Line) :
    ∀ entry ∈ (run (planLine cls exit) st lines).2, Matched cls entry :=
  (run_invariant (I := fun _ => True) (P := fun line checks => Matched cls (line, checks))
    (fun st line _ => ⟨trivial, planLine_matched st line⟩) trivial).2

/-- A line of a block leaves the state as it is and gets no checks. -/
theorem planLine_inert {b : Line} (h : Inert cls b) (st : LineState) :
    planLine cls exit st b = (st, { jump := none, ret := none }) := by
  simp [planLine, h.dirJump, h.retJump, h.funcStart]

/-- The entry of a line without checks. -/
def bare (line : Line) : Line × Checks := (line, { jump := none, ret := none })

theorem plan_inert {block : List Line} (h : ∀ b ∈ block, Inert cls b) (st : LineState) :
    run (planLine cls exit) st block = (st, block.map bare) := by
  induction block with
  | nil => rfl
  | cons b block ih =>
      rw [run_cons, planLine_inert (h b (by simp)), ih fun b' hb' => h b' (by simp [hb'])]
      rfl

/-- The entries of lines behind copies of their blocks. -/
def thickenEntries (n : Nat) (body : List (Line × Checks)) : List (Line × Checks) :=
  body.flatMap fun entry => (List.replicate n entry.2.block).flatten.map bare ++ [entry]

/-- **The plan sees the lines alone.** -/
theorem plan_thicken (n : Nat) (st : LineState) (lines : List Line) :
    run (planLine cls exit) st (thicken n (run (planLine cls exit) st lines).2)
      = ((run (planLine cls exit) st lines).1,
          thickenEntries n (run (planLine cls exit) st lines).2) := by
  induction lines generalizing st with
  | nil => rfl
  | cons line lines ih =>
      have hmatched : Matched cls (line, (planLine cls exit st line).2) :=
        planLine_matched st line
      rw [run_cons, thicken_cons, run_append, plan_inert (inert_copies hmatched n), run_cons, ih]
      simp [thickenEntries]

end Plan

theorem outputLines_bare (block : List Line) : outputLines (block.map bare) = block := by
  induction block with
  | nil => rfl
  | cons b block ih =>
      rw [List.map_cons, outputLines, List.flatMap_cons, ← outputLines, ih]
      rfl

/-- One more block in front of each line. -/
theorem outputLines_thicken (n : Nat) (body : List (Line × Checks)) :
    outputLines (thickenEntries n body) = thicken (n + 1) body := by
  induction body with
  | nil => rfl
  | cons entry body ih =>
      have hblocks : outputLines ((List.replicate n entry.2.block).flatten.map bare ++ [entry])
          = (List.replicate (n + 1) entry.2.block).flatten ++ [entry.1] := by
        rw [outputLines, List.flatMap_append, ← outputLines, outputLines_bare,
          List.replicate_succ', List.flatten_append]
        simp
      rw [thickenEntries, List.flatMap_cons, ← thickenEntries, outputLines, List.flatMap_append,
        ← outputLines, ← outputLines, hblocks, ih, thicken_cons]
      simp

/-! ## Runs of the instrumenter -/

section Files

variable [DecidableEq Path]

/-- The contents behind `n` runs on the same files. -/
def instrumentRepeatedly (cls : CharClass) (files : List Path) (n : Nat)
    (contents : Path → Text) : Path → Text :=
  (fun contents => (instrument cls contents files).1.contents)^[n] contents

theorem instrumentRepeatedly_succ (files : List Path) (n : Nat) (contents : Path → Text) :
    instrumentRepeatedly cls files (n + 1) contents
      = (instrument cls (instrumentRepeatedly cls files n contents) files).1.contents :=
  Function.iterate_succ_apply' _ _ _

/-- The leaf functions that files given earlier in the list leave. -/
def leavesOf (cls : CharClass) (contents : Path → Text) (files before : List Path) : List Name :=
  (calledNames cls (before.flatMap fun f => readlines (contents f))).filter
    (notesLeaf (leafExit cls contents files))

/-- The pass of a file, from the files given. -/
theorem pass_eq {contents : Path → Text} {before after : List Path} {file : Path}
    {body : List (Line × Checks)} (hnodup : (before ++ file :: after).Nodup)
    (hpass : (file, body) ∈ (instrument cls contents (before ++ file :: after)).2) :
    body = planFile cls (leafExit cls contents (before ++ file :: after))
      (leavesOf cls contents (before ++ file :: after) before) (readlines (contents file)) := by
  obtain ⟨earlier, later, hsplit⟩ := List.append_of_mem hpass
  have hinputs := run_inputs (instrumentFile cls (before ++ file :: after))
    { contents := contents, leafFunctions := [] } (before ++ file :: after)
  have hsplit' := hsplit
  rw [instrument] at hsplit'
  rw [hsplit', List.map_append, List.map_cons] at hinputs
  -- a file stands in the list once
  have hbefore : earlier.map Prod.fst = before := by
    obtain ⟨hnodupBefore, -, hapart⟩ := List.nodup_append.mp hnodup
    have hfile : file ∉ before := fun hin => hapart file hin file (by simp) rfl
    have hearlier : file ∉ earlier.map Prod.fst := by
      have hnodup' := hnodup
      rw [← hinputs] at hnodup'
      obtain ⟨-, -, hapart'⟩ := List.nodup_append.mp hnodup'
      exact fun hin => hapart' file hin file (by simp) rfl
    have hlength := congrArg (List.idxOf file) hinputs
    rw [List.idxOf_append_of_notMem hearlier, List.idxOf_append_of_notMem hfile,
      List.idxOf_cons_self, List.idxOf_cons_self] at hlength
    exact (List.append_inj hinputs (by omega)).1
  obtain ⟨hnodupBefore, hrest, hapart⟩ := List.nodup_append.mp hnodup
  have hfile : file ∉ before := fun hin => hapart file hin file (by simp) rfl
  obtain ⟨hexit, hleaf⟩ := store_after cls (before ++ file :: after)
    { contents := contents, leafFunctions := [] } before
  have hbody := run_at hsplit'
  rw [hbefore, (instrumentFile_plan _ _ _).1, hexit, hleaf, contents_untouched _ hfile,
    linesOf_run _ hnodupBefore, List.nil_append] at hbody
  exact hbody

theorem planFile_lines {exit : Name → Option LeafExit} {leafFunctions : List Name}
    (text : Text) :
    readlines (render (planFile cls exit leafFunctions (readlines text)))
      = outputLines (planFile cls exit leafFunctions (readlines text)) := by
  apply readlines_output (plan_matched _ _)
  rw [run_inputs]
  exact lines_readlines _

/-- Behind `n` runs the scans find what they found, and every file has its
lines, each behind `n` copies of its block. -/
theorem repeatedly_lines {files : List Path} (hnodup : files.Nodup) (contents : Path → Text)
    (n : Nat) :
    leafExit cls (instrumentRepeatedly cls files n contents) files = leafExit cls contents files
      ∧ ∀ before file after, files = before ++ file :: after →
        readlines (instrumentRepeatedly cls files n contents file)
          = thicken n (planFile cls (leafExit cls contents files)
              (leavesOf cls contents files before) (readlines (contents file))) := by
  induction n with
  | zero =>
      refine ⟨rfl, fun before file after _ => ?_⟩
      rw [thicken_zero, planFile, run_inputs]
      rfl
  | succ n ih =>
      obtain ⟨hexit, hlines⟩ := ih
      rw [instrumentRepeatedly_succ]
      have hscans := @run_scansAlike cls _ _ files
        { contents := instrumentRepeatedly cls files n contents, leafFunctions := [] } files
      refine ⟨(hscans.leafExit files).trans hexit, ?_⟩
      intro before file after hfiles
      subst hfiles
      -- nothing is called in the copies, so the leaf functions are the same again
      have hleaves : calledNames cls (before.flatMap fun f =>
            readlines (instrumentRepeatedly cls (before ++ file :: after) n contents f))
          = calledNames cls (before.flatMap fun f => readlines (contents f)) := by
        unfold calledNames
        rw [List.filterMap_flatMap, List.filterMap_flatMap]
        apply List.flatMap_congr
        intro f hf
        obtain ⟨front, back, rfl⟩ := List.append_of_mem hf
        have hf' := hlines front f (back ++ file :: after) (by simp)
        have hcalled := calledNames_thicken (n := n)
          (@plan_matched cls (leafExit cls contents (front ++ f :: back ++ file :: after))
            { currFunction := []
              leafFunctions := leavesOf cls contents (front ++ f :: back ++ file :: after) front }
            (readlines (contents f)))
        rw [run_inputs] at hcalled
        rw [hf']
        exact hcalled
      rw [instrument_contents hnodup, hexit, hleaves, planFile_lines,
        hlines before file after rfl]
      show outputLines (run _ _ (thicken n _)).2 = _
      rw [planFile, leavesOf, plan_thicken, outputLines_thicken]

/-- **Instrumenting again.** Behind any number of runs on the same files, each
named once, a file reads back as the lines it had at first, each behind as many
copies of the block that the first run put in front of it. -/
theorem instrument_repeated {files : List Path} (hnodup : files.Nodup) {contents : Path → Text}
    {file : Path} {body : List (Line × Checks)}
    (hpass : (file, body) ∈ (instrument cls contents files).2) (n : Nat) :
    readlines (instrumentRepeatedly cls files n contents file)
      = body.flatMap fun entry => (List.replicate n entry.2.block).flatten ++ [entry.1] := by
  have hfile : file ∈ files := by
    have hinputs := run_inputs (instrumentFile cls files)
      { contents := contents, leafFunctions := [] } files
    rw [← hinputs]
    exact List.mem_map_of_mem hpass
  obtain ⟨before, after, rfl⟩ := List.append_of_mem hfile
  rw [(repeatedly_lines hnodup contents n).2 before file after rfl, ← pass_eq hnodup hpass]
  rfl

end Files

/-- A file with two checked returns, instrumented twice. -/
theorem instrument_repeated_lastLeaf :
    readlines (instrumentRepeatedly CharClass.ascii [()] 2 (fun _ : Unit => lastLeaf) ())
      = lastLeafBody.flatMap fun entry =>
          (List.replicate 2 entry.2.block).flatten ++ [entry.1] :=
  instrument_repeated (by simp) (by rw [lastLeaf_pass]; simp) 2

/-! ## Two copies of every check -/

section Doubled

open Memory

open EventRun (run_cons_ok run_append_ok run_error)

/-- A call or a return behind two checks, with the registers each finds. -/
inductive DoubledEvent where
  | call (first second label : Word) (regs regs' : RegFile)
  | ret (first second : Word) (regs regs' : RegFile)

def DoubledEvent.checks : DoubledEvent → List CheckEvent
  | .call first second label regs regs' => [.call first label regs, .call second label regs']
  | .ret first second regs regs' => [.ret first regs, .ret second regs']

/-- The first check leaves the registers alone as far as the second depends on
them: the two checks of a call store different addresses, as they do when `a6`
is kept, those of a return find the same `ra`. Code addresses are even. -/
def DoubledEvent.Kept : DoubledEvent → Prop
  | .call first second label regs regs' =>
      label % 2 = 0 ∧ second + 6 + 2 * regs' Reg.a6 ≠ first + 6 + 2 * regs Reg.a6
  | .ret _ _ regs regs' => regs Reg.ra % 2 = 0 ∧ regs' Reg.ra = regs Reg.ra

def DoubledEvent.isReturn : DoubledEvent → Bool
  | .call .. => false
  | .ret .. => true

/-- The newest address is not there twice. -/
def TopOnce (s : SStack) : Prop :=
  ∀ address rest, s.contents = address :: rest → rest.head? ≠ some address

theorem jumpCheck_pushes {mepc label : Word} {regs : RegFile} {s s' : SStack} (h : s.WF)
    (heven : label % 2 = 0) (hrun : jumpCheck mepc label regs s = .ok s') :
    s'.contents = (mepc + 6 + 2 * regs Reg.a6) :: s.contents := by
  rw [jumpCheck_eq] at hrun
  rcases esr_cases label (regs Reg.a6) mepc h with ⟨t, ht, -, hcase⟩ | herr
  · rw [ht] at hrun
    cases hrun
    rcases hcase with ⟨-, -, hcontents⟩ | ⟨-, hodd, -⟩
    · exact hcontents
    · exact absurd heven hodd
  · rw [herr] at hrun
    cases hrun

/-- A doubled call leaves two addresses that differ. -/
theorem doubled_call {first second label : Word} {regs regs' : RegFile} {s s' : SStack}
    (h : s.WF) (hkept : (DoubledEvent.call first second label regs regs').Kept)
    (hrun : EventRun.run checkStep s
      (DoubledEvent.call first second label regs regs').checks = .ok s') :
    s'.WF ∧ TopOnce s' := by
  obtain ⟨heven, hne⟩ := hkept
  obtain ⟨m, hfirst, hrest⟩ := run_cons_ok.mp hrun
  obtain ⟨s'', hsecond, hend⟩ := run_cons_ok.mp hrest
  cases hend
  have hwf : m.WF := checkStep_wf h hfirst
  have hcontents := jumpCheck_pushes hwf heven hsecond
  rw [jumpCheck_pushes h heven hfirst] at hcontents
  refine ⟨checkStep_wf hwf hsecond, fun address rest heq => ?_⟩
  rw [hcontents] at heq
  obtain ⟨rfl, rfl⟩ := List.cons.inj heq
  intro hhead
  exact hne (Option.some.inj hhead).symm

/-- A doubled return asks twice for an address that is there once. -/
theorem doubled_ret {first second : Word} {regs regs' : RegFile} {s s' : SStack}
    (h : s.WF) (htop : TopOnce s) (hkept : (DoubledEvent.ret first second regs regs').Kept) :
    EventRun.run checkStep s (DoubledEvent.ret first second regs regs').checks ≠ .ok s' := by
  intro hrun
  obtain ⟨heven, hra⟩ := hkept
  obtain ⟨m, hfirst, hrest⟩ := run_cons_ok.mp hrun
  obtain ⟨s'', hsecond, -⟩ := run_cons_ok.mp hrest
  have hcontents := retCheck_even_ok h heven hfirst
  have hagain := retCheck_even_ok (checkStep_wf h hfirst) (hra ▸ heven) hsecond
  apply htop _ _ hcontents
  rw [hagain, hra]
  rfl

theorem doubled_run {t : List DoubledEvent} (hkept : ∀ e ∈ t, e.Kept) {s s' : SStack}
    (h : s.WF) (htop : TopOnce s)
    (hrun : EventRun.run checkStep s (t.flatMap DoubledEvent.checks) = .ok s') :
    ∀ e ∈ t, e.isReturn = false := by
  induction t generalizing s with
  | nil => simp
  | cons e t ih =>
      rw [List.flatMap_cons] at hrun
      obtain ⟨m, he, hrest⟩ := run_append_ok.mp hrun
      have hkept' := hkept e (by simp)
      cases e with
      | call first second label regs regs' =>
          obtain ⟨hwf, htop'⟩ := doubled_call h hkept' he
          intro e' he'
          rcases List.mem_cons.mp he' with rfl | he'
          · rfl
          · exact ih (fun e he => hkept e (by simp [he])) hwf htop' hrest e' he'
      | ret first second regs regs' => exact absurd he (doubled_ret h htop hkept')

/-- **Code instrumented twice does not come back**: whatever it has called, if
the first copies of its checks leave the second what they need, the monitor ends
the run before or at its first return. -/
theorem doubled_return_stops {t : List DoubledEvent} (hkept : ∀ e ∈ t, e.Kept)
    (hret : ∃ e ∈ t, e.isReturn = true) :
    EventRun.run checkStep initialShadowStack (t.flatMap DoubledEvent.checks)
      = .error .terminated := by
  cases hrun : EventRun.run checkStep initialShadowStack (t.flatMap DoubledEvent.checks) with
  | ok s =>
      obtain ⟨e, he, hreturn⟩ := hret
      have htop : TopOnce initialShadowStack := by
        intro address rest hcontents
        cases hcontents
      rw [doubled_run hkept initialShadowStack_wf htop hrun e he] at hreturn
      cases hreturn
  | error e =>
      have hterminated : e = .terminated := by
        apply run_error (P := SStack.WF) (Q := fun e => e = .terminated)
          (fun s e t hs hstep => checkStep_wf hs hstep) _ initialShadowStack_wf hrun
        intro s e err hs hstop
        cases e with
        | call mepc label regs => exact esr_error hs hstop
        | ret mepc regs => exact esr_error hs hstop
      rw [hterminated]

/-- A call behind two jump checks, and its return. -/
def doubledCall : List DoubledEvent :=
  [.call 0x40380800 0x4038080c 0x40380900 (regsWithRa 0) (regsWithRa 0),
    .ret 0x40380a00 0x40380a0c (regsWithRa 0x40380812) (regsWithRa 0x40380812)]

theorem doubled_return_stops_call :
    EventRun.run checkStep initialShadowStack (doubledCall.flatMap DoubledEvent.checks)
      = .error .terminated := by
  refine doubled_return_stops ?_ ⟨_, List.mem_cons_of_mem _ List.mem_cons_self, rfl⟩
  intro e he
  simp only [doubledCall, List.mem_cons, List.not_mem_nil, or_false] at he
  rcases he with rfl | rfl
  · exact ⟨by decide, by decide⟩
  · exact ⟨by decide, rfl⟩

end Doubled

end RiscvTe
