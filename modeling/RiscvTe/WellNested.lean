import RiscvTe.Lib.Nesting
import RiscvTe.Monitor

/-!
# The ecall monitor accepts exactly the well-nested traces

Seen from user mode the monitor is a recogniser of ecall traces. An ecall
with an even `a7` opens a bracket labelled with the address it stores, one
with an odd `a7` closes the bracket labelled `a7 - 1`, and `a7 = 1` ends
the run. The array with its signed index simulates the bounded list
recogniser of the nesting library (`monitor_step_sim`, `monitor_run_sim`).
-/

namespace RiscvTe

open Memory EventRun Nesting

/-- One U-mode ecall: what the trap handler captures. -/
structure Ecall where
  a7 : Word
  a6 : Word
  mepc : Word
  deriving DecidableEq, Repr

def monitorStep (shadowStack : SStack) (e : Ecall) : Except Stop SStack :=
  esrHandlerUModeEcall e.a7 e.a6 e.mepc shadowStack

/-- The address a jump check stores. -/
def Ecall.stored (e : Ecall) : Word := e.mepc + 6 + 2 * e.a6

/-- The bracket an ecall stands for: a jump check when `a7` is even, a
return check for `a7 - 1` when it is odd. -/
def Ecall.mark (e : Ecall) : Mark Word :=
  if e.a7 % 2 = 0 then .enter e.stored else .leave (e.a7 - 1)

/-- The handler with a `pop` that reports emptiness apart from the value
`0`: what the monitor would be without a sentinel. -/
def monitorStepByEmptiness (shadowStack : SStack) (e : Ecall) : Except Stop SStack :=
  if e.a7 = 1 then codeTermination
  else if e.a7 % 2 = 0 then do
    let (shadowStack, result) ← push shadowStack e.stored
    if result ≠ 1 then codeTermination else return shadowStack
  else if isEmpty shadowStack then codeTermination
  else do
    let (shadowStack, storedAddress) ← pop shadowStack
    if storedAddress ≠ e.a7 - 1 then codeTermination else return shadowStack

/-! ## The array simulates the bounded list -/

/-- One ecall moves the entries as the recogniser moves its list. -/
theorem monitor_step_sim {s s' : SStack} {e : Ecall} (h : s.WF)
    (hrun : monitorStep s e = .ok s') :
    s'.WF ∧ e.a7 ≠ 1 ∧ track maxSize s.contents e.mark = .ok s'.contents := by
  rcases esr_cases e.a7 e.a6 e.mepc h with ⟨t, ht, hwf, hcase⟩ | herr
  · rw [monitorStep, ht] at hrun
    cases hrun
    refine ⟨hwf, ?_⟩
    rcases hcase with ⟨heven, hroom, hc⟩ | ⟨hexit, hodd, hc⟩
    · have hlt : s.contents.length < maxSize := by
        have hlen := h.length_contents
        have hup := h.upper
        have hne : s.contents.length ≠ maxSize := by
          rw [Ne, ← isFull_iff h, hroom]
          simp
        omega
      refine ⟨ne_one_of_even heven, ?_⟩
      rw [Ecall.mark, if_pos heven, track, if_pos hlt, hc]
      rfl
    · refine ⟨hexit, ?_⟩
      rw [Ecall.mark, if_neg hodd, track, follow_leave_ok, hc]
  · rw [monitorStep, herr] at hrun
    cases hrun

/-- What the recogniser accepts, the monitor lets through. -/
theorem monitor_step_of_track {s : SStack} {e : Ecall} {l : List Word} (h : s.WF)
    (hexit : e.a7 ≠ 1) (htrack : track maxSize s.contents e.mark = .ok l) :
    ∃ s', monitorStep s e = .ok s' := by
  by_cases heven : e.a7 % 2 = 0
  · rw [Ecall.mark, if_pos heven, track] at htrack
    split at htrack
    · rename_i hlt
      have hroom : isFull s = false := by
        rw [← Bool.not_eq_true, isFull_iff h]
        omega
      obtain ⟨s', hs', _⟩ := esr_jump_ok e.a6 e.mepc heven h hroom
      exact ⟨s', hs'⟩
    · cases htrack
  · rw [Ecall.mark, if_neg heven, track, follow_leave_ok] at htrack
    obtain ⟨s', hs', _⟩ :=
      esr_return_ok e.a6 e.mepc hexit heven h htrack
    exact ⟨s', hs'⟩

theorem monitor_run_sim {t : List Ecall} {s s' : SStack} (h : s.WF)
    (hrun : run monitorStep s t = .ok s') :
    s'.WF ∧ (∀ e ∈ t, e.a7 ≠ 1)
      ∧ run (track maxSize) s.contents (t.map Ecall.mark) = .ok s'.contents := by
  induction t generalizing s with
  | nil =>
      cases hrun
      exact ⟨h, by simp, rfl⟩
  | cons e t ih =>
      obtain ⟨m, hm, hrest⟩ := run_cons_ok.mp hrun
      obtain ⟨hwf, hexit, htrack⟩ := monitor_step_sim h hm
      obtain ⟨hwf', hexits, htracks⟩ := ih hwf hrest
      refine ⟨hwf', ?_, ?_⟩
      · intro e' he'
        rcases List.mem_cons.mp he' with rfl | he'
        · exact hexit
        · exact hexits e' he'
      · rw [List.map_cons]
        exact run_cons_ok.mpr ⟨m.contents, htrack, htracks⟩

theorem monitor_run_of_track {t : List Ecall} {s : SStack} {l : List Word} (h : s.WF)
    (hexits : ∀ e ∈ t, e.a7 ≠ 1)
    (htrack : run (track maxSize) s.contents (t.map Ecall.mark) = .ok l) :
    ∃ s', run monitorStep s t = .ok s' := by
  induction t generalizing s with
  | nil => exact ⟨s, rfl⟩
  | cons e t ih =>
      rw [List.map_cons] at htrack
      obtain ⟨m, hm, hrest⟩ := run_cons_ok.mp htrack
      obtain ⟨s1, hs1⟩ := monitor_step_of_track h (hexits e (by simp)) hm
      obtain ⟨hwf, _, hsim⟩ := monitor_step_sim h hs1
      rw [hsim] at hm
      cases hm
      obtain ⟨s', hs'⟩ := ih hwf (fun e' he' => hexits e' (by simp [he'])) hrest
      exact ⟨s', run_cons_ok.mpr ⟨s1, hs1, hs'⟩⟩

/-- Every state the monitor reaches has its index in range. -/
theorem monitor_run_wf {t : List Ecall} {s : SStack}
    (hrun : run monitorStep initialShadowStack t = .ok s) : s.WF :=
  (monitor_run_sim initialShadowStack_wf hrun).1

/-! ## The sentinel decides nothing -/

theorem monitorStep_eq_byEmptiness {s : SStack} (h : s.WF) (e : Ecall) :
    monitorStep s e = monitorStepByEmptiness s e := by
  by_cases hexit : e.a7 = 1
  · rw [monitorStep, esr_exit hexit, monitorStepByEmptiness, if_pos hexit]
    rfl
  by_cases heven : e.a7 % 2 = 0
  · rw [monitorStep, esr_jump_eq heven, monitorStepByEmptiness, if_neg hexit,
      if_pos heven]
    rfl
  rw [monitorStep, esr_return_eq hexit heven, monitorStepByEmptiness, if_neg hexit,
    if_neg heven]
  cases hne : isEmpty s with
  | true =>
      rw [pop_empty hne, if_pos rfl]
      rfl
  | false =>
      obtain ⟨s', v, hpop, _⟩ := pop_ok h hne
      rw [hpop]
      -- an odd code other than 1 never asks for the address 0
      have hzero : e.a7 - 1 ≠ 0 := by
        intro h0
        exact hexit (by bv_omega)
      have hsame : (v = 0 ∨ v ≠ e.a7 - 1) ↔ v ≠ e.a7 - 1 := by
        apply or_iff_right_of_imp
        rintro rfl
        exact hzero.symm
      show (if v = 0 ∨ v ≠ e.a7 - 1 then codeTermination else .ok s') = _
      simp only [hsame]
      rfl

/-! ## Acceptance -/

/-- **The monitor accepts exactly the well-nested traces.** The run is
alive after `t` iff no ecall carries the exit code, every return check is
matched by an earlier jump check that stored its address, and the number of
open calls never exceeds 63. The live entries are then the addresses of the
calls still open, a run that is not alive was ended by `code_termination`,
and the value `0` of `pop` decides nothing. -/
theorem monitor_accepts_iff (t : List Ecall) :
    ((∃ s, run monitorStep initialShadowStack t = .ok s)
        ↔ (∀ e ∈ t, e.a7 ≠ 1) ∧ ClosesEarlier (t.map Ecall.mark)
          ∧ DepthBound 63 (t.map Ecall.mark))
      ∧ (∀ s, run monitorStep initialShadowStack t = .ok s →
          s.entries = unmatched (t.map Ecall.mark)
            ∧ ∀ e, monitorStep s e = monitorStepByEmptiness s e)
      ∧ (∀ err, run monitorStep initialShadowStack t = .error err →
          err = .terminated) := by
  refine ⟨⟨?_, ?_⟩, ?_, ?_⟩
  · rintro ⟨s, hs⟩
    obtain ⟨_, hexits, htrack⟩ := monitor_run_sim initialShadowStack_wf hs
    exact ⟨hexits, track_accepts_iff.mp ⟨s.contents, htrack⟩⟩
  · rintro ⟨hexits, hnested⟩
    obtain ⟨l, hl⟩ := track_accepts_iff.mpr hnested
    exact monitor_run_of_track initialShadowStack_wf hexits hl
  · intro s hs
    obtain ⟨hwf, _, htrack⟩ := monitor_run_sim initialShadowStack_wf hs
    refine ⟨?_, monitorStep_eq_byEmptiness hwf⟩
    rw [← track_stack htrack, SStack.contents, List.reverse_reverse]
  · intro err herr
    exact run_error (P := SStack.WF) (fun s e t hs ht => (monitor_step_sim hs ht).1)
      (fun s e err hs h => esr_error hs h) initialShadowStack_wf herr

end RiscvTe
