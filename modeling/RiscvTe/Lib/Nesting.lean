import Mathlib
import RiscvTe.Lib.EventRun

/-!
# Well-nested traces and the stack that recognises them

A trace is a list of marks: `enter v` opens a bracket labelled `v`,
`leave v` closes one. `follow` is the obvious recogniser with a list as its
stack (newest label first), `track cap` the same with room for `cap`
labels. The specification side speaks about the trace alone: `Matched`
(the grammar of completely matched traces), `ClosesEarlier` (every `leave`
has its `enter`), `depth` and `unmatched`.

Main results: `track_accepts_iff` (the bounded recogniser gets through
exactly the well-nested traces of bounded depth) and `track_stack` (its
stack is the list of the labels still open).
-/

namespace Nesting

open EventRun

variable {α : Type}

/-- One event of a trace. -/
inductive Mark (α : Type) where
  | enter (v : α)
  | leave (v : α)
  deriving DecidableEq, Repr

/-- Why a recogniser refuses a mark. -/
inductive Refusal where
  | full
  | mismatch
  deriving DecidableEq, Repr

/-! ## The specification: properties of the trace alone -/

/-- Completely matched traces: `ε`, or a bracket around a matched trace
followed by a matched trace. -/
inductive Matched : List (Mark α) → Prop where
  | nil : Matched []
  | pair {v : α} {w w' : List (Mark α)} : Matched w → Matched w' →
      Matched (.enter v :: (w ++ .leave v :: w'))

/-- Every `leave` is matched: an earlier `enter` carries the same label and
what stands strictly between the two is completely matched. -/
def ClosesEarlier (t : List (Mark α)) : Prop :=
  ∀ pre v post, t = pre ++ .leave v :: post →
    ∃ pre' w, pre = pre' ++ .enter v :: w ∧ Matched w

/-- What a mark adds to the nesting depth. -/
def Mark.delta : Mark α → Int
  | .enter _ => 1
  | .leave _ => -1

/-- Number of `enter`s minus number of `leave`s. -/
def depth (t : List (Mark α)) : Int := (t.map Mark.delta).sum

/-- The depth stays within `cap` in every prefix. -/
def DepthBound (cap : Nat) (t : List (Mark α)) : Prop :=
  ∀ pre, pre <+: t → depth pre ≤ cap

/-- The trace starts with the rest of a bracket opened before it: a matched
part and then a `leave`. -/
def Closed (t : List (Mark α)) : Prop :=
  ∃ w v post, t = w ++ .leave v :: post ∧ Matched w

open Classical in
/-- The labels of the `enter`s that nothing later matches, in order. -/
noncomputable def unmatched : List (Mark α) → List α
  | [] => []
  | .enter v :: t => if Closed t then unmatched t else v :: unmatched t
  | .leave _ :: t => unmatched t

@[simp] theorem depth_nil : depth ([] : List (Mark α)) = 0 := rfl

@[simp] theorem depth_cons (m : Mark α) (t : List (Mark α)) :
    depth (m :: t) = m.delta + depth t := by
  simp [depth]

theorem Matched.append {w w' : List (Mark α)} (h : Matched w) (h' : Matched w') :
    Matched (w ++ w') := by
  induction h with
  | nil => simpa using h'
  | pair hw _ _ ih =>
      simpa [List.append_assoc] using Matched.pair hw ih

theorem Matched.bracket {v : α} {w : List (Mark α)} (h : Matched w) :
    Matched (.enter v :: (w ++ [.leave v])) :=
  .pair h .nil

theorem unmatched_matched_append {w : List (Mark α)} (h : Matched w)
    (t : List (Mark α)) : unmatched (w ++ t) = unmatched t := by
  induction h generalizing t with
  | nil => rfl
  | @pair v w w' hw _ ihw ihw' =>
      have hclosed : Closed (w ++ .leave v :: (w' ++ t)) :=
        ⟨w, v, w' ++ t, rfl, hw⟩
      simp only [List.cons_append, List.append_assoc, unmatched, if_pos hclosed]
      rw [ihw, unmatched, ihw']

/-! ## The recognisers -/

variable [DecidableEq α]

/-- The unbounded recogniser. -/
def follow (st : List α) : Mark α → Except Refusal (List α)
  | .enter v => .ok (v :: st)
  | .leave v =>
      match st with
      | [] => .error .mismatch
      | x :: rest => if x = v then .ok rest else .error .mismatch

/-- The recogniser with room for `cap` labels. -/
def track (cap : Nat) (st : List α) (m : Mark α) : Except Refusal (List α) :=
  match m with
  | .enter _ => if st.length < cap then follow st m else .error .full
  | .leave _ => follow st m

theorem follow_enter_ok {st st' : List α} {v : α} :
    follow st (.enter v) = .ok st' ↔ st' = v :: st := by
  simp [follow, eq_comm]

theorem follow_leave_ok {st st' : List α} {v : α} :
    follow st (.leave v) = .ok st' ↔ st = v :: st' := by
  cases st with
  | nil => simp [follow]
  | cons x rest =>
      by_cases hx : x = v
      · simp [follow, hx]
      · simp [follow, hx]

/-- The stack height follows the depth of the trace. -/
theorem follow_length {t : List (Mark α)} {st st' : List α}
    (h : run follow st t = .ok st') :
    (st'.length : Int) = st.length + depth t := by
  induction t generalizing st with
  | nil =>
      cases h
      simp
  | cons m t ih =>
      obtain ⟨mid, hm, hrest⟩ := run_cons_ok.mp h
      have hmid := ih hrest
      cases m with
      | enter v =>
          rw [follow_enter_ok] at hm
          subst hm
          simp only [List.length_cons, depth_cons, Mark.delta] at hmid ⊢
          omega
      | leave v =>
          rw [follow_leave_ok] at hm
          subst hm
          simp only [List.length_cons, depth_cons, Mark.delta] at hmid ⊢
          omega

/-- A matched trace leaves the stack as it found it. -/
theorem matched_follow {w : List (Mark α)} (hw : Matched w) {st st' : List α}
    (h : run follow st w = .ok st') : st' = st := by
  induction hw generalizing st st' with
  | nil =>
      cases h
      rfl
  | pair _ _ ihw ihw' =>
      obtain ⟨s1, henter, h⟩ := run_cons_ok.mp h
      obtain ⟨s2, hinner, h⟩ := run_append_ok.mp h
      obtain ⟨s3, hleave, hrest⟩ := run_cons_ok.mp h
      rw [follow_enter_ok] at henter
      rw [follow_leave_ok] at hleave
      have hs2 := ihw hinner
      rw [henter, hleave] at hs2
      rw [ihw' hrest]
      exact (List.cons.inj hs2).2

/-- A matched trace gets through from every stack. -/
theorem matched_follow_ok {w : List (Mark α)} (hw : Matched w) (st : List α) :
    run follow st w = .ok st := by
  induction hw generalizing st with
  | nil => rfl
  | @pair v w w' _ _ ihw ihw' =>
      refine run_cons_ok.mpr ⟨v :: st, rfl, run_append_ok.mpr ⟨v :: st, ihw _, ?_⟩⟩
      exact run_cons_ok.mpr ⟨st, follow_leave_ok.mpr rfl, ihw' st⟩

/-- **The top of the stack**: the newest label belongs to an `enter` after
which everything is matched, and what is under it was there before. -/
theorem follow_top {t : List (Mark α)} {v : α} {st : List α}
    (h : run follow [] t = .ok (v :: st)) :
    ∃ pre w, t = pre ++ .enter v :: w ∧ Matched w
      ∧ run follow [] pre = .ok st := by
  -- by the length of the trace: a last `leave` sends us to two shorter ones
  induction hn : t.length using Nat.strongRecOn generalizing t v st with
  | ind n ih =>
      subst hn
      rcases List.eq_nil_or_concat t with rfl | ⟨t', m, rfl⟩
      · cases h
      · rw [List.concat_eq_append] at h ⊢
        obtain ⟨s, hs, hm⟩ := run_snoc_ok.mp h
        cases m with
        | enter u =>
            rw [follow_enter_ok] at hm
            obtain ⟨rfl, rfl⟩ := List.cons.inj hm
            exact ⟨t', [], rfl, .nil, hs⟩
        | leave u =>
            rw [follow_leave_ok] at hm
            subst hm
            obtain ⟨p1, w1, rfl, hw1, hp1⟩ := ih t'.length (by simp) hs rfl
            obtain ⟨p0, w0, rfl, hw0, hp0⟩ :=
              ih p1.length (by simp) hp1 rfl
            refine ⟨p0, w0 ++ .enter u :: (w1 ++ [.leave u]), ?_,
              hw0.append hw1.bracket, hp0⟩
            simp

/-- Labels under the run do not take part in it. -/
theorem follow_frame {t : List (Mark α)} {st st' : List α}
    (h : run follow st t = .ok st') (b : List α) :
    run follow (st ++ b) t = .ok (st' ++ b) := by
  induction t generalizing st with
  | nil =>
      cases h
      rfl
  | cons m t ih =>
      obtain ⟨s, hm, hrest⟩ := run_cons_ok.mp h
      refine run_cons_ok.mpr ⟨s ++ b, ?_, ih hrest⟩
      cases m with
      | enter v =>
          rw [follow_enter_ok] at hm ⊢
          simp [hm]
      | leave v =>
          rw [follow_leave_ok] at hm ⊢
          simp [hm]

/-- Either the label at the bottom of the run is never removed, or the
trace splits at its `leave`. -/
theorem follow_first_return {t : List (Mark α)} {v : α} {st st' : List α}
    (h : run follow (v :: st) t = .ok st') :
    (∃ l, st' = l ++ v :: st ∧ run follow [] t = .ok l)
      ∨ ∃ w rest, t = w ++ .leave v :: rest ∧ Matched w
          ∧ run follow st rest = .ok st' := by
  induction hn : t.length using Nat.strongRecOn generalizing t v st with
  | ind n ih =>
      subst hn
      cases t with
      | nil =>
          cases h
          exact .inl ⟨[], rfl, rfl⟩
      | cons m t =>
          obtain ⟨s, hm, hrest⟩ := run_cons_ok.mp h
          cases m with
          | leave u =>
              rw [follow_leave_ok] at hm
              obtain ⟨rfl, rfl⟩ := List.cons.inj hm
              exact .inr ⟨[], t, rfl, .nil, hrest⟩
          | enter u =>
              rw [follow_enter_ok] at hm
              subst hm
              rcases ih t.length (by simp) hrest rfl with
                ⟨l, rfl, hl⟩ | ⟨w, rest, rfl, hw, hst⟩
              · -- `u` stays open, so `v` under it does too
                refine .inl ⟨l ++ [u], by simp, run_cons_ok.mpr ⟨[u], rfl, ?_⟩⟩
                exact follow_frame hl [u]
              · -- `u` is closed at `rest`; look for `v` from there
                rcases ih rest.length (by simp; omega) hst rfl with
                  ⟨l, rfl, hl⟩ | ⟨w2, rest2, rfl, hw2, hst2⟩
                · refine .inl ⟨l, rfl, run_cons_ok.mpr ⟨[u], rfl, ?_⟩⟩
                  refine run_append_ok.mpr ⟨[u], matched_follow_ok hw _, ?_⟩
                  exact run_cons_ok.mpr ⟨[], follow_leave_ok.mpr rfl, hl⟩
                · refine .inr ⟨.enter u :: (w ++ .leave u :: w2), rest2, ?_,
                    .pair hw hw2, hst2⟩
                  simp

/-- The stack is the list of labels still open, newest first. -/
theorem follow_stack {t : List (Mark α)} {st : List α}
    (h : run follow [] t = .ok st) : st.reverse = unmatched t := by
  induction hn : t.length using Nat.strongRecOn generalizing t st with
  | ind n ih =>
      subst hn
      cases t with
      | nil =>
          cases h
          rfl
      | cons m t =>
          obtain ⟨s, hm, hrest⟩ := run_cons_ok.mp h
          cases m with
          | leave v =>
              rw [follow_leave_ok] at hm
              cases hm
          | enter v =>
              rw [follow_enter_ok] at hm
              subst hm
              rcases follow_first_return hrest with
                ⟨l, rfl, hl⟩ | ⟨w, rest, rfl, hw, hst⟩
              · have hopen : ¬ Closed t := by
                  rintro ⟨w, u, post, rfl, hw⟩
                  obtain ⟨s, hs, hpost⟩ := run_append_ok.mp hl
                  obtain ⟨_, hu, _⟩ := run_cons_ok.mp hpost
                  rw [matched_follow hw hs, follow_leave_ok] at hu
                  cases hu
                rw [unmatched, if_neg hopen, ← ih t.length (by simp) hl rfl]
                simp
              · rw [unmatched, if_pos ⟨w, v, rest, rfl, hw⟩,
                  unmatched_matched_append hw, unmatched]
                exact ih rest.length (by simp; omega) hst rfl

/-! ## The bounded recogniser -/

theorem track_ok {cap : Nat} {st st' : List α} {m : Mark α} (hst : st.length ≤ cap) :
    track cap st m = .ok st' ↔ follow st m = .ok st' ∧ st'.length ≤ cap := by
  cases m with
  | enter v =>
      by_cases hlt : st.length < cap
      · rw [track, if_pos hlt, follow_enter_ok]
        constructor
        · rintro rfl
          exact ⟨rfl, hlt⟩
        · exact And.left
      · rw [track, if_neg hlt, follow_enter_ok]
        constructor
        · intro h
          cases h
        · rintro ⟨rfl, hle⟩
          exact absurd hle hlt
  | leave v =>
      rw [track, follow_leave_ok]
      constructor
      · rintro rfl
        exact ⟨rfl, by simp at hst; omega⟩
      · exact And.left

/-- The bounded run is the unbounded one, as long as the depth allows. -/
theorem track_run_ok {cap : Nat} {t : List (Mark α)} {st : List α} :
    run (track cap) [] t = .ok st
      ↔ run follow [] t = .ok st ∧ DepthBound cap t := by
  induction t using List.reverseRecOn generalizing st with
  | nil =>
      simp only [run_nil, DepthBound, List.prefix_nil, forall_eq, depth_nil]
      constructor
      · intro h
        exact ⟨h, by omega⟩
      · exact And.left
  | append_singleton t m ih =>
      constructor
      · intro h
        obtain ⟨s, hs, hm⟩ := run_snoc_ok.mp h
        obtain ⟨hfollow, hbound⟩ := ih.mp hs
        have hlen := follow_length hfollow
        have hdepth := hbound t (List.prefix_refl t)
        obtain ⟨hm', hst⟩ := (track_ok (by simp at hlen; omega)).mp hm
        have hrun : run follow [] (t ++ [m]) = .ok st :=
          run_snoc_ok.mpr ⟨s, hfollow, hm'⟩
        refine ⟨hrun, fun pre hpre => ?_⟩
        rcases List.prefix_concat_iff.mp hpre with rfl | hpre
        · have := follow_length hrun
          simp only [List.length_nil] at this
          omega
        · exact hbound pre hpre
      · rintro ⟨h, hbound⟩
        obtain ⟨s, hs, hm⟩ := run_snoc_ok.mp h
        have hpre : DepthBound cap t :=
          fun pre hp => hbound pre (hp.trans (List.prefix_append t [m]))
        have hslen := follow_length hs
        have hlen := follow_length h
        have hs' := hpre t (List.prefix_refl t)
        have ht' := hbound _ (List.prefix_refl (t ++ [m]))
        simp only [List.length_nil] at hslen hlen
        exact run_snoc_ok.mpr ⟨s, ih.mpr ⟨hs, hpre⟩,
          (track_ok (by omega)).mpr ⟨hm, by omega⟩⟩

theorem follow_closesEarlier {t : List (Mark α)} {st : List α}
    (h : run follow [] t = .ok st) : ClosesEarlier t := by
  rintro pre v post rfl
  obtain ⟨s, hs, hrest⟩ := run_append_ok.mp h
  obtain ⟨_, hleave, _⟩ := run_cons_ok.mp hrest
  rw [follow_leave_ok] at hleave
  subst hleave
  obtain ⟨pre', w, rfl, hw, _⟩ := follow_top hs
  exact ⟨pre', w, rfl, hw⟩

theorem ClosesEarlier.follow {t : List (Mark α)} (h : ClosesEarlier t) :
    ∃ st, run follow [] t = .ok st := by
  induction t using List.reverseRecOn with
  | nil => exact ⟨[], rfl⟩
  | append_singleton t m ih =>
      have hpre : ClosesEarlier t := by
        rintro pre v post rfl
        exact h pre v (post ++ [m]) (by simp)
      obtain ⟨s, hs⟩ := ih hpre
      cases m with
      | enter v => exact ⟨v :: s, run_snoc_ok.mpr ⟨s, hs, rfl⟩⟩
      | leave v =>
          -- the matching `enter` put `v` on the stack and `w` kept it there
          obtain ⟨pre, w, rfl, hw⟩ := h t v [] rfl
          obtain ⟨s1, hs1, hrest⟩ := run_append_ok.mp hs
          obtain ⟨s2, henter, hwrun⟩ := run_cons_ok.mp hrest
          rw [follow_enter_ok] at henter
          have htop : s = v :: s1 := by rw [matched_follow hw hwrun, henter]
          exact ⟨s1, run_snoc_ok.mpr ⟨s, hs, follow_leave_ok.mpr htop⟩⟩

/-- **Acceptance**: with room for `cap` labels the recogniser gets through a
trace exactly when every `leave` is matched and no prefix is deeper than
`cap`. -/
theorem track_accepts_iff {cap : Nat} {t : List (Mark α)} :
    (∃ st, run (track cap) [] t = .ok st) ↔ ClosesEarlier t ∧ DepthBound cap t := by
  constructor
  · rintro ⟨st, h⟩
    obtain ⟨hf, hbound⟩ := track_run_ok.mp h
    exact ⟨follow_closesEarlier hf, hbound⟩
  · rintro ⟨hclose, hbound⟩
    obtain ⟨st, hf⟩ := hclose.follow
    exact ⟨st, track_run_ok.mpr ⟨hf, hbound⟩⟩

/-- **The stack of an accepted trace** holds the labels still open. -/
theorem track_stack {cap : Nat} {t : List (Mark α)} {st : List α}
    (h : run (track cap) [] t = .ok st) : st.reverse = unmatched t :=
  follow_stack (track_run_ok.mp h).1

end Nesting
