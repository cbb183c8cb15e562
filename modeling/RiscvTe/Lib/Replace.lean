import Mathlib

/-!
# Words and replacement

`words` cuts a list at its spaces, `replaceAll` replaces the occurrences of
a part from left to right, each search going on behind the last match. A part
with no border (`Borderless`) never overlaps with itself, so every occurrence
of it is replaced and the list can be taken apart at any of them
(`replaceAll_at`).
-/

namespace Replace

variable {α : Type}

/-! ## Words -/

/-- The parts between spaces, without empty ones. -/
def words (space : α → Bool) (s : List α) : List (List α) :=
  (s.splitOnP space).filter fun w => !w.isEmpty

variable {space : α → Bool}

theorem words_append {sep : α} (hsep : space sep = true) {w : List α} (hne : w ≠ [])
    (hw : ∀ c ∈ w, space c = false) (s : List α) :
    words space (w ++ sep :: s) = w :: words space s := by
  rw [words, List.splitOnP_append_cons_of_forall_mem hw sep hsep, List.filter_cons_of_pos]
  · rfl
  · simpa using hne

theorem words_singleton {w : List α} (hne : w ≠ []) (hw : ∀ c ∈ w, space c = false) :
    words space w = [w] := by
  rw [words, List.splitOnP_eq_singleton hw, List.filter_cons_of_pos]
  · rfl
  · simpa using hne

/-- A space in front does not matter. -/
theorem words_cons_space {sep : α} (hsep : space sep = true) (s : List α) :
    words space (sep :: s) = words space s := by
  have hsplit := @List.splitOnP_append_cons_of_forall_mem _ space [] (by simp) sep
    hsep s
  rw [List.nil_append] at hsplit
  rw [words, hsplit]
  rfl

/-- Two texts with a space in between. -/
theorem words_append_space {sep : α} (hsep : space sep = true) (s t : List α) :
    words space (s ++ sep :: t) = words space s ++ words space t := by
  rw [words, List.splitOnP_append_cons s t hsep, List.filter_append]
  rfl

/-- Words put together with a space in between are found again. -/
theorem words_intercalate {sep : α} (hsep : space sep = true) {ws : List (List α)}
    (h : ∀ w ∈ ws, w ≠ [] ∧ ∀ c ∈ w, space c = false) :
    words space (List.intercalate [sep] ws) = ws := by
  induction ws with
  | nil => rfl
  | cons w ws ih =>
      obtain ⟨hne, hw⟩ := h w (by simp)
      cases ws with
      | nil =>
          rw [List.intercalate_singleton]
          exact words_singleton hne hw
      | cons v ws =>
          rw [List.intercalate_cons_cons, List.append_assoc, List.singleton_append,
            words_append hsep hne hw, ih fun u hu => h u (List.mem_cons_of_mem _ hu)]

theorem not_space_of_mem_splitOnP {s w : List α} (h : w ∈ s.splitOnP space) :
    ∀ c ∈ w, space c = false := by
  induction s generalizing w with
  | nil =>
      rw [List.splitOnP_nil, List.mem_singleton] at h
      simp [h]
  | cons d s ih =>
      have hne : s.splitOnP space ≠ [] := List.splitOnP_ne_nil space s
      obtain ⟨first, rest, hsplit⟩ := List.exists_cons_of_ne_nil hne
      rw [List.splitOnP_cons_eq_if_modifyHead] at h
      rw [hsplit] at h ih
      split at h
      · rcases List.mem_cons.mp h with rfl | hin
        · simp
        · exact ih hin
      · rename_i hd
        rcases List.mem_cons.mp h with rfl | hin
        · intro c hc
          rcases List.mem_cons.mp hc with rfl | hc
          · exact Bool.eq_false_iff.mpr hd
          · exact ih List.mem_cons_self c hc
        · exact ih (List.mem_cons_of_mem _ hin)

/-- There is no space in a word. -/
theorem not_space_of_mem_words {s w : List α} (h : w ∈ words space s) :
    ∀ c ∈ w, space c = false :=
  not_space_of_mem_splitOnP (List.mem_filter.mp h).1

/-! ## Parts without a border -/

/-- No proper end of the part is a start of it. -/
def Borderless (old : List α) : Prop := ∀ v ∈ old.tails, v <+: old → v = [] ∨ v = old

instance [DecidableEq α] (old : List α) : Decidable (Borderless old) :=
  inferInstanceAs (Decidable (∀ v ∈ old.tails, v <+: old → v = [] ∨ v = old))

/-- Such a part does not start inside a text that another occurrence follows. -/
theorem Borderless.not_overlap {old u v : List α} (h : Borderless old) (hu : u ≠ [])
    (hnot : ¬ old <+: u) : ¬ old <+: u ++ (old ++ v) := by
  intro hpre
  obtain ⟨r, hr⟩ := hpre
  rcases List.append_eq_append_iff.mp hr with ⟨w, rfl, -⟩ | ⟨w, hold, hrest⟩
  · exact hnot (List.prefix_append _ _)
  · -- the part ends with `w`, and another occurrence of it starts with `w`
    have hsuffix : w ∈ old.tails := (List.mem_tails w old).mpr ⟨u, hold.symm⟩
    have hpre : w <+: old := by
      apply List.prefix_of_prefix_length_le ⟨r, hrest.symm⟩ (List.prefix_append old v)
      rw [hold, List.length_append]
      omega
    rcases h w hsuffix hpre with rfl | rfl
    · rw [List.append_nil] at hold
      exact hnot (hold ▸ List.prefix_rfl)
    · exact hu (List.self_eq_append_left.mp hold)

/-! ## Replacement -/

section

variable [DecidableEq α]

/-- The replacement, with a number of elements still to be passed over. -/
def replaceFrom (old new : List α) : Nat → List α → List α
  | _, [] => []
  | skip + 1, _ :: s => replaceFrom old new skip s
  | 0, c :: s =>
      if old.isPrefixOf (c :: s) then new ++ replaceFrom old new (old.length - 1) s
      else c :: replaceFrom old new 0 s

/-- All occurrences of `old`, which is not empty. -/
def replaceAll (old new s : List α) : List α := replaceFrom old new 0 s

end

variable [DecidableEq α] {old new : List α}

theorem replaceFrom_eq (skip : Nat) (s : List α) :
    replaceFrom old new skip s = replaceAll old new (s.drop skip) := by
  induction s generalizing skip with
  | nil => cases skip <;> rfl
  | cons c s ih =>
      cases skip with
      | zero => rfl
      | succ skip => exact ih skip

@[simp] theorem replaceAll_nil : replaceAll old new [] = [] := rfl

theorem replaceAll_here (hne : old ≠ []) (s : List α) :
    replaceAll old new (old ++ s) = new ++ replaceAll old new s := by
  obtain ⟨c, rest, rfl⟩ := List.exists_cons_of_ne_nil hne
  rw [replaceAll, List.cons_append, replaceFrom, if_pos, replaceFrom_eq]
  · simp
  · rw [List.isPrefixOf_iff_prefix, ← List.cons_append]
    exact List.prefix_append _ _

theorem replaceAll_skip {c : α} {s : List α} (h : ¬ old <+: c :: s) :
    replaceAll old new (c :: s) = c :: replaceAll old new s := by
  rw [replaceAll, replaceFrom, if_neg]
  · rfl
  · rwa [List.isPrefixOf_iff_prefix]

/-- Where the part does not occur nothing is replaced. -/
theorem replaceAll_absent {s : List α} (h : ¬ old <:+: s) : replaceAll old new s = s := by
  induction s with
  | nil => rfl
  | cons c s ih =>
      rw [replaceAll_skip fun hpre => h hpre.isInfix,
        ih fun hinf => h (hinf.trans (List.suffix_cons c s).isInfix)]

theorem replaceFrom_length_le (hlen : new.length ≤ old.length) (skip : Nat) (s : List α) :
    (replaceFrom old new skip s).length ≤ s.length - skip := by
  induction s generalizing skip with
  | nil => simp [replaceFrom]
  | cons c s ih =>
      cases skip with
      | succ skip =>
          rw [replaceFrom]
          exact (ih skip).trans (by simp)
      | zero =>
          rw [replaceFrom]
          split
          · rename_i hpre
            have hfits := (List.isPrefixOf_iff_prefix.mp hpre).length_le
            have hrest := ih (old.length - 1)
            rw [List.length_append]
            rw [List.length_cons] at hfits ⊢
            omega
          · have hrest := ih 0
            rw [List.length_cons, List.length_cons]
            omega

theorem replaceAll_length_le (hlen : new.length ≤ old.length) (s : List α) :
    (replaceAll old new s).length ≤ s.length :=
  replaceFrom_length_le hlen 0 s

/-- What is in the result was there or has been put in. -/
theorem mem_replaceFrom {skip : Nat} {s : List α} {c : α}
    (h : c ∈ replaceFrom old new skip s) : c ∈ s ∨ c ∈ new := by
  induction s generalizing skip with
  | nil => cases skip <;> cases h
  | cons d s ih =>
      cases skip with
      | succ skip =>
          rw [replaceFrom] at h
          exact (ih h).imp (List.mem_cons_of_mem _) id
      | zero =>
          rw [replaceFrom] at h
          split at h
          · rcases List.mem_append.mp h with hnew | hrest
            · exact .inr hnew
            · exact (ih hrest).imp (List.mem_cons_of_mem _) id
          · rcases List.mem_cons.mp h with rfl | hrest
            · exact .inl List.mem_cons_self
            · exact (ih hrest).imp (List.mem_cons_of_mem _) id

theorem mem_replaceAll {s : List α} {c : α} (h : c ∈ replaceAll old new s) :
    c ∈ s ∨ c ∈ new :=
  mem_replaceFrom h

/-! ## Every occurrence -/

/-- **Any occurrence is replaced**, and what is before and behind it apart from
each other. -/
theorem replaceAll_at (h : Borderless old) (hne : old ≠ []) (u v : List α) :
    replaceAll old new (u ++ (old ++ v))
      = replaceAll old new u ++ (new ++ replaceAll old new v) := by
  induction hn : u.length using Nat.strong_induction_on generalizing u with
  | _ n ih =>
      cases u with
      | nil =>
          rw [List.nil_append, replaceAll_here hne]
          rfl
      | cons c u =>
          by_cases hpre : old <+: c :: u
          · obtain ⟨rest, hrest⟩ := hpre
            have hshorter : rest.length < n := by
              have hlength := congrArg List.length hrest
              have hpos := List.length_pos_iff.mpr hne
              rw [List.length_append] at hlength
              omega
            rw [← hrest, List.append_assoc, replaceAll_here hne, replaceAll_here hne,
              ih _ hshorter rest rfl, List.append_assoc]
          · have hnot := h.not_overlap (v := v) (List.cons_ne_nil c u) hpre
            rw [List.cons_append] at hnot
            rw [List.cons_append, replaceAll_skip hnot, replaceAll_skip hpre,
              ih u.length (by rw [← hn]; exact Nat.lt_succ_self _) u rfl, List.cons_append]

/-- A shorter replacement shows in the length. -/
theorem replaceAll_length_lt (h : Borderless old) (hlen : new.length < old.length)
    {s : List α} (hin : old <:+: s) : (replaceAll old new s).length < s.length := by
  obtain ⟨u, v, rfl⟩ := hin
  have hne : old ≠ [] := List.ne_nil_of_length_pos (Nat.zero_lt_of_lt hlen)
  have hu := replaceAll_length_le (Nat.le_of_lt hlen) u
  have hv := replaceAll_length_le (Nat.le_of_lt hlen) v
  rw [List.append_assoc, replaceAll_at h hne]
  simp only [List.length_append]
  omega

/-- Only a list without the part is left as it is. -/
theorem replaceAll_eq_self_iff (h : Borderless old) (hne : old ≠ [])
    (hlen : new.length ≤ old.length) (hnew : new ≠ old) {s : List α} :
    replaceAll old new s = s ↔ ¬ old <:+: s := by
  refine ⟨?_, replaceAll_absent⟩
  intro hself hin
  obtain ⟨u, v, rfl⟩ := hin
  have hu := replaceAll_length_le hlen u
  have hv := replaceAll_length_le hlen v
  rw [List.append_assoc, replaceAll_at h hne] at hself
  have hlength := congrArg List.length hself
  simp only [List.length_append] at hlength
  -- nothing has become shorter, so the new part stands where the old one was
  have hrest := List.append_inj_right hself (by omega)
  exact hnew (List.append_inj_left hrest (by omega))

end Replace
