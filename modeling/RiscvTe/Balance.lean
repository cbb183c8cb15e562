import RiscvTe.Assembly

/-!
# Balance of pushes and pops

The call side asks `is_leaf`, the return side asks `leaf_functions`, which
only some leaf queries fill. A function is balanced when each of its calls
is checked exactly if each of its returns is. The two sides agree for a
function with a `call` in it, and for a leaf followed by another function
once it has been called; in between they do not.
-/

namespace RiscvTe

open Scan

section Owner

variable (cls : CharClass)

/-- The function the last of the lines stands in. -/
def ownerOf (lines : List Line) : Option Name :=
  lines.foldl (fun owner line => (functionLabel cls line).or owner) none

end Owner

variable {cls : CharClass} {Path : Type} [DecidableEq Path] {contents : Path → Text}
  {files : List Path}

/-- The function a line stands in. -/
def Site.owner (x : Site cls contents files) : Option Name :=
  ownerOf cls (x.above.map Prod.fst ++ [x.line])

/-- A `call f`. -/
def Site.Calls (x : Site cls contents files) (f : Name) : Prop := isCallOf cls f x.line = true

/-- A `jr ra` in the body of `f`. -/
def Site.ReturnsFrom (x : Site cls contents files) (f : Name) : Prop :=
  isJrRa cls x.line = true ∧ x.owner = some f

/-- Of every call of `f` and every return of it, one is checked if and only if
the other is. -/
def Balanced (cls : CharClass) (contents : Path → Text) (files : List Path) (f : Name) : Prop :=
  ∀ c r : Site cls contents files, c.Calls f → r.ReturnsFrom f →
    (c.checks.jump.isSome = true ↔ r.checks.ret.isSome = true)

/-- If `f` is called: its scan finds a call exactly if no return of it stands
where the current function is in `leaf_functions`, and otherwise every
return does. -/
def BalanceCondition (cls : CharClass) (contents : Path → Text) (files : List Path)
    (f : Name) : Prop :=
  (∃ c : Site cls contents files, c.Calls f) →
    ∀ r : Site cls contents files, r.ReturnsFrom f →
      (pushes (leafExit cls contents files) (f.takeWhile cls.word) = true ↔ r.listed = false)

/-- The label of `f` stands on a line of its own, as compilers write it. -/
def Ordinary (cls : CharClass) (contents : Path → Text) (files : List Path) (f : Name) : Prop :=
  ∀ pass ∈ (instrument cls contents files).2, ∀ entry ∈ pass.2,
    functionLabel cls entry.1 = some f → funcStart cls entry.1 = some f

/-! ## Calls and returns -/

theorem functionLabel_head {line : Line} {f : Name} (h : functionLabel cls line = some f) :
    f.head?.any cls.word = true := by
  rw [functionLabel] at h
  split at h
  · split at h
    · rename_i hhead
      cases h
      rw [Option.any_eq_true] at hhead ⊢
      obtain ⟨c, hc, hword⟩ := hhead
      exact ⟨c, hc, (Bool.and_eq_true_iff.mp hword).1⟩
    · cases h
  · cases h

theorem ownerOf_snoc (lines : List Line) (line : Line) :
    ownerOf cls (lines ++ [line]) = (functionLabel cls line).or (ownerOf cls lines) := by
  rw [ownerOf, List.foldl_append]
  rfl

theorem owner_label {lines : List Line} {f : Name} (h : ownerOf cls lines = some f) :
    ∃ line ∈ lines, functionLabel cls line = some f := by
  induction lines using List.reverseRecOn with
  | nil => cases h
  | append_singleton lines line ih =>
      rw [ownerOf_snoc] at h
      cases hlabel : functionLabel cls line with
      | none =>
          rw [hlabel, Option.none_or] at h
          obtain ⟨line', hin, hf⟩ := ih h
          exact ⟨line', List.mem_append_left _ hin, hf⟩
      | some g =>
          rw [hlabel, Option.some_or] at h
          exact ⟨line, by simp, hlabel.trans h⟩

/-- The loop's `curr_function` is the function the line stands in, where the
labels of that function are ordinary. -/
theorem functionFrom_owner {lines : List Line} {f : Name} (h : ownerOf cls lines = some f)
    (hf : ∀ line ∈ lines, functionLabel cls line = some f → funcStart cls line = some f) :
    functionFrom cls [] lines = f := by
  induction lines using List.reverseRecOn with
  | nil => cases h
  | append_singleton lines line ih =>
      rw [ownerOf_snoc] at h
      rw [functionFrom_append]
      cases hlabel : functionLabel cls line with
      | none =>
          rw [hlabel, Option.none_or] at h
          -- where the assembler sees no label the pattern sees none
          have hstart : funcStart cls line = none := by
            cases hstart : funcStart cls line with
            | none => rfl
            | some g =>
                rw [functionLabel_of_funcStart hstart] at hlabel
                cases hlabel
          rw [ih h fun l hl => hf l (List.mem_append_left _ hl)]
          simp [functionFrom, hstart]
      | some g =>
          rw [hlabel, Option.some_or] at h
          cases h
          simp [functionFrom, hf line (by simp) hlabel]

theorem Site.mem_pass (x : Site cls contents files) :
    ∃ pass ∈ (instrument cls contents files).2,
      ∀ line ∈ x.above.map Prod.fst ++ [x.line], ∃ entry ∈ pass.2, entry.1 = line := by
  refine ⟨(x.file, x.above ++ (x.line, x.checks) :: x.below), by rw [x.split]; simp, ?_⟩
  intro line hline
  rcases List.mem_append.mp hline with hline | hline
  · obtain ⟨entry, hentry, rfl⟩ := List.mem_map.mp hline
    exact ⟨entry, List.mem_append_left _ hentry, rfl⟩
  · rw [List.mem_singleton.mp hline]
    exact ⟨(x.line, x.checks), by simp, rfl⟩

theorem Site.function_of_owner {x : Site cls contents files} {f : Name}
    (hf : Ordinary cls contents files f) (h : x.owner = some f) : x.function = f := by
  obtain ⟨pass, hpass, hlines⟩ := x.mem_pass
  refine functionFrom_owner h fun line hline hlabel => ?_
  obtain ⟨entry, hentry, rfl⟩ := hlines line hline
  exact hf pass hpass entry hentry hlabel

/-- A call is checked if the scan for the name finds a call. -/
theorem Site.jump_isSome {x : Site cls contents files} {f : Name} (h : x.Calls f)
    (hf : f.head?.any cls.word = true) :
    x.checks.jump.isSome = true
      ↔ pushes (leafExit cls contents files) (f.takeWhile cls.word) = true := by
  rw [Option.isSome_iff_exists]
  constructor
  · rintro ⟨label, hlabel⟩
    obtain ⟨hfound, hpushes⟩ := x.jump_iff.mp hlabel
    rw [dirJump_of_call h hf] at hfound
    cases hfound
    exact hpushes
  · intro hpushes
    exact ⟨_, x.jump_iff.mpr ⟨dirJump_of_call h hf, hpushes⟩⟩

theorem Site.ret_isSome {x : Site cls contents files} (h : isJrRa cls x.line = true) :
    x.checks.ret.isSome = true ↔ x.listed = false := by
  rw [Option.isSome_iff_exists]
  constructor
  · rintro ⟨label, hlabel⟩
    exact (x.ret_iff.mp hlabel).2
  · intro hlisted
    exact ⟨_, x.ret_iff.mpr ⟨retJump_of_jrRa h, hlisted⟩⟩

/-! ## When the two sides agree -/

theorem balanced_iff (f : Name) :
    Balanced cls contents files f ↔ BalanceCondition cls contents files f := by
  constructor
  · rintro hbalanced ⟨c, hc⟩ r hr
    obtain ⟨label, _, hlabel⟩ := owner_label hr.2
    rw [← Site.jump_isSome hc (functionLabel_head hlabel), ← Site.ret_isSome hr.1]
    exact hbalanced c r hc hr
  · intro hcondition c r hc hr
    obtain ⟨label, _, hlabel⟩ := owner_label hr.2
    rw [Site.jump_isSome hc (functionLabel_head hlabel), Site.ret_isSome hr.1]
    exact hcondition ⟨c, hc⟩ r hr

/-- What a return of `f` needs: `f` is no standard function, and its scan
finds a call, or it ends at a following label and `f` has been called before
the return is processed. -/
def ReturnAgrees (r : Site cls contents files) (f : Name) : Prop :=
  f ∉ stdCFuncs
    ∧ (leafExit cls contents files f = some .call
      ∨ leafExit cls contents files f = some .nextFunction ∧ f ∈ calledNames cls r.seen)

theorem agrees_iff {r : Site cls contents files} {f : Name}
    (hf : Ordinary cls contents files f) (hr : r.ReturnsFrom f) :
    (pushes (leafExit cls contents files) (f.takeWhile cls.word) = true ↔ r.listed = false)
      ↔ ReturnAgrees r f := by
  have hword : f.takeWhile cls.word = f := by
    obtain ⟨line, hline, hlabel⟩ := owner_label hr.2
    obtain ⟨pass, hpass, hlines⟩ := r.mem_pass
    obtain ⟨entry, hentry, rfl⟩ := hlines line hline
    exact List.takeWhile_eq_self_iff.mpr (funcStart_word (hf pass hpass entry hentry hlabel))
  rw [hword, ReturnAgrees, Site.listed, Site.function_of_owner hf hr.2, pushes, notesLeaf]
  by_cases hstd : f ∈ stdCFuncs
  · simp [hstd]
  · cases hexit : leafExit cls contents files f with
    | none => simp [hstd]
    | some how => cases how <;> simp [hstd]

/-- **Balance of pushes and pops.** A function is balanced exactly under
`BalanceCondition`; for a function with ordinary labels this says that it is
never called, or every return of it agrees. -/
theorem push_pop_balanced_iff (cls : CharClass) (contents : Path → Text) (files : List Path)
    (f : Name) :
    (Balanced cls contents files f ↔ BalanceCondition cls contents files f)
      ∧ (Ordinary cls contents files f →
        (Balanced cls contents files f
          ↔ ((∃ c : Site cls contents files, c.Calls f) →
              ∀ r : Site cls contents files, r.ReturnsFrom f → ReturnAgrees r f))) := by
  refine ⟨balanced_iff f, fun hf => ?_⟩
  rw [balanced_iff, BalanceCondition]
  constructor
  · intro h hc r hr
    exact (agrees_iff hf hr).mp (h hc r hr)
  · intro h hc r hr
    exact (agrees_iff hf hr).mpr (h hc r hr)

/-! ## A leaf at the end of its file -/

/-- `main` calls `f`, the last function of the file. -/
def lastLeaf : Text := "main:\n\tcall\tf\n\tjr\tra\nf:\n\tjr\tra\n".toList

def lastLeafBody : List (Line × Checks) :=
  [("main:\n".toList, ⟨none, none⟩), ("\tcall\tf\n".toList, ⟨none, none⟩),
    ("\tjr\tra\n".toList, ⟨none, some "ra".toList⟩), ("f:\n".toList, ⟨none, none⟩),
    ("\tjr\tra\n".toList, ⟨none, some "ra".toList⟩)]

theorem lastLeaf_pass :
    (instrument CharClass.ascii (fun _ : Unit => lastLeaf) [()]).2
      = [] ++ ((), lastLeafBody) :: [] := by
  decide

/-- The call of `f` is not checked, its return is. -/
theorem lastLeaf_unbalanced :
    ¬ Balanced CharClass.ascii (fun _ : Unit => lastLeaf) [()] "f".toList := by
  intro h
  have hsites := h (Site.ofPass lastLeaf_pass ⟨1, by decide⟩)
    (Site.ofPass lastLeaf_pass ⟨4, by decide⟩) rfl ⟨rfl, rfl⟩
  revert hsites
  decide

end RiscvTe
