import RiscvTe.Balance

/-!
# Coverage of returns

A function that calls may have spilled its return address, so each of its
returns should be checked. A return escapes in two ways: `RET_PATTERN` does
not see it, or the loop has the function's name in `leaf_functions`, because
the scan for that name met the next label before a `call`: in a body that
only calls through registers, or in another definition of the name.
-/

namespace RiscvTe

open Scan

variable {cls : CharClass} {Path : Type} [DecidableEq Path] {contents : Path → Text}
  {files : List Path}

/-- The definition of a function: the line of its label. -/
structure Definition (cls : CharClass) (contents : Path → Text) (files : List Path)
    extends Site cls contents files where
  name : Name
  labelled : functionLabel cls line = some name

/-- The line belongs to the definition: no other label stands in between. -/
def Site.Within (x : Site cls contents files) (d : Definition cls contents files) : Prop :=
  x.earlier = d.earlier
    ∧ ∃ mid, x.above ++ [(x.line, x.checks)] = d.above ++ (d.line, d.checks) :: mid
      ∧ ∀ entry ∈ mid, functionLabel cls entry.1 = none

/-- The body has a call in it. -/
def Definition.HasCall (d : Definition cls contents files) : Prop :=
  ∃ c : Site cls contents files, c.Within d ∧ isCall cls c.line = true

/-- If the body has a call, every return of it comes right behind a check of
`ra`. -/
def Definition.Covered (d : Definition cls contents files) : Prop :=
  d.HasCall → ∀ r : Site cls contents files, r.Within d → isReturn cls r.line = true →
    r.checks.ret = some "ra".toList

/-- If the body has a call, `RET_PATTERN` finds `jr ra` in the line of every
return, and the current function is not in `leaf_functions` there. -/
def Definition.CoverageCondition (d : Definition cls contents files) : Prop :=
  d.HasCall → ∀ r : Site cls contents files, r.Within d → isReturn cls r.line = true →
    retJump cls r.line = some "ra".toList ∧ r.listed = false

theorem Site.Within.owner {x : Site cls contents files} {d : Definition cls contents files}
    (h : x.Within d) : x.owner = some d.name := by
  obtain ⟨_, mid, hlines, hmid⟩ := h
  have howner : ∀ mid : List (Line × Checks), (∀ entry ∈ mid, functionLabel cls entry.1 = none) →
      ownerOf cls ((d.above ++ (d.line, d.checks) :: mid).map Prod.fst) = some d.name := by
    intro mid
    induction mid using List.reverseRecOn with
    | nil =>
        intro _
        rw [List.map_append, List.map_cons, List.map_nil, ownerOf_snoc, d.labelled]
        rfl
    | append_singleton mid entry ih =>
        intro hmid
        rw [← List.cons_append, ← List.append_assoc, List.map_append, List.map_cons, List.map_nil,
          ownerOf_snoc, hmid entry (by simp), Option.none_or]
        exact ih fun e he => hmid e (by simp [he])
  have hsame : x.above.map Prod.fst ++ [x.line]
      = (d.above ++ (d.line, d.checks) :: mid).map Prod.fst := by
    rw [← hlines, List.map_append]
    rfl
  rw [Site.owner, hsame]
  exact howner mid hmid

/-- For ordinary labels the current function is the one defined. -/
theorem listed_ordinary {r : Site cls contents files} {d : Definition cls contents files}
    (hd : Ordinary cls contents files d.name) (hr : r.Within d) :
    r.listed = false
      ↔ ¬ (d.name ∉ stdCFuncs ∧ leafExit cls contents files d.name = some .nextFunction
          ∧ d.name ∈ calledNames cls r.seen) := by
  rw [Site.listed, Site.function_of_owner hd hr.owner, notesLeaf, ← Bool.not_eq_true]
  simp [and_assoc]

/-- **Return coverage.** A definition is covered exactly under
`CoverageCondition`; the part about `leaf_functions` says, for ordinary
labels, that the name is a standard function's, or its scan does not end at
a following label, or no call of it has been processed yet. -/
theorem return_coverage_iff (d : Definition cls contents files) :
    (d.Covered ↔ d.CoverageCondition)
      ∧ (Ordinary cls contents files d.name → ∀ r : Site cls contents files, r.Within d →
        (r.listed = false
          ↔ ¬ (d.name ∉ stdCFuncs ∧ leafExit cls contents files d.name = some .nextFunction
              ∧ d.name ∈ calledNames cls r.seen))) := by
  refine ⟨?_, fun hd r hr => listed_ordinary hd hr⟩
  constructor
  · intro hcovered hcall r hr hreturn
    exact r.ret_iff.mp (hcovered hcall r hr hreturn)
  · intro hcondition hcall r hr hreturn
    exact r.ret_iff.mpr (hcondition hcall r hr hreturn)

/-! ## Returns that escape -/

/-- A call in the body and a return in it without a check. -/
theorem not_covered {d : Definition cls contents files} (c r : Site cls contents files)
    (hc : c.Within d) (hcall : isCall cls c.line = true) (hr : r.Within d)
    (hreturn : isReturn cls r.line = true) (hret : r.checks.ret = none) : ¬ d.Covered := by
  intro h
  have hchecked := h ⟨c, hc, hcall⟩ r hr hreturn
  rw [hret] at hchecked
  cases hchecked

/-- The return is spelled `ret`. -/
def retSpelled : Text := "f:\n\tcall\tg\n\tret\n".toList

def retSpelledBody : List (Line × Checks) :=
  [("f:\n".toList, ⟨none, none⟩), ("\tcall\tg\n".toList, ⟨none, none⟩),
    ("\tret\n".toList, ⟨none, none⟩)]

theorem retSpelled_pass :
    (instrument CharClass.ascii (fun _ : Unit => retSpelled) [()]).2
      = [] ++ ((), retSpelledBody) :: [] := by
  decide

/-- `f` calls through a register only, and is called before its return. -/
def indirectOnly : Text :=
  "main:\n\tcall\tf\n\tjr\tra\nf:\n\tjalr\ta5\n\tjr\tra\ng:\n\tjr\tra\n".toList

def indirectOnlyBody : List (Line × Checks) :=
  [("main:\n".toList, ⟨none, none⟩), ("\tcall\tf\n".toList, ⟨none, none⟩),
    ("\tjr\tra\n".toList, ⟨none, some "ra".toList⟩), ("f:\n".toList, ⟨none, none⟩),
    ("\tjalr\ta5\n".toList, ⟨none, none⟩), ("\tjr\tra\n".toList, ⟨none, none⟩),
    ("g:\n".toList, ⟨none, none⟩), ("\tjr\tra\n".toList, ⟨none, some "ra".toList⟩)]

theorem indirectOnly_pass :
    (instrument CharClass.ascii (fun _ : Unit => indirectOnly) [()]).2
      = [] ++ ((), indirectOnlyBody) :: [] := by
  decide

/-- Two functions `f`, the first a leaf. -/
def clash : Bool → Text
  | false => "main:\n\tcall\tf\n\tjr\tra\nf:\n\tjr\tra\ng:\n\tjr\tra\n".toList
  | true => "f:\n\tcall\tg\n\tjr\tra\n".toList

def clashBody : Bool → List (Line × Checks)
  | false =>
      [("main:\n".toList, ⟨none, none⟩), ("\tcall\tf\n".toList, ⟨none, none⟩),
        ("\tjr\tra\n".toList, ⟨none, some "ra".toList⟩), ("f:\n".toList, ⟨none, none⟩),
        ("\tjr\tra\n".toList, ⟨none, none⟩), ("g:\n".toList, ⟨none, none⟩),
        ("\tjr\tra\n".toList, ⟨none, some "ra".toList⟩)]
  | true =>
      [("f:\n".toList, ⟨none, none⟩), ("\tcall\tg\n".toList, ⟨none, none⟩),
        ("\tjr\tra\n".toList, ⟨none, none⟩)]

theorem clash_pass :
    (instrument CharClass.ascii clash [false, true]).2
      = [(false, clashBody false)] ++ (true, clashBody true) :: [] := by
  decide

/-- A return spelled `ret`, one of a function that calls only through a
register, and one of a function whose name another file uses for a leaf. -/
theorem returns_escape :
    (∃ d : Definition CharClass.ascii (fun _ : Unit => retSpelled) [()], ¬ d.Covered)
      ∧ (∃ d : Definition CharClass.ascii (fun _ : Unit => indirectOnly) [()], ¬ d.Covered)
      ∧ (∃ d : Definition CharClass.ascii clash [false, true], ¬ d.Covered) := by
  refine ⟨⟨⟨Site.ofPass retSpelled_pass ⟨0, by decide⟩, "f".toList, by decide⟩, ?_⟩,
    ⟨⟨Site.ofPass indirectOnly_pass ⟨3, by decide⟩, "f".toList, by decide⟩, ?_⟩,
    ⟨⟨Site.ofPass clash_pass ⟨0, by decide⟩, "f".toList, by decide⟩, ?_⟩⟩
  · exact not_covered
      (Site.ofPass retSpelled_pass ⟨1, by decide⟩) (Site.ofPass retSpelled_pass ⟨2, by decide⟩)
      ⟨rfl, [retSpelledBody[1]], rfl, by decide⟩ (by decide)
      ⟨rfl, retSpelledBody.tail, rfl, by decide⟩ (by decide) rfl
  · exact not_covered
      (Site.ofPass indirectOnly_pass ⟨4, by decide⟩) (Site.ofPass indirectOnly_pass ⟨5, by decide⟩)
      ⟨rfl, [indirectOnlyBody[4]], rfl, by decide⟩ (by decide)
      ⟨rfl, [indirectOnlyBody[4], indirectOnlyBody[5]], rfl, by decide⟩ (by decide) rfl
  · exact not_covered
      (Site.ofPass clash_pass ⟨1, by decide⟩) (Site.ofPass clash_pass ⟨2, by decide⟩)
      ⟨rfl, [(clashBody true)[1]], rfl, by decide⟩ (by decide)
      ⟨rfl, (clashBody true).tail, rfl, by decide⟩ (by decide) rfl

end RiscvTe
