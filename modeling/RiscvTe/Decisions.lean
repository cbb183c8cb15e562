import RiscvTe.LeafScan

/-!
# What the instrumenter decides

Since rewriting changes no leaf query, the loops decide as if `is_leaf` were
a fixed function of the files given (`planLine`). What is left of the state
has a closed form: `leaf_functions` is the list of the called names that the
scan leaves at a following label, in the order of the calls. So the checks
at a line depend on the files, on the function the line stands in, and on
the calls processed up to it (`Site.checks_eq`).
-/

namespace RiscvTe

open Scan Transducer

/-! ## One line -/

section Plan

variable (cls : CharClass) (exit : Name → Option LeafExit)

/-- Calls of the function get a jump check. -/
def pushes (label : Name) : Bool := decide (label ∉ stdCFuncs) && exit label == some .call

/-- A call of the function puts it into `leaf_functions`. -/
def notesLeaf (label : Name) : Bool :=
  decide (label ∉ stdCFuncs) && exit label == some .nextFunction

/-- `instrumentLine`, for a fixed outcome of the scans. -/
def planLine (st : LineState) (line : Line) : LineState × Checks :=
  let currFunction := (funcStart cls line).getD st.currFunction
  let leafFunctions := st.leafFunctions ++ (dirJump cls line).toList.filter (notesLeaf exit)
  ({ currFunction := currFunction, leafFunctions := leafFunctions },
    { jump := (dirJump cls line).filter (pushes exit)
      ret := if currFunction ∈ leafFunctions then none else retJump cls line })

/-- The function the lines end in: the last label that starts one. -/
def functionFrom (start : Name) (lines : List Line) : Name :=
  lines.foldl (fun name line => (funcStart cls line).getD name) start

/-- The labels of the calls, in order. -/
def calledNames (lines : List Line) : List Name := lines.filterMap (dirJump cls)

end Plan

variable {cls : CharClass} {Path : Type}

theorem calledNames_append (xs ys : List Line) :
    calledNames cls (xs ++ ys) = calledNames cls xs ++ calledNames cls ys :=
  List.filterMap_append

theorem calledNames_singleton (line : Line) :
    calledNames cls [line] = (dirJump cls line).toList := by
  rw [calledNames, List.filterMap_cons, List.filterMap_nil]
  cases dirJump cls line <;> rfl

theorem functionFrom_append (start : Name) (xs ys : List Line) :
    functionFrom cls start (xs ++ ys) = functionFrom cls (functionFrom cls start xs) ys :=
  List.foldl_append

theorem isLeaf_eq (contents : Path → Text) (files : List Path) {label : Name}
    (hstd : label ∉ stdCFuncs) (leafFunctions : List Name) :
    isLeaf cls contents files label leafFunctions
      = (!pushes (leafExit cls contents files) label,
          leafFunctions ++ [label].filter (notesLeaf (leafExit cls contents files))) := by
  cases hexit : leafExit cls contents files label with
  | none => simp [isLeaf, pushes, notesLeaf, hexit]
  | some how => cases how <;> simp [isLeaf, pushes, notesLeaf, hexit, hstd]

/-- The loop body refines the plan. -/
theorem instrumentLine_eq (contents : Path → Text) (files : List Path) (st : LineState)
    (line : Line) :
    instrumentLine cls (isLeaf cls contents files) st line
      = planLine cls (leafExit cls contents files) st line := by
  rw [instrumentLine, planLine]
  cases hjump : dirJump cls line with
  | none =>
      simp only [Option.toList_none, List.filter_nil, List.append_nil, Option.filter_none]
      cases retJump cls line <;> simp
  | some label =>
      by_cases hstd : label ∈ stdCFuncs
      · have hpushes : pushes (leafExit cls contents files) label = false := by
          simp [pushes, hstd]
        have hnotes : notesLeaf (leafExit cls contents files) label = false := by
          simp [notesLeaf, hstd]
        simp only [if_pos hstd, Option.toList_some, List.filter_cons, hnotes, List.filter_nil,
          List.append_nil, Option.filter_some, hpushes, Bool.false_eq_true, if_false]
        cases retJump cls line <;> simp
      · simp only [if_neg hstd, isLeaf_eq contents files hstd, Option.toList_some,
          Option.filter_some]
        cases pushes (leafExit cls contents files) label <;> cases retJump cls line <;> simp

/-- The state behind some lines. -/
theorem plan_state (exit : Name → Option LeafExit) (st : LineState) (lines : List Line) :
    (run (planLine cls exit) st lines).1
      = { currFunction := functionFrom cls st.currFunction lines
          leafFunctions :=
            st.leafFunctions ++ (calledNames cls lines).filter (notesLeaf exit) } := by
  induction lines generalizing st with
  | nil => simp [functionFrom, calledNames]
  | cons line lines ih =>
      rw [run_cons]
      dsimp only
      rw [ih]
      cases hjump : dirJump cls line with
      | none => simp [planLine, functionFrom, calledNames, hjump]
      | some label =>
          by_cases hnote : notesLeaf exit label = true <;>
            simp [planLine, functionFrom, calledNames, hjump, hnote]

/-- **The checks the plan puts in front of a line**, from the lines above. -/
theorem plan_checks (exit : Name → Option LeafExit) (leafFunctions : List Name)
    (above : List Line) (line : Line) :
    (planLine cls exit
        (run (planLine cls exit) { currFunction := [], leafFunctions := leafFunctions } above).1
        line).2
      = { jump := (dirJump cls line).filter (pushes exit)
          ret :=
            if functionFrom cls [] (above ++ [line]) ∈ leafFunctions
                ++ (calledNames cls (above ++ [line])).filter (notesLeaf exit) then none
            else retJump cls line } := by
  rw [plan_state, planLine, functionFrom_append, calledNames_append, calledNames_singleton,
    List.filter_append, ← List.append_assoc]
  rfl

/-! ## All files -/

section Files

variable [DecidableEq Path]

/-- The lines of the passes, in the order of processing. -/
def linesOf (passes : List (Pass Path)) : List Line :=
  passes.flatMap fun pass => pass.2.map Prod.fst

theorem instrumentFile_plan (files : List Path) (s : Store Path) (file : Path) :
    (instrumentFile cls files s file).2
        = (run (planLine cls (leafExit cls s.contents files))
            { currFunction := [], leafFunctions := s.leafFunctions }
            (readlines (s.contents file))).2
      ∧ (instrumentFile cls files s file).1.leafFunctions
        = s.leafFunctions ++ (calledNames cls (readlines (s.contents file))).filter
            (notesLeaf (leafExit cls s.contents files)) := by
  have hstep : instrumentLine cls (isLeaf cls s.contents files)
      = planLine cls (leafExit cls s.contents files) := by
    funext st line
    exact instrumentLine_eq s.contents files st line
  rw [instrumentFile_body, instrumentFile_leafFunctions, instrumentLines, hstep, plan_state]
  exact ⟨rfl, rfl⟩

/-- The store behind some files: scans find what they found before, and the
leaf functions are those of the calls passed. -/
theorem store_after (cls : CharClass) (files : List Path) (s : Store Path) (rest : List Path) :
    leafExit cls (run (instrumentFile cls files) s rest).1.contents files
        = leafExit cls s.contents files
      ∧ (run (instrumentFile cls files) s rest).1.leafFunctions
        = s.leafFunctions
          ++ (calledNames cls (linesOf (run (instrumentFile cls files) s rest).2)).filter
            (notesLeaf (leafExit cls s.contents files)) := by
  induction rest generalizing s with
  | nil => exact ⟨rfl, by simp [linesOf, calledNames]⟩
  | cons file rest ih =>
      obtain ⟨hexit, hleaf⟩ := ih (instrumentFile cls files s file).1
      -- `file` has been rewritten, which the later scans do not notice
      have hsame := (instrumentFile_scansAlike cls files s file).leafExit files
      rw [hsame] at hexit hleaf
      refine ⟨hexit, ?_⟩
      rw [run_cons]
      dsimp only
      rw [hleaf, (instrumentFile_plan files s file).2, linesOf, linesOf, List.flatMap_cons,
        instrumentFile_read, calledNames_append, List.filter_append, List.append_assoc]

/-- The checks at a position are those of the plan, which starts from the
leaf functions of the calls in earlier passes. -/
theorem checks_at {contents : Path → Text} {files : List Path} {earlier later : List (Pass Path)}
    {file : Path} {above below : List (Line × Checks)} {line : Line} {checks : Checks}
    (hsplit : (instrument cls contents files).2
      = earlier ++ (file, above ++ (line, checks) :: below) :: later) :
    checks
      = (planLine cls (leafExit cls contents files)
          (run (planLine cls (leafExit cls contents files))
            { currFunction := []
              leafFunctions := (calledNames cls (linesOf earlier)).filter
                (notesLeaf (leafExit cls contents files)) }
            (above.map Prod.fst)).1 line).2 := by
  obtain ⟨hearlier, _⟩ := run_split hsplit
  have hbody := run_at hsplit
  obtain ⟨hexit, hleaf⟩ := store_after cls files
    { contents := contents, leafFunctions := [] } (earlier.map Prod.fst)
  rw [(instrumentFile_plan _ _ _).1, hexit, hleaf, hearlier] at hbody
  exact run_at hbody.symm

/-- A line of some pass of `instrument`, with what was processed before it
and the checks it got. -/
structure Site (cls : CharClass) (contents : Path → Text) (files : List Path) where
  earlier : List (Pass Path)
  file : Path
  above : List (Line × Checks)
  line : Line
  checks : Checks
  below : List (Line × Checks)
  later : List (Pass Path)
  split : (instrument cls contents files).2
    = earlier ++ (file, above ++ (line, checks) :: below) :: later

namespace Site

variable {contents : Path → Text} {files : List Path}

/-- Line `i` of a pass. -/
def ofPass {earlier later : List (Pass Path)} {file : Path} {body : List (Line × Checks)}
    (h : (instrument cls contents files).2 = earlier ++ (file, body) :: later)
    (i : Fin body.length) : Site cls contents files :=
  { earlier := earlier, file := file, above := body.take i, line := body[i].1
    checks := body[i].2, below := body.drop (i + 1), later := later
    split := by
      have hbody : body.take i ++ body[i] :: body.drop (i + 1) = body := by
        rw [Fin.getElem_fin, ← List.drop_eq_getElem_cons, List.take_append_drop]
      rw [h]
      exact congrArg (fun b => earlier ++ (file, b) :: later) hbody.symm }

/-- The lines processed, this one included. -/
def seen (x : Site cls contents files) : List Line :=
  linesOf x.earlier ++ (x.above.map Prod.fst ++ [x.line])

/-- `curr_function` at the line. -/
def function (x : Site cls contents files) : Name :=
  functionFrom cls [] (x.above.map Prod.fst ++ [x.line])

/-- The function is in `leaf_functions` at the line: its scan ends at a
following label, and it has been called in a line processed so far. -/
def listed (x : Site cls contents files) : Bool :=
  notesLeaf (leafExit cls contents files) x.function
    && decide (x.function ∈ calledNames cls x.seen)

theorem listed_iff (x : Site cls contents files) :
    x.listed = true
      ↔ x.function ∈ (calledNames cls (linesOf x.earlier)).filter
            (notesLeaf (leafExit cls contents files))
          ++ (calledNames cls (x.above.map Prod.fst ++ [x.line])).filter
            (notesLeaf (leafExit cls contents files)) := by
  rw [← List.filter_append, ← calledNames_append, List.mem_filter, listed, seen,
    Bool.and_eq_true, decide_eq_true_eq, and_comm]

/-- **The checks of a line**, from the files alone. -/
theorem checks_eq (x : Site cls contents files) :
    x.checks
      = { jump := (dirJump cls x.line).filter (pushes (leafExit cls contents files))
          ret := if x.listed then none else retJump cls x.line } := by
  rw [checks_at x.split, plan_checks]
  simp only [x.listed_iff]
  rfl

theorem jump_iff (x : Site cls contents files) {label : Name} :
    x.checks.jump = some label
      ↔ dirJump cls x.line = some label ∧ pushes (leafExit cls contents files) label = true := by
  rw [checks_eq]
  exact Option.filter_eq_some_iff

theorem ret_iff (x : Site cls contents files) {label : Name} :
    x.checks.ret = some label ↔ retJump cls x.line = some label ∧ x.listed = false := by
  rw [checks_eq]
  cases x.listed <;> simp

end Site

end Files

end RiscvTe
