import RiscvTe.Decisions

/-!
# The order of the files

`secure_build` lists the files in whatever order the directory gives them.
The leaf verdicts do not depend on it, as long as no function is defined
twice; the contents of `leaf_functions` at a return do, when the function
returned from is a leaf that other files call. So the output is the same
for all orders exactly if every such return stands behind a call in its own
file (`OrderCondition`).
-/

namespace RiscvTe

open Scan Transducer

/-! ## At most one element decides -/

theorem findSome?_perm {α β : Type} {f : α → Option β} {xs ys : List α} (hperm : xs.Perm ys)
    (hone : ∀ x ∈ xs, ∀ y ∈ xs, (f x).isSome = true → (f y).isSome = true → x = y) :
    xs.findSome? f = ys.findSome? f := by
  have hiff : ∀ zs : List α, zs.Perm xs → ∀ v,
      zs.findSome? f = some v ↔ ∃ x ∈ xs, f x = some v := by
    intro zs hzs v
    constructor
    · intro h
      obtain ⟨x, hx, hv⟩ := List.exists_of_findSome?_eq_some h
      exact ⟨x, hzs.subset hx, hv⟩
    · rintro ⟨x, hx, hv⟩
      have hsome : (zs.findSome? f).isSome = true :=
        List.findSome?_isSome_iff.mpr ⟨x, hzs.symm.subset hx, by rw [hv]; rfl⟩
      obtain ⟨w, hw⟩ := Option.isSome_iff_exists.mp hsome
      obtain ⟨y, hy, hyw⟩ := List.exists_of_findSome?_eq_some hw
      have hxy : x = y := hone x hx y (hzs.subset hy) (by rw [hv]; rfl) (by rw [hyw]; rfl)
      rw [hw, ← hyw, ← hxy, hv]
  ext v
  rw [hiff xs (List.Perm.refl xs) v, hiff ys hperm.symm v]

variable {cls : CharClass} {Path : Type}

/-- A scan ends early only in a file that defines the function. -/
theorem scanLines_target {name : Name} {lines : List Line} {how : LeafExit}
    (h : scanLines cls name false lines = some how) :
    ∃ line ∈ lines, isTarget cls name line = true := by
  induction lines with
  | nil => cases h
  | cons line lines ih =>
      cases htarget : isTarget cls name line with
      | true => exact ⟨line, by simp, htarget⟩
      | false =>
          rw [scanLines, htarget] at h
          obtain ⟨line', hin, h'⟩ := ih h
          exact ⟨line', List.mem_cons_of_mem _ hin, h'⟩

/-- No function that is called is defined in two of the files. -/
def DistinctNames (cls : CharClass) (contents : Path → Text) (files : List Path) : Prop :=
  ∀ name, (∃ file ∈ files, name ∈ calledNames cls (readlines (contents file))) →
    ∀ p ∈ files, ∀ q ∈ files,
      (∃ line ∈ readlines (contents p), isTarget cls name line = true) →
      (∃ line ∈ readlines (contents q), isTarget cls name line = true) → p = q

/-- Then the leaf verdict about it is that of its one file. -/
theorem leafExit_perm {contents : Path → Text} {files order : List Path}
    (hdistinct : DistinctNames cls contents files) (hperm : order.Perm files) {name : Name}
    (hcalled : ∃ file ∈ files, name ∈ calledNames cls (readlines (contents file))) :
    leafExit cls contents order name = leafExit cls contents files name := by
  rw [leafExit, leafExit]
  refine (findSome?_perm hperm.symm ?_).symm
  intro p hp q hq hsomep hsomeq
  obtain ⟨_, hp'⟩ := Option.isSome_iff_exists.mp hsomep
  obtain ⟨_, hq'⟩ := Option.isSome_iff_exists.mp hsomeq
  exact hdistinct name hcalled p hp q hq (scanLines_target hp') (scanLines_target hq')

/-! ## The text written for a file -/

/-- The text written for the lines of a body. -/
def render (body : List (Line × Checks)) : Text := (body.flatMap newLines).flatten

/-- The plan for a file, from a list of leaf functions. -/
def planFile (cls : CharClass) (exit : Name → Option LeafExit) (leafFunctions : List Name)
    (lines : List Line) : List (Line × Checks) :=
  (run (planLine cls exit) { currFunction := [], leafFunctions := leafFunctions } lines).2

/-- The plan asks about called names only. -/
theorem plan_congr {exit exit' : Name → Option LeafExit} {lines : List Line}
    (h : ∀ name ∈ calledNames cls lines, exit name = exit' name) (st : LineState) :
    run (planLine cls exit) st lines = run (planLine cls exit') st lines := by
  induction lines generalizing st with
  | nil => rfl
  | cons line lines ih =>
      have hline : ∀ st, planLine cls exit st line = planLine cls exit' st line := by
        intro st
        cases hjump : dirJump cls line with
        | none => simp [planLine, hjump]
        | some label =>
            have hlabel : exit label = exit' label :=
              h label (List.mem_filterMap.mpr ⟨line, by simp, hjump⟩)
            have hpushes : pushes exit label = pushes exit' label := by
              rw [pushes, pushes, hlabel]
            have hnotes : notesLeaf exit label = notesLeaf exit' label := by
              rw [notesLeaf, notesLeaf, hlabel]
            simp only [planLine, hjump, Option.toList_some, List.filter_cons, List.filter_nil,
              Option.filter_some, hpushes, hnotes]
      have hrest : ∀ name ∈ calledNames cls lines, exit name = exit' name := by
        intro name hname
        apply h
        rw [← List.singleton_append, calledNames_append]
        exact List.mem_append_right _ hname
      rw [run_cons, run_cons, hline, ih hrest]

/-! ## What other files decide -/

/-- A line with a `jr` in a function whose scan ends at a following label:
the function is called up to that line in the same file, or by no other. -/
def OrderCondition (cls : CharClass) (contents : Path → Text) (files : List Path) : Prop :=
  ∀ file ∈ files, ∀ above line below, readlines (contents file) = above ++ line :: below →
    (retJump cls line).isSome = true →
    notesLeaf (leafExit cls contents files) (functionFrom cls [] (above ++ [line])) = true →
    functionFrom cls [] (above ++ [line]) ∈ calledNames cls (above ++ [line])
      ∨ ∀ other ∈ files, other ≠ file →
          functionFrom cls [] (above ++ [line]) ∉ calledNames cls (readlines (contents other))

/-- Under the condition, what other files leave in `leaf_functions` decides
no return. -/
theorem planFile_before {contents : Path → Text} {files before before' : List Path} {file : Path}
    (hcondition : OrderCondition cls contents files) (hfile : file ∈ files)
    (hbefore : ∀ f ∈ before, f ∈ files ∧ f ≠ file)
    (hbefore' : ∀ f ∈ before', f ∈ files ∧ f ≠ file) :
    planFile cls (leafExit cls contents files)
        ((calledNames cls (before.flatMap fun f => readlines (contents f))).filter
          (notesLeaf (leafExit cls contents files))) (readlines (contents file))
      = planFile cls (leafExit cls contents files)
        ((calledNames cls (before'.flatMap fun f => readlines (contents f))).filter
          (notesLeaf (leafExit cls contents files))) (readlines (contents file)) := by
  apply run_outputs_ext
  intro above line below hlines
  rw [plan_checks, plan_checks]
  cases hret : retJump cls line with
  | none => simp only [ite_self]
  | some label =>
      have hiff : ∀ bs : List Path, (∀ f ∈ bs, f ∈ files ∧ f ≠ file) →
          (functionFrom cls [] (above ++ [line])
              ∈ (calledNames cls (bs.flatMap fun f => readlines (contents f))).filter
                  (notesLeaf (leafExit cls contents files))
                ++ (calledNames cls (above ++ [line])).filter
                  (notesLeaf (leafExit cls contents files))
            ↔ functionFrom cls [] (above ++ [line])
              ∈ (calledNames cls (above ++ [line])).filter
                  (notesLeaf (leafExit cls contents files))) := by
        intro bs hbs
        rw [List.mem_append]
        refine ⟨?_, Or.inr⟩
        rintro (hin | hin)
        · -- listed from an earlier file: then it is called up to here as well
          obtain ⟨hcalled, hnotes⟩ := List.mem_filter.mp hin
          rcases hcondition file hfile above line below hlines (by rw [hret]; rfl) hnotes with
            hown | hother
          · exact List.mem_filter.mpr ⟨hown, hnotes⟩
          · obtain ⟨l, hl, hjump⟩ := List.mem_filterMap.mp hcalled
            obtain ⟨f, hf, hin⟩ := List.mem_flatMap.mp hl
            exact absurd (List.mem_filterMap.mpr ⟨l, hin, hjump⟩)
              (hother f (hbs f hf).1 (hbs f hf).2)
        · exact hin
      simp only [hiff before hbefore, hiff before' hbefore']

/-! ## All orders -/

section Contents

variable [DecidableEq Path]

/-- Distinct files are read as they were given. -/
theorem linesOf_run (files : List Path) {rest : List Path} (h : rest.Nodup) (s : Store Path) :
    linesOf (run (instrumentFile cls files) s rest).2
      = rest.flatMap fun file => readlines (s.contents file) := by
  induction rest generalizing s with
  | nil => rfl
  | cons first rest ih =>
      obtain ⟨hfirst, hrest⟩ := List.nodup_cons.mp h
      rw [run_cons, linesOf, List.flatMap_cons, List.flatMap_cons, instrumentFile_read, ← linesOf,
        ih hrest]
      congr 1
      apply List.flatMap_congr
      intro file hfile
      rw [instrumentFile_contents, Function.update_of_ne]
      rintro rfl
      exact hfirst hfile

/-- **The output of a file**: its own lines, under the plan that starts from
the leaf functions of the calls in the files before it. -/
theorem instrument_contents {contents : Path → Text} {before after : List Path} {file : Path}
    (hnodup : (before ++ file :: after).Nodup) :
    (instrument cls contents (before ++ file :: after)).1.contents file
      = render (planFile cls (leafExit cls contents (before ++ file :: after))
          ((calledNames cls (before.flatMap fun f => readlines (contents f))).filter
            (notesLeaf (leafExit cls contents (before ++ file :: after))))
          (readlines (contents file))) := by
  obtain ⟨hbefore, hrest, hapart⟩ := List.nodup_append.mp hnodup
  obtain ⟨hafter, _⟩ := List.nodup_cons.mp hrest
  have hfile : file ∉ before := fun hin => hapart file hin file (by simp) rfl
  obtain ⟨hexit, hleaf⟩ := store_after cls (before ++ file :: after)
    { contents := contents, leafFunctions := [] } before
  rw [instrument, run_append, run_cons]
  dsimp only
  rw [contents_untouched _ hafter, instrumentFile_contents, Function.update_self,
    (instrumentFile_plan _ _ _).1, hexit, hleaf, contents_untouched _ hfile,
    linesOf_run _ hbefore]
  rfl

/-- The output of a file under some order, with the leaf verdicts of another. -/
theorem instrument_contents_order {contents : Path → Text} {files before after : List Path}
    {file : Path} (hdistinct : DistinctNames cls contents files) (hnodup : files.Nodup)
    (hperm : (before ++ file :: after).Perm files) :
    (instrument cls contents (before ++ file :: after)).1.contents file
      = render (planFile cls (leafExit cls contents files)
          ((calledNames cls (before.flatMap fun f => readlines (contents f))).filter
            (notesLeaf (leafExit cls contents files)))
          (readlines (contents file))) := by
  have hfile : file ∈ files := hperm.subset (by simp)
  have hexit : ∀ name, (∃ f ∈ files, name ∈ calledNames cls (readlines (contents f))) →
      leafExit cls contents (before ++ file :: after) name = leafExit cls contents files name :=
    fun name hname => leafExit_perm hdistinct hperm hname
  have hleaf : (calledNames cls (before.flatMap fun f => readlines (contents f))).filter
        (notesLeaf (leafExit cls contents (before ++ file :: after)))
      = (calledNames cls (before.flatMap fun f => readlines (contents f))).filter
        (notesLeaf (leafExit cls contents files)) := by
    apply List.filter_congr
    intro name hname
    obtain ⟨line, hline, hjump⟩ := List.mem_filterMap.mp hname
    obtain ⟨f, hf, hin⟩ := List.mem_flatMap.mp hline
    rw [notesLeaf, notesLeaf, hexit name ⟨f, hperm.subset (List.mem_append_left _ hf),
      List.mem_filterMap.mpr ⟨line, hin, hjump⟩⟩]
  rw [instrument_contents (hperm.nodup_iff.mpr hnodup), hleaf, planFile, planFile,
    plan_congr fun name hname => hexit name ⟨file, hfile, hname⟩]

/-! ## Where the order shows -/

/-- Every order of the files leaves every file with the same contents. -/
def OrderIndependent (cls : CharClass) (contents : Path → Text) (files : List Path) : Prop :=
  ∀ order order', order.Perm files → order'.Perm files → ∀ file,
    (instrument cls contents order).1.contents file
      = (instrument cls contents order').1.contents file

theorem order_independent {contents : Path → Text} {files : List Path}
    (hdistinct : DistinctNames cls contents files) (hnodup : files.Nodup)
    (hcondition : OrderCondition cls contents files) : OrderIndependent cls contents files := by
  intro order order' hperm hperm' file
  by_cases hfile : file ∈ files
  · obtain ⟨before, after, rfl⟩ := List.append_of_mem (hperm.symm.subset hfile)
    obtain ⟨before', after', rfl⟩ := List.append_of_mem (hperm'.symm.subset hfile)
    have hapart : ∀ bs as : List Path, (bs ++ file :: as).Perm files →
        ∀ f ∈ bs, f ∈ files ∧ f ≠ file := by
      intro bs as hp f hf
      refine ⟨hp.subset (List.mem_append_left _ hf), ?_⟩
      have hnd : (bs ++ file :: as).Nodup := hp.nodup_iff.mpr hnodup
      exact (List.nodup_append.mp hnd).2.2 f hf file (by simp)
    rw [instrument_contents_order hdistinct hnodup hperm,
      instrument_contents_order hdistinct hnodup hperm',
      planFile_before hcondition hfile (hapart before after hperm) (hapart before' after' hperm')]
  · have hout : ∀ o : List Path, o.Perm files → file ∉ o := fun o ho hin => hfile (ho.subset hin)
    rw [instrument, instrument, contents_untouched _ (hout order hperm),
      contents_untouched _ (hout order' hperm')]

end Contents

/-! ## More leaf functions, less text -/

theorem render_append (xs ys : List (Line × Checks)) :
    render (xs ++ ys) = render xs ++ render ys := by
  rw [render, List.flatMap_append, List.flatten_append]
  rfl

theorem render_cons_length (entry : Line × Checks) (body : List (Line × Checks)) :
    (render (entry :: body)).length = (render [entry]).length + (render body).length := by
  rw [← List.singleton_append, render_append, List.length_append]

theorem retTemplate_length_pos (label : Name) : 0 < (retTemplate label).length := by
  unfold retTemplate
  rw [List.length_append]
  exact Nat.add_pos_right _ (by decide)

/-- Dropping the return check of a line shortens its text. -/
theorem render_drop_ret (line : Line) (jump : Option Name) (label : Name) :
    (render [(line, ⟨jump, none⟩)]).length < (render [(line, ⟨jump, some label⟩)]).length := by
  have hpos := retTemplate_length_pos label
  cases jump <;> simp [render, newLines] <;> omega

theorem render_line_le {line : Line} {checks checks' : Checks}
    (hjump : checks'.jump = checks.jump) (hret : checks'.ret = none ∨ checks'.ret = checks.ret) :
    (render [(line, checks')]).length ≤ (render [(line, checks)]).length := by
  obtain ⟨jump, ret⟩ := checks
  obtain ⟨jump', ret'⟩ := checks'
  cases hjump
  rcases hret with hnone | hsame
  · cases hnone
    cases ret with
    | none => exact Nat.le_refl _
    | some label => exact Nat.le_of_lt (render_drop_ret line _ label)
  · cases hsame
    exact Nat.le_refl _

/-- The same function, with more names in `leaf_functions`. -/
structure MoreLeaves (st st' : LineState) : Prop where
  currFunction : st'.currFunction = st.currFunction
  leafFunctions : ∀ name ∈ st.leafFunctions, name ∈ st'.leafFunctions

theorem MoreLeaves.step {st st' : LineState} (h : MoreLeaves st st') (cls : CharClass)
    (exit : Name → Option LeafExit) (line : Line) :
    MoreLeaves (planLine cls exit st line).1 (planLine cls exit st' line).1
      ∧ (planLine cls exit st' line).2.jump = (planLine cls exit st line).2.jump
      ∧ ((planLine cls exit st' line).2.ret = none
        ∨ (planLine cls exit st' line).2.ret = (planLine cls exit st line).2.ret) := by
  have hleaf : ∀ name ∈ (planLine cls exit st line).1.leafFunctions,
      name ∈ (planLine cls exit st' line).1.leafFunctions := by
    intro name hname
    rcases List.mem_append.mp hname with hold | hnew
    · exact List.mem_append_left _ (h.leafFunctions name hold)
    · exact List.mem_append_right _ hnew
  have hcurr : (planLine cls exit st' line).1.currFunction
      = (planLine cls exit st line).1.currFunction := by
    simp only [planLine, h.currFunction]
  refine ⟨⟨hcurr, hleaf⟩, rfl, ?_⟩
  by_cases hin : (planLine cls exit st line).1.currFunction
      ∈ (planLine cls exit st line).1.leafFunctions
  · left
    have hin' := hleaf _ hin
    rw [← hcurr] at hin'
    exact if_pos hin'
  · by_cases hin' : (planLine cls exit st' line).1.currFunction
        ∈ (planLine cls exit st' line).1.leafFunctions
    · exact .inl (if_pos hin')
    · exact .inr ((if_neg hin').trans (if_neg hin).symm)

theorem MoreLeaves.run {st st' : LineState} (h : MoreLeaves st st') (cls : CharClass)
    (exit : Name → Option LeafExit) (lines : List Line) :
    MoreLeaves (run (planLine cls exit) st lines).1 (run (planLine cls exit) st' lines).1
      ∧ (render (Transducer.run (planLine cls exit) st' lines).2).length
        ≤ (render (Transducer.run (planLine cls exit) st lines).2).length := by
  induction lines generalizing st st' with
  | nil => exact ⟨h, Nat.le_refl _⟩
  | cons line lines ih =>
      obtain ⟨hnext, hjump, hret⟩ := h.step cls exit line
      obtain ⟨hend, hrest⟩ := ih hnext
      refine ⟨hend, ?_⟩
      rw [run_cons, run_cons]
      dsimp only
      rw [render_cons_length _ (Transducer.run _ (planLine cls exit st' line).1 lines).2,
        render_cons_length _ (Transducer.run _ (planLine cls exit st line).1 lines).2]
      exact Nat.add_le_add (render_line_le hjump hret) hrest

/-- A return check that is lost makes the whole text shorter. -/
theorem render_shorter {exit : Name → Option LeafExit} {above below : List Line} {line : Line}
    {st st' : LineState} (h : MoreLeaves st st')
    (hret : ((planLine cls exit (Transducer.run (planLine cls exit) st above).1 line).2.ret).isSome
      = true)
    (hret' : (planLine cls exit (Transducer.run (planLine cls exit) st' above).1 line).2.ret
      = none) :
    (render (Transducer.run (planLine cls exit) st' (above ++ line :: below)).2).length
      < (render (Transducer.run (planLine cls exit) st (above ++ line :: below)).2).length := by
  obtain ⟨hmid, habove⟩ := h.run cls exit above
  obtain ⟨hnext, hjump, _⟩ := hmid.step cls exit line
  obtain ⟨_, hbelow⟩ := hnext.run cls exit below
  have hline : (render [(line,
        (planLine cls exit (Transducer.run (planLine cls exit) st' above).1 line).2)]).length
      < (render [(line,
        (planLine cls exit (Transducer.run (planLine cls exit) st above).1 line).2)]).length := by
    obtain ⟨label, hlabel⟩ := Option.isSome_iff_exists.mp hret
    generalize (planLine cls exit (Transducer.run (planLine cls exit) st' above).1 line).2 = c' at *
    generalize (planLine cls exit (Transducer.run (planLine cls exit) st above).1 line).2 = c at *
    obtain ⟨jump, ret⟩ := c
    obtain ⟨jump', ret'⟩ := c'
    cases hjump
    cases hlabel
    cases hret'
    exact render_drop_ret line _ label
  rw [run_append, run_append, run_cons, run_cons]
  dsimp only
  rw [render_append, render_append, List.length_append, List.length_append,
    render_cons_length _ (Transducer.run _ (planLine cls exit _ line).1 below).2]
  have hcons := render_cons_length (line,
      (planLine cls exit (Transducer.run (planLine cls exit) st above).1 line).2)
    (Transducer.run (planLine cls exit)
      (planLine cls exit (Transducer.run (planLine cls exit) st above).1 line).1 below).2
  omega

/-! ## The condition is exact -/

variable [DecidableEq Path]

theorem order_condition {contents : Path → Text} {files : List Path}
    (hdistinct : DistinctNames cls contents files) (hnodup : files.Nodup)
    (hindependent : OrderIndependent cls contents files) : OrderCondition cls contents files := by
  intro file hfile above line below hlines hret hnotes
  by_contra hno
  rw [not_or] at hno
  obtain ⟨hown, hother⟩ := hno
  have hother : ∃ other ∈ files, other ≠ file
      ∧ functionFrom cls [] (above ++ [line]) ∈ calledNames cls (readlines (contents other)) := by
    by_contra hall
    exact hother fun other hin hne hcalled => hall ⟨other, hin, hne, hcalled⟩
  obtain ⟨other, hin, hne, hcalled⟩ := hother
  have hfirst : ([] ++ file :: other :: (files.erase file).erase other).Perm files :=
    ((List.perm_cons_erase hfile).trans
      ((List.perm_cons_erase ((List.mem_erase_of_ne hne).mpr hin)).cons file)).symm
  have hlast : ([other] ++ file :: (files.erase file).erase other).Perm files :=
    (List.Perm.swap file other _).trans hfirst
  have hsame := hindependent _ _ hfirst hlast file
  rw [instrument_contents_order hdistinct hnodup hfirst,
    instrument_contents_order hdistinct hnodup hlast, planFile, planFile, hlines] at hsame
  -- with the caller first, the return check at `line` is lost
  have hmore : MoreLeaves
      { currFunction := []
        leafFunctions := (calledNames cls (([] : List Path).flatMap
          fun f => readlines (contents f))).filter (notesLeaf (leafExit cls contents files)) }
      { currFunction := []
        leafFunctions := (calledNames cls ([other].flatMap
          fun f => readlines (contents f))).filter (notesLeaf (leafExit cls contents files)) } :=
    ⟨rfl, fun name hname => by cases hname⟩
  refine absurd (congrArg List.length hsame).symm
    (Nat.ne_of_lt (render_shorter hmore ?_ ?_))
  · rw [plan_checks]
    dsimp only
    rw [if_neg]
    · exact hret
    · intro hlisted
      rcases List.mem_append.mp hlisted with hbefore | hhere
      · cases hbefore
      · exact hown (List.mem_filter.mp hhere).1
  · rw [plan_checks]
    refine if_pos (List.mem_append_left _ (List.mem_filter.mpr ⟨?_, hnotes⟩))
    rw [List.flatMap_cons, List.flatMap_nil, List.append_nil]
    exact hcalled

/-- **Order independence.** For distinct files in which no called function is
defined twice, all orders give the same contents exactly under
`OrderCondition`. -/
theorem order_independent_iff {contents : Path → Text} {files : List Path}
    (hdistinct : DistinctNames cls contents files) (hnodup : files.Nodup) :
    OrderIndependent cls contents files ↔ OrderCondition cls contents files :=
  ⟨order_condition hdistinct hnodup, order_independent hdistinct hnodup⟩

/-! ## Two files -/

/-- `main` in one file calls the leaf `f` in the other. -/
def twoFiles : Bool → Text
  | false => "main:\n\tcall\tf\n\tjr\tra\n".toList
  | true => "f:\n\tjr\tra\ng:\n\tjr\tra\n".toList

theorem twoFiles_distinct : DistinctNames CharClass.ascii twoFiles [false, true] := by
  rintro name ⟨file, _, hcalled⟩
  have hname : name = "f".toList := by
    cases file with
    | false =>
        have hnames : calledNames CharClass.ascii (readlines (twoFiles false)) = ["f".toList] := by
          decide
        rw [hnames] at hcalled
        exact List.mem_singleton.mp hcalled
    | true =>
        have hnames : calledNames CharClass.ascii (readlines (twoFiles true)) = [] := by decide
        rw [hnames] at hcalled
        cases hcalled
  subst hname
  have hdefined : ∀ p : Bool, (∃ line ∈ readlines (twoFiles p),
      isTarget CharClass.ascii "f".toList line = true) → p = true := by
    decide
  intro p _ q _ hp hq
  rw [hdefined p hp, hdefined q hq]

theorem order_independent_twoFiles :
    OrderIndependent CharClass.ascii twoFiles [false, true]
      ↔ OrderCondition CharClass.ascii twoFiles [false, true] :=
  order_independent_iff twoFiles_distinct (by decide)

/-- With `main` first the return of `f` gets no check, with `f` first it does. -/
theorem order_matters : ¬ OrderIndependent CharClass.ascii twoFiles [false, true] := by
  intro h
  have hsame := h [false, true] [true, false] (List.Perm.refl _) (List.Perm.swap _ _ _) true
  revert hsame
  decide

end RiscvTe
