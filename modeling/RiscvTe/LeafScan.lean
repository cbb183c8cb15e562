import RiscvTe.Instrumenter

/-!
# Leaf queries and rewritten files

The loop of `instrument` rewrites a file while leaf queries of later files
still read it. The inserted lines match no pattern, whatever label they
carry (`Inert`), so `is_leaf` runs past them and answers as on the files
given (`instrumentFile_scansAlike`).
-/

namespace RiscvTe

open Scan

variable {cls : CharClass}

/-! ## Inserted lines -/

/-- A line that no pattern of the instrumenter matches. -/
structure Inert (cls : CharClass) (line : Line) : Prop where
  closed : Closed line
  dirJump : dirJump cls line = none
  retJump : retJump cls line = none
  funcStart : funcStart cls line = none
  isTarget : ∀ name, isTarget cls name line = false

/-- The lines of the block in front of a line, as they are read back. -/
def jumpBlock (label : Name) : List Line :=
  ["\tla  a7,".toList ++ label ++ ['\n'], "\tecall\n".toList]

def retBlock (label : Name) : List Line :=
  ["\tmv  a7,".toList ++ label ++ ['\n'], "\taddi\ta7,a7,1\n".toList, "\tecall\n".toList]

def Checks.block (checks : Checks) : List Line :=
  (checks.jump.map jumpBlock).getD [] ++ (checks.ret.map retBlock).getD []

theorem jumpTemplate_eq (label : Name) : jumpTemplate label = (jumpBlock label).flatten := by
  have hsplit : "\n\tecall\n".toList = ['\n'] ++ "\tecall\n".toList := by decide
  unfold jumpTemplate jumpBlock
  simp only [hsplit, List.flatten_cons, List.flatten_nil,
    List.append_assoc, List.append_nil]

theorem retTemplate_eq (label : Name) : retTemplate label = (retBlock label).flatten := by
  have hsplit : "\n\taddi\ta7,a7,1\n\tecall\n".toList
      = ['\n'] ++ ("\taddi\ta7,a7,1\n".toList ++ "\tecall\n".toList) := by decide
  unfold retTemplate retBlock
  simp only [hsplit, List.flatten_cons, List.flatten_nil,
    List.append_assoc, List.append_nil]

/-- The text written for a line is that of its block and its own. -/
theorem newLines_flatten (entry : Line × Checks) :
    (newLines entry).flatten = (entry.2.block ++ [entry.1]).flatten := by
  obtain ⟨line, jump, ret⟩ := entry
  cases jump <;> cases ret <;> simp [newLines, Checks.block, jumpTemplate_eq, retTemplate_eq]

/-- A keyword is not found behind text without its first letter, in the word
that ends the line. -/
theorem keyword_none {k : Char} {kw u w : Text} (hkw : cls.Word (k :: kw)) (hu : k ∉ u)
    (hw : cls.Word w) : cls.keyword (k :: kw) (u ++ w ++ ['\n']) = none := by
  have hgo : ∀ boundary, cls.keywordFrom (k :: kw) boundary (u ++ (w ++ ['\n'])) = none := by
    induction u with
    | nil => exact CharClass.keywordFrom_ending hkw hw
    | cons c u ih =>
        intro boundary
        have hc : k ≠ c := fun heq => hu (heq ▸ List.mem_cons_self)
        rw [List.cons_append, CharClass.keywordFrom_skip hc]
        exact ih (fun hin => hu (List.mem_cons_of_mem _ hin)) _
  rw [CharClass.keyword, List.append_assoc]
  exact hgo true

theorem word_call : cls.Word "call".toList := CharClass.Word.of_ascii (by decide)

theorem word_jr : cls.Word "jr".toList := CharClass.Word.of_ascii (by decide)

/-- The shape of every inserted line: fixed text, then one word. -/
theorem inert_line {u w : Text} (hw : cls.Word w) (hc : 'c' ∉ u) (hj : 'j' ∉ u) (hcolon : ':' ∉ u)
    (hnewline : '\n' ∉ u) : Inert cls (u ++ w ++ ['\n']) := by
  have hno : ':' ∉ u ++ w ++ ['\n'] := by
    have hwcolon : ':' ∉ w := hw.not_mem_ascii (by decide) (by decide)
    simp [hcolon, hwcolon]
  exact
    { closed := ⟨u ++ w, by simp [hnewline, hw.newline], rfl⟩
      dirJump := keyword_none word_call hc hw
      retJump := keyword_none word_jr hj hw
      funcStart := funcStart_none hno
      isTarget := fun _ => isTarget_false hno }

theorem inert_ecall : Inert cls "\tecall\n".toList :=
  inert_line (u := ['\t', 'e']) (w := "call".toList) word_call (by decide) (by decide)
    (by decide) (by decide)

theorem inert_addi : Inert cls "\taddi\ta7,a7,1\n".toList :=
  inert_line (u := "\taddi\ta7,a7,".toList) (w := ['1']) (CharClass.Word.of_ascii (by decide))
    (by decide) (by decide) (by decide) (by decide)

theorem inert_jumpBlock {label : Name} (h : cls.Word label) :
    ∀ b ∈ jumpBlock label, Inert cls b := by
  intro b hb
  simp only [jumpBlock, List.mem_cons, List.not_mem_nil, or_false] at hb
  rcases hb with rfl | rfl
  · exact inert_line h (by decide) (by decide) (by decide) (by decide)
  · exact inert_ecall

theorem inert_retBlock {label : Name} (h : cls.Word label) :
    ∀ b ∈ retBlock label, Inert cls b := by
  intro b hb
  simp only [retBlock, List.mem_cons, List.not_mem_nil, or_false] at hb
  rcases hb with rfl | rfl | rfl
  · exact inert_line h (by decide) (by decide) (by decide) (by decide)
  · exact inert_addi
  · exact inert_ecall

/-- The labels of the checks are those the patterns found in the line. -/
def Matched (cls : CharClass) (entry : Line × Checks) : Prop :=
  (∀ label, entry.2.jump = some label → dirJump cls entry.1 = some label)
    ∧ (∀ label, entry.2.ret = some label → retJump cls entry.1 = some label)

theorem inert_block {entry : Line × Checks} (h : Matched cls entry) :
    ∀ b ∈ entry.2.block, Inert cls b := by
  obtain ⟨line, jump, ret⟩ := entry
  obtain ⟨hjump, hret⟩ := h
  intro b hb
  rcases List.mem_append.mp hb with hb | hb
  · cases jump with
    | none => cases hb
    | some label => exact inert_jumpBlock (CharClass.keyword_word (hjump label rfl)).2 b hb
  · cases ret with
    | none => cases hb
    | some label => exact inert_retBlock (CharClass.keyword_word (hret label rfl)).2 b hb

/-! ## The scan runs past them -/

theorem scanLines_skip {b : Line} (h : Inert cls b) (name : Name) (found : Bool)
    (lines : List Line) :
    scanLines cls name found (b :: lines) = scanLines cls name found lines := by
  rw [scanLines, h.isTarget, h.funcStart, h.dirJump]
  cases found <;> rfl

theorem scanLines_block {block : List Line} (h : ∀ b ∈ block, Inert cls b) (name : Name)
    (found : Bool) (lines : List Line) :
    scanLines cls name found (block ++ lines) = scanLines cls name found lines := by
  induction block with
  | nil => rfl
  | cons b block ih =>
      rw [List.cons_append, scanLines_skip (h b (by simp))]
      exact ih fun b' hb' => h b' (List.mem_cons_of_mem _ hb')

/-- The lines of an instrumented body. -/
def outputLines (body : List (Line × Checks)) : List Line :=
  body.flatMap fun entry => entry.2.block ++ [entry.1]

theorem scanLines_output {body : List (Line × Checks)} (h : ∀ entry ∈ body, Matched cls entry)
    (name : Name) (found : Bool) :
    scanLines cls name found (outputLines body) = scanLines cls name found (body.map Prod.fst) := by
  induction body generalizing found with
  | nil => rfl
  | cons entry body ih =>
      have hrest := ih fun e he => h e (List.mem_cons_of_mem _ he)
      rw [outputLines, List.flatMap_cons, List.append_assoc,
        scanLines_block (inert_block (h entry (by simp))), List.map_cons, List.singleton_append]
      -- the line itself is scanned alike on both sides
      rw [outputLines] at hrest
      simp only [scanLines, hrest]

/-- What is written is read back as the blocks and the lines. -/
theorem readlines_output {body : List (Line × Checks)} (h : ∀ entry ∈ body, Matched cls entry)
    (hlines : Lines (body.map Prod.fst)) :
    readlines (body.flatMap newLines).flatten = outputLines body := by
  have hflat : (body.flatMap newLines).flatten = (outputLines body).flatten := by
    clear h hlines
    induction body with
    | nil => rfl
    | cons entry body ih =>
        rw [outputLines] at ih ⊢
        rw [List.flatMap_cons, List.flatten_append, ih, List.flatMap_cons, List.flatten_append,
          newLines_flatten]
  rw [hflat]
  apply readlines_flatten
  exact Lines.expand Prod.fst (fun entry => entry.2.block) hlines
    fun entry he b hb => (inert_block (h entry he) b hb).closed

/-! ## The loops keep the scans -/

theorem instrumentLine_matched (leafQuery : Name → List Name → Bool × List Name)
    (st : LineState) (line : Line) :
    Matched cls (line, (instrumentLine cls leafQuery st line).2) := by
  constructor
  · intro label h
    show dirJump cls line = some label
    simp only [instrumentLine] at h
    cases hjump : dirJump cls line with
    | none =>
        rw [hjump] at h
        cases h
    | some found =>
        rw [hjump] at h
        dsimp only at h
        split at h
        · cases h
        · dsimp only at h
          split at h
          · cases h
          · exact h
  · intro label h
    show retJump cls line = some label
    simp only [instrumentLine] at h
    cases hret : retJump cls line with
    | none =>
        rw [hret] at h
        cases h
    | some found =>
        rw [hret] at h
        exact (Option.ite_none_left_eq_some.mp h).2

theorem instrumentLines_matched (leafQuery : Name → List Name → Bool × List Name)
    (st : LineState) (lines : List Line) :
    ∀ entry ∈ (instrumentLines cls leafQuery st lines).2, Matched cls entry :=
  (Transducer.run_invariant (I := fun _ => True)
    (P := fun line checks => Matched cls (line, checks))
    (fun st line _ => ⟨trivial, instrumentLine_matched leafQuery st line⟩) trivial).2

section Files

variable {Path : Type}

/-- The scans of `is_leaf` see no difference between the two stores. -/
def ScansAlike (cls : CharClass) (contents contents' : Path → Text) : Prop :=
  ∀ file name, scanLines cls name false (readlines (contents file))
    = scanLines cls name false (readlines (contents' file))

theorem ScansAlike.leafExit {contents contents' : Path → Text}
    (h : ScansAlike cls contents contents') (files : List Path) :
    leafExit cls contents files = leafExit cls contents' files := by
  funext name
  induction files with
  | nil => rfl
  | cons file files ih =>
      rw [RiscvTe.leafExit, RiscvTe.leafExit] at ih ⊢
      rw [List.findSome?_cons, List.findSome?_cons, h file name, ih]

theorem ScansAlike.isLeaf {contents contents' : Path → Text}
    (h : ScansAlike cls contents contents') (files : List Path) (name : Name)
    (leafFunctions : List Name) :
    isLeaf cls contents files name leafFunctions
      = isLeaf cls contents' files name leafFunctions := by
  rw [RiscvTe.isLeaf, RiscvTe.isLeaf, h.leafExit files]

/-- The files of the set are rewritten, the others are as they were. -/
def mixed (rewritten : Path → Bool) (contents contents' : Path → Text) : Path → Text :=
  fun file => if rewritten file then contents' file else contents file

theorem ScansAlike.mixed {contents contents' : Path → Text}
    (h : ScansAlike cls contents' contents) (rewritten : Path → Bool) :
    ScansAlike cls (mixed rewritten contents contents') contents := by
  intro file name
  rw [RiscvTe.mixed]
  cases rewritten file with
  | false => rfl
  | true => exact h file name

variable [DecidableEq Path]

section

variable (files : List Path) (s : Store Path) (file : Path)

theorem instrumentFile_body :
    (instrumentFile cls files s file).2
      = (instrumentLines cls (isLeaf cls s.contents files)
          { currFunction := [], leafFunctions := s.leafFunctions }
          (readlines (s.contents file))).2 := rfl

theorem instrumentFile_contents :
    (instrumentFile cls files s file).1.contents
      = Function.update s.contents file
          ((instrumentFile cls files s file).2.flatMap newLines).flatten := rfl

theorem instrumentFile_leafFunctions :
    (instrumentFile cls files s file).1.leafFunctions
      = (instrumentLines cls (isLeaf cls s.contents files)
          { currFunction := [], leafFunctions := s.leafFunctions }
          (readlines (s.contents file))).1.leafFunctions := rfl

end

/-- The pass has the lines of the file. -/
theorem instrumentFile_read (files : List Path) (s : Store Path) (file : Path) :
    (instrumentFile cls files s file).2.map Prod.fst = readlines (s.contents file) := by
  rw [instrumentFile_body, instrumentLines, Transducer.run_inputs]

theorem instrumentFile_matched (files : List Path) (s : Store Path) (file : Path) :
    ∀ entry ∈ (instrumentFile cls files s file).2, Matched cls entry := by
  rw [instrumentFile_body]
  exact instrumentLines_matched _ _ _

/-- The rewritten file, read again. -/
theorem instrumentFile_lines (files : List Path) (s : Store Path) (file : Path) :
    readlines ((instrumentFile cls files s file).1.contents file)
      = outputLines (instrumentFile cls files s file).2 := by
  rw [instrumentFile_contents, Function.update_self]
  apply readlines_output (instrumentFile_matched files s file)
  rw [instrumentFile_read]
  exact lines_readlines _

/-- **Rewriting a file changes no leaf query.** -/
theorem instrumentFile_scansAlike (cls : CharClass) (files : List Path) (s : Store Path)
    (file : Path) :
    ScansAlike cls (instrumentFile cls files s file).1.contents s.contents := by
  intro other name
  by_cases hfile : other = file
  · subst hfile
    rw [instrumentFile_lines, scanLines_output (instrumentFile_matched files s other),
      instrumentFile_read]
  · rw [instrumentFile_contents, Function.update_of_ne hfile]

/-- Files that are not processed keep their contents. -/
theorem contents_untouched (files : List Path) {file : Path} {rest : List Path}
    (h : file ∉ rest) (s : Store Path) :
    (Transducer.run (instrumentFile cls files) s rest).1.contents file = s.contents file := by
  induction rest generalizing s with
  | nil => rfl
  | cons first rest ih =>
      have hfirst : file ≠ first := fun heq => h (heq ▸ List.mem_cons_self)
      rw [Transducer.run_cons]
      dsimp only
      rw [ih (fun hin => h (List.mem_cons_of_mem _ hin)), instrumentFile_contents,
        Function.update_of_ne hfirst]

/-- **The output and the passes**: a file of the list, named once, reads back
as the lines of its pass, each behind the block of its checks. -/
theorem instrument_output {contents : Path → Text} {files : List Path} (hnodup : files.Nodup)
    {file : Path} {body : List (Line × Checks)}
    (hpass : (file, body) ∈ (instrument cls contents files).2) :
    readlines ((instrument cls contents files).1.contents file) = outputLines body := by
  rw [instrument] at hpass ⊢
  generalize ({ contents := contents, leafFunctions := [] } : Store Path) = s at hpass ⊢
  have hgo : ∀ (rest : List Path) (s : Store Path), rest.Nodup →
      (file, body) ∈ (Transducer.run (instrumentFile cls files) s rest).2 →
      readlines ((Transducer.run (instrumentFile cls files) s rest).1.contents file)
        = outputLines body := by
    intro rest
    induction rest with
    | nil =>
        intro s _ h
        cases h
    | cons first rest ih =>
        intro s hnd h
        obtain ⟨hfirst, hrest⟩ := List.nodup_cons.mp hnd
        rw [Transducer.run_cons] at h ⊢
        dsimp only at h ⊢
        rcases List.mem_cons.mp h with heq | hin
        · cases heq
          rw [contents_untouched files hfirst, instrumentFile_lines]
        · exact ih _ hrest hin
  exact hgo files s hnodup hpass

/-! ## Any number of rewritten files -/

/-- However many files have been rewritten, in whatever order. -/
theorem run_scansAlike (files : List Path) (s : Store Path) (order : List Path) :
    ScansAlike cls (Transducer.run (instrumentFile cls files) s order).1.contents s.contents := by
  induction order generalizing s with
  | nil => exact fun _ _ => rfl
  | cons file order ih =>
      intro other name
      rw [Transducer.run_cons]
      exact (ih (instrumentFile cls files s file).1 other name).trans
        (instrumentFile_scansAlike cls files s file other name)

theorem readlines_jumpTemplate {label : Name} (h : cls.Word label) :
    readlines (jumpTemplate label) = jumpBlock label := by
  rw [jumpTemplate_eq]
  apply readlines_flatten
  rw [← List.append_nil (jumpBlock label)]
  exact Lines.append (fun b hb => (inert_jumpBlock h b hb).closed) .nil

theorem readlines_retTemplate {label : Name} (h : cls.Word label) :
    readlines (retTemplate label) = retBlock label := by
  rw [retTemplate_eq]
  apply readlines_flatten
  rw [← List.append_nil (retBlock label)]
  exact Lines.append (fun b hb => (inert_retBlock h b hb).closed) .nil

/-- **Leaf queries do not see the instrumentation.** Whichever files have been
rewritten, from whatever state of the loop and in whatever order, and
whichever of these are looked at, `is_leaf` answers and records as on the
files given. A rewritten file reads back as its lines with the blocks in
between, and a line of a block, whatever word it carries, matches no pattern. -/
theorem leaf_blind_to_instrumentation (cls : CharClass) (files : List Path) :
    (∀ (s : Store Path) (order : List Path) (rewritten : Path → Bool) (asked : List Path)
        (name : Name) (leafFunctions : List Name),
      isLeaf cls
          (mixed rewritten s.contents
            (Transducer.run (instrumentFile cls files) s order).1.contents)
          asked name leafFunctions
        = isLeaf cls s.contents asked name leafFunctions)
      ∧ (∀ (s : Store Path) (file : Path),
        readlines ((instrumentFile cls files s file).1.contents file)
            = outputLines (instrumentFile cls files s file).2
          ∧ (instrumentFile cls files s file).2.map Prod.fst = readlines (s.contents file)
          ∧ ∀ entry ∈ (instrumentFile cls files s file).2, ∀ b ∈ entry.2.block, Inert cls b)
      ∧ ∀ label, cls.Word label →
        (∀ b ∈ readlines (jumpTemplate label), Inert cls b)
          ∧ ∀ b ∈ readlines (retTemplate label), Inert cls b := by
  refine ⟨?_, ?_, ?_⟩
  · intro s order rewritten asked name leafFunctions
    exact ((run_scansAlike files s order).mixed rewritten).isLeaf asked name leafFunctions
  · intro s file
    refine ⟨instrumentFile_lines files s file, instrumentFile_read files s file, ?_⟩
    exact fun entry hentry => inert_block (instrumentFile_matched files s file entry hentry)
  · intro label hlabel
    rw [readlines_jumpTemplate hlabel, readlines_retTemplate hlabel]
    exact ⟨inert_jumpBlock hlabel, inert_retBlock hlabel⟩

/-- A function named `call`. -/
theorem leaf_blind_to_instrumentation_call :
    (∀ b ∈ readlines (jumpTemplate "call".toList), Inert CharClass.ascii b)
      ∧ ∀ b ∈ readlines (retTemplate "call".toList), Inert CharClass.ascii b :=
  (leaf_blind_to_instrumentation CharClass.ascii ([] : List Unit)).2.2 "call".toList
    (CharClass.Word.of_ascii (by decide))

end Files

end RiscvTe
