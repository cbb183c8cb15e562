import RiscvTe.Lib.Paths
import RiscvTe.Precision

/-!
# Complete mediation

The output of a pass is its input with blocks in between. A block guards the
instruction behind it if execution cannot come to the instruction but
through the block. It can, by a jump, where the instruction has a label on its
own line: `instrument` puts the block in front of the label.
-/

namespace RiscvTe

open Scan Paths

variable {cls : CharClass} {Path : Type} [DecidableEq Path] {contents : Path → Text}
  {files : List Path}

/-! ## The blocks in the output -/

/-- The lines of the output, with a mark at the inserted ones. -/
def tagged (body : List (Line × Checks)) : List (Line × Bool) :=
  body.flatMap fun entry => entry.2.block.map (fun line => (line, true)) ++ [(entry.1, false)]

/-- The output without the inserted lines. -/
def deleteBlocks (output : List (Line × Bool)) : List Line :=
  (output.filter fun entry => !entry.2).map Prod.fst

theorem tagged_lines (body : List (Line × Checks)) :
    (tagged body).map Prod.fst = outputLines body := by
  induction body with
  | nil => rfl
  | cons entry body ih =>
      rw [tagged, outputLines] at ih ⊢
      rw [List.flatMap_cons, List.flatMap_cons, List.map_append, ih]
      simp [Function.comp_def]

/-- **Nothing is lost**: without the blocks the output is the input. -/
theorem deleteBlocks_tagged (body : List (Line × Checks)) :
    deleteBlocks (tagged body) = body.map Prod.fst := by
  induction body with
  | nil => rfl
  | cons entry body ih =>
      rw [deleteBlocks, tagged] at ih ⊢
      rw [List.flatMap_cons, List.filter_append, List.map_append, ih]
      simp [List.filter_map, Function.comp_def]

theorem outputLines_append (xs ys : List (Line × Checks)) :
    outputLines (xs ++ ys) = outputLines xs ++ outputLines ys := List.flatMap_append

theorem outputLines_cons (entry : Line × Checks) (body : List (Line × Checks)) :
    outputLines (entry :: body) = entry.2.block ++ (entry.1 :: outputLines body) := by
  rw [outputLines, List.flatMap_cons, List.append_assoc]
  rfl

/-! ## Entries -/

/-- Where execution can get to a line other than from the line above: at the
start of the file and at labels of any kind. -/
def isEntry (cls : CharClass) (lines : List Line) (i : Nat) : Prop :=
  i = 0 ∨ ∃ line, lines[i]? = some line ∧ (labelOf cls line).isSome = true

theorem labelOf_none {line : Line} (h : ':' ∉ line) : labelOf cls line = none := by
  rw [labelOf]
  split
  · rename_i hcolon
    refine absurd ?_ h
    exact List.dropWhile_subset _ (List.dropWhile_subset _ (List.dropWhile_subset _
      (hcolon ▸ List.mem_cons_self)))
  · rfl

/-- The shape of the inserted lines: fixed text, then one word. -/
theorem labelOf_line {u w : Text} (hw : cls.Word w) (hu : ':' ∉ u) :
    labelOf cls (u ++ w ++ ['\n']) = none := by
  have hcolon : ':' ∉ w := hw.not_mem_ascii (by decide) (by decide)
  apply labelOf_none
  simp [hu, hcolon]

theorem jumpBlock_unlabelled {label : Name} (h : cls.Word label) :
    ∀ b ∈ jumpBlock label, labelOf cls b = none := by
  intro b hb
  simp only [jumpBlock, List.mem_cons, List.not_mem_nil, or_false] at hb
  rcases hb with rfl | rfl
  · exact labelOf_line h (by decide)
  · exact labelOf_none (by decide)

theorem retBlock_unlabelled {label : Name} (h : cls.Word label) :
    ∀ b ∈ retBlock label, labelOf cls b = none := by
  intro b hb
  simp only [retBlock, List.mem_cons, List.not_mem_nil, or_false] at hb
  rcases hb with rfl | rfl | rfl
  · exact labelOf_line h (by decide)
  · exact labelOf_none (by decide)
  · exact labelOf_none (by decide)

/-- Behind its first line, a block without labels and an unlabelled line behind
it have no entry. -/
theorem not_isEntry {above block below : List Line} {line : Line}
    (hblock : ∀ b ∈ block, labelOf cls b = none) (hline : labelOf cls line = none) :
    ∀ j, above.length < j → j ≤ above.length + block.length →
      ¬ isEntry cls (above ++ (block ++ line :: below)) j := by
  intro j hlo hhi hentry
  rcases hentry with rfl | ⟨l, hl, hlabel⟩
  · omega
  rw [List.getElem?_append_right (by omega)] at hl
  have hnone : labelOf cls l = none := by
    rcases Nat.lt_or_ge (j - above.length) block.length with hlt | hge
    · rw [List.getElem?_append_left hlt] at hl
      exact hblock l (List.mem_of_getElem? hl)
    · have hlast : j - above.length = block.length := by omega
      rw [hlast, List.getElem?_append_right (Nat.le_refl _), Nat.sub_self] at hl
      cases hl
      exact hline
  rw [hnone] at hlabel
  cases hlabel

namespace Site

variable (x : Site cls contents files)

/-- The lines of the pass as they are written. -/
def output : List Line := outputLines (x.above ++ (x.line, x.checks) :: x.below)

/-- Where the line is in the output. -/
def position : Nat := (outputLines x.above).length + x.checks.block.length

/-- Every path that comes to the line has executed the block just before. -/
def Guards (block : List Line) : Prop :=
  ∀ past, Paths.Path x.output.length (isEntry cls x.output) (x.position :: past) →
    Executed x.output block past

/-- A call or `jr` with a check is only executed behind the whole block, for
the symbol called or the register jumped through. -/
structure Mediated : Prop where
  call : mnemonic cls x.line = "call".toList → x.checks.jump.isSome = true →
    x.Guards (jumpBlock (callee cls x.line))
  jr : mnemonic cls x.line = "jr".toList → x.checks.ret.isSome = true →
    x.Guards (retBlock (operand cls x.line))

/-- A call or `jr` that is checked has no label on its line and a symbol or
register made of word characters; and no check of a return, for some `jr` in
the rest of the line, comes between a call and its own. -/
structure Direct : Prop where
  call : mnemonic cls x.line = "call".toList → ∀ label, dirJump cls x.line = some label →
    pushes (leafExit cls contents files) label = true →
      labelOf cls x.line = none ∧ wordOperand cls x.line = true
        ∧ callee cls x.line = operand cls x.line
        ∧ (retJump cls x.line = none ∨ x.listed = true)
  jr : mnemonic cls x.line = "jr".toList → ∀ register, retJump cls x.line = some register →
    x.listed = false → labelOf cls x.line = none ∧ wordOperand cls x.line = true

theorem output_eq : x.output
    = outputLines x.above ++ (x.checks.block ++ (x.line :: outputLines x.below)) := by
  rw [output, outputLines_append, outputLines_cons]

theorem position_lt : x.position < x.output.length := by
  rw [output_eq, position]
  simp

/-- A block that ends the lines above guards a line without a label. -/
theorem guards_of_suffix {x : Site cls contents files} {first block : List Line}
    (hchecks : x.checks.block = first ++ block) (hblock : ∀ b ∈ block, labelOf cls b = none)
    (hline : labelOf cls x.line = none) : x.Guards block := by
  have houtput : x.output
      = (outputLines x.above ++ first) ++ (block ++ (x.line :: outputLines x.below)) := by
    rw [output_eq, hchecks, List.append_assoc, List.append_assoc]
  have hposition : x.position = (outputLines x.above ++ first).length + block.length := by
    rw [position, hchecks, List.length_append, List.length_append]
    omega
  intro past hpath
  rw [houtput] at hpath ⊢
  rw [hposition] at hpath
  exact executed_window (not_isEntry hblock hline) hpath

/-- What guards a line ends the lines above, and the line has no label. -/
theorem Guards.inv {x : Site cls contents files} {block : List Line} (h : x.Guards block)
    (hne : block ≠ []) :
    labelOf cls x.line = none ∧ block <:+ outputLines x.above ++ x.checks.block := by
  constructor
  · rw [← Option.not_isSome_iff_eq_none]
    intro hlabel
    -- a jump to the label comes to the line at once
    have hentry : isEntry cls x.output x.position := by
      refine .inr ⟨x.line, ?_, hlabel⟩
      rw [output_eq, position, ← List.length_append, ← List.append_assoc]
      simp
    have hexecuted := h [] (.start hentry x.position_lt)
    rw [Executed] at hexecuted
    simp [hne] at hexecuted
  · have hstart : isEntry cls x.output 0 := .inl rfl
    have hlt : 0 + x.position < x.output.length := by
      rw [Nat.zero_add]
      exact x.position_lt
    have hpath := Paths.Path.fallThrough hstart hlt
    rw [Nat.zero_add] at hpath
    have hexecuted := h _ hpath
    rw [output_eq, ← List.append_assoc, position, ← List.length_append] at hexecuted
    exact suffix_of_executed hexecuted

/-! ## When the blocks cannot be passed by -/

theorem block_call {x : Site cls contents files} {label : Name}
    (hjump : x.checks.jump = some label) (hret : x.checks.ret = none) :
    x.checks.block = jumpBlock label := by
  rw [Checks.block, hjump, hret]
  exact List.append_nil _

theorem block_ret {x : Site cls contents files} {register : Name}
    (hret : x.checks.ret = some register) :
    x.checks.block = (x.checks.jump.map jumpBlock).getD [] ++ retBlock register := by
  rw [Checks.block, hret]
  rfl

theorem mediated_of_direct {x : Site cls contents files} (h : x.Direct) : x.Mediated := by
  constructor
  · intro hmnemonic hchecked
    obtain ⟨label, hlabel⟩ := Option.isSome_iff_exists.mp hchecked
    obtain ⟨hfound, hpushes⟩ := x.jump_iff.mp hlabel
    obtain ⟨hline, hoperand, hcallee, hnojr⟩ := h.call hmnemonic label hfound hpushes
    rw [dirJump_wordOperand hmnemonic hoperand] at hfound
    have hret : x.checks.ret = none := by
      refine Option.eq_none_iff_forall_ne_some.mpr fun register hregister => ?_
      obtain ⟨hjr, hlisted⟩ := x.ret_iff.mp hregister
      rcases hnojr with hnone | hyes
      · rw [hnone] at hjr
        cases hjr
      · rw [hyes] at hlisted
        cases hlisted
    have hblock : x.checks.block = [] ++ jumpBlock label := block_call hlabel hret
    rw [hcallee, Option.some.inj hfound]
    exact guards_of_suffix hblock
      (jumpBlock_unlabelled (Option.some.inj hfound ▸ (wordOperand_iff.mp hoperand).2)) hline
  · intro hmnemonic hchecked
    obtain ⟨register, hregister⟩ := Option.isSome_iff_exists.mp hchecked
    obtain ⟨hfound, hlisted⟩ := x.ret_iff.mp hregister
    obtain ⟨hline, hoperand⟩ := h.jr hmnemonic register hfound hlisted
    rw [retJump_wordOperand hmnemonic hoperand] at hfound
    rw [← Option.some.inj hfound] at hregister
    exact guards_of_suffix (block_ret hregister)
      (retBlock_unlabelled (wordOperand_iff.mp hoperand).2) hline

theorem line_inj {u w w' : Text} (h : u ++ w ++ ['\n'] = u ++ w' ++ ['\n']) : w = w' := by
  rw [List.append_assoc, List.append_assoc] at h
  exact List.append_cancel_right (List.append_cancel_left h)

theorem jumpBlock_inj {label label' : Name} (h : jumpBlock label = jumpBlock label') :
    label = label' :=
  line_inj (List.cons.inj h).1

theorem retBlock_inj {label label' : Name} (h : retBlock label = retBlock label') :
    label = label' :=
  line_inj (List.cons.inj h).1

/-- The block of a jump check does not end that of a return check. -/
theorem jumpBlock_not_suffix {label register : Name} {lines : List Line} :
    ¬ jumpBlock label <:+ lines ++ retBlock register := by
  intro hsuffix
  obtain ⟨above, h⟩ := hsuffix
  have hsplit : lines ++ retBlock register
      = (lines ++ ["\tmv  a7,".toList ++ register ++ ['\n']])
        ++ ["\taddi\ta7,a7,1\n".toList, "\tecall\n".toList] := by
    rw [List.append_assoc]
    rfl
  rw [hsplit] at h
  have hlines := List.append_inj_right' h rfl
  have hla : "\tla  a7,".toList = '\t' :: 'l' :: "a  a7,".toList := by decide
  have haddi : "\taddi\ta7,a7,1\n".toList = '\t' :: 'a' :: "ddi\ta7,a7,1\n".toList := by decide
  rw [jumpBlock, hla, haddi] at hlines
  have hline := (List.cons.inj (List.cons.inj hlines).1).2
  exact absurd (List.cons.inj hline).1 (by decide)

theorem direct_of_mediated {x : Site cls contents files} (h : x.Mediated) : x.Direct := by
  constructor
  · intro hmnemonic label hfound hpushes
    have hlabel := x.jump_iff.mpr ⟨hfound, hpushes⟩
    obtain ⟨hline, hsuffix⟩ := (h.call hmnemonic (by rw [hlabel]; rfl)).inv (by simp [jumpBlock])
    have hret : x.checks.ret = none := by
      refine Option.eq_none_iff_forall_ne_some.mpr fun register hregister => ?_
      rw [block_ret hregister, ← List.append_assoc] at hsuffix
      exact jumpBlock_not_suffix hsuffix
    rw [block_call hlabel hret] at hsuffix
    obtain ⟨above, habove⟩ := hsuffix
    have hcallee : callee cls x.line = label :=
      jumpBlock_inj (List.append_inj_right' habove rfl)
    obtain ⟨hoperand, hsame⟩ := wordOperand_of_callee hmnemonic hfound hcallee
    refine ⟨hline, hoperand, hsame, ?_⟩
    cases hjr : retJump cls x.line with
    | none => exact .inl rfl
    | some register =>
        right
        rw [← Bool.not_eq_false]
        intro hlisted
        rw [x.ret_iff.mpr ⟨hjr, hlisted⟩] at hret
        cases hret
  · intro hmnemonic register hfound hlisted
    have hregister := x.ret_iff.mpr ⟨hfound, hlisted⟩
    obtain ⟨hline, hsuffix⟩ := (h.jr hmnemonic (by rw [hregister]; rfl)).inv (by simp [retBlock])
    rw [block_ret hregister, ← List.append_assoc] at hsuffix
    obtain ⟨above, habove⟩ := hsuffix
    have hoperand : operand cls x.line = register :=
      retBlock_inj (List.append_inj_right' habove rfl)
    exact ⟨hline, wordOperand_iff.mpr (hoperand ▸ CharClass.keyword_word hfound)⟩

end Site

/-- **Complete mediation.** Every output is its input with the blocks in
between; and a call or `jr` with a check cannot be executed but behind the
whole block of its check, exactly if the check is direct. -/
theorem complete_mediation_iff (cls : CharClass) (contents : Path → Text) (files : List Path) :
    (∀ (s : Store Path) (file : Path),
      (tagged (instrumentFile cls files s file).2).map Prod.fst
          = readlines ((instrumentFile cls files s file).1.contents file)
        ∧ deleteBlocks (tagged (instrumentFile cls files s file).2)
          = readlines (s.contents file))
      ∧ (∀ x : Site cls contents files, x.Mediated ↔ x.Direct)
      ∧ ∀ x : Site cls contents files, files.Nodup →
        readlines ((instrument cls contents files).1.contents x.file) = x.output := by
  refine ⟨fun s file => ⟨?_, ?_⟩, fun x => ⟨Site.direct_of_mediated, Site.mediated_of_direct⟩,
    fun x hnodup => ?_⟩
  · rw [tagged_lines, instrumentFile_lines]
  · rw [deleteBlocks_tagged, instrumentFile_read]
  · apply instrument_output hnodup
    rw [x.split]
    simp

/-! ## A jump past a check -/

/-- A recursive call with a label on its line. -/
def labelledCall : Text := "main:\n\tjr\tra\nagain:\tcall\tmain\n".toList

def labelledCallBody : List (Line × Checks) :=
  [("main:\n".toList, ⟨none, none⟩), ("\tjr\tra\n".toList, ⟨none, some "ra".toList⟩),
    ("again:\tcall\tmain\n".toList, ⟨some "main".toList, none⟩)]

theorem labelledCall_pass :
    (instrument CharClass.ascii (fun _ : Unit => labelledCall) [()]).2
      = [] ++ ((), labelledCallBody) :: [] := by
  decide

/-- A jump to `again` comes to the call behind its check. -/
theorem check_passed_by :
    ¬ ∀ x : Site CharClass.ascii (fun _ : Unit => labelledCall) [()], x.Mediated := by
  intro h
  have hguards := (h (Site.ofPass labelledCall_pass ⟨2, by decide⟩)).call (by decide) (by decide)
  have hline := (hguards.inv (List.cons_ne_nil _ _)).1
  exact absurd hline (by decide)

end RiscvTe
