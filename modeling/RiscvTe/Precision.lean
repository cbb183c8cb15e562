import RiscvTe.Assembly

/-!
# Precision of the checks

The patterns are searched anywhere in a line, so a check can land in front
of a line that is no call and no return: a comment, a string, a computed
jump; and `\w+` stops inside a symbol such as `f.isra.0`. `Site.Precise` is
the intention, `Site.PlainMatches` says of the text of the line and the names
in it when it is met.
-/

namespace RiscvTe

open Scan

/-! ## What the line does -/

section Reading

variable (cls : CharClass)

/-- The first operand is a word, as the patterns want it. -/
def wordOperand (line : Line) : Bool :=
  !(operand cls line).isEmpty && (operand cls line).all cls.word

/-- What stands behind the first operand. -/
def behindOperand (line : Line) : Text :=
  ((((statement cls line).dropWhile (symChar cls)).dropWhile cls.space).dropWhile
    (symChar cls)).dropWhile cls.space

/-- The symbol a `call` goes to: in `call rd, symbol` it is the second
operand. -/
def callee (line : Line) : Name :=
  if wordOperand cls line then
    match behindOperand cls line with
    | ',' :: rest => (rest.dropWhile cls.space).takeWhile (symChar cls)
    | _ => operand cls line
  else operand cls line

/-- A return through `ra`, which is the register `x1`. -/
def returnsThroughRa (line : Line) : Bool :=
  isReturn cls line || (mnemonic cls line == "jr".toList && operand cls line == "x1".toList)

end Reading

variable {cls : CharClass} {Path : Type} [DecidableEq Path] {contents : Path → Text}
  {files : List Path}

namespace Site

variable (x : Site cls contents files)

/-- A jump check is in front of a call, with the whole symbol called; a return
check is in front of a return through `ra`; in front of any other line there
is nothing. -/
structure Precise : Prop where
  jump : ∀ label, x.checks.jump = some label →
    mnemonic cls x.line = "call".toList ∧ callee cls x.line = label
  ret : ∀ register, x.checks.ret = some register → returnsThroughRa cls x.line = true
  nothing : mnemonic cls x.line ≠ "call".toList → returnsThroughRa cls x.line = false →
    x.checks.block = []

/-- Where `DIR_JUMP_PATTERN` finds a name that is checked, the line is a `call`
of a symbol made of word characters; where `RET_PATTERN` finds a register and
the function is not listed, the line is a return through `ra`. -/
structure PlainMatches : Prop where
  jump : ∀ label, dirJump cls x.line = some label →
    pushes (leafExit cls contents files) label = true →
      mnemonic cls x.line = "call".toList ∧ wordOperand cls x.line = true
        ∧ callee cls x.line = operand cls x.line
  ret : ∀ register, retJump cls x.line = some register → x.listed = false →
    returnsThroughRa cls x.line = true

end Site

/-! ## The symbol and the match -/

theorem wordOperand_iff {line : Line} :
    wordOperand cls line = true ↔ operand cls line ≠ [] ∧ cls.Word (operand cls line) := by
  rw [wordOperand, Bool.and_eq_true, Bool.not_eq_true', List.isEmpty_eq_false_iff, List.all_eq_true]
  exact Iff.rfl

/-- An operand of word characters is matched as a whole. -/
theorem keyword_wordOperand {k : Char} {kw : Text} {line : Line} (hkw : cls.Word (k :: kw))
    (h : mnemonic cls line = k :: kw) (hoperand : wordOperand cls line = true) :
    cls.keyword (k :: kw) line = some (operand cls line) := by
  obtain ⟨hne, hword⟩ := wordOperand_iff.mp hoperand
  obtain ⟨c, rest, hcons⟩ := List.exists_cons_of_ne_nil hne
  rw [keyword_of_mnemonic hkw h, List.takeWhile_eq_self_iff.mpr hword]
  rw [hcons] at hword ⊢
  exact hword c (by simp)

theorem dirJump_wordOperand {line : Line} (h : mnemonic cls line = "call".toList)
    (hoperand : wordOperand cls line = true) : dirJump cls line = some (operand cls line) := by
  have hcall : "call".toList = 'c' :: "all".toList := by decide
  rw [dirJump, hcall]
  exact keyword_wordOperand (hcall ▸ word_call) (hcall ▸ h) hoperand

theorem retJump_wordOperand {line : Line} (h : mnemonic cls line = "jr".toList)
    (hoperand : wordOperand cls line = true) : retJump cls line = some (operand cls line) := by
  have hjr : "jr".toList = 'j' :: "r".toList := by decide
  rw [retJump, hjr]
  exact keyword_wordOperand (hjr ▸ word_jr) (hjr ▸ h) hoperand

/-- The other way round: where the match is the whole symbol, that symbol is
made of word characters. -/
theorem wordOperand_of_callee {line : Line} {label : Name} (h : mnemonic cls line = "call".toList)
    (hjump : dirJump cls line = some label) (hcallee : callee cls line = label) :
    wordOperand cls line = true ∧ callee cls line = operand cls line := by
  by_cases hoperand : wordOperand cls line = true
  · rw [dirJump_wordOperand h hoperand] at hjump
    exact ⟨hoperand, hcallee.trans (Option.some.inj hjump).symm⟩
  · have hword := CharClass.keyword_word hjump
    rw [callee, if_neg hoperand] at hcallee
    rw [← hcallee] at hword
    exact absurd (wordOperand_iff.mpr hword) hoperand

/-! ## When the checks are precise -/

/-- **Precision of the instrumentation.** The checks of a line are precise
exactly when the patterns, as far as their matches are acted upon, find plain
instructions in it. -/
theorem precise_iff (x : Site cls contents files) : x.Precise ↔ x.PlainMatches := by
  constructor
  · intro hprecise
    obtain ⟨hjump, hret, -⟩ := hprecise
    constructor
    · intro label hfound hpushes
      obtain ⟨hmnemonic, hcallee⟩ := hjump label (x.jump_iff.mpr ⟨hfound, hpushes⟩)
      exact ⟨hmnemonic, wordOperand_of_callee hmnemonic hfound hcallee⟩
    · intro register hfound hlisted
      exact hret register (x.ret_iff.mpr ⟨hfound, hlisted⟩)
  · intro hplain
    obtain ⟨hjump, hret⟩ := hplain
    have hcalls : ∀ label, x.checks.jump = some label →
        mnemonic cls x.line = "call".toList ∧ callee cls x.line = label := by
      intro label hlabel
      obtain ⟨hfound, hpushes⟩ := x.jump_iff.mp hlabel
      obtain ⟨hmnemonic, hoperand, hcallee⟩ := hjump label hfound hpushes
      rw [dirJump_wordOperand hmnemonic hoperand] at hfound
      exact ⟨hmnemonic, hcallee.trans (Option.some.inj hfound)⟩
    have hreturns : ∀ register, x.checks.ret = some register →
        returnsThroughRa cls x.line = true := by
      intro register hregister
      obtain ⟨hfound, hlisted⟩ := x.ret_iff.mp hregister
      exact hret register hfound hlisted
    refine ⟨hcalls, hreturns, fun hcall hreturn => ?_⟩
    have hnojump : x.checks.jump = none :=
      Option.eq_none_iff_forall_ne_some.mpr fun label hlabel => hcall (hcalls label hlabel).1
    have hnoret : x.checks.ret = none := by
      refine Option.eq_none_iff_forall_ne_some.mpr fun register hregister => ?_
      rw [hreturns register hregister] at hreturn
      cases hreturn
    rw [Checks.block, hnojump, hnoret]
    rfl

/-! ## Checks in wrong places -/

/-- A string with `call main` in it, a computed jump, and a call of a symbol
with dots. -/
def misread : Text :=
  "main:\n\t.string\t\"call main\"\n\tjr\ta5\n\tcall\tf.isra.0\nf:\n\tcall\tmain\n".toList

def misreadBody : List (Line × Checks) :=
  [("main:\n".toList, ⟨none, none⟩),
    ("\t.string\t\"call main\"\n".toList, ⟨some "main".toList, none⟩),
    ("\tjr\ta5\n".toList, ⟨none, some "a5".toList⟩),
    ("\tcall\tf.isra.0\n".toList, ⟨some "f".toList, none⟩),
    ("f:\n".toList, ⟨none, none⟩), ("\tcall\tmain\n".toList, ⟨some "main".toList, none⟩)]

theorem misread_pass :
    (instrument CharClass.ascii (fun _ : Unit => misread) [()]).2
      = [] ++ ((), misreadBody) :: [] := by
  decide

/-- A block in the middle of data, a return check at a computed jump, and a
label that is not the symbol called. -/
theorem checks_misplaced :
    ¬ (Site.ofPass misread_pass ⟨1, by decide⟩).Precise
      ∧ ¬ (Site.ofPass misread_pass ⟨2, by decide⟩).Precise
      ∧ ¬ (Site.ofPass misread_pass ⟨3, by decide⟩).Precise := by
  refine ⟨fun h => ?_, fun h => ?_, fun h => ?_⟩
  · exact absurd (h.jump "main".toList rfl).1 (by decide)
  · exact absurd (h.ret "a5".toList rfl) (by decide)
  · exact absurd (h.jump "f".toList rfl).2 (by decide)

end RiscvTe
