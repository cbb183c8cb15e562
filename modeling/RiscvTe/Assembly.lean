import RiscvTe.Decisions

/-!
# Reading assembly

What the lines mean to the assembler, apart from the patterns of the
instrumenter: an optional label, then a mnemonic and its first operand.
Where a line is a plain `call` or `jr`, the patterns find the same operand
in it, whatever label stands in front (`keyword_of_mnemonic`).
-/

namespace RiscvTe

open Scan

section Reading

variable (cls : CharClass)

/-- The characters of symbols, mnemonics and registers. -/
def symChar (c : Char) : Bool := cls.word c || c == '.' || c == '$'

/-- The label in front of a line and what stands behind it. -/
def labelOf (line : Line) : Option (Name × Text) :=
  let s := line.dropWhile cls.space
  let name := s.takeWhile (symChar cls)
  match (s.dropWhile (symChar cls)).dropWhile cls.space with
  | ':' :: rest => if name.isEmpty then none else some (name, rest)
  | _ => none

/-- The line without its label. -/
def statement (line : Line) : Text :=
  (match labelOf cls line with
    | some (_, rest) => rest
    | none => line).dropWhile cls.space

def mnemonic (line : Line) : Text := (statement cls line).takeWhile (symChar cls)

/-- The first operand. -/
def operand (line : Line) : Text :=
  (((statement cls line).dropWhile (symChar cls)).dropWhile cls.space).takeWhile (symChar cls)

/-- The name of the function that starts at the line; labels such as `.L3`
or `1` stay inside a function. -/
def functionLabel (line : Line) : Option Name :=
  match labelOf cls line with
  | some (name, _) =>
      if name.head?.any fun c => cls.word c && !c.isDigit then some name else none
  | none => none

/-- `call f` -/
def isCallOf (f : Name) (line : Line) : Bool :=
  mnemonic cls line == "call".toList && operand cls line == f

/-- A call, direct or through a register. -/
def isCall (line : Line) : Bool :=
  mnemonic cls line == "call".toList || mnemonic cls line == "jalr".toList

/-- `jr ra` -/
def isJrRa (line : Line) : Bool :=
  mnemonic cls line == "jr".toList && operand cls line == "ra".toList

/-- A return, in either spelling. -/
def isReturn (line : Line) : Bool := isJrRa cls line || mnemonic cls line == "ret".toList

end Reading

variable {cls : CharClass}

theorem symChar_of_word {c : Char} (h : cls.word c = true) : symChar cls c = true := by
  rw [symChar, h]
  rfl

theorem space_of_symChar {c : Char} (h : symChar cls c = true) : cls.space c = false := by
  rw [symChar, Bool.or_eq_true, Bool.or_eq_true, beq_iff_eq, beq_iff_eq] at h
  rcases h with (h | rfl) | rfl
  · exact cls.disjoint c h
  · rw [cls.space_ascii _ (by decide)]
    decide
  · rw [cls.space_ascii _ (by decide)]
    decide

theorem word_of_space {c : Char} (h : cls.space c = true) : cls.word c = false := by
  rw [Bool.eq_false_iff]
  intro hword
  rw [cls.disjoint c hword] at h
  cases h

@[simp] theorem word_colon : cls.word ':' = false := by
  rw [cls.word_ascii _ (by decide)]
  decide

@[simp] theorem space_colon : cls.space ':' = false := by
  rw [cls.space_ascii _ (by decide)]
  decide

/-! ## The patterns on plain instructions -/

/-- Spaces in front do not matter. -/
theorem keywordFrom_spaces {k : Char} {kw sp s : Text} (hk : cls.word k = true)
    (hsp : ∀ c ∈ sp, cls.space c = true) :
    cls.keywordFrom (k :: kw) true (sp ++ s) = cls.keywordFrom (k :: kw) true s := by
  induction sp with
  | nil => rfl
  | cons c sp ih =>
      have hc : cls.space c = true := hsp c (by simp)
      have hne : k ≠ c := by
        rintro rfl
        rw [cls.disjoint k hk] at hc
        cases hc
      rw [List.cons_append, CharClass.keywordFrom_skip hne, word_of_space hc]
      exact ih fun d hd => hsp d (List.mem_cons_of_mem _ hd)

/-- A keyword in a label is followed by the colon, not by an operand. -/
theorem keywordHere_label {kw lab sp s : Text} (hkw : cls.Word kw)
    (hlab : ∀ c ∈ lab, symChar cls c = true) (hsp : ∀ c ∈ sp, cls.space c = true) :
    cls.keywordHere kw (lab ++ (sp ++ ':' :: s)) = none := by
  have hrest : ∀ v, (∀ c ∈ v, symChar cls c = true) →
      ((v ++ (sp ++ ':' :: s)).takeWhile cls.space).isEmpty
        || (((v ++ (sp ++ ':' :: s)).dropWhile cls.space).takeWhile cls.word).isEmpty := by
    intro v hv
    cases v with
    | nil =>
        rw [List.nil_append, List.dropWhile_append_of_pos hsp]
        simp
    | cons d v => simp [space_of_symChar (hv d (by simp))]
  rw [CharClass.keywordHere]
  split
  · rename_i hpre
    obtain ⟨r, hr⟩ := List.isPrefixOf_iff_prefix.mp hpre
    dsimp only
    rw [← hr, List.drop_left]
    -- the match ends inside the label, or at its end: a keyword has no space or colon in it
    rcases List.append_eq_append_iff.mp hr with ⟨v, hlabv, hrv⟩ | ⟨v, hkwv, hspv⟩
    · rw [hrv, if_pos (hrest v fun c hc => hlab c (by rw [hlabv]; simp [hc]))]
    · have hv : v = [] := by
        cases v with
        | nil => rfl
        | cons d v =>
            have hd : cls.word d = true := hkw d (by rw [hkwv]; simp)
            cases sp with
            | nil =>
                rw [(List.cons.inj hspv).1.symm, word_colon] at hd
                cases hd
            | cons e sp =>
                rw [(List.cons.inj hspv).1.symm, word_of_space (hsp e (by simp))] at hd
                cases hd
      rw [hv, List.nil_append] at hspv
      have hnil := hrest [] (by simp)
      rw [List.nil_append, hspv] at hnil
      rw [if_pos hnil]
  · rfl

/-- No keyword is found in a label. -/
theorem keywordFrom_label {k : Char} {kw lab sp s : Text} (hkw : cls.Word (k :: kw))
    (hlab : ∀ c ∈ lab, symChar cls c = true) (hsp : ∀ c ∈ sp, cls.space c = true)
    (boundary : Bool) :
    cls.keywordFrom (k :: kw) boundary (lab ++ (sp ++ ':' :: s))
      = cls.keywordFrom (k :: kw) true s := by
  have hk : cls.word k = true := hkw k (by simp)
  induction lab generalizing boundary with
  | nil =>
      rw [List.nil_append]
      induction sp generalizing boundary with
      | nil =>
          have hne : k ≠ ':' := by
            rintro rfl
            rw [word_colon] at hk
            cases hk
          rw [List.nil_append, CharClass.keywordFrom_skip hne, word_colon]
          rfl
      | cons c sp ih =>
          have hne : k ≠ c := by
            rintro rfl
            rw [word_of_space (hsp k (by simp))] at hk
            cases hk
          rw [List.cons_append, CharClass.keywordFrom_skip hne]
          exact ih (fun d hd => hsp d (List.mem_cons_of_mem _ hd)) _
  | cons c lab ih =>
      have hhere := keywordHere_label hkw hlab hsp (s := s)
      rw [List.cons_append] at hhere
      rw [List.cons_append, CharClass.keywordFrom, hhere]
      have hrest := ih (fun d hd => hlab d (List.mem_cons_of_mem _ hd)) (!cls.word c)
      cases boundary <;> exact hrest

/-- What stands in front of a statement is passed over. -/
theorem keyword_statement {k : Char} {kw : Text} (hkw : cls.Word (k :: kw)) (line : Line) :
    cls.keyword (k :: kw) line = cls.keywordFrom (k :: kw) true (statement cls line) := by
  have hk : cls.word k = true := hkw k (by simp)
  have hspaces : ∀ s : Text, cls.keywordFrom (k :: kw) true (s.dropWhile cls.space)
      = cls.keywordFrom (k :: kw) true s := by
    intro s
    conv_rhs => rw [← List.takeWhile_append_dropWhile (p := cls.space) (l := s)]
    rw [keywordFrom_spaces hk]
    exact List.all_eq_true.mp List.all_takeWhile
  rw [CharClass.keyword, statement, hspaces]
  cases hlabel : labelOf cls line with
  | none => rfl
  | some l =>
      obtain ⟨name, rest⟩ := l
      rw [labelOf] at hlabel
      dsimp only at hlabel ⊢
      split at hlabel
      · rename_i found hcolon
        split at hlabel
        · cases hlabel
        · cases hlabel
          have hline : line.dropWhile cls.space
              = (line.dropWhile cls.space).takeWhile (symChar cls)
                ++ (((line.dropWhile cls.space).dropWhile (symChar cls)).takeWhile cls.space
                  ++ ':' :: rest) := by
            rw [← hcolon, List.takeWhile_append_dropWhile, List.takeWhile_append_dropWhile]
          rw [← hspaces line, hline]
          exact keywordFrom_label hkw (List.all_eq_true.mp List.all_takeWhile)
            (List.all_eq_true.mp List.all_takeWhile) true
      · cases hlabel

/-- The word part of a symbol is the word part of the text it starts. -/
theorem takeWhile_symChar (s : Text) :
    (s.takeWhile (symChar cls)).takeWhile cls.word = s.takeWhile cls.word := by
  rw [List.takeWhile_takeWhile]
  congr 1
  funext c
  cases hword : cls.word c with
  | false => simp
  | true => simp [symChar_of_word hword]

/-- **A plain instruction is found**: where the mnemonic is the keyword and
an operand follows, the search yields the word part of that operand. -/
theorem keyword_of_mnemonic {k : Char} {kw : Text} {line : Line} (hkw : cls.Word (k :: kw))
    (hmnemonic : mnemonic cls line = k :: kw)
    (hoperand : (operand cls line).head?.any cls.word = true) :
    cls.keyword (k :: kw) line = some ((operand cls line).takeWhile cls.word) := by
  rw [keyword_statement hkw]
  rw [mnemonic] at hmnemonic
  rw [operand] at hoperand ⊢
  rw [takeWhile_symChar]
  generalize statement cls line = s at hmnemonic hoperand ⊢
  have hs : s = k :: kw ++ s.dropWhile (symChar cls) := by
    rw [← hmnemonic, List.takeWhile_append_dropWhile]
  have hend : ∀ c s', s.dropWhile (symChar cls) = c :: s' → symChar cls c = false := by
    intro c s' hc
    have hne : s.dropWhile (symChar cls) ≠ [] := by simp [hc]
    have hfalse := List.head_dropWhile_not (symChar cls) hne
    simpa [hc] using hfalse
  generalize s.dropWhile (symChar cls) = rest at hs hend hoperand ⊢
  have hblank : (rest.takeWhile cls.space).isEmpty = false := by
    cases rest with
    | nil => cases hoperand
    | cons c rest =>
        cases hc : cls.space c with
        | true => simp [hc]
        | false => simp [hc, hend c rest rfl] at hoperand
  have hword : ((rest.dropWhile cls.space).takeWhile cls.word).isEmpty = false := by
    rw [← takeWhile_symChar]
    generalize (rest.dropWhile cls.space).takeWhile (symChar cls) = found at hoperand
    cases found with
    | nil => cases hoperand
    | cons c found =>
        have hc : cls.word c = true := hoperand
        simp [hc]
  have hhere : cls.keywordHere (k :: kw) s
      = some ((rest.dropWhile cls.space).takeWhile cls.word) := by
    rw [CharClass.keywordHere, hs, if_pos (List.isPrefixOf_iff_prefix.mpr (List.prefix_append _ _)),
      List.drop_left]
    dsimp only
    rw [hblank, hword]
    rfl
  rw [hs, List.cons_append, CharClass.keywordFrom, ← List.cons_append, ← hs, if_pos rfl, hhere]

theorem dirJump_of_call {f : Name} {line : Line} (h : isCallOf cls f line = true)
    (hf : f.head?.any cls.word = true) : dirJump cls line = some (f.takeWhile cls.word) := by
  rw [isCallOf, Bool.and_eq_true, beq_iff_eq, beq_iff_eq] at h
  obtain ⟨hmnemonic, rfl⟩ := h
  have hcall : "call".toList = 'c' :: "all".toList := by decide
  rw [dirJump, hcall]
  exact keyword_of_mnemonic (hcall ▸ word_call) (hcall ▸ hmnemonic) hf

theorem word_ra : cls.Word "ra".toList := CharClass.Word.of_ascii (by decide)

theorem retJump_of_jrRa {line : Line} (h : isJrRa cls line = true) :
    retJump cls line = some "ra".toList := by
  rw [isJrRa, Bool.and_eq_true, beq_iff_eq, beq_iff_eq] at h
  obtain ⟨hmnemonic, hoperand⟩ := h
  have hjr : "jr".toList = 'j' :: "r".toList := by decide
  have hword : "ra".toList.takeWhile cls.word = "ra".toList :=
    List.takeWhile_eq_self_iff.mpr word_ra
  rw [retJump, hjr, keyword_of_mnemonic (hjr ▸ word_jr) (hjr ▸ hmnemonic), hoperand, hword]
  rw [hoperand]
  exact word_ra 'r' (by decide)

/-! ## Labels -/

theorem word_of_identChar {c : Char} (h : identChar c = true) : cls.word c = true := by
  rw [cls.word_ascii c (wordAscii_bounds h).2]
  exact h

theorem identChar_of_start {c : Char} (h : identStart c = true) :
    identChar c = true ∧ c.isDigit = false := by
  rw [identStart, Bool.or_eq_true, beq_iff_eq] at h
  rcases h with h | rfl
  · constructor
    · simp [identChar, Char.isAlphanum, h]
    · simp only [Char.isAlpha, Char.isUpper, Char.isLower, Bool.or_eq_true, Bool.and_eq_true,
        decide_eq_true_eq, ge_iff_le, UInt32.le_iff_toNat_le] at h
      simp only [Char.isDigit, Bool.and_eq_false_iff, decide_eq_false_iff_not, ge_iff_le,
        UInt32.le_iff_toNat_le]
      right
      rcases h with h | h
      · exact Nat.not_le.mpr (Nat.lt_of_lt_of_le (by decide) h.1)
      · exact Nat.not_le.mpr (Nat.lt_of_lt_of_le (by decide) h.1)
  · decide

theorem space_of_blank {c : Char} (h : blank c = true) : cls.space c = true := by
  rw [blank, Bool.or_eq_true, beq_iff_eq, beq_iff_eq] at h
  rcases h with rfl | rfl
  · rw [cls.space_ascii _ (by decide)]
    decide
  · rw [cls.space_ascii _ (by decide)]
    decide

theorem funcStart_word {line : Line} {f : Name} (h : funcStart cls line = some f) :
    cls.Word f := by
  rw [funcStart] at h
  split at h
  · cases h
    exact fun c hc => word_of_identChar (List.all_eq_true.mp List.all_takeWhile c hc)
  · cases h

/-- The text behind a name in a label ends the symbol. -/
theorem labelEnd_head {s : Text} (h : labelEnd cls s = true) :
    s.takeWhile (symChar cls) = [] ∧ ∃ rest, s.dropWhile cls.space = ':' :: rest := by
  rw [labelEnd] at h
  split at h
  · rename_i rest hcolon
    refine ⟨?_, rest, hcolon⟩
    cases s with
    | nil => rfl
    | cons c s =>
        have hc : symChar cls c = false := by
          cases hsym : symChar cls c with
          | false => rfl
          | true =>
              rw [List.dropWhile_cons_of_neg (by simp [space_of_symChar hsym])] at hcolon
              rw [(List.cons.inj hcolon).1, symChar, word_colon] at hsym
              exact absurd hsym (by decide)
        rw [List.takeWhile_cons_of_neg (by simp [hc])]
  · cases h

/-- A function start in the sense of the instrumenter is a function label of
the same name. -/
theorem functionLabel_of_funcStart {line : Line} {f : Name} (h : funcStart cls line = some f) :
    functionLabel cls line = some f := by
  rw [funcStart] at h
  generalize hs : line.dropWhile blank = s at h
  split at h
  · rename_i hcond
    rw [Bool.and_eq_true] at hcond
    obtain ⟨hstart, hend⟩ := hcond
    cases h
    obtain ⟨hstop, rest, hcolon⟩ := labelEnd_head hend
    cases s with
    | nil => cases hstart
    | cons d s =>
        have hd : identStart d = true := by
          cases hident : identChar d with
          | false => simp [hident] at hstart
          | true => simpa [hident] using hstart
        obtain ⟨hident, hdigit⟩ := identChar_of_start hd
        have hword : cls.word d = true := word_of_identChar hident
        have hspaces : line.dropWhile cls.space = d :: s := by
          rw [← List.takeWhile_append_dropWhile (p := blank) (l := line), hs,
            List.dropWhile_append_of_pos, List.dropWhile_cons_of_neg]
          · simp [cls.disjoint d hword]
          · intro c hc
            exact space_of_blank (List.all_eq_true.mp List.all_takeWhile c hc)
        have hsplit : d :: s = (d :: s).takeWhile identChar ++ (d :: s).dropWhile identChar :=
          List.takeWhile_append_dropWhile.symm
        have hall : ∀ c ∈ (d :: s).takeWhile identChar, symChar cls c = true := fun c hc =>
          symChar_of_word (word_of_identChar (List.all_eq_true.mp List.all_takeWhile c hc))
        have hname : (d :: s).takeWhile (symChar cls) = (d :: s).takeWhile identChar := by
          conv_lhs => rw [hsplit]
          rw [List.takeWhile_append_of_pos hall, hstop, List.append_nil]
        have htail : (d :: s).dropWhile (symChar cls) = (d :: s).dropWhile identChar := by
          conv_lhs => rw [hsplit]
          rw [List.dropWhile_append_of_pos hall]
          conv_rhs => rw [← List.takeWhile_append_dropWhile (p := symChar cls)
            (l := (d :: s).dropWhile identChar), hstop]
          rfl
        rw [functionLabel, labelOf]
        simp only [hspaces, hname, htail, hcolon]
        simp [hident, hword, hdigit]
  · cases h

end RiscvTe
