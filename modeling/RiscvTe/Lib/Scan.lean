import Mathlib

/-!
# Texts, lines and keywords

A text is a list of characters. `readlines` splits it behind its newlines;
texts whose only newlines end them (`Closed`) can be put together and read
back line by line (`readlines_flatten`).

`CharClass` stands for the tables behind the classes `\w` and `\s` of a
regular expression: any tables that agree with the known ones on ASCII.
`keyword kw` is the leftmost match of `\b(kw)\b\s+(\w+)`, as the text of the
second group.
-/

namespace Scan

abbrev Text := List Char

/-! ## Lines -/

/-- The lines of a text, each with its newline; the last may have none. -/
def readlines : Text → List Text
  | [] => []
  | c :: s =>
      if c = '\n' then [c] :: readlines s
      else
        match readlines s with
        | [] => [[c]]
        | l :: ls => (c :: l) :: ls

/-- One newline, at the end. -/
def Closed (l : Text) : Prop := ∃ s, '\n' ∉ s ∧ l = s ++ ['\n']

/-- What `readlines` yields: closed lines, the last of which may be open. -/
inductive Lines : List Text → Prop
  | nil : Lines []
  | last {l : Text} : l ≠ [] → '\n' ∉ l → Lines [l]
  | cons {l : Text} {ls : List Text} : Closed l → Lines ls → Lines (l :: ls)

theorem lines_readlines (s : Text) : Lines (readlines s) := by
  induction s with
  | nil => exact .nil
  | cons c s ih =>
      rw [readlines]
      split
      · rename_i hc
        exact .cons ⟨[], by simp, by rw [hc]; rfl⟩ ih
      · rename_i hc
        have hne : '\n' ≠ c := Ne.symm hc
        generalize readlines s = ls at ih
        cases ih with
        | nil => exact .last (by simp) (by simp [hne])
        | last hl hn => exact .last (by simp) (by simp [hne, hn])
        | cons hl hls =>
            obtain ⟨t, ht, rfl⟩ := hl
            exact .cons ⟨c :: t, by simp [hne, ht], rfl⟩ hls

theorem readlines_closed {s : Text} (h : '\n' ∉ s) (t : Text) :
    readlines (s ++ '\n' :: t) = (s ++ ['\n']) :: readlines t := by
  induction s with
  | nil => rw [List.nil_append, readlines, if_pos rfl, List.nil_append]
  | cons c s ih =>
      have hc : c ≠ '\n' := by
        rintro rfl
        exact h (by simp)
      have hs : '\n' ∉ s := fun hin => h (List.mem_cons_of_mem _ hin)
      rw [List.cons_append, readlines, if_neg hc, ih hs]
      rfl

theorem readlines_open {s : Text} (hne : s ≠ []) (h : '\n' ∉ s) : readlines s = [s] := by
  induction s with
  | nil => exact absurd rfl hne
  | cons c s ih =>
      have hc : c ≠ '\n' := by
        rintro rfl
        exact h (by simp)
      have hs : '\n' ∉ s := fun hin => h (List.mem_cons_of_mem _ hin)
      rw [readlines, if_neg hc]
      cases s with
      | nil => rfl
      | cons d s => rw [ih (by simp) hs]

/-- Lines put together and read again are the same lines. -/
theorem readlines_flatten {ls : List Text} (h : Lines ls) : readlines ls.flatten = ls := by
  induction h with
  | nil => rfl
  | last hne hn => simpa using readlines_open hne hn
  | cons hl _ ih =>
      obtain ⟨s, hs, rfl⟩ := hl
      rw [List.flatten_cons, List.append_assoc, List.singleton_append, readlines_closed hs, ih]

theorem Lines.append {xs ys : List Text} (hx : ∀ x ∈ xs, Closed x) (hy : Lines ys) :
    Lines (xs ++ ys) := by
  induction xs with
  | nil => exact hy
  | cons x xs ih =>
      exact .cons (hx x (by simp)) (ih fun x' hx' => hx x' (List.mem_cons_of_mem _ hx'))

/-- Closed lines put in front of each line leave lines. -/
theorem Lines.expand {α : Type} (line : α → Text) (block : α → List Text) {xs : List α}
    (h : Lines (xs.map line)) (hb : ∀ x ∈ xs, ∀ b ∈ block x, Closed b) :
    Lines (xs.flatMap fun x => block x ++ [line x]) := by
  induction xs with
  | nil => exact .nil
  | cons x xs ih =>
      have hrestBlocks : ∀ y ∈ xs, ∀ b ∈ block y, Closed b :=
        fun y hy => hb y (List.mem_cons_of_mem _ hy)
      rw [List.flatMap_cons, List.append_assoc]
      apply Lines.append (hb x (by simp))
      rw [List.map_cons] at h
      generalize hrest : xs.map line = rest at h
      cases h with
      | last hne hn =>
          have hnil : xs = [] := List.map_eq_nil_iff.mp hrest
          subst hnil
          exact .last hne hn
      | cons hl hls => exact .cons hl (ih (hrest ▸ hls) hrestBlocks)

/-! ## Character classes -/

/-- The word characters of ASCII. -/
def wordAscii (c : Char) : Bool := c.isAlphanum || c == '_'

theorem wordAscii_bounds {c : Char} (h : wordAscii c = true) :
    48 ≤ c.toNat ∧ c.toNat < 128 := by
  simp only [wordAscii, Char.isAlphanum, Char.isAlpha, Char.isUpper, Char.isLower, Char.isDigit,
    Bool.or_eq_true, Bool.and_eq_true, decide_eq_true_eq, beq_iff_eq, ge_iff_le,
    UInt32.le_iff_toNat_le] at h
  rcases h with ((h | h) | h) | rfl
  · exact ⟨Nat.le_trans (by decide) h.1, Nat.lt_of_le_of_lt h.2 (by decide)⟩
  · exact ⟨Nat.le_trans (by decide) h.1, Nat.lt_of_le_of_lt h.2 (by decide)⟩
  · exact ⟨h.1, Nat.lt_of_le_of_lt h.2 (by decide)⟩
  · decide

structure CharClass where
  word : Char → Bool
  space : Char → Bool
  disjoint : ∀ c, word c = true → space c = false
  word_ascii : ∀ c : Char, c.toNat < 128 → word c = wordAscii c
  space_ascii : ∀ c : Char, c.toNat < 128 →
    space c = (c == ' ' || (9 ≤ c.toNat && c.toNat ≤ 13) || (28 ≤ c.toNat && c.toNat ≤ 31))

namespace CharClass

/-- The tables cut down to ASCII. -/
def ascii : CharClass :=
  { word := wordAscii
    space := fun c =>
      c == ' ' || (9 ≤ c.toNat && c.toNat ≤ 13) || (28 ≤ c.toNat && c.toNat ≤ 31)
    disjoint := by
      intro c h
      have hword : 48 ≤ c.toNat := (wordAscii_bounds h).1
      have hblank : c ≠ ' ' := by
        rintro rfl
        exact absurd hword (by decide)
      simp only [Bool.or_eq_false_iff, beq_eq_false_iff_ne, Bool.and_eq_false_iff,
        decide_eq_false_iff_not]
      exact ⟨⟨hblank, .inr (by omega)⟩, .inr (by omega)⟩
    word_ascii := fun _ _ => rfl
    space_ascii := fun _ _ => rfl }

variable (cls : CharClass)

@[simp] theorem word_newline : cls.word '\n' = false := by
  rw [cls.word_ascii _ (by decide)]
  decide

@[simp] theorem space_newline : cls.space '\n' = true := by
  rw [cls.space_ascii _ (by decide)]
  decide

/-- A text of word characters, such as what `(\w+)` matches. -/
def Word (w : Text) : Prop := ∀ c ∈ w, cls.word c = true

theorem Word.of_ascii {cls : CharClass} {w : Text} (h : w.all wordAscii = true) :
    cls.Word w := by
  intro c hc
  have hascii : wordAscii c = true := List.all_eq_true.mp h c hc
  rw [cls.word_ascii c (wordAscii_bounds hascii).2, hascii]

/-- A text of word characters has no other ASCII character in it. -/
theorem Word.not_mem_ascii {cls : CharClass} {w : Text} (h : cls.Word w) {c : Char}
    (hc : c.toNat < 128) (hw : wordAscii c = false) : c ∉ w := by
  intro hin
  have hword := h c hin
  rw [cls.word_ascii c hc, hw] at hword
  cases hword

theorem Word.newline {cls : CharClass} {w : Text} (h : cls.Word w) : '\n' ∉ w :=
  h.not_mem_ascii (by decide) (by decide)

/-! ## Keywords -/

/-- `kw\b\s+(\w+)` at the start of the text. The second `\b` stands between
a letter and a space and holds by itself. -/
def keywordHere (kw s : Text) : Option Text :=
  if kw.isPrefixOf s then
    let rest := s.drop kw.length
    let operand := (rest.dropWhile cls.space).takeWhile cls.word
    if (rest.takeWhile cls.space).isEmpty || operand.isEmpty then none else some operand
  else none

/-- The leftmost match in the rest of a line; `boundary` tells whether a word
can start here. -/
def keywordFrom (kw : Text) : Bool → Text → Option Text
  | _, [] => none
  | boundary, c :: s =>
      match if boundary then cls.keywordHere kw (c :: s) else none with
      | some operand => some operand
      | none => keywordFrom kw (!cls.word c) s

/-- `re.search` of `\b(kw)\b\s+(\w+)`. -/
def keyword (kw s : Text) : Option Text := cls.keywordFrom kw true s

variable {cls}

theorem keywordHere_word {kw s w : Text} (h : cls.keywordHere kw s = some w) :
    w ≠ [] ∧ cls.Word w := by
  rw [keywordHere] at h
  split at h
  · dsimp only at h
    split at h
    · cases h
    · rename_i hne
      cases h
      constructor
      · rintro hnil
        rw [hnil] at hne
        simp at hne
      · intro c hc
        exact List.all_eq_true.mp List.all_takeWhile c hc
  · cases h

/-- What a keyword is found with is a word. -/
theorem keywordFrom_word {kw s w : Text} {boundary : Bool}
    (h : cls.keywordFrom kw boundary s = some w) : w ≠ [] ∧ cls.Word w := by
  induction s generalizing boundary with
  | nil => cases h
  | cons c s ih =>
      rw [keywordFrom] at h
      split at h
      · rename_i hhere
        cases h
        split at hhere
        · exact keywordHere_word hhere
        · cases hhere
      · exact ih h

theorem keyword_word {kw s w : Text} (h : cls.keyword kw s = some w) : w ≠ [] ∧ cls.Word w :=
  keywordFrom_word h

/-- A character the keyword does not start with is passed over. -/
theorem keywordFrom_skip {k c : Char} {kw s : Text} {boundary : Bool} (h : k ≠ c) :
    cls.keywordFrom (k :: kw) boundary (c :: s) = cls.keywordFrom (k :: kw) (!cls.word c) s := by
  have hhere : cls.keywordHere (k :: kw) (c :: s) = none := by
    rw [keywordHere, if_neg]
    simp [List.isPrefixOf, h]
  rw [keywordFrom, hhere]
  cases boundary <;> rfl

/-- A keyword needs a space and a word behind it: at the end of a line there
is neither. -/
theorem keywordHere_ending {kw w : Text} (hkw : cls.Word kw) (hw : cls.Word w) :
    cls.keywordHere kw (w ++ ['\n']) = none := by
  rw [keywordHere]
  split
  · rename_i hpre
    obtain ⟨r, hr⟩ := List.isPrefixOf_iff_prefix.mp hpre
    -- the match ends inside the word: a keyword has no newline in it
    have hrest : ∃ v, cls.Word v ∧ r = v ++ ['\n'] := by
      rcases List.append_eq_append_iff.mp hr with ⟨v, hwv, hrv⟩ | ⟨v, hkv, hnv⟩
      · exact ⟨v, fun c hc => hw c (by rw [hwv]; simp [hc]), hrv⟩
      · cases v with
        | nil => exact ⟨[], by simp [Word], by simpa using hnv.symm⟩
        | cons d v =>
            have hd : d = '\n' := (List.cons.inj hnv).1.symm
            exact absurd (hd ▸ hkv ▸ by simp : '\n' ∈ kw) hkw.newline
    obtain ⟨v, hv, rfl⟩ := hrest
    rw [← hr, List.drop_left]
    cases v with
    | nil => simp
    | cons d v =>
        have hd : cls.space d = false := cls.disjoint d (hv d (by simp))
        simp [hd]
  · rfl

theorem keywordFrom_ending {kw w : Text} (hkw : cls.Word kw) (hw : cls.Word w)
    (boundary : Bool) : cls.keywordFrom kw boundary (w ++ ['\n']) = none := by
  induction w generalizing boundary with
  | nil =>
      have hhere := keywordHere_ending (w := []) hkw hw
      rw [List.nil_append] at hhere
      rw [List.nil_append, keywordFrom, hhere]
      cases boundary <;> rfl
  | cons c w ih =>
      have hhere := keywordHere_ending hkw hw
      rw [List.cons_append] at hhere
      rw [List.cons_append, keywordFrom, hhere]
      have hrest := ih (fun d hd => hw d (List.mem_cons_of_mem _ hd)) (!cls.word c)
      cases boundary <;> exact hrest

end CharClass

end Scan
