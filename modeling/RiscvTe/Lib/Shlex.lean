import RiscvTe.Lib.Replace

/-!
# Splitting a command line as a POSIX shell does

The lexer of Python's `shlex.split`: words end at white space; single quotes
keep everything up to the next one, double quotes keep white space; a backslash
keeps the character behind it. A text that ends inside quotes or behind a
backslash has no words.

On a text without quotes and backslashes this is splitting at white space
(`split_plain`).
-/

namespace Shlex

open Replace

/-- Where in the text the lexer is. -/
inductive Place where
  | blank
  | word
  | quoted (q : Char)
  /-- behind a backslash, in the quotes if there are any -/
  | escaped (back : Option Char)
  deriving DecidableEq, Repr

/-- The word so far; `quoted` says that it exists even if it is empty. -/
structure Lexer where
  place : Place
  token : List Char
  quoted : Bool
  words : List (List Char)
  deriving DecidableEq, Repr

def whitespace (c : Char) : Bool := c == ' ' || c == '\t' || c == '\r' || c == '\n'

def quote (c : Char) : Bool := c == '\'' || c == '"'

def escape (c : Char) : Bool := c == '\\'

/-- The end of a word, if there is one. -/
def Lexer.finish (l : Lexer) : List (List Char) :=
  if l.token.isEmpty && !l.quoted then l.words else l.words ++ [l.token]

def Lexer.step (l : Lexer) (c : Char) : Lexer :=
  match l.place with
  | .blank =>
      if whitespace c then l
      else if escape c then { l with place := .escaped none }
      else if quote c then { l with place := .quoted c, quoted := true }
      else { l with place := .word, token := [c] }
  | .word =>
      if whitespace c then { place := .blank, token := [], quoted := false, words := l.finish }
      else if quote c then { l with place := .quoted c, quoted := true }
      else if escape c then { l with place := .escaped none }
      else { l with token := l.token ++ [c] }
  | .quoted q =>
      if c = q then { l with place := .word }
      else if escape c && q == '"' then { l with place := .escaped (some q) }
      else { l with token := l.token ++ [c] }
  | .escaped none => { l with place := .word, token := l.token ++ [c] }
  | .escaped (some q) =>
      -- in double quotes a backslash is kept in front of other characters
      { l with
        place := .quoted q
        token := l.token ++ (if escape c || c == q then [c] else ['\\', c]) }

def start : Lexer := { place := .blank, token := [], quoted := false, words := [] }

/-- `shlex.split`; `none` stands for a `ValueError`. -/
def split (s : List Char) : Option (List (List Char)) :=
  let l := s.foldl Lexer.step start
  match l.place with
  | .blank | .word => some l.finish
  | _ => none

/-- A character that stands for itself or separates. -/
def plain (c : Char) : Bool := !quote c && !escape c

theorem step_blank {ws : List (List Char)} {c : Char} (hc : plain c = true) :
    Lexer.step { place := .blank, token := [], quoted := false, words := ws } c
      = if whitespace c then { place := .blank, token := [], quoted := false, words := ws }
        else { place := .word, token := [c], quoted := false, words := ws } := by
  rw [plain, Bool.and_eq_true, Bool.not_eq_true', Bool.not_eq_true'] at hc
  simp [Lexer.step, hc]

theorem step_word {ws : List (List Char)} {token : List Char} (hne : token ≠ []) {c : Char}
    (hc : plain c = true) :
    Lexer.step { place := .word, token := token, quoted := false, words := ws } c
      = if whitespace c then
          { place := .blank, token := [], quoted := false, words := ws ++ [token] }
        else { place := .word, token := token ++ [c], quoted := false, words := ws } := by
  rw [plain, Bool.and_eq_true, Bool.not_eq_true', Bool.not_eq_true'] at hc
  simp [Lexer.step, hc, Lexer.finish, hne]

/-- The lexer from between two words, and from inside one. -/
theorem foldl_plain {s : List Char} (h : ∀ c ∈ s, plain c = true) (ws : List (List Char)) :
    (∃ l, s.foldl Lexer.step { place := .blank, token := [], quoted := false, words := ws } = l
        ∧ (l.place = .blank ∨ l.place = .word) ∧ l.finish = ws ++ words whitespace s)
      ∧ ∀ token : List Char, token ≠ [] → (∀ c ∈ token, whitespace c = false) →
        ∃ l, s.foldl Lexer.step { place := .word, token := token, quoted := false, words := ws } = l
          ∧ (l.place = .blank ∨ l.place = .word)
          ∧ l.finish = ws ++ words whitespace (token ++ s) := by
  induction s generalizing ws with
  | nil =>
      refine ⟨⟨_, rfl, .inl rfl, ?_⟩, fun token hne htoken => ⟨_, rfl, .inr rfl, ?_⟩⟩
      · simp [Lexer.finish, words]
      · simp [Lexer.finish, hne, words_singleton hne htoken]
  | cons c s ih =>
      have hc : plain c = true := h c (by simp)
      have hs : ∀ d ∈ s, plain d = true := fun d hd => h d (List.mem_cons_of_mem _ hd)
      rw [List.foldl_cons, step_blank hc]
      refine ⟨?_, fun token hne htoken => ?_⟩
      · cases hspace : whitespace c with
        | true =>
            rw [if_pos rfl, words_cons_space hspace]
            exact (ih hs ws).1
        | false =>
            rw [if_neg (by simp)]
            exact (ih hs ws).2 [c] (by simp) (by simpa using hspace)
      · rw [List.foldl_cons, step_word hne hc]
        cases hspace : whitespace c with
        | true =>
            have hnext := (ih hs (ws ++ [token])).1
            rw [List.append_assoc ws [token], List.singleton_append] at hnext
            rwa [if_pos rfl, words_append hspace hne htoken]
        | false =>
            rw [if_neg (by simp)]
            have hnext := (ih hs ws).2 (token ++ [c]) (by simp) (by
              intro d hd
              rcases List.mem_append.mp hd with hd | hd
              · exact htoken d hd
              · rw [List.mem_singleton.mp hd, hspace])
            rwa [List.append_assoc, List.singleton_append] at hnext

/-- **Without quotes and backslashes** a text is split at white space. -/
theorem split_plain {s : List Char} (h : ∀ c ∈ s, plain c = true) :
    split s = some (words whitespace s) := by
  obtain ⟨l, hl, hplace, hfinish⟩ := (foldl_plain h []).1
  rw [split, start, hl]
  rcases hplace with hplace | hplace
  · simp only [hplace, hfinish, List.nil_append]
  · simp only [hplace, hfinish, List.nil_append]

end Shlex
