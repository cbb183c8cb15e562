import RiscvTe.Assembly

/-!
# The leaf verdict and its definition

A function is no leaf when one of its definitions has a `call` in it. The
scan of `is_leaf` goes through the definitions of the name in order, file by
file, and stops at the first one that settles the matter in its view: one
with a `call`, or one with another function behind it. The second stop is
the early `return True`: no definition behind it is looked at
(`leafExit_eq`).
-/

namespace RiscvTe

open Scan

variable {cls : CharClass}

/-! ## Definitions -/

/-- A definition in a file: its lines from the label on, and whether another
function starts behind them. -/
structure Body where
  lines : List Line
  followed : Bool
  deriving DecidableEq, Repr

section

variable (cls : CharClass) (name : Name)

/-- `FUNC_START_PATTERN` matches with another name. -/
def startsOther (line : Line) : Bool := (funcStart cls line).any fun other => other != name

/-- The lines up to the next start of another function, or to the end. -/
def bodyFrom (lines : List Line) : Body :=
  { lines := lines.takeWhile fun line => !startsOther cls name line
    followed := lines.any (startsOther cls name) }

/-- The definitions of the name in a file, one for each line that matches its
label. -/
def definitions : List Line → List Body
  | [] => []
  | line :: lines =>
      if isTarget cls name line then
        { bodyFrom cls name lines with lines := line :: (bodyFrom cls name lines).lines }
          :: definitions lines
      else definitions lines

/-- The definitions in the files, in the order of the list. -/
def definitionsIn {Path : Type} (contents : Path → Text) (files : List Path) : List Body :=
  files.flatMap fun file => definitions cls name (readlines (contents file))

/-- The definition contains a line with a `call`. -/
def Body.calls (body : Body) : Bool := body.lines.any fun line => (dirJump cls line).isSome

/-- What the scan makes of a definition. -/
def Body.exit (body : Body) : Option LeafExit :=
  if body.calls cls then some .call
  else if body.followed then some .nextFunction
  else none

/-- A definition without a call that another function follows comes before
all definitions with a call, and there are such. -/
def LeavesEarly (bodies : List Body) : Prop :=
  ∃ before body after, bodies = before ++ body :: after ∧ body.followed = true
    ∧ (∀ b ∈ before ++ [body], b.calls cls = false) ∧ ∃ b ∈ after, b.calls cls = true

end

/-! ## Target lines -/

/-- The name in front of the colon is the whole symbol there. -/
theorem symbol_of_labelEnd {name s : Text} (hname : cls.Word name) (hpre : name <+: s)
    (hend : labelEnd cls (s.drop name.length) = true) : s.takeWhile (symChar cls) = name := by
  obtain ⟨rest, rfl⟩ := hpre
  rw [List.drop_left] at hend
  rw [List.takeWhile_append_of_pos fun c hc => symChar_of_word (hname c hc),
    (labelEnd_head hend).1, List.append_nil]

theorem isTarget_symbol {name : Name} {line : Line} (hname : cls.Word name)
    (h : isTarget cls name line = true) :
    (line.dropWhile blank).takeWhile (symChar cls) = name := by
  rw [isTarget, Bool.and_eq_true] at h
  exact symbol_of_labelEnd hname (List.isPrefixOf_iff_prefix.mp h.1) h.2

theorem isTarget_of_funcStart {name : Name} {line : Line} (h : funcStart cls line = some name) :
    isTarget cls name line = true := by
  rw [funcStart] at h
  generalize hs : line.dropWhile blank = s at h
  split at h
  · rename_i hcond
    cases h
    have hsplit : s = s.takeWhile identChar ++ s.dropWhile identChar :=
      List.takeWhile_append_dropWhile.symm
    have hdrop : s.drop (s.takeWhile identChar).length = s.dropWhile identChar :=
      (congrArg (List.drop (s.takeWhile identChar).length) hsplit).trans List.drop_left
    rw [isTarget, hs, hdrop, Bool.and_eq_true]
    exact ⟨List.isPrefixOf_iff_prefix.mpr (List.takeWhile_prefix _),
      (Bool.and_eq_true_iff.mp hcond).2⟩
  · cases h

/-- On a line that matches the target no other function starts. -/
theorem startsOther_target {name : Name} {line : Line} (hname : cls.Word name)
    (h : isTarget cls name line = true) : startsOther cls name line = false := by
  rw [startsOther]
  cases hstart : funcStart cls line with
  | none => rfl
  | some other =>
      have hother := isTarget_symbol (funcStart_word hstart) (isTarget_of_funcStart hstart)
      rw [isTarget_symbol hname h] at hother
      simp [hother]

/-- On other lines every start is another function's. -/
theorem startsOther_eq {name : Name} {line : Line} (h : isTarget cls name line = false) :
    startsOther cls name line = (funcStart cls line).isSome := by
  rw [startsOther]
  cases hstart : funcStart cls line with
  | none => rfl
  | some other =>
      have hne : other ≠ name := by
        rintro rfl
        rw [isTarget_of_funcStart hstart] at h
        cases h
      simp [hne]

/-- A label line has no call in it. -/
theorem dirJump_target {name : Name} {line : Line} (hname : cls.Word name)
    (h : isTarget cls name line = true) : dirJump cls line = none := by
  rw [isTarget, Bool.and_eq_true] at h
  obtain ⟨hpre, hend⟩ := h
  obtain ⟨tail, htail⟩ := List.isPrefixOf_iff_prefix.mp hpre
  rw [← htail, List.drop_left, labelEnd] at hend
  split at hend
  · rename_i rest hcolon
    have hrest : ∀ c ∈ rest, cls.space c = true := List.all_eq_true.mp hend
    have hline : line = line.takeWhile blank
        ++ (name ++ (tail.takeWhile cls.space ++ ':' :: rest)) := by
      rw [← hcolon, List.takeWhile_append_dropWhile, htail, List.takeWhile_append_dropWhile]
    have hblanks : ∀ c ∈ line.takeWhile blank, cls.space c = true := fun c hc =>
      space_of_blank (List.all_eq_true.mp List.all_takeWhile c hc)
    have hcall : "call".toList = 'c' :: "all".toList := by decide
    have hword : cls.Word ('c' :: "all".toList) := hcall ▸ word_call
    have hc : cls.word 'c' = true := hword 'c' (by simp)
    rw [hline, dirJump, hcall, CharClass.keyword, keywordFrom_spaces hc hblanks,
      keywordFrom_label hword (fun c hc => symChar_of_word (hname c hc))
        (List.all_eq_true.mp List.all_takeWhile)]
    -- behind the colon there are spaces only
    have hspaces : cls.keywordFrom ('c' :: "all".toList) true (rest ++ [])
        = cls.keywordFrom ('c' :: "all".toList) true [] := keywordFrom_spaces hc hrest
    rwa [List.append_nil] at hspaces
  · cases hend

/-! ## The scan of a file -/

/-- Behind a label the scan finds what the definition has first: a call or
the next function. -/
theorem scanLines_found {name : Name} (hname : cls.Word name) (lines : List Line) :
    scanLines cls name true lines = (bodyFrom cls name lines).exit cls := by
  induction lines with
  | nil => rfl
  | cons line lines ih =>
      rw [scanLines]
      cases htarget : isTarget cls name line with
      | true =>
          have hstart := startsOther_target hname htarget
          rw [if_pos rfl, ih]
          simp [bodyFrom, Body.exit, Body.calls, hstart, dirJump_target hname htarget]
      | false =>
          have hstart := startsOther_eq htarget
          rw [if_neg Bool.false_ne_true, if_pos rfl]
          cases hother : (funcStart cls line).isSome with
          | true =>
              rw [hother] at hstart
              simp [bodyFrom, Body.exit, Body.calls, hstart]
          | false =>
              rw [hother] at hstart
              cases hjump : (dirJump cls line).isSome with
              | true => simp [bodyFrom, Body.exit, Body.calls, hstart, hjump]
              | false => simp [bodyFrom, Body.exit, Body.calls, hstart, hjump, ih]

/-- The lines of a definition are lines of the file, and what follows it does. -/
theorem definitions_within {name : Name} {lines : List Line} {body : Body}
    (h : body ∈ definitions cls name lines) :
    (∀ line ∈ body.lines, line ∈ lines)
      ∧ (body.followed = true → lines.any (startsOther cls name) = true) := by
  induction lines with
  | nil => cases h
  | cons line lines ih =>
      rw [definitions] at h
      have hlater : body ∈ definitions cls name lines →
          (∀ l ∈ body.lines, l ∈ line :: lines)
            ∧ (body.followed = true → (line :: lines).any (startsOther cls name) = true) := by
        intro hin
        obtain ⟨hlines, hfollowed⟩ := ih hin
        refine ⟨fun l hl => List.mem_cons_of_mem _ (hlines l hl), fun hf => ?_⟩
        rw [List.any_cons, hfollowed hf, Bool.or_true]
      split at h
      · rcases List.mem_cons.mp h with rfl | hin
        · refine ⟨fun l hl => ?_, fun hf => ?_⟩
          · rcases List.mem_cons.mp hl with rfl | hl
            · exact List.mem_cons_self
            · exact List.mem_cons_of_mem _ ((List.takeWhile_prefix _).subset hl)
          · rw [List.any_cons, Bool.or_eq_true]
            exact .inr hf
        · exact hlater hin
      · exact hlater h

theorem exit_eq_none {body : Body} :
    body.exit cls = none ↔ body.calls cls = false ∧ body.followed = false := by
  rw [Body.exit]
  cases body.calls cls <;> cases body.followed <;> decide

/-- **The scan of a file** goes through its definitions. A definition that
settles nothing runs to the end of the file, and those behind it are parts of
it. -/
theorem scanLines_eq {name : Name} (hname : cls.Word name) (lines : List Line) :
    scanLines cls name false lines = (definitions cls name lines).findSome? (Body.exit cls) := by
  induction lines with
  | nil => rfl
  | cons line lines ih =>
      rw [scanLines, definitions]
      cases htarget : isTarget cls name line with
      | false => simpa using ih
      | true =>
          rw [if_pos rfl, if_pos rfl, List.findSome?_cons, scanLines_found hname]
          have hfirst : Body.exit cls
              { bodyFrom cls name lines with lines := line :: (bodyFrom cls name lines).lines }
              = (bodyFrom cls name lines).exit cls := by
            simp [Body.exit, Body.calls, dirJump_target hname htarget]
          rw [hfirst]
          cases hexit : (bodyFrom cls name lines).exit cls with
          | some how => rfl
          | none =>
              obtain ⟨hcalls, hfollowed⟩ := exit_eq_none.mp hexit
              have hall : (bodyFrom cls name lines).lines = lines := by
                rw [bodyFrom, List.takeWhile_eq_self_iff]
                intro l hl
                rw [Bool.not_eq_true']
                exact Bool.eq_false_iff.mpr (List.any_eq_false.mp hfollowed l hl)
              rw [Body.calls, hall] at hcalls
              symm
              rw [List.findSome?_eq_none_iff]
              intro body hbody
              obtain ⟨hlines, hf⟩ := definitions_within hbody
              refine exit_eq_none.mpr ⟨?_, ?_⟩
              · rw [Body.calls, List.any_eq_false]
                exact fun l hl => List.any_eq_false.mp hcalls l (hlines l hl)
              · rw [Bool.eq_false_iff]
                intro hbad
                exact absurd (hf hbad) (Bool.eq_false_iff.mp hfollowed)

/-! ## The verdict -/

section Files

variable {Path : Type} {contents : Path → Text} {files : List Path} {name : Name}

/-- The scan of all files goes through all definitions. -/
theorem leafExit_eq (hname : cls.Word name) :
    leafExit cls contents files name
      = (definitionsIn cls name contents files).findSome? (Body.exit cls) := by
  rw [leafExit, definitionsIn]
  induction files with
  | nil => rfl
  | cons file files ih =>
      rw [List.findSome?_cons, List.flatMap_cons, List.findSome?_append, ih,
        scanLines_eq hname]
      cases (definitions cls name (readlines (contents file))).findSome? (Body.exit cls) <;> rfl

theorem isLeaf_verdict (leafFunctions : List Name) :
    (isLeaf cls contents files name leafFunctions).1 = false
      ↔ leafExit cls contents files name = some .call := by
  rw [isLeaf]
  cases leafExit cls contents files name with
  | none => simp
  | some how => cases how <;> simp

theorem exit_call_iff {body : Body} : body.exit cls = some .call ↔ body.calls cls = true := by
  rw [Body.exit]
  cases body.calls cls <;> cases body.followed <;> decide

theorem exit_nextFunction_iff {body : Body} :
    body.exit cls = some .nextFunction ↔ body.calls cls = false ∧ body.followed = true := by
  rw [Body.exit]
  cases body.calls cls <;> cases body.followed <;> decide

/-- The first definition that settles the matter calls, unless the scan leaves
early. -/
theorem firstExit_iff (bodies : List Body) :
    (bodies.findSome? (Body.exit cls) = some .call ↔ ∃ body ∈ bodies, body.calls cls = true)
      ↔ ¬ LeavesEarly cls bodies := by
  constructor
  · intro hagree hearly
    obtain ⟨before, body, after, rfl, hfollowed, hnone, b, hb, hcalls⟩ := hearly
    have hcall := hagree.mpr ⟨b, by simp [hb], hcalls⟩
    have hsplit : before ++ body :: after = (before ++ [body]) ++ after := by simp
    rw [hsplit, List.findSome?_append] at hcall
    cases hfirst : (before ++ [body]).findSome? (Body.exit cls) with
    | none =>
        have hexit := List.findSome?_eq_none_iff.mp hfirst body (by simp)
        rw [exit_nextFunction_iff.mpr ⟨hnone body (by simp), hfollowed⟩] at hexit
        cases hexit
    | some how =>
        -- none of the first definitions calls, so the scan has left at a label
        rw [hfirst, Option.some_or] at hcall
        cases hcall
        obtain ⟨d, hd, hexit⟩ := List.exists_of_findSome?_eq_some hfirst
        rw [exit_call_iff, hnone d hd] at hexit
        cases hexit
  · intro hearly
    constructor
    · intro hcall
      obtain ⟨body, hbody, hexit⟩ := List.exists_of_findSome?_eq_some hcall
      exact ⟨body, hbody, exit_call_iff.mp hexit⟩
    · intro hcalling
      obtain ⟨body, hbody, hcalls⟩ := hcalling
      cases hexit : bodies.findSome? (Body.exit cls) with
      | none =>
          have hnone := List.findSome?_eq_none_iff.mp hexit body hbody
          rw [exit_call_iff.mpr hcalls] at hnone
          cases hnone
      | some how =>
          cases how with
          | call => rfl
          | nextFunction =>
              exfalso
              obtain ⟨l, d, r, rfl, hd, hl⟩ := List.findSome?_eq_some_iff.mp hexit
              obtain ⟨hdcalls, hfollowed⟩ := exit_nextFunction_iff.mp hd
              have hfirst : ∀ b ∈ l ++ [d], b.calls cls = false := by
                intro b hb
                rcases List.mem_append.mp hb with hb | hb
                · exact (exit_eq_none.mp (hl b hb)).1
                · rwa [List.mem_singleton.mp hb]
              refine hearly ⟨l, d, r, rfl, hfollowed, hfirst, body, ?_, hcalls⟩
              rcases List.mem_append.mp hbody with hin | hin
              · rw [hfirst body (List.mem_append_left _ hin)] at hcalls
                cases hcalls
              · rcases List.mem_cons.mp hin with rfl | hin
                · rw [hdcalls] at hcalls
                  cases hcalls
                · exact hin

/-- A call in the first definition settles the matter. -/
theorem not_leavesEarly {body : Body} {bodies : List Body} (h : body.calls cls = true) :
    ¬ LeavesEarly cls (body :: bodies) := by
  intro hearly
  obtain ⟨before, b, after, hsplit, -, hnone, -⟩ := hearly
  have hin : body ∈ before ++ [b] := by
    cases before with
    | nil => simp [(List.cons.inj hsplit).1]
    | cons d before => simp [(List.cons.inj hsplit).1]
  rw [hnone body hin] at h
  cases h

/-- **When the leaf verdict is the definition's.** For every name and every
list of files: `is_leaf` says `False` for the names some definition of which
has a call in it, exactly if the scan does not leave early. A name without a
definition is a leaf in any case. -/
theorem leaf_verdict_iff (contents : Path → Text) (files : List Path) (name : Name)
    (hname : cls.Word name) (leafFunctions : List Name) :
    (((isLeaf cls contents files name leafFunctions).1 = false
          ↔ ∃ body ∈ definitionsIn cls name contents files, body.calls cls = true)
        ↔ ¬ LeavesEarly cls (definitionsIn cls name contents files))
      ∧ (definitionsIn cls name contents files = [] →
        (isLeaf cls contents files name leafFunctions).1 = true) := by
  rw [isLeaf_verdict, leafExit_eq hname]
  refine ⟨firstExit_iff _, fun hnone => ?_⟩
  rw [← Bool.not_eq_false, isLeaf_verdict, leafExit_eq hname, hnone]
  simp

/-- Where the scan leaves early in no order of the files, the order does not
matter. -/
theorem leaf_verdict_perm {files' : List Path} (hname : cls.Word name) (hperm : files.Perm files')
    (h : ¬ LeavesEarly cls (definitionsIn cls name contents files))
    (h' : ¬ LeavesEarly cls (definitionsIn cls name contents files'))
    (leafFunctions : List Name) :
    (isLeaf cls contents files name leafFunctions).1
      = (isLeaf cls contents files' name leafFunctions).1 := by
  have hsame : (definitionsIn cls name contents files).Perm
      (definitionsIn cls name contents files') := hperm.flatMap_right _
  rw [Bool.eq_iff_iff, ← Bool.not_eq_false, ← Bool.not_eq_false, isLeaf_verdict, isLeaf_verdict,
    leafExit_eq hname, leafExit_eq hname, (firstExit_iff _).mpr h, (firstExit_iff _).mpr h']
  simp only [hsame.mem_iff]

end Files

/-! ## Two functions of one name -/

/-- A static `f` without a call, another function behind it; and a file with
an `f` that calls. -/
def staticTwice : Bool → Text
  | false => "f:\n\tjr\tra\ng:\n\tjr\tra\n".toList
  | true => "f:\n\tcall\th\n\tjr\tra\n".toList

/-- The other way round the scan meets the call first. -/
theorem leaf_verdict_callFirst :
    (isLeaf CharClass.ascii staticTwice [true, false] "f".toList []).1 = false
      ↔ ∃ body ∈ definitionsIn CharClass.ascii "f".toList staticTwice [true, false],
          body.calls CharClass.ascii = true :=
  (leaf_verdict_iff staticTwice [true, false] "f".toList (CharClass.Word.of_ascii (by decide))
    []).1.mpr (not_leavesEarly (by decide))

/-- With the leaf first the verdict is `True`, although the other `f` calls. -/
theorem leaf_verdict_wrong :
    ¬ ∀ (contents : Bool → Text) (files : List Bool) (name : Name), CharClass.ascii.Word name →
      ((isLeaf CharClass.ascii contents files name []).1 = false
        ↔ ∃ body ∈ definitionsIn CharClass.ascii name contents files,
            body.calls CharClass.ascii = true) := by
  intro h
  have hagree := h staticTwice [false, true] "f".toList (CharClass.Word.of_ascii (by decide))
  revert hagree
  decide

end RiscvTe
