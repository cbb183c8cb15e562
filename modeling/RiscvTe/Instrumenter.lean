import RiscvTe.Lib.Scan
import RiscvTe.Lib.Transducer

/-!
# The instrumenter (`toolsExtra/instrumenter.py`)

Files are texts as Python reads them, lines keep their newline. `isLeaf`
and `instrument` follow the loops of the source; `leaf_functions` and the
contents of the files are the state. Each file is rewritten after its own
loop, so a leaf query of a later file reads the rewritten text.

`instrument` also returns what it decided: one `Pass` for each entry of
`assembly_files`, with the lines as read and the checks put in front of each.
The counters and the progress messages are left out.
-/

namespace RiscvTe

open Scan

abbrev Line := Text

abbrev Name := Text

instance Name.lawfulBEq : LawfulBEq Name := inferInstance

/-! ## Patterns and templates -/

section Patterns

variable (cls : CharClass)

/-- `DIR_JUMP_PATTERN`: the label of a `call`. -/
def dirJump (line : Line) : Option Name := cls.keyword "call".toList line

/-- `RET_PATTERN`: the register of a `jr`. -/
def retJump (line : Line) : Option Name := cls.keyword "jr".toList line

def blank (c : Char) : Bool := c == ' ' || c == '\t'

def identStart (c : Char) : Bool := c.isAlpha || c == '_'

def identChar (c : Char) : Bool := c.isAlphanum || c == '_'

/-- `\s*:\s*$` -/
def labelEnd (s : Text) : Bool :=
  match s.dropWhile cls.space with
  | ':' :: s => s.all cls.space
  | _ => false

/-- `FUNC_START_PATTERN`: the name in front of the colon. -/
def funcStart (line : Line) : Option Name :=
  let s := line.dropWhile blank
  let name := s.takeWhile identChar
  if name.head?.any identStart && labelEnd cls (s.dropWhile identChar) then some name else none

/-- `target_pattern`, for a name of word characters. -/
def isTarget (functionName : Name) (line : Line) : Bool :=
  let s := line.dropWhile blank
  functionName.isPrefixOf s && labelEnd cls (s.drop functionName.length)

end Patterns

/-- `JUMP_TEMPLATE` -/
def jumpTemplate (label : Name) : Text :=
  "\tla  a7,".toList ++ label ++ "\n\tecall\n".toList

/-- `RET_TEMPLATE` -/
def retTemplate (label : Name) : Text :=
  "\tmv  a7,".toList ++ label ++ "\n\taddi\ta7,a7,1\n\tecall\n".toList

/-- `STD_C_FUNCS` -/
def stdCFuncs : List Name :=
  ["memset", "memcpy", "memmove", "memcmp", "strcpy", "strncpy", "strcmp", "strncmp",
    "strlen", "strstr", "bzero", "isalnum", "isalpha", "isascii", "isblank", "iscntrl",
    "isdigit", "islower", "isgraph", "isprint", "ispunct", "isspace", "isupper", "toupper",
    "tolower", "toascii", "memccpy", "memchr", "memrchr", "strcasecmp", "strcasestr", "strcat",
    "strdup", "strchr", "strcspn", "strcoll", "strlcat", "strlcpy", "strlwr", "strncasecmp",
    "strncat", "strndup", "strnlen", "strrchr", "strsep", "strspn", "strtok_r", "strupr",
    "longjmp", "setjmp", "abs", "div", "labs", "ldiv", "qsort", "rand_r", "rand", "srand",
    "utoa", "itoa", "atoi", "atol", "strtol", "strtoul", "printf", "__udivdi3", "__umoddi3",
    "uart_tx_one_char2", "uart_rx_one_char", "uart_rx_one_char_block", "uart_rx_readbuff",
    "__divdi3"].map String.toList

/-! ## The leaf analysis -/

/-- How the scan of `is_leaf` ends before the files do: at a `call` of the
function looked for, or at the label that follows it. -/
inductive LeafExit where
  | call
  | nextFunction
  deriving DecidableEq, Repr

section Analysis

variable {Path : Type} (cls : CharClass)

/-- The loop over the lines of one file; `found` is `function_found`. -/
def scanLines (functionName : Name) : Bool → List Line → Option LeafExit
  | _, [] => none
  | found, line :: lines =>
      if isTarget cls functionName line then scanLines functionName true lines
      else if found then
        if (funcStart cls line).isSome then some .nextFunction
        else if (dirJump cls line).isSome then some .call
        else scanLines functionName found lines
      else scanLines functionName found lines

/-- The loop over the files: `found` starts anew in each. -/
def leafExit (contents : Path → Text) (files : List Path) (functionName : Name) :
    Option LeafExit :=
  files.findSome? fun file => scanLines cls functionName false (readlines (contents file))

/-- `is_leaf`: the verdict and `leaf_functions` after it. Only the exit at a
following label records the name. -/
def isLeaf (contents : Path → Text) (files : List Path) (functionName : Name)
    (leafFunctions : List Name) : Bool × List Name :=
  match leafExit cls contents files functionName with
  | some .nextFunction => (true, leafFunctions ++ [functionName])
  | some .call => (false, leafFunctions)
  -- the scan ran off the end of the last file
  | none => (true, leafFunctions)

end Analysis

/-! ## The rewriting loop -/

/-- The variables the loop carries from line to line. -/
structure LineState where
  currFunction : Name
  leafFunctions : List Name
  deriving DecidableEq, Repr

/-- The checks put in front of a line: the label of a jump check, the
register of a return check. -/
structure Checks where
  jump : Option Name
  ret : Option Name
  deriving DecidableEq, Repr

/-- What is appended to `new_lines` for a line. -/
def newLines (entry : Line × Checks) : List Text :=
  (entry.2.jump.map jumpTemplate).toList ++ (entry.2.ret.map retTemplate).toList ++ [entry.1]

/-- One turn of the loop over the lines; `leafQuery` is `is_leaf` on the
files as they are. -/
def instrumentLine (cls : CharClass) (leafQuery : Name → List Name → Bool × List Name)
    (st : LineState) (line : Line) : LineState × Checks :=
  let currFunction := (funcStart cls line).getD st.currFunction
  let (jump, leafFunctions) :=
    match dirJump cls line with
    | none => (none, st.leafFunctions)
    | some label =>
        if label ∈ stdCFuncs then (none, st.leafFunctions)
        else
          let (leaf, leafFunctions) := leafQuery label st.leafFunctions
          (if leaf then none else some label, leafFunctions)
  -- a call on this very line may just have listed the current function
  let ret :=
    match retJump cls line with
    | none => none
    | some label => if currFunction ∈ leafFunctions then none else some label
  ({ currFunction := currFunction, leafFunctions := leafFunctions },
    { jump := jump, ret := ret })

/-- The loop over the lines of a file. -/
def instrumentLines (cls : CharClass) (leafQuery : Name → List Name → Bool × List Name)
    (st : LineState) (lines : List Line) : LineState × List (Line × Checks) :=
  Transducer.run (instrumentLine cls leafQuery) st lines

/-- The contents of the files and the global `leaf_functions`. -/
structure Store (Path : Type) where
  contents : Path → Text
  leafFunctions : List Name

/-- One file of the list, with its lines as read and the checks for each. -/
abbrev Pass (Path : Type) := Path × List (Line × Checks)

section Loop

variable {Path : Type} [DecidableEq Path] (cls : CharClass)

/-- One turn of the loop over the files, of which `files` is the whole list. -/
def instrumentFile (files : List Path) (s : Store Path) (file : Path) :
    Store Path × List (Line × Checks) :=
  let (st, body) := instrumentLines cls (isLeaf cls s.contents files)
    { currFunction := [], leafFunctions := s.leafFunctions } (readlines (s.contents file))
  ({ contents := Function.update s.contents file (body.flatMap newLines).flatten
     leafFunctions := st.leafFunctions }, body)

/-- `instrument`, in a fresh process: `leaf_functions` is empty. -/
def instrument (contents : Path → Text) (assemblyFiles : List Path) :
    Store Path × List (Pass Path) :=
  Transducer.run (instrumentFile cls assemblyFiles)
    { contents := contents, leafFunctions := [] } assemblyFiles

end Loop

/-! ## What the patterns need to see -/

section Colon

variable {cls : CharClass}

theorem colon_of_labelEnd {s : Text} (h : labelEnd cls s = true) : ':' ∈ s := by
  rw [labelEnd] at h
  split at h
  · rename_i heq
    exact List.dropWhile_subset cls.space (heq ▸ List.mem_cons_self)
  · cases h

/-- Without a colon there is no label. -/
theorem funcStart_none {line : Line} (h : ':' ∉ line) : funcStart cls line = none := by
  rw [funcStart]
  refine if_neg fun hlabel => h ?_
  exact List.dropWhile_subset _ (List.dropWhile_subset _
    (colon_of_labelEnd (Bool.and_eq_true_iff.mp hlabel).2))

theorem isTarget_false {name : Name} {line : Line} (h : ':' ∉ line) :
    isTarget cls name line = false := by
  rw [isTarget, Bool.and_eq_false_iff]
  right
  rw [Bool.eq_false_iff]
  intro hlabel
  exact h (List.dropWhile_subset _ (List.mem_of_mem_drop (colon_of_labelEnd hlabel)))

end Colon

end RiscvTe
