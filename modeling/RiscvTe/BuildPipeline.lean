import RiscvTe.Instrumenter
import RiscvTe.Lib.Disk
import RiscvTe.Lib.EventRun
import RiscvTe.Lib.Shlex
import RiscvTe.SecureBuild

/-!
# The secure build (`secure_build` in `toolsExtra/flasher.py`)

What is left of an earlier build is removed from `toolsExtra`, the sources are
compiled to assembly there, the user's assembly is instrumented, and every `.s`
file that is then found in `toolsExtra` is assembled and linked. Each command is
a text that `shlex` takes apart, so a path counts as the words it falls into.

`secure_build_links` says what is linked: the assembly of the core sources as
compiled, that of the user sources as instrumented, and no file that was in
`toolsExtra` before. `gcc` is a parameter; the build is run in `toolsExtra`.
-/

namespace RiscvTe

open Disk Replace Scan Shlex

/-! ## Commands -/

/-- Why the build stops: `shlex` cannot take a command apart, a command fails
(`check=True`), or a file to be instrumented is not there. -/
inductive BuildStop where
  | valueError
  | calledProcessError
  | fileNotFound
  deriving DecidableEq, Repr

/-- The directory with the build's own files, where it is run. -/
def toolsExtra (directory : Text) : Text := directory ++ "/toolsExtra".toList

/-- The log is opened for appending in front of each command. -/
def openLog (directory : Text) (disk : Files Text) : Files Text :=
  if within (toolsExtra directory) "logs.log".toList ∈ disk then disk
  else disk.insert (within (toolsExtra directory) "logs.log".toList) []

/-- `run_command`: the program gets the words behind its name. -/
def runCommand {α : Type} (directory command : Text) (disk : Files Text)
    (program : List Text → Files Text → Except BuildStop α) : Except BuildStop α :=
  match split command with
  | none => .error .valueError
  | some words => program words.tail (openLog directory disk)

/-- `rm` fails if one of the files is not there. -/
def rm (paths : List Text) (disk : Files Text) : Except BuildStop (Files Text) :=
  if ∀ path ∈ paths, path ∈ disk then .ok (eraseAll disk paths) else .error .calledProcessError

/-- The files `gcc` is given: not the options, and not the word behind `-o`. -/
def gccInputs : Bool → List Text → List Text
  | _, [] => []
  | true, _ :: words => gccInputs false words
  | false, word :: words =>
      if word.head? = some '-' then gccInputs (word == "-o".toList) words
      else word :: gccInputs false words

/-- `gcc -S` on one source, for what the compiler makes of it. -/
def assemble (compile : Text → Option Text) (directory : Text) (disk : Files Text)
    (source : Text) : Except BuildStop (Files Text) :=
  match compile source with
  | some text => .ok (disk.insert (gccOutput directory source) text)
  | none => .error .calledProcessError

def gccAssemble (compile : Text → Option Text) (directory : Text) (words : List Text)
    (disk : Files Text) : Except BuildStop (Files Text) :=
  EventRun.run (assemble compile directory) disk (gccInputs false words)

/-- `gcc` as the linker: the files it is given, with their contents. -/
def gccLink (words : List Text) (disk : Files Text) :
    Except BuildStop (List (Text × Text)) :=
  if ∀ path ∈ gccInputs false words, path ∈ disk then
    .ok ((gccInputs false words).map fun path => (path, (disk.lookup path).getD []))
  else .error .calledProcessError

/-! ## `secure_build` -/

def gcc : Text := "riscv-none-elf-gcc".toList

/-- `CFLAGS` -/
def cflags (directory : Text) : List Text :=
  ["-W", "-Wall", "-Wextra", "-Werror", "-Wundef", "-Wshadow", "-pedantic",
    "-Wdouble-promotion", "-fno-common", "-Wconversion", "-march=rv32imc_zicsr",
    "-mabi=ilp32", "-O1", "-ffunction-sections", "-fdata-sections",
    "-fno-builtin-printf"].map String.toList
    ++ ["-I".toList ++ sourcesDirectory directory,
      "-I".toList ++ (directory ++ "/esp32c3".toList)]

/-- `LINKFLAGS` -/
def linkflags (directory : Text) : List Text :=
  ("-T".toList ++ (directory ++ "/esp32c3/link.ld".toList))
    :: ["-nostdlib", "-nostartfiles", "-Wl,--gc-sections"].map String.toList

/-- The files that `clear` deletes. -/
def generated (name : Text) : Bool :=
  ".bin".toList.isSuffixOf name || ".elf".toList.isSuffixOf name
    || ".s".toList.isSuffixOf name || ".log".toList.isSuffixOf name

def clear (directory : Text) (disk : Files Text) : Except BuildStop (Files Text) :=
  let filesToDelete := List.intercalate [' ']
    (((names disk (toolsExtra directory)).filter generated).map (within (toolsExtra directory)))
  if filesToDelete.isEmpty then .ok disk
  else runCommand directory ("rm".toList ++ ' ' :: filesToDelete) disk rm

/-- The instrumenter opens every file of its list and writes it back. -/
def instrumentFiles (cls : CharClass) (files : List Text) (disk : Files Text) :
    Except BuildStop (Files Text) :=
  if ∀ file ∈ files, file ∈ disk then
    .ok (writeAll disk files
      (instrument cls (fun file => (disk.lookup file).getD []) files).1.contents)
  else .error .fileNotFound

/-- The assembly files in `toolsExtra`. -/
def assemblyFiles (directory : Text) (disk : Files Text) : List Text :=
  ((names disk (toolsExtra directory)).filter ".s".toList.isSuffixOf).map
    (within (toolsExtra directory))

/-- `secure_build` up to the linker, and what that is given. -/
def secureBuild (cls : CharClass) (compile : Text → Option Text) (directory output : Text)
    (usercode : Listing) (disk : Files Text) : Except BuildStop (List (Text × Text)) := do
  let disk ← clear directory disk
  let disk ← runCommand directory
    (List.intercalate [' '] ([gcc, "-S".toList] ++ cflags directory ++ coreSources directory)
      ++ ' ' :: extraSources directory usercode) disk (gccAssemble compile directory)
  let disk ← instrumentFiles cls (filesToInstrument cls directory usercode) disk
  let allAssemblyFiles := List.intercalate [' '] (assemblyFiles directory disk)
  runCommand directory
    (gcc ++ ' ' :: (allAssemblyFiles
      ++ ' ' :: List.intercalate [' '] (linkflags directory
        ++ ["-o".toList, output ++ ".elf".toList]))) disk gccLink

/-! ## Command lines of plain words -/

/-- A word that is one word to the shell. -/
def PlainWord (word : Text) : Prop :=
  word ≠ [] ∧ ∀ c ∈ word, plain c = true ∧ whitespace c = false

theorem PlainWord.of_all {word : Text} (hne : word ≠ [])
    (h : (word.all fun c => plain c && !whitespace c) = true) : PlainWord word := by
  refine ⟨hne, fun c hc => ?_⟩
  have hcond := List.all_eq_true.mp h c hc
  rwa [Bool.and_eq_true, Bool.not_eq_true'] at hcond

theorem plain_of_all {words : List Text}
    (h : (words.all fun word => !word.isEmpty && word.all fun c => plain c && !whitespace c)
      = true) : ∀ word ∈ words, PlainWord word := by
  intro word hword
  have hcond := List.all_eq_true.mp h word hword
  rw [Bool.and_eq_true, Bool.not_eq_true', List.isEmpty_eq_false_iff] at hcond
  exact PlainWord.of_all hcond.1 hcond.2

theorem PlainWord.append {u v : Text} (hu : ∀ c ∈ u, plain c = true ∧ whitespace c = false)
    (hv : PlainWord v) : PlainWord (u ++ v) := by
  refine ⟨by simp [hv.1], fun c hc => ?_⟩
  rcases List.mem_append.mp hc with hc | hc
  · exact hu c hc
  · exact hv.2 c hc

theorem plain_intercalate {words : List Text} (h : ∀ word ∈ words, PlainWord word) :
    ∀ c ∈ List.intercalate [' '] words, plain c = true := by
  induction words with
  | nil => simp
  | cons word words ih =>
      have hword : ∀ c ∈ word, plain c = true := fun c hc => ((h word (by simp)).2 c hc).1
      cases words with
      | nil => simpa using hword
      | cons next words =>
          rw [List.intercalate_cons_cons]
          intro c hc
          simp only [List.mem_append, List.mem_singleton] at hc
          rcases hc with (hc | rfl) | hc
          · exact hword c hc
          · decide
          · exact ih (fun w hw => h w (List.mem_cons_of_mem _ hw)) c hc

theorem words_plain {words : List Text} (h : ∀ word ∈ words, PlainWord word) :
    Replace.words whitespace (List.intercalate [' '] words) = words :=
  words_intercalate (by decide) fun word hword =>
    ⟨(h word hword).1, fun c hc => ((h word hword).2 c hc).2⟩

/-- Two parts of a command. -/
theorem split_two {us vs : List Text} (hus : ∀ word ∈ us, PlainWord word)
    (hvs : ∀ word ∈ vs, PlainWord word) :
    split (List.intercalate [' '] us ++ ' ' :: List.intercalate [' '] vs) = some (us ++ vs) := by
  rw [split_plain, words_append_space (by decide), words_plain hus, words_plain hvs]
  intro c hc
  simp only [List.mem_append, List.mem_cons] at hc
  rcases hc with hc | rfl | hc
  · exact plain_intercalate hus c hc
  · decide
  · exact plain_intercalate hvs c hc

/-- Three parts, of which the first is one word. -/
theorem split_three {u : Text} {vs ws : List Text} (hu : PlainWord u)
    (hvs : ∀ word ∈ vs, PlainWord word) (hws : ∀ word ∈ ws, PlainWord word) :
    split (u ++ ' ' :: (List.intercalate [' '] vs ++ ' ' :: List.intercalate [' '] ws))
      = some (u :: (vs ++ ws)) := by
  rw [split_plain, words_append_space (by decide), words_append_space (by decide),
    words_singleton hu.1 fun c hc => (hu.2 c hc).2, words_plain hvs, words_plain hws,
    List.singleton_append]
  intro c hc
  simp only [List.mem_append, List.mem_cons] at hc
  rcases hc with hc | rfl | hc | rfl | hc
  · exact (hu.2 c hc).1
  · decide
  · exact plain_intercalate hvs c hc
  · decide
  · exact plain_intercalate hws c hc

/-! ## The arguments of `gcc` -/

/-- An option that takes no further word. -/
def IsOption (word : Text) : Prop := word.head? = some '-' ∧ word ≠ "-o".toList

theorem gccInputs_options {options words : List Text} (h : ∀ word ∈ options, IsOption word) :
    gccInputs false (options ++ words) = gccInputs false words := by
  induction options with
  | nil => rfl
  | cons word options ih =>
      obtain ⟨hdash, hne⟩ := h word (by simp)
      have hno : (word == "-o".toList) = false := by simpa using hne
      rw [List.cons_append, gccInputs, if_pos hdash, hno]
      exact ih fun w hw => h w (List.mem_cons_of_mem _ hw)

theorem gccInputs_files {files words : List Text} (h : ∀ file ∈ files, file.head? ≠ some '-') :
    gccInputs false (files ++ words) = files ++ gccInputs false words := by
  induction files with
  | nil => rfl
  | cons file files ih =>
      rw [List.cons_append, gccInputs, if_neg (h file (by simp)),
        ih fun f hf => h f (List.mem_cons_of_mem _ hf)]
      rfl

theorem option_append {u v : Text} (h : IsOption u) (hlong : 2 ≤ u.length)
    (hno : u.take 2 ≠ "-o".toList) : IsOption (u ++ v) := by
  obtain ⟨c, u, rfl⟩ := List.exists_cons_of_length_pos (by omega : 0 < u.length)
  refine ⟨h.1, fun heq => ?_⟩
  have htake := congrArg (List.take 2) heq
  rw [List.take_append_of_le_length hlong] at htake
  exact hno htake

/-- The part of `CFLAGS` that does not depend on the directory. -/
theorem cflags_options (directory : Text) : ∀ word ∈ cflags directory, IsOption word := by
  have hfixed : ∀ word ∈ ["-W", "-Wall", "-Wextra", "-Werror", "-Wundef", "-Wshadow",
      "-pedantic", "-Wdouble-promotion", "-fno-common", "-Wconversion",
      "-march=rv32imc_zicsr", "-mabi=ilp32", "-O1", "-ffunction-sections", "-fdata-sections",
      "-fno-builtin-printf"].map String.toList, IsOption word := by
    unfold IsOption
    decide
  intro word hword
  rcases List.mem_append.mp hword with hword | hword
  · exact hfixed word hword
  · simp only [List.mem_cons, List.not_mem_nil, or_false] at hword
    rcases hword with rfl | rfl
    · exact option_append ⟨by decide, by decide⟩ (by decide) (by decide)
    · exact option_append ⟨by decide, by decide⟩ (by decide) (by decide)

theorem linkflags_options (directory : Text) : ∀ word ∈ linkflags directory, IsOption word := by
  have hfixed : ∀ word ∈ ["-nostdlib", "-nostartfiles", "-Wl,--gc-sections"].map String.toList,
      IsOption word := by
    unfold IsOption
    decide
  intro word hword
  rcases List.mem_cons.mp hword with rfl | hword
  · exact option_append ⟨by decide, by decide⟩ (by decide) (by decide)
  · exact hfixed word hword

/-! ## The steps -/

section Steps

variable {directory : Text}

theorem plain_directory (h : PlainWord directory) {rest : Text}
    (hrest : (rest.all fun c => plain c && !whitespace c) = true) :
    PlainWord (directory ++ rest) := by
  refine ⟨by simp [h.1], fun c hc => ?_⟩
  rcases List.mem_append.mp hc with hc | hc
  · exact h.2 c hc
  · have hcond := List.all_eq_true.mp hrest c hc
    rwa [Bool.and_eq_true, Bool.not_eq_true'] at hcond

theorem plain_within (h : PlainWord directory) {name : Text} (hname : PlainWord name) :
    PlainWord (within (toolsExtra directory) name) := by
  have hsplit : within (toolsExtra directory) name
      = (directory ++ "/toolsExtra/".toList) ++ name := by
    have hslash : "/toolsExtra/".toList = "/toolsExtra".toList ++ ['/'] := by decide
    rw [within, toolsExtra, hslash, ← List.append_assoc, List.append_assoc _ ['/'],
      List.singleton_append]
  rw [hsplit]
  exact PlainWord.append (plain_directory h (by decide)).2 hname

theorem within_head (hroot : directory.head? = some '/') (name : Text) :
    (within (toolsExtra directory) name).head? ≠ some '-' := by
  obtain ⟨rest, rfl⟩ := List.head?_eq_some_iff.mp hroot
  simp [within, toolsExtra]

/-- Opening the log puts at most the log there. -/
theorem lookup_openLog {disk : Files Text} {path : Text}
    (h : path ≠ within (toolsExtra directory) "logs.log".toList) :
    (openLog directory disk).lookup path = disk.lookup path := by
  unfold openLog
  split
  · rfl
  · exact AList.lookup_insert_ne h

theorem mem_openLog {disk : Files Text} {path : Text} (h : path ∈ disk) :
    path ∈ openLog directory disk := by
  unfold openLog
  split
  · exact h
  · exact (AList.mem_insert disk).mpr (.inr h)

/-- No assembly file is the log. -/
theorem assembly_ne_log {name : Text} (h : ".s".toList.isSuffixOf name = true) :
    within (toolsExtra directory) name ≠ within (toolsExtra directory) "logs.log".toList := by
  intro heq
  rw [within_inj heq] at h
  exact absurd h (by decide)

theorem mem_assemblyFiles {disk : Files Text} {path : Text} :
    path ∈ assemblyFiles directory disk
      ↔ path ∈ disk ∧ ∃ name, path = within (toolsExtra directory) name ∧ '/' ∉ name
          ∧ ".s".toList.isSuffixOf name = true := by
  rw [assemblyFiles, List.mem_map]
  constructor
  · intro h
    obtain ⟨name, hname, rfl⟩ := h
    obtain ⟨hin, hsuffix⟩ := List.mem_filter.mp hname
    obtain ⟨hdisk, hslash⟩ := mem_names.mp hin
    exact ⟨hdisk, name, rfl, hslash, hsuffix⟩
  · intro h
    obtain ⟨hdisk, name, rfl, hslash, hsuffix⟩ := h
    exact ⟨name, List.mem_filter.mpr ⟨mem_names.mpr ⟨hdisk, hslash⟩, hsuffix⟩, rfl⟩

theorem assemblyFiles_nodup (directory : Text) (disk : Files Text) :
    (assemblyFiles directory disk).Nodup :=
  ((names_nodup disk _).filter _).map fun _ _ h => within_inj h

/-- The names in `toolsExtra` that `clear` looks at are plain. -/
def PlainLeftovers (directory : Text) (disk : Files Text) : Prop :=
  ∀ name ∈ names disk (toolsExtra directory), generated name = true → PlainWord name

/-- **Clearing** leaves no assembly file. -/
theorem clear_ok (hdirectory : PlainWord directory) {disk : Files Text}
    (hleft : PlainLeftovers directory disk) :
    ∃ disk', clear directory disk = .ok disk' ∧ assemblyFiles directory disk' = [] := by
  have hfiles : ∀ path ∈ ((names disk (toolsExtra directory)).filter generated).map
      (within (toolsExtra directory)), PlainWord path ∧ path ∈ disk := by
    intro path hpath
    obtain ⟨name, hname, rfl⟩ := List.mem_map.mp hpath
    obtain ⟨hin, hgenerated⟩ := List.mem_filter.mp hname
    exact ⟨plain_within hdirectory (hleft name hin hgenerated), (mem_names.mp hin).1⟩
  unfold clear
  generalize hpaths : ((names disk (toolsExtra directory)).filter generated).map
    (within (toolsExtra directory)) = paths at hfiles ⊢
  have hlisted : ∀ path ∈ assemblyFiles directory disk, path ∈ paths := by
    intro path hpath
    obtain ⟨hdisk, name, rfl, hslash, hsuffix⟩ := mem_assemblyFiles.mp hpath
    rw [← hpaths]
    refine List.mem_map_of_mem (List.mem_filter.mpr ⟨mem_names.mpr ⟨hdisk, hslash⟩, ?_⟩)
    rw [generated, hsuffix, Bool.or_true, Bool.true_or]
  have hplain : ∀ word ∈ paths, PlainWord word := fun path hpath => (hfiles path hpath).1
  dsimp only
  split
  · rename_i hempty
    refine ⟨disk, rfl, List.eq_nil_iff_forall_not_mem.mpr fun path hpath => ?_⟩
    -- nothing to delete: there was no assembly file
    have hnil : paths = [] := by
      have hwords := words_plain hplain
      rw [List.isEmpty_iff.mp hempty] at hwords
      exact hwords.symm
    have hin := hlisted path hpath
    rw [hnil] at hin
    cases hin
  · have hsplit := @split_two ["rm".toList] paths
      (by
        intro word hword
        rw [List.mem_singleton.mp hword]
        exact PlainWord.of_all (by decide) (by decide)) hplain
    rw [List.intercalate_singleton] at hsplit
    have hthere : ∀ path ∈ paths, path ∈ openLog directory disk :=
      fun path hpath => mem_openLog (hfiles path hpath).2
    refine ⟨eraseAll (openLog directory disk) paths, ?_, ?_⟩
    · rw [runCommand, hsplit]
      exact if_pos hthere
    · refine List.eq_nil_iff_forall_not_mem.mpr fun path hpath => ?_
      obtain ⟨hin, name, rfl, hslash, hsuffix⟩ := mem_assemblyFiles.mp hpath
      obtain ⟨hlog, hnot⟩ := mem_eraseAll.mp hin
      rw [← AList.lookup_isSome, lookup_openLog (assembly_ne_log hsuffix),
        AList.lookup_isSome] at hlog
      exact hnot (hlisted _ (mem_assemblyFiles.mpr ⟨hlog, name, rfl, hslash, hsuffix⟩))

/-- **Compiling** puts the assembly of each source where it belongs. -/
theorem assemble_ok {compile : Text → Option Text} {sources : List Text}
    (hdistinct : (sources.map (gccOutput directory)).Nodup)
    (hcompile : ∀ source ∈ sources, (compile source).isSome = true) (disk : Files Text) :
    ∃ disk', EventRun.run (assemble compile directory) disk sources = .ok disk'
      ∧ (∀ source ∈ sources, disk'.lookup (gccOutput directory source) = compile source)
      ∧ ∀ path, path ∉ sources.map (gccOutput directory) →
          disk'.lookup path = disk.lookup path := by
  induction sources generalizing disk with
  | nil => exact ⟨disk, rfl, by simp, fun _ _ => rfl⟩
  | cons source sources ih =>
      rw [List.map_cons, List.nodup_cons] at hdistinct
      obtain ⟨text, htext⟩ := Option.isSome_iff_exists.mp (hcompile source (by simp))
      obtain ⟨disk', hrun, hthere, hother⟩ :=
        ih hdistinct.2 (fun s hs => hcompile s (by simp [hs]))
          (disk.insert (gccOutput directory source) text)
      refine ⟨disk', ?_, ?_, ?_⟩
      · rw [EventRun.run_cons, assemble, htext]
        exact hrun
      · intro s hs
        rcases List.mem_cons.mp hs with rfl | hs
        · rw [hother _ hdistinct.1, AList.lookup_insert, htext]
        · exact hthere s hs
      · intro path hpath
        rw [List.map_cons, List.mem_cons, not_or] at hpath
        rw [hother path hpath.2, AList.lookup_insert_ne hpath.1]

end Steps

/-! ## What is linked -/

section Linked

variable {cls : CharClass} {compile : Text → Option Text} {directory output : Text}
  {usercode : Listing} {disk : Files Text}

/-- The sources in the order of the command. -/
def allSources (directory : Text) (usercode : Listing) : List Text :=
  coreSources directory ++ (userFiles usercode).map (userSource directory)

/-- What the build relies on: the user sources are regular, the names that end
up in a command are single words, and the sources compile. -/
structure Buildable (cls : CharClass) (compile : Text → Option Text) (directory output : Text)
    (usercode : Listing) (disk : Files Text) : Prop where
  root : directory.head? = some '/'
  plainDirectory : PlainWord directory
  plainOutput : ∀ c ∈ output, plain c = true ∧ whitespace c = false
  users : ∀ file ∈ userFiles usercode, Regular cls directory file ∧ PlainWord file
  leftovers : PlainLeftovers directory disk
  compiles : ∀ source ∈ allSources directory usercode, (compile source).isSome = true

theorem coreOutputs_nodup (directory : Text) :
    ((coreSources directory).map (gccOutput directory)).Nodup := by
  rw [coreSources_output]
  apply List.Nodup.map_on _ (by decide : coreStems.Nodup)
  intro s _ t _ heq
  exact List.append_cancel_left (List.append_cancel_right heq)

/-- The outputs of all sources are distinct. -/
theorem outputs_nodup (h : Instrumented cls directory usercode) :
    ((allSources directory usercode).map (gccOutput directory)).Nodup := by
  rw [allSources, List.map_append]
  refine List.Nodup.append (coreOutputs_nodup directory) (h.exact ▸ h.distinct) ?_
  intro path hcore huser
  exact h.apart path (h.exact ▸ huser) hcore

/-- An output is an assembly file in `toolsExtra`. -/
theorem gccOutput_within (directory source : Text) :
    ∃ name, gccOutput directory source = within (toolsExtra directory) name ∧ '/' ∉ name
      ∧ ".s".toList.isSuffixOf name = true := by
  have hbase : '/' ∉ basename source := by
    rw [basename, List.mem_reverse]
    intro hin
    exact absurd (List.mem_takeWhile_imp hin) (by decide)
  refine ⟨stem (basename source) ++ ".s".toList, ?_, ?_, ?_⟩
  · have hslash : "/toolsExtra/".toList = "/toolsExtra".toList ++ ['/'] := by decide
    rw [gccOutput, within, toolsExtra, hslash]
    simp
  · intro hin
    rcases List.mem_append.mp hin with hin | hin
    · exact hbase (List.mem_of_mem_take hin)
    · revert hin
      decide
  · exact List.isSuffixOf_iff_suffix.mpr ⟨_, rfl⟩

theorem plain_sources (h : Buildable cls compile directory output usercode disk) :
    (∀ source ∈ coreSources directory, PlainWord source)
      ∧ ∀ source ∈ (userFiles usercode).map (userSource directory), PlainWord source := by
  constructor
  · intro source hsource
    simp only [coreSources, sourcesDirectory, List.append_assoc, List.mem_cons,
      List.not_mem_nil, or_false] at hsource
    rcases hsource with rfl | rfl | rfl | rfl
    all_goals exact plain_directory h.plainDirectory (by decide)
  · intro source hsource
    obtain ⟨file, hfile, rfl⟩ := List.mem_map.mp hsource
    rw [userSource, sourcesDirectory, List.append_assoc directory]
    exact PlainWord.append (plain_directory h.plainDirectory (by decide)).2 (h.users file hfile).2

theorem plain_cflags (h : PlainWord directory) : ∀ word ∈ cflags directory, PlainWord word := by
  intro word hword
  rcases List.mem_append.mp hword with hword | hword
  · exact plain_of_all (by decide) word hword
  · simp only [sourcesDirectory, List.mem_cons, List.not_mem_nil, or_false] at hword
    rcases hword with rfl | rfl
    all_goals
      exact PlainWord.append (PlainWord.of_all (by decide) (by decide)).2
        (plain_directory h (by decide))

theorem plain_linkflags (h : PlainWord directory) :
    ∀ word ∈ linkflags directory, PlainWord word := by
  intro word hword
  rcases List.mem_cons.mp hword with rfl | hword
  · exact PlainWord.append (PlainWord.of_all (by decide) (by decide)).2
      (plain_directory h (by decide))
  · exact plain_of_all (by decide) word hword

theorem root_append (h : directory.head? = some '/') (rest : Text) :
    (directory ++ rest).head? ≠ some '-' := by
  obtain ⟨below, rfl⟩ := List.head?_eq_some_iff.mp h
  simp

/-- The command that compiles. -/
theorem runCommand_gccAssemble (h : Buildable cls compile directory output usercode disk)
    (disk₁ : Files Text) :
    runCommand directory
        (List.intercalate [' '] ([gcc, "-S".toList] ++ cflags directory ++ coreSources directory)
          ++ ' ' :: extraSources directory usercode) disk₁ (gccAssemble compile directory)
      = EventRun.run (assemble compile directory) (openLog directory disk₁)
          (allSources directory usercode) := by
  have hwords : ∀ word ∈ [gcc, "-S".toList] ++ cflags directory ++ coreSources directory,
      PlainWord word := by
    intro word hword
    rcases List.mem_append.mp hword with hword | hword
    · rcases List.mem_append.mp hword with hword | hword
      · exact plain_of_all (by decide) word hword
      · exact plain_cflags h.plainDirectory word hword
    · exact (plain_sources h).1 word hword
  have hoptions : ∀ word ∈ "-S".toList :: cflags directory, IsOption word := by
    intro word hword
    rcases List.mem_cons.mp hword with rfl | hword
    · exact ⟨by decide, by decide⟩
    · exact cflags_options directory word hword
  have hfiles : ∀ file ∈ allSources directory usercode, file.head? ≠ some '-' := by
    intro file hfile
    rcases List.mem_append.mp hfile with hfile | hfile
    · simp only [coreSources, sourcesDirectory, List.append_assoc, List.mem_cons,
        List.not_mem_nil, or_false] at hfile
      rcases hfile with rfl | rfl | rfl | rfl
      all_goals exact root_append h.root _
    · obtain ⟨name, _, rfl⟩ := List.mem_map.mp hfile
      simp only [userSource, sourcesDirectory, List.append_assoc]
      exact root_append h.root _
  have hinputs : gccInputs false (("-S".toList :: cflags directory)
      ++ (allSources directory usercode ++ [])) = allSources directory usercode := by
    rw [gccInputs_options hoptions, gccInputs_files hfiles, gccInputs, List.append_nil]
  rw [List.append_nil] at hinputs
  rw [runCommand, extraSources, split_two hwords (plain_sources h).2]
  have htail : ([gcc, "-S".toList] ++ cflags directory ++ coreSources directory
      ++ (userFiles usercode).map (userSource directory)).tail
      = ("-S".toList :: cflags directory) ++ allSources directory usercode := by
    simp [allSources]
  dsimp only
  rw [htail, gccAssemble, hinputs]

/-- The command that links: `-o` and its word are the last. -/
theorem runCommand_gccLink (h : Buildable cls compile directory output usercode disk)
    {files : List Text} (hplain : ∀ file ∈ files, PlainWord file)
    (hroot : ∀ file ∈ files, file.head? ≠ some '-') {disk₁ : Files Text}
    (hthere : ∀ file ∈ files, file ∈ disk₁) :
    runCommand directory
        (gcc ++ ' ' :: (List.intercalate [' '] files
          ++ ' ' :: List.intercalate [' '] (linkflags directory
            ++ ["-o".toList, output ++ ".elf".toList]))) disk₁ gccLink
      = .ok (files.map fun path => (path, ((openLog directory disk₁).lookup path).getD [])) := by
  have hlast : ∀ word ∈ linkflags directory ++ ["-o".toList, output ++ ".elf".toList],
      PlainWord word := by
    intro word hword
    rcases List.mem_append.mp hword with hword | hword
    · exact plain_linkflags h.plainDirectory word hword
    · simp only [List.mem_cons, List.not_mem_nil, or_false] at hword
      rcases hword with rfl | rfl
      · exact PlainWord.of_all (by decide) (by decide)
      · exact PlainWord.append h.plainOutput (PlainWord.of_all (by decide) (by decide))
  have hinputs : gccInputs false (files ++ (linkflags directory
      ++ ["-o".toList, output ++ ".elf".toList])) = files := by
    rw [gccInputs_files hroot, gccInputs_options (linkflags_options directory), gccInputs,
      if_pos (by decide)]
    simp [gccInputs]
  rw [runCommand, split_three (PlainWord.of_all (by decide) (by decide)) hplain hlast]
  dsimp only
  rw [List.tail_cons, gccLink, hinputs]
  exact if_pos fun file hfile => mem_openLog (hthere file hfile)

/-- The assembly of all sources. -/
def allOutputs (directory : Text) (usercode : Listing) : List Text :=
  (allSources directory usercode).map (gccOutput directory)

/-- That of the user's. -/
def userOutputs (directory : Text) (usercode : Listing) : List Text :=
  ((userFiles usercode).map (userSource directory)).map (gccOutput directory)

/-- What is in `toolsExtra` when the linker is called: of the assembly files
those of this build. -/
theorem assemblyFiles_perm {disk₁ disk₂ : Files Text} {text : Text → Text}
    (hdistinct : (allOutputs directory usercode).Nodup)
    (hcleared : assemblyFiles directory disk₁ = [])
    (hthere : ∀ path ∈ allOutputs directory usercode, path ∈ disk₂)
    (hother : ∀ path, path ∉ allOutputs directory usercode →
      disk₂.lookup path = (openLog directory disk₁).lookup path) :
    (assemblyFiles directory (writeAll disk₂ (userOutputs directory usercode) text)).Perm
      (allOutputs directory usercode) := by
  refine (List.perm_ext_iff_of_nodup (assemblyFiles_nodup directory _) hdistinct).mpr ?_
  intro path
  rw [mem_assemblyFiles, ← AList.lookup_isSome, lookup_writeAll]
  constructor
  · intro h
    obtain ⟨hin, name, rfl, hslash, hsuffix⟩ := h
    by_contra hnot
    have huser : within (toolsExtra directory) name ∉ userOutputs directory usercode := by
      intro hin
      apply hnot
      rw [allOutputs, allSources, List.map_append]
      exact List.mem_append_right _ hin
    rw [if_neg huser, hother _ hnot, lookup_openLog (assembly_ne_log hsuffix),
      AList.lookup_isSome] at hin
    have hstale := mem_assemblyFiles.mpr ⟨hin, name, rfl, hslash, hsuffix⟩
    rw [hcleared] at hstale
    cases hstale
  · intro h
    refine ⟨?_, ?_⟩
    · split
      · rfl
      · exact AList.lookup_isSome.mpr (hthere path h)
    · obtain ⟨source, _, rfl⟩ := List.mem_map.mp h
      exact gccOutput_within directory source

theorem plain_gccOutput {source : Text} (hdirectory : PlainWord directory)
    (hsource : PlainWord source) : PlainWord (gccOutput directory source) := by
  have hstem : ∀ c ∈ stem (basename source), plain c = true ∧ whitespace c = false := by
    intro c hc
    have hbase := List.mem_of_mem_take hc
    rw [basename, List.mem_reverse] at hbase
    exact hsource.2 c (List.mem_reverse.mp (List.takeWhile_subset _ hbase))
  rw [gccOutput, List.append_assoc]
  exact PlainWord.append (plain_directory hdirectory (by decide)).2
    (PlainWord.append hstem (PlainWord.of_all (by decide) (by decide)))

/-- **What the secure build links**: each core source as it was compiled, each
user source as it was compiled and then instrumented, and nothing else,
whatever was in `toolsExtra` before, as long as the names are plain. -/
theorem secure_build_links (h : Buildable cls compile directory output usercode disk) :
    ∃ assembly : Text → Text,
      (∀ source ∈ allSources directory usercode,
        compile source = some (assembly (gccOutput directory source)))
      ∧ ∃ linked, secureBuild cls compile directory output usercode disk = .ok linked
        ∧ linked.Perm
          (((coreSources directory).map (gccOutput directory)).map
              (fun path => (path, assembly path))
            ++ (userOutputs directory usercode).map fun path =>
              (path, (instrument cls assembly (userOutputs directory usercode)).1.contents path)) := by
  have hinstrumented : Instrumented cls directory usercode :=
    instrumented_of_regular fun file hfile => (h.users file hfile).1
  have hexact : filesToInstrument cls directory usercode = userOutputs directory usercode :=
    hinstrumented.exact
  have houtputs : allOutputs directory usercode
      = (coreSources directory).map (gccOutput directory) ++ userOutputs directory usercode := by
    rw [allOutputs, allSources, List.map_append, userOutputs]
  have hdistinct : (allOutputs directory usercode).Nodup := outputs_nodup hinstrumented
  obtain ⟨disk₁, hclear, hcleared⟩ := clear_ok h.plainDirectory h.leftovers
  obtain ⟨disk₂, hassemble, hcompiled, hother⟩ :=
    assemble_ok hdistinct h.compiles (openLog directory disk₁)
  have hthere : ∀ path ∈ allOutputs directory usercode, path ∈ disk₂ := by
    intro path hpath
    obtain ⟨source, hsource, rfl⟩ := List.mem_map.mp hpath
    rw [← AList.lookup_isSome, hcompiled source hsource]
    exact h.compiles source hsource
  -- what the compiler left in each file, and what the instrumenter makes of it
  obtain ⟨assembly, hassembly⟩ : ∃ assembly : Text → Text,
      assembly = fun path => (disk₂.lookup path).getD [] := ⟨_, rfl⟩
  have hassembled : ∀ source ∈ allSources directory usercode,
      compile source = some (assembly (gccOutput directory source)) := by
    intro source hsource
    obtain ⟨result, hresult⟩ := Option.isSome_iff_exists.mp (h.compiles source hsource)
    simp only [hassembly, hcompiled source hsource, hresult, Option.getD_some]
  obtain ⟨text, htext⟩ : ∃ text : Text → Text,
      text = (instrument cls assembly (userOutputs directory usercode)).1.contents := ⟨_, rfl⟩
  have hperm : (assemblyFiles directory
      (writeAll disk₂ (userOutputs directory usercode) text)).Perm
        (allOutputs directory usercode) :=
    assemblyFiles_perm hdistinct hcleared hthere hother
  have hinstrument : instrumentFiles cls (filesToInstrument cls directory usercode) disk₂
      = .ok (writeAll disk₂ (userOutputs directory usercode) text) := by
    have hin : ∀ file ∈ userOutputs directory usercode, file ∈ disk₂ :=
      fun file hfile => hthere file (houtputs ▸ List.mem_append_right _ hfile)
    rw [hexact, instrumentFiles, if_pos hin, htext, hassembly]
  have hlookup (path : Text) : path ∈ allOutputs directory usercode →
      (openLog directory (writeAll disk₂ (userOutputs directory usercode) text)).lookup path
        = some (if path ∈ userOutputs directory usercode then text path else assembly path) := by
    intro hpath
    obtain ⟨source, hsource, rfl⟩ := List.mem_map.mp hpath
    obtain ⟨name, hname, _, hsuffix⟩ := gccOutput_within directory source
    rw [lookup_openLog (hname ▸ assembly_ne_log hsuffix), lookup_writeAll]
    split
    · rfl
    · rw [hcompiled source hsource, hassembled source hsource]
  have hlink := runCommand_gccLink h
    (fun file hfile => by
      obtain ⟨source, hsource, rfl⟩ := List.mem_map.mp (hperm.mem_iff.mp hfile)
      refine plain_gccOutput h.plainDirectory ?_
      rcases List.mem_append.mp hsource with hsource | hsource
      · exact (plain_sources h).1 source hsource
      · exact (plain_sources h).2 source hsource)
    (fun file hfile => by
      obtain ⟨_, name, rfl, _⟩ := mem_assemblyFiles.mp hfile
      exact within_head h.root name)
    (fun file hfile => (mem_assemblyFiles.mp hfile).1)
  have hbuild : secureBuild cls compile directory output usercode disk
      = .ok ((assemblyFiles directory
          (writeAll disk₂ (userOutputs directory usercode) text)).map fun path =>
            (path, ((openLog directory
              (writeAll disk₂ (userOutputs directory usercode) text)).lookup path).getD [])) := by
    rw [secureBuild, hclear]
    change (runCommand _ _ disk₁ _ >>= _) = _
    rw [runCommand_gccAssemble h disk₁, hassemble]
    change (instrumentFiles _ _ disk₂ >>= _) = _
    rw [hinstrument]
    exact hlink
  refine ⟨assembly, hassembled, _, hbuild, (hperm.map _).trans (List.Perm.of_eq ?_)⟩
  rw [houtputs, List.map_append]
  congr 1
  · refine List.map_congr_left fun path hpath => ?_
    rw [hlookup path (houtputs ▸ List.mem_append_left _ hpath), Option.getD_some, if_neg]
    exact fun huser => hinstrumented.apart path (hexact ▸ huser) hpath
  · refine List.map_congr_left fun path hpath => ?_
    rw [hlookup path (houtputs ▸ List.mem_append_right _ hpath), Option.getD_some,
      if_pos hpath, htext]

end Linked

/-- An assembly file of an earlier build, whose source is gone. -/
def leftover : Files Text := (∅ : Files Text).insert "/te/toolsExtra/old.s".toList "old:\n".toList

/-- `old.s` is not linked. -/
theorem secure_build_links_leftover :
    ∃ linked, secureBuild CharClass.ascii (fun _ => some "f:\n\tret\n".toList) "/te".toList
        "out".toList (oneFile "user_code.c".toList (by decide)) leftover = .ok linked
      ∧ (linked.map Prod.fst).Perm (["boot.s", "main.s", "intr_vector_table.s",
        "shadow_stack.s", "user_code.s"].map fun name =>
          "/te/toolsExtra/".toList ++ name.toList) := by
  have hbuildable : Buildable CharClass.ascii (fun _ => some "f:\n\tret\n".toList) "/te".toList
      "out".toList (oneFile "user_code.c".toList (by decide)) leftover := by
    refine ⟨by decide, PlainWord.of_all (by decide) (by decide),
      (PlainWord.of_all (by decide) (by decide)).2, ?_, ?_, by simp⟩
    · intro file hfile
      have hname : file = "user_code.c".toList := List.mem_singleton.mp (List.mem_filter.mp hfile).1
      subst hname
      exact ⟨⟨by decide, by decide +kernel, no_space (by decide), by decide⟩,
        PlainWord.of_all (by decide) (by decide)⟩
    · intro name hname _
      have hnames : names leftover (toolsExtra "/te".toList) = ["old.s".toList] := by decide
      rw [hnames, List.mem_singleton] at hname
      exact hname ▸ PlainWord.of_all (by decide) (by decide)
  obtain ⟨assembly, -, linked, hbuild, hperm⟩ := secure_build_links hbuildable
  refine ⟨linked, hbuild, (hperm.map Prod.fst).trans (List.Perm.of_eq ?_)⟩
  simp only [List.map_append, List.map_map, Function.comp_def]
  decide

end RiscvTe
