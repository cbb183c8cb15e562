import RiscvTe.Lib.Replace
import RiscvTe.Lib.Scan

/-!
# The files that `secure_build` instruments (`toolsExtra/flasher.py`)

The user's sources are listed, joined to one text, split again at white space,
and turned into the paths of their assembly files by two replacements over the
whole path. `Instrumented` is the intention; `every_source_instrumented_iff`
says for which directories and names it comes out.
-/

namespace RiscvTe

open Scan Replace

/-! ## Paths -/

/-- What `os.listdir` returns, in its order. -/
structure Listing where
  names : List Text
  nodup : names.Nodup
  plain : ∀ name ∈ names, '/' ∉ name

/-- `SOURCES_DIRECTORY` -/
def sourcesDirectory (directory : Text) : Text := directory ++ "/src/shadowstack".toList

/-- `SOURCES` -/
def coreSources (directory : Text) : List Text :=
  [directory ++ "/esp32c3/boot.c".toList, sourcesDirectory directory ++ "/main.c".toList,
    sourcesDirectory directory ++ "/intr_vector_table.c".toList,
    sourcesDirectory directory ++ "/shadow_stack.c".toList]

/-- The names that end in `.c`. -/
def userFiles (usercode : Listing) : List Text :=
  usercode.names.filter fun file => ".c".toList.isSuffixOf file

/-- The path of a user source. -/
def userSource (directory file : Text) : Text :=
  sourcesDirectory directory ++ "/usercode/".toList ++ file

/-- `extra_sources` -/
def extraSources (directory : Text) (usercode : Listing) : Text :=
  List.intercalate [' '] ((userFiles usercode).map (userSource directory))

/-- The two replacements. -/
def assemblyPath (source : Text) : Text :=
  replaceAll ".c".toList ".s".toList
    (replaceAll "src/shadowstack/usercode/".toList "toolsExtra/".toList source)

/-- `files_to_instrument` -/
def filesToInstrument (cls : CharClass) (directory : Text) (usercode : Listing) : List Text :=
  (words cls.space (extraSources directory usercode)).map assemblyPath

/-- The name of a file in its directory. -/
def basename (path : Text) : Text := (path.reverse.takeWhile fun c => c != '/').reverse

/-- The name without its final `.c`. -/
def stem (file : Text) : Text := file.take (file.length - 2)

/-- Where `gcc -S`, run in `toolsExtra`, writes the assembly of a source. -/
def gccOutput (directory source : Text) : Text :=
  directory ++ "/toolsExtra/".toList ++ stem (basename source) ++ ".s".toList

/-- Each user source has its assembly file in the list, once and in order, and
none of these is written for a core source, too. -/
structure Instrumented (cls : CharClass) (directory : Text) (usercode : Listing) : Prop where
  exact : filesToInstrument cls directory usercode
    = ((userFiles usercode).map (userSource directory)).map (gccOutput directory)
  distinct : (filesToInstrument cls directory usercode).Nodup
  apart : ∀ path ∈ filesToInstrument cls directory usercode,
    path ∉ (coreSources directory).map (gccOutput directory)

/-- The stems of the core sources. -/
def coreStems : List Text :=
  ["boot", "main", "intr_vector_table", "shadow_stack"].map String.toList

/-- The directory does not contain the part that is replaced, the path up to
the stem has no `.c` in it and no white space, and no core source has the
stem. -/
structure Regular (cls : CharClass) (directory file : Text) : Prop where
  part : ¬ "src/shadowstack/usercode/".toList <:+: directory ++ ['/']
  suffix : ¬ ".c".toList <:+: directory ++ "/toolsExtra/".toList ++ stem file
  space : ∀ c ∈ directory ++ stem file, cls.space c = false
  core : stem file ∉ coreStems

/-! ## Names -/

theorem basename_eq {above name : Text} (h : '/' ∉ name) :
    basename (above ++ '/' :: name) = name := by
  have hname : ∀ c ∈ name.reverse, (c != '/') = true := by
    intro c hc
    rw [bne_iff_ne]
    rintro rfl
    exact h (List.mem_reverse.mp hc)
  rw [basename, List.reverse_append, List.reverse_cons, List.append_assoc,
    List.takeWhile_append_of_pos hname, List.singleton_append,
    List.takeWhile_cons_of_neg (by decide), List.append_nil, List.reverse_reverse]

theorem stem_append (s : Text) : stem (s ++ ".c".toList) = s := by
  have hlength : ".c".toList.length = 2 := by decide
  rw [stem, List.length_append, hlength, Nat.add_sub_cancel, List.take_left]

variable {directory file : Text} {usercode : Listing}

/-- What is known about a user source. -/
theorem userFile (h : file ∈ userFiles usercode) :
    '/' ∉ file ∧ file = stem file ++ ".c".toList := by
  obtain ⟨hin, hsuffix⟩ := List.mem_filter.mp h
  obtain ⟨s, rfl⟩ := List.isSuffixOf_iff_suffix.mp hsuffix
  exact ⟨usercode.plain _ hin, by rw [stem_append]⟩

theorem userSource_eq (directory file : Text) :
    userSource directory file
      = (directory ++ ['/']) ++ ("src/shadowstack/usercode/".toList ++ file) := by
  have hsplit : "/src/shadowstack".toList ++ "/usercode/".toList
      = ['/'] ++ "src/shadowstack/usercode/".toList := by decide
  rw [userSource, sourcesDirectory, List.append_assoc directory, hsplit]
  simp only [List.append_assoc]

theorem basename_userSource (h : '/' ∉ file) : basename (userSource directory file) = file := by
  have hsplit : "/usercode/".toList = "/usercode".toList ++ ['/'] := by decide
  rw [userSource, hsplit, ← List.append_assoc, List.append_assoc _ ['/'], List.singleton_append]
  exact basename_eq h

theorem gccOutput_userSource (h : '/' ∉ file) :
    gccOutput directory (userSource directory file)
      = directory ++ "/toolsExtra/".toList ++ stem file ++ ".s".toList := by
  rw [gccOutput, basename_userSource h]

/-- The assembly of the core sources goes by their stems. -/
theorem coreSources_output (directory : Text) :
    (coreSources directory).map (gccOutput directory)
      = coreStems.map fun s => directory ++ "/toolsExtra/".toList ++ s ++ ".s".toList := by
  have hboot : "/esp32c3/boot.c".toList = "/esp32c3".toList ++ '/' :: "boot.c".toList := by decide
  have hmain : "/main.c".toList = '/' :: "main.c".toList := by decide
  have hvectors : "/intr_vector_table.c".toList = '/' :: "intr_vector_table.c".toList := by decide
  have hstack : "/shadow_stack.c".toList = '/' :: "shadow_stack.c".toList := by decide
  rw [coreSources, hboot, ← List.append_assoc, hmain, hvectors, hstack]
  simp only [List.map_cons, List.map_nil, gccOutput]
  rw [basename_eq (by decide), basename_eq (by decide), basename_eq (by decide),
    basename_eq (by decide)]
  have hstems : ["boot.c", "main.c", "intr_vector_table.c", "shadow_stack.c"].map
      (fun s => stem s.toList) = coreStems := by decide
  rw [← hstems]
  rfl

/-! ## One source -/

theorem part_borderless : Borderless "src/shadowstack/usercode/".toList := by decide

theorem suffix_borderless : Borderless ".c".toList := by decide

/-- The first replacement on a source. -/
theorem replace_part (h : '/' ∉ file) :
    replaceAll "src/shadowstack/usercode/".toList "toolsExtra/".toList (userSource directory file)
      = replaceAll "src/shadowstack/usercode/".toList "toolsExtra/".toList (directory ++ ['/'])
        ++ ("toolsExtra/".toList ++ file) := by
  have habsent : ¬ "src/shadowstack/usercode/".toList <:+: file := by
    intro hin
    exact h (hin.subset (by decide))
  rw [userSource_eq, replaceAll_at part_borderless (by decide), replaceAll_absent habsent]

/-- **One source**: the replacements yield the path of its assembly exactly if
neither text occurs anywhere else. -/
theorem assemblyPath_iff (h : file ∈ userFiles usercode) :
    assemblyPath (userSource directory file) = gccOutput directory (userSource directory file)
      ↔ ¬ "src/shadowstack/usercode/".toList <:+: directory ++ ['/']
        ∧ ¬ ".c".toList <:+: directory ++ "/toolsExtra/".toList ++ stem file := by
  obtain ⟨hplain, hfile⟩ := userFile h
  have hslash : "/toolsExtra/".toList = ['/'] ++ "toolsExtra/".toList := by decide
  have hne : ".c".toList ≠ [] := by decide
  rw [gccOutput_userSource hplain, assemblyPath, replace_part hplain, hslash]
  generalize hfirst : replaceAll "src/shadowstack/usercode/".toList "toolsExtra/".toList
    (directory ++ ['/']) = first
  have hpath : first ++ ("toolsExtra/".toList ++ file)
      = (first ++ "toolsExtra/".toList ++ stem file) ++ (".c".toList ++ []) := by
    conv_lhs => rw [hfile]
    simp only [List.append_assoc, List.append_nil]
  rw [hpath, replaceAll_at suffix_borderless hne, replaceAll_nil, List.append_nil,
    List.append_left_inj]
  constructor
  · intro hsame
    have hpart : ¬ "src/shadowstack/usercode/".toList <:+: directory ++ ['/'] := by
      intro hin
      have hshorter : first.length < (directory ++ ['/']).length :=
        hfirst ▸ replaceAll_length_lt part_borderless (by decide) hin
      have hle : (replaceAll ".c".toList ".s".toList
          (first ++ "toolsExtra/".toList ++ stem file)).length
            ≤ (first ++ "toolsExtra/".toList ++ stem file).length :=
        replaceAll_length_le (by decide) _
      rw [hsame] at hle
      simp only [List.length_append] at hle hshorter
      omega
    rw [← hfirst, replaceAll_absent hpart] at hsame
    simp only [List.append_assoc] at hsame ⊢
    exact ⟨hpart, (replaceAll_eq_self_iff suffix_borderless hne (by decide) (by decide)).mp hsame⟩
  · intro habsent
    obtain ⟨hpart, hsuffix⟩ := habsent
    rw [← hfirst, replaceAll_absent hpart]
    simp only [List.append_assoc] at hsuffix ⊢
    exact replaceAll_absent hsuffix

/-! ## White space -/

variable {cls : CharClass}

theorem no_space {s : Text}
    (h : (s.all fun c => decide (c.toNat < 128) && !CharClass.ascii.space c) = true) :
    ∀ c ∈ s, cls.space c = false := by
  intro c hc
  have hcond := List.all_eq_true.mp h c hc
  rw [Bool.and_eq_true, decide_eq_true_eq, Bool.not_eq_true'] at hcond
  rw [cls.space_ascii c hcond.1, ← CharClass.ascii.space_ascii c hcond.1, hcond.2]

theorem space_blank : cls.space ' ' = true := by
  rw [cls.space_ascii _ (by decide)]
  decide

/-- Without white space in the directory and the names the text falls apart
into the sources again. -/
theorem words_extraSources
    (h : ∀ file ∈ userFiles usercode, ∀ c ∈ directory ++ stem file, cls.space c = false) :
    words cls.space (extraSources directory usercode)
      = (userFiles usercode).map (userSource directory) := by
  apply words_intercalate space_blank
  intro source hsource
  obtain ⟨file, hfile, rfl⟩ := List.mem_map.mp hsource
  obtain ⟨_, hstem⟩ := userFile hfile
  rw [userSource_eq]
  refine ⟨by simp, ?_⟩
  intro c hc
  rw [hstem] at hc
  simp only [List.mem_append] at hc
  rcases hc with (hc | hc) | hc | hc | hc
  · exact h file hfile c (List.mem_append_left _ hc)
  · exact no_space (by decide) c hc
  · exact no_space (by decide) c hc
  · exact h file hfile c (List.mem_append_right _ hc)
  · exact no_space (by decide) c hc

/-- There is no white space in the paths of the list. -/
theorem filesToInstrument_space {path : Text}
    (h : path ∈ filesToInstrument cls directory usercode) : ∀ c ∈ path, cls.space c = false := by
  obtain ⟨source, hsource, rfl⟩ := List.mem_map.mp h
  intro c hc
  rcases mem_replaceAll hc with hc | hc
  · rcases mem_replaceAll hc with hc | hc
    · exact not_space_of_mem_words hsource c hc
    · exact no_space (by decide) c hc
  · exact no_space (by decide) c hc

/-! ## The whole list -/

theorem regular_of_instrumented (h : Instrumented cls directory usercode)
    (hfile : file ∈ userFiles usercode) : Regular cls directory file := by
  obtain ⟨hexact, -, hapart⟩ := h
  have hpath : ∀ f ∈ userFiles usercode,
      directory ++ "/toolsExtra/".toList ++ stem f ++ ".s".toList
        ∈ filesToInstrument cls directory usercode := by
    intro f hf
    rw [hexact, ← gccOutput_userSource (userFile hf).1]
    exact List.mem_map_of_mem (List.mem_map_of_mem hf)
  have hspace : ∀ f ∈ userFiles usercode, ∀ c ∈ directory ++ stem f, cls.space c = false := by
    intro f hf c hc
    apply filesToInstrument_space (hpath f hf)
    simp only [List.mem_append] at hc ⊢
    rcases hc with hc | hc
    · exact .inl (.inl (.inl hc))
    · exact .inl (.inr hc)
  rw [filesToInstrument, words_extraSources hspace] at hexact
  have hsame := List.map_inj_left.mp hexact _ (List.mem_map_of_mem hfile)
  obtain ⟨hpart, hsuffix⟩ := (assemblyPath_iff hfile).mp hsame
  refine ⟨hpart, hsuffix, hspace file hfile, fun hcore => ?_⟩
  apply hapart _ (hpath file hfile)
  rw [coreSources_output]
  exact List.mem_map_of_mem hcore

theorem instrumented_of_regular (h : ∀ file ∈ userFiles usercode, Regular cls directory file) :
    Instrumented cls directory usercode := by
  have hexact : filesToInstrument cls directory usercode
      = ((userFiles usercode).map (userSource directory)).map (gccOutput directory) := by
    rw [filesToInstrument, words_extraSources fun file hfile => (h file hfile).space]
    apply List.map_congr_left
    intro source hsource
    obtain ⟨file, hfile, rfl⟩ := List.mem_map.mp hsource
    exact (assemblyPath_iff hfile).mpr ⟨(h file hfile).part, (h file hfile).suffix⟩
  have hstems : ((userFiles usercode).map (userSource directory)).map (gccOutput directory)
      = (userFiles usercode).map fun file =>
        directory ++ "/toolsExtra/".toList ++ stem file ++ ".s".toList := by
    rw [List.map_map]
    exact List.map_congr_left fun file hfile => gccOutput_userSource (userFile hfile).1
  rw [hstems] at hexact
  refine ⟨hexact.trans hstems.symm, ?_, ?_⟩
  · -- distinct names have distinct stems
    rw [hexact]
    apply List.Nodup.map_on _ (usercode.nodup.filter _)
    intro file hfile other hother heq
    have hsame := List.append_cancel_left (List.append_cancel_right heq)
    rw [(userFile hfile).2, (userFile hother).2, hsame]
  · intro path hpath hcore
    rw [hexact] at hpath
    rw [coreSources_output] at hcore
    obtain ⟨file, hfile, rfl⟩ := List.mem_map.mp hpath
    obtain ⟨s, hs, heq⟩ := List.mem_map.mp hcore
    have hsame := List.append_cancel_left (List.append_cancel_right heq)
    exact (h file hfile).core (hsame ▸ hs)

/-- **When every user source is instrumented**: for the directories and names
in which the replacements find nothing but what they are meant for, without
white space, and without a name of a core source. -/
theorem every_source_instrumented_iff (cls : CharClass) (directory : Text) (usercode : Listing) :
    Instrumented cls directory usercode
      ↔ ∀ file ∈ userFiles usercode, Regular cls directory file :=
  ⟨fun h _ hfile => regular_of_instrumented h hfile, instrumented_of_regular⟩

/-! ## A directory with `.c` in its path -/

def oneFile (name : Text) (h : '/' ∉ name) : Listing :=
  { names := [name], nodup := by simp, plain := by simpa using h }

/-- A `.c` in the directory, and a user source named as a core source. -/
theorem source_missed :
    ¬ Instrumented CharClass.ascii "/home/u/.cache".toList
        (oneFile "user_code.c".toList (by decide))
      ∧ ¬ Instrumented CharClass.ascii "/home/u/te".toList
          (oneFile "main.c".toList (by decide)) := by
  constructor
  · intro h
    have hfile : "user_code.c".toList ∈ userFiles (oneFile "user_code.c".toList (by decide)) := by
      decide
    exact (regular_of_instrumented h hfile).suffix (by decide)
  · intro h
    have hfile : "main.c".toList ∈ userFiles (oneFile "main.c".toList (by decide)) := by
      decide
    exact (regular_of_instrumented h hfile).core (by decide)

end RiscvTe
