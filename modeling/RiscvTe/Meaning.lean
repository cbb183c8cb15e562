import RiscvTe.Lib.Liveness
import RiscvTe.Isa
import RiscvTe.Decisions

/-!
# The meaning of instrumented code

The checks as code, under an ideal monitor: the `ecall` comes back and
changes nothing, so all that a block does is write `a7`. The program around
it may be any assembly whose lines read and write what `Semantics` says.

No block looks at where it stands or whether `a7` is in use. The first asks
that it stands among the instructions, and names a symbol or a register
(`Placed`): in front of a `.string` that says `call main` it is data, and
`mv a7,is` does not assemble. The second asks for `A7Free`: `a7` must be
dead, or hold the block's value, wherever a block runs. The eighth argument of
a function is passed in `a7`, right through the block in front of the call.
-/

namespace RiscvTe

open Scan Memory Liveness

/-! ## Two facts about `flatMap` -/

/-- Where an element of the result comes from. -/
theorem getElem?_flatMap {α β : Type} {f : α → List β} {l : List α} {i : Nat} {b : β} :
    (l.flatMap f)[i]? = some b
      ↔ ∃ before a after above below, l = before ++ a :: after ∧ f a = above ++ b :: below
          ∧ i = (before.flatMap f).length + above.length := by
  constructor
  · intro h
    induction l generalizing i with
    | nil => cases h
    | cons a l ih =>
        rw [List.flatMap_cons] at h
        by_cases hi : i < (f a).length
        · rw [List.getElem?_append_left hi] at h
          obtain ⟨hlt, hget⟩ := List.getElem?_eq_some_iff.mp h
          refine ⟨[], a, l, (f a).take i, (f a).drop (i + 1), rfl, ?_, ?_⟩
          · rw [← hget, ← List.drop_eq_getElem_cons, List.take_append_drop]
          · simp [Nat.min_eq_left hi.le]
        · rw [List.getElem?_append_right (by omega)] at h
          obtain ⟨before, a', after, above, below, rfl, hf, hindex⟩ := ih h
          refine ⟨a :: before, a', after, above, below, rfl, hf, ?_⟩
          rw [List.flatMap_cons, List.length_append]
          omega
  · rintro ⟨before, a, after, above, below, rfl, hf, rfl⟩
    rw [List.flatMap_append, List.flatMap_cons, hf]
    simp

/-- What stands in front of every part is nothing if it makes no difference. -/
theorem flatMap_prefix_iff {α β : Type} {f g : α → List β} {l : List α} :
    (l.flatMap fun a => f a ++ g a) = l.flatMap g ↔ ∀ a ∈ l, f a = [] := by
  constructor
  · intro h
    have hlength := congrArg List.length h
    simp only [List.length_flatMap, List.length_append, List.sum_map_add] at hlength
    have hzero : (l.map fun a => (f a).length).sum = 0 := by omega
    intro a ha
    exact List.length_eq_zero_iff.mp
      (List.sum_eq_zero_iff.mp hzero _ (List.mem_map_of_mem ha))
  · intro h
    induction l with
    | nil => rfl
    | cons a l ih =>
        rw [List.flatMap_cons, List.flatMap_cons, h a (by simp),
          ih fun a' ha' => h a' (by simp [ha'])]
        rfl

/-! ## What register instructions read and write -/

namespace RegInstr

def dest : RegInstr → Reg
  | .li rd _ => rd
  | .mv rd _ => rd
  | .addi rd _ _ => rd
  | .and rd _ _ => rd
  | .ori rd _ _ => rd
  | .srli rd _ _ => rd

def sources : RegInstr → List Reg
  | .li _ _ => []
  | .mv _ rs => [rs]
  | .addi _ rs _ => [rs]
  | .and _ rs1 rs2 => [rs1, rs2]
  | .ori _ rs _ => [rs]
  | .srli _ rs _ => [rs]

theorem exec_other (i : RegInstr) {s : RegFile} {r : Reg} (h : r ≠ i.dest) :
    (i.exec s) r = s r := by
  cases i <;> exact RegFile.set_other h

theorem exec_dest (i : RegInstr) {s s' : RegFile} (h : ∀ r ∈ i.sources, s r = s' r) :
    (i.exec s) i.dest = (i.exec s') i.dest := by
  by_cases hzero : i.dest = 0
  · rw [hzero, (i.exec s).zero, (i.exec s').zero]
  · cases i with
    | li rd imm => exact (RegFile.set_self hzero).trans (RegFile.set_self hzero).symm
    | and rd rs1 rs2 =>
        refine (RegFile.set_self hzero).trans (Eq.trans ?_ (RegFile.set_self hzero).symm)
        rw [h rs1 (by simp [sources]), h rs2 (by simp [sources])]
    | mv rd rs | addi rd rs imm | ori rd rs imm | srli rd rs shamt =>
        refine (RegFile.set_self hzero).trans (Eq.trans ?_ (RegFile.set_self hzero).symm)
        rw [h rs (by simp [sources])]

end RegInstr

/-- A block leaves the registers alone that none of its instructions writes. -/
theorem RegFile.line_other {block : List RegInstr} {s : RegFile} {r : Reg}
    (h : ∀ i ∈ block, r ≠ i.dest) : (s.line block) r = s r := by
  induction block generalizing s with
  | nil => rfl
  | cons i block ih =>
      rw [RegFile.line_cons, ih fun i' hi' => h i' (by simp [hi'])]
      exact i.exec_other (h i (by simp))

/-! ## Programs -/

/-- A line is reached by falling through or by a return to it, or by a jump
to the label on it; the block stands in front of the whole line. -/
inductive Entry where
  | start
  | label
  deriving DecidableEq, Repr

structure Point where
  line : Nat
  entry : Entry
  deriving DecidableEq, Repr

/-- What the text in front of a line is assembled to: instructions, data, or
nothing, as in a comment of many lines. -/
inductive Place where
  | code
  | data
  | skipped
  deriving DecidableEq, Repr

/-- What the lines of a program mean: as instructions on registers and the
rest of the state `M`, as data, and as names of addresses and registers. Lines
are known by their numbers, so code addresses do not depend on how much code
stands between them. -/
structure Semantics (M : Type) where
  exec : Nat → Line → RegFile → M → Option (RegFile × M × Point)
  reads : Line → Reg → Prop
  writes : Line → Reg → Prop
  place : Nat → Place
  emits : Nat → Line → List Byte
  encode : RegInstr → List Byte
  address : Nat → Name → Option Word
  register : Name → Option Reg
  frame : ∀ {i line s m t n q r}, exec i line s m = some (t, n, q) → ¬ writes line r → t r = s r
  depends : ∀ {i line s s' m}, (∀ r, reads line r → s r = s' r) →
    (exec i line s m = none ∧ exec i line s' m = none)
      ∨ ∃ t t' n q, exec i line s m = some (t, n, q) ∧ exec i line s' m = some (t', n, q)
          ∧ ∀ r, writes line r → t r = t' r

namespace Semantics

variable {M : Type} (sem : Semantics M)

/-- The machine that executes the lines of a program. -/
def machine (lines : List Line) : Machine RegFile Reg Word M Point :=
  { get := RegFile.val
    exec := fun p s m =>
      match lines[p.line]? with
      | some line => sem.exec p.line line s m
      | none => none
    reads := fun p r => ∃ line, lines[p.line]? = some line ∧ sem.reads line r
    writes := fun p r => ∃ line, lines[p.line]? = some line ∧ sem.writes line r
    ext := fun s t h => RegFile.ext (funext h)
    frame := by
      intro p s m t n q r hexec hwrites
      cases hline : lines[p.line]? with
      | none =>
          rw [hline] at hexec
          cases hexec
      | some line =>
          rw [hline] at hexec
          exact sem.frame hexec fun hw => hwrites ⟨line, hline, hw⟩
    depends := by
      intro p s s' m hreads
      cases hline : lines[p.line]? with
      | none => exact .inl ⟨rfl, rfl⟩
      | some line =>
          rcases sem.depends (i := p.line) (m := m) fun r hr => hreads r ⟨line, hline, hr⟩ with
            hnone | ⟨t, t', n, q, hexec, hexec', hw⟩
          · exact .inl hnone
          · refine .inr ⟨t, t', n, q, hexec, hexec', ?_⟩
            rintro r ⟨line', hline', hwrites⟩
            cases hline'
            exact hw r hwrites }

/-- `JUMP_TEMPLATE` without its `ecall`, at line `n`; it assembles if the
label is known there. -/
def jumpBlock (n : Nat) (label : Name) : Option (List RegInstr) :=
  (sem.address n label).map fun address => [.li Reg.a7 address]

/-- `RET_TEMPLATE` without its `ecall`. -/
def retBlock (register : Name) : Option (List RegInstr) :=
  (sem.register register).map fun rs => [.mv Reg.a7 rs, .addi Reg.a7 Reg.a7 1]

/-- The blocks in front of line `n`. -/
def checkBlocks (n : Nat) (checks : Checks) : List (Option (List RegInstr)) :=
  (checks.jump.map (sem.jumpBlock n)).toList ++ (checks.ret.map sem.retBlock).toList

/-- What they do; the `ecall` at the end of each changes nothing under an
ideal monitor. -/
def checkInstrs (n : Nat) (checks : Checks) : List RegInstr :=
  (sem.checkBlocks n checks).flatMap fun block => block.getD []

/-- What they are as data, with the four bytes of `ecall` behind each. -/
def checkBytes (n : Nat) (checks : Checks) : List Byte :=
  (sem.checkBlocks n checks).flatMap fun block =>
    (block.getD []).flatMap sem.encode ++ [0x73, 0, 0, 0]

/-- The bytes of the data sections. -/
def dataImage (code : List (Line × Checks)) : List Byte :=
  code.zipIdx.flatMap fun entry =>
    if sem.place entry.2 = .data then
      sem.checkBytes entry.2 entry.1.2 ++ sem.emits entry.2 entry.1.1
    else []

/-- What the blocks in front of a line do on the way to it. -/
def insertChecks (code : List (Line × Checks)) (p : Point) (s : RegFile) : RegFile :=
  match p.entry with
  | .label => s
  | .start =>
      match code[p.line]? with
      | some (_, checks) =>
          if sem.place p.line = .code then s.line (sem.checkInstrs p.line checks) else s
      | none => s

/-- A block that stands among the instructions assembles there; one that is
skipped need not. -/
def Takes (n : Nat) (block : Option (List RegInstr)) : Prop :=
  sem.place n = .skipped ∨ (sem.place n = .code ∧ block.isSome = true)

/-- The blocks write `a7` and nothing else. -/
theorem checkInstrs_dest {n : Nat} {checks : Checks} {i : RegInstr}
    (hi : i ∈ sem.checkInstrs n checks) : i.dest = Reg.a7 := by
  simp only [checkInstrs, checkBlocks, List.mem_flatMap, List.mem_append, Option.mem_toList,
    Option.map_eq_some_iff] at hi
  obtain ⟨_, ⟨label, _, rfl⟩ | ⟨register, _, rfl⟩, hi⟩ := hi
  · rw [jumpBlock] at hi
    cases hlabel : sem.address n label with
    | none => simp [hlabel] at hi
    | some address =>
        obtain rfl : i = .li Reg.a7 address := by simpa [hlabel] using hi
        rfl
  · rw [retBlock] at hi
    cases hregister : sem.register register with
    | none => simp [hregister] at hi
    | some rs =>
        have hi : i = .mv Reg.a7 rs ∨ i = .addi Reg.a7 Reg.a7 1 := by
          simpa [hregister] using hi
        rcases hi with rfl | rfl <;> rfl

theorem insertChecks_other (code : List (Line × Checks)) (p : Point) (s : RegFile) (r : Reg)
    (hr : r ≠ Reg.a7) : sem.insertChecks code p s r = s r := by
  rw [insertChecks]
  split
  · rfl
  · split
    · split
      · exact RegFile.line_other fun i hi => by rwa [sem.checkInstrs_dest hi]
      · rfl
    · rfl

theorem checkBytes_eq_nil {n : Nat} {checks : Checks} :
    sem.checkBytes n checks = [] ↔ sem.checkBlocks n checks = [] := by
  rw [checkBytes, List.flatMap_eq_nil_iff, List.eq_nil_iff_forall_not_mem]
  simp

/-- The data is what it was if no block stands in it. -/
theorem dataImage_iff (code : List (Line × Checks)) :
    sem.dataImage code = sem.dataImage (code.map fun entry => (entry.1, ⟨none, none⟩))
      ↔ ∀ n line checks, code[n]? = some (line, checks) → sem.place n = .data →
          sem.checkBlocks n checks = [] := by
  have hbare : sem.dataImage (code.map fun entry => (entry.1, ⟨none, none⟩))
      = code.zipIdx.flatMap fun entry =>
          if sem.place entry.2 = .data then sem.emits entry.2 entry.1.1 else [] := by
    rw [dataImage, List.zipIdx_map, List.flatMap_map]
    rfl
  have hchecked : sem.dataImage code
      = code.zipIdx.flatMap fun entry =>
          (if sem.place entry.2 = .data then sem.checkBytes entry.2 entry.1.2 else [])
            ++ if sem.place entry.2 = .data then sem.emits entry.2 entry.1.1 else [] := by
    rw [dataImage]
    congr 1
    funext entry
    split <;> rfl
  rw [hchecked, hbare, flatMap_prefix_iff]
  constructor
  · intro h n line checks hline hdata
    have hnone := h ((line, checks), n) (List.mem_zipIdx_iff_getElem?.mpr hline)
    rwa [if_pos hdata, checkBytes_eq_nil] at hnone
  · rintro h ⟨⟨line, checks⟩, n⟩ hentry
    by_cases hdata : sem.place n = .data
    · rw [if_pos hdata, checkBytes_eq_nil]
      exact h n line checks (List.mem_zipIdx_iff_getElem?.mp hentry) hdata
    · exact if_neg hdata

end Semantics

section Program

variable (cls : CharClass) {Path : Type} [DecidableEq Path] {M : Type}

/-- The lines of all files with their checks, as they are linked. -/
def instrumentedCode (contents : Path → Text) (files : List Path) : List (Line × Checks) :=
  (instrument cls contents files).2.flatMap Prod.snd

/-- The original lines. -/
def originalLines (contents : Path → Text) (files : List Path) : List Line :=
  (instrumentedCode cls contents files).map Prod.fst

/-- The instrumented program assembles, has the same data, and executes the
same lines from the same start, in the same memory and in the same values of
the registers still read. -/
structure MeaningPreserved (sem : Semantics M) (contents : Path → Text) (files : List Path)
    (start : Config RegFile M Point) : Prop where
  assembles : ∀ n line checks, (instrumentedCode cls contents files)[n]? = some (line, checks) →
    sem.place n ≠ .skipped → ∀ block ∈ sem.checkBlocks n checks, block.isSome = true
  data : sem.dataImage (instrumentedCode cls contents files)
    = sem.dataImage ((originalLines cls contents files).map fun line => (line, ⟨none, none⟩))
  run : (sem.machine (originalLines cls contents files)).Preserves
    (sem.insertChecks (instrumentedCode cls contents files)) start

/-- The number of a line among those of all files. -/
def Site.number {contents : Path → Text} {files : List Path} (x : Site cls contents files) :
    Nat := (x.earlier.flatMap Prod.snd).length + x.above.length

/-- Where a pattern is acted upon, a block can stand: among the instructions,
with the label a symbol that is known, with the register a register. -/
structure Placed (sem : Semantics M) (contents : Path → Text) (files : List Path) : Prop where
  jump : ∀ (x : Site cls contents files) label, dirJump cls x.line = some label →
    pushes (leafExit cls contents files) label = true →
      sem.Takes x.number (sem.jumpBlock x.number label)
  ret : ∀ (x : Site cls contents files) register, retJump cls x.line = some register →
    x.listed = false → sem.Takes x.number (sem.retBlock register)

/-- In the original run `a7` is dead wherever a block is inserted, or it
holds the value the block gives it. -/
def A7Free (sem : Semantics M) (contents : Path → Text) (files : List Path)
    (start : Config RegFile M Point) : Prop :=
  ∀ n c, iterate (sem.machine (originalLines cls contents files)).step n start = some c →
    (sem.machine (originalLines cls contents files)).Live c Reg.a7 →
    sem.insertChecks (instrumentedCode cls contents files) c.point c.regs Reg.a7
      = c.regs Reg.a7

variable {cls} {sem : Semantics M} {contents : Path → Text} {files : List Path}

/-- The lines with their checks are the sites. -/
theorem instrumentedCode_getElem? {n : Nat} {line : Line} {checks : Checks} :
    (instrumentedCode cls contents files)[n]? = some (line, checks)
      ↔ ∃ x : Site cls contents files, x.number = n ∧ x.line = line ∧ x.checks = checks := by
  rw [instrumentedCode, getElem?_flatMap]
  constructor
  · rintro ⟨earlier, ⟨file, body⟩, later, above, below, hsplit, rfl, rfl⟩
    exact ⟨⟨earlier, file, above, line, checks, below, later, hsplit⟩, rfl, rfl, rfl⟩
  · rintro ⟨x, rfl, rfl, rfl⟩
    exact ⟨x.earlier, (x.file, _), x.later, x.above, x.below, x.split, rfl, rfl⟩

/-- The blocks in front of a line are those of the patterns acted upon. -/
theorem placed_iff_takes :
    Placed cls sem contents files
      ↔ ∀ x : Site cls contents files, ∀ block ∈ sem.checkBlocks x.number x.checks,
          sem.Takes x.number block := by
  constructor
  · intro hplaced x block hblock
    simp only [Semantics.checkBlocks, List.mem_append, Option.mem_toList,
      Option.map_eq_some_iff] at hblock
    rcases hblock with ⟨label, hlabel, rfl⟩ | ⟨register, hregister, rfl⟩
    · obtain ⟨hfound, hpushes⟩ := x.jump_iff.mp hlabel
      exact hplaced.jump x label hfound hpushes
    · obtain ⟨hfound, hlisted⟩ := x.ret_iff.mp hregister
      exact hplaced.ret x register hfound hlisted
  · intro htakes
    constructor
    · intro x label hfound hpushes
      apply htakes x
      simp [Semantics.checkBlocks, x.jump_iff.mpr ⟨hfound, hpushes⟩]
    · intro x register hfound hlisted
      apply htakes x
      simp [Semantics.checkBlocks, x.ret_iff.mpr ⟨hfound, hlisted⟩]

/-- The run is the same exactly if `a7` is free. -/
theorem run_preserved_iff (start : Config RegFile M Point) :
    (sem.machine (originalLines cls contents files)).Preserves
        (sem.insertChecks (instrumentedCode cls contents files)) start
      ↔ A7Free cls sem contents files start :=
  Machine.insertion_iff (sem.insertChecks_other _) start

/-- **Meaning of instrumented code**: for every program, every meaning of its
lines and every start, the instrumented program is assembled, has the same
data and the same run exactly if every block stands where it can, and `a7` is
free wherever a block runs. -/
theorem meaning_preserved_iff (sem : Semantics M) (contents : Path → Text) (files : List Path)
    (start : Config RegFile M Point) :
    MeaningPreserved cls sem contents files start
      ↔ Placed cls sem contents files ∧ A7Free cls sem contents files start := by
  have hbare : (originalLines cls contents files).map (fun line => (line, Checks.mk none none))
      = (instrumentedCode cls contents files).map fun entry => (entry.1, ⟨none, none⟩) := by
    rw [originalLines, List.map_map]
    rfl
  rw [placed_iff_takes]
  constructor
  · rintro ⟨hassembles, hdata, hpreserves⟩
    refine ⟨fun x block hblock => ?_, (run_preserved_iff start).mp hpreserves⟩
    have hline := instrumentedCode_getElem?.mpr ⟨x, rfl, rfl, rfl⟩
    rw [hbare, sem.dataImage_iff] at hdata
    cases hplace : sem.place x.number with
    | skipped => exact .inl hplace
    | code =>
        have hsome := hassembles _ _ _ hline (by rw [hplace]; decide) block hblock
        exact .inr ⟨hplace, hsome⟩
    | data =>
        rw [hdata _ _ _ hline hplace] at hblock
        cases hblock
  · rintro ⟨htakes, hfree⟩
    refine ⟨?_, ?_, (run_preserved_iff start).mpr hfree⟩
    · intro n line checks hline hplace block hblock
      obtain ⟨x, rfl, rfl, rfl⟩ := instrumentedCode_getElem?.mp hline
      rcases htakes x block hblock with hskipped | ⟨_, hsome⟩
      · exact absurd hskipped hplace
      · exact hsome
    · rw [hbare, sem.dataImage_iff]
      intro n line checks hline hplace
      obtain ⟨x, rfl, rfl, rfl⟩ := instrumentedCode_getElem?.mp hline
      rw [List.eq_nil_iff_forall_not_mem]
      intro block hblock
      -- a block is skipped or stands in code
      rcases htakes x block hblock with hskipped | ⟨hcode, _⟩
      · rw [hplace] at hskipped
        cases hskipped
      · rw [hplace] at hcode
        cases hcode

end Program

/-! ## Lines that are register instructions -/

/-- Lines that are one register instruction and then go on somewhere. -/
def Semantics.ofDecode (decode : Line → Option (RegInstr × (Nat → Point)))
    (address : Name → Option Word) (register : Name → Option Reg) : Semantics Unit :=
  { place := fun _ => .code
    emits := fun _ _ => []
    encode := fun _ => []
    exec := fun i line s _ => (decode line).map fun d => (d.1.exec s, (), d.2 i)
    reads := fun line r => ∃ d, decode line = some d ∧ r ∈ d.1.sources
    writes := fun line r => ∃ d, decode line = some d ∧ r = d.1.dest
    address := fun _ => address
    register := register
    frame := by
      intro i line s m t n q r hexec hwrites
      cases hd : decode line with
      | none =>
          rw [hd] at hexec
          cases hexec
      | some d =>
          rw [hd] at hexec
          cases hexec
          exact RegInstr.exec_other d.1 fun hr => hwrites ⟨d, hd, hr⟩
    depends := by
      intro i line s s' m hreads
      cases hd : decode line with
      | none => exact .inl ⟨rfl, rfl⟩
      | some d =>
          refine .inr ⟨_, _, (), d.2 i, rfl, rfl, ?_⟩
          rintro r ⟨d', hd', rfl⟩
          cases hd'
          exact RegInstr.exec_dest d.1 fun r hr => hreads r ⟨d, hd, hr⟩ }

/-! ## The eighth argument -/

/-- `main` passes an eighth argument to `f`, which calls `g`. -/
def eightArgs : Text :=
  "main:\n\tli\ta7,8\n\tcall\tf\nf:\n\tmv\ta0,a7\n\tcall\tg\n\tjr\tra\n".toList

def eightArgsBody : List (Line × Checks) :=
  [("main:\n".toList, ⟨none, none⟩), ("\tli\ta7,8\n".toList, ⟨none, none⟩),
    ("\tcall\tf\n".toList, ⟨some "f".toList, none⟩), ("f:\n".toList, ⟨none, none⟩),
    ("\tmv\ta0,a7\n".toList, ⟨none, none⟩), ("\tcall\tg\n".toList, ⟨none, none⟩),
    ("\tjr\tra\n".toList, ⟨none, some "ra".toList⟩)]

theorem eightArgs_code :
    instrumentedCode CharClass.ascii (fun _ : Unit => eightArgs) [()] = eightArgsBody := by
  decide

/-- The lines of `main` and the first of `f`, with `f` at `0x40380c0a`; labels
do nothing, and the rest of `f` does not matter. -/
def eightArgsSemantics : Semantics Unit :=
  Semantics.ofDecode
    (fun line =>
      if line = "\tli\ta7,8\n".toList then some (.li Reg.a7 8, fun i => ⟨i + 1, .start⟩)
      else if line = "\tcall\tf\n".toList then
        some (.li Reg.ra 0x40380c0a, fun _ => ⟨3, .label⟩)
      else if line = "\tmv\ta0,a7\n".toList then
        some (.mv 10 Reg.a7, fun i => ⟨i + 1, .start⟩)
      else if line = "main:\n".toList ∨ line = "f:\n".toList then
        some (.li 0 0, fun i => ⟨i + 1, .start⟩)
      else none)
    (fun name => if name = "f".toList then some 0x40380c0a else none)
    (fun name => if name = "ra".toList then some Reg.ra else none)

/-- The block in front of `call f` puts the address of `f` over the argument. -/
theorem eighth_argument_lost :
    ¬ MeaningPreserved CharClass.ascii eightArgsSemantics (fun _ : Unit => eightArgs) [()]
      ⟨⟨0, .start⟩, zeroRegs, ()⟩ := by
  intro hmeaning
  have hfree := (run_preserved_iff _).mp hmeaning.run
  let mach := eightArgsSemantics.machine (eightArgsBody.map Prod.fst)
  let atCall : Config RegFile Unit Point :=
    ⟨⟨2, .start⟩, (zeroRegs.set 0 0).set Reg.a7 8, ()⟩
  let inF : Config RegFile Unit Point := ⟨⟨3, .label⟩, atCall.regs.set Reg.ra 0x40380c0a, ()⟩
  have hrun : iterate mach.step 2 ⟨⟨0, .start⟩, zeroRegs, ()⟩ = some atCall := rfl
  have hmv : mach.Live ⟨⟨4, .start⟩, inF.regs.set 0 0, ()⟩ Reg.a7 :=
    .read ⟨_, rfl, _, rfl, by decide⟩
  have hlabel : mach.Live inF Reg.a7 := by
    refine .later ?_ (rfl : mach.step inF = some ⟨⟨4, .start⟩, inF.regs.set 0 0, ()⟩) hmv
    rintro ⟨_, ⟨⟩, _, ⟨⟩, hdest⟩
    exact absurd hdest (by decide)
  have hlive : mach.Live atCall Reg.a7 := by
    refine .later ?_ (rfl : mach.step atCall = some inF) hlabel
    rintro ⟨_, ⟨⟩, _, ⟨⟩, hdest⟩
    exact absurd hdest (by decide)
  rw [A7Free, originalLines, eightArgs_code] at hfree
  exact absurd (hfree 2 atCall hrun hlive) (by decide)

end RiscvTe
