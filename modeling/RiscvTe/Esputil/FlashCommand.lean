import RiscvTe.Esputil.FileNames
import RiscvTe.Esputil.HexRoundTrip
import RiscvTe.Esputil.Readback

/-!
# Flashing several files (`flash` in `esputil/esputil.c`)

The arguments are addresses with files, and `.hex` files that are unpacked into
files named by their addresses first. A hex file that `mkhex` has packed is
flashed like the files themselves (`flash_hex`). The loop over the arguments
goes on only when an argument is one of the two: with an address that has no
file behind it nothing changes any more (`flash_args_lone`).
-/

namespace RiscvTe.Esputil

open Memory Stuffing EventRun

/-! ## The loop over the arguments -/

/-- The files that can be opened, and what the buffer of `unhex` holds. -/
structure Host where
  disk : CString → Option (List Byte)
  tmp : Vector Byte sizeofTmp

inductive FlashStop where
  | cannotOpen (path : CString)
  | hex (e : HexStop)
  | halt (e : Halt)
  deriving DecidableEq, Repr

def Host.openFile (host : Host) (path : CString) : Except FlashStop (List Byte) :=
  match host.disk path with
  | some file => .ok file
  | none => .error (.cannotOpen path)

/-- With the files that were unpacked into a directory. Where two paths are cut
off to the same one, the later file is behind it. -/
def Host.unpacked (host : Host) (dir : CString) (d : Unpacked) : Host :=
  { host with
    disk := fun path =>
      match d.created.reverse.find? (fun addr => binPath dir addr == path) with
      | some addr => d.files.lookup addr
      | none => host.disk path }

/-- `flashbin`, given a file under its address. -/
def flashFile (chip : Chip) (flashParams : BitVec 16) (line : Line) (file : Ulong × List Byte) :
    Except FlashStop Line :=
  match flashbin chip flashParams (file.1.setWidth 32) file.2 line.link with
  | .ok link => .ok { line with link := link }
  | .error e => .error (.halt e)

/-- A file from the list of those unpacked. -/
def flashListed (host : Host) (chip : Chip) (flashParams : BitVec 16) (line : Line)
    (path : CString) : Except FlashStop Line := do
  let file ← host.openFile path
  flashFile chip flashParams line (offsetOf path, file)

/-- A `.hex` argument. -/
def flashHex (host : Host) (chip : Chip) (flashParams : BitVec 16) (line : Line)
    (arg : CString) : Except FlashStop Line := do
  let hexfile ← host.openFile arg
  match unhex host.tmp hexfile with
  | .ok d =>
      let dir := tmpdir arg
      run (flashListed (host.unpacked dir d) chip flashParams) line
        (listedNames (fileList dir d.created))
  | .error e => .error (.hex e)

/-- One turn of `while (args[0])`. -/
def flashArg (host : Host) (chip : Chip) (flashParams : BitVec 16) (line : Line) :
    List CString → Except FlashStop (List CString × Line)
  | [] => .ok ([], line)
  | arg :: rest =>
      if hasSuffix arg dotHex then do
        let line ← flashHex host chip flashParams line arg
        return (rest, line)
      else
        match rest with
        | path :: rest => do
            let file ← host.openFile path
            let line ← flashFile chip flashParams line (strtoul arg, file)
            return (rest, line)
        -- neither branch of the source is taken
        | [] => .ok ([arg], line)

/-- The loop, if that many turns are enough. -/
def flashArgs (host : Host) (chip : Chip) (flashParams : BitVec 16) :
    Nat → List CString → Line → Option (Except FlashStop Line)
  | _, [], line => some (.ok line)
  | 0, _ :: _, _ => none
  | turns + 1, arg :: rest, line =>
      match flashArg host chip flashParams line (arg :: rest) with
      | .ok (args, line) => flashArgs host chip flashParams turns args line
      | .error e => some (.error e)

/-! ## A lone address -/

/-- The loop comes to a last argument that is no `.hex` file. -/
def Lone : List CString → Bool
  | [] => false
  | arg :: rest =>
      if hasSuffix arg dotHex then Lone rest
      else match rest with
        | [] => true
        | _ :: rest => Lone rest

theorem lone_cons (arg : CString) (rest : List CString) :
    Lone (arg :: rest)
      = if hasSuffix arg dotHex then Lone rest
        else match rest with
          | [] => true
          | _ :: rest => Lone rest := by
  rw [Lone.eq_def]

section Loop

variable {host : Host} {chip : Chip} {flashParams : BitVec 16}

/-- A turn goes on with fewer arguments, or not at all. -/
theorem flashArg_ok {arg : CString} {rest args : List CString} {line line' : Line}
    (h : flashArg host chip flashParams line (arg :: rest) = .ok (args, line')) :
    Lone (arg :: rest) = Lone args
      ∧ (args.length ≤ rest.length ∨ (args = [arg] ∧ hasSuffix arg dotHex = false)) := by
  unfold flashArg at h
  rw [lone_cons]
  dsimp only at h
  split at h
  · rename_i hhex
    obtain ⟨m, -, h⟩ := bind_ok_iff.mp h
    cases h
    exact ⟨if_pos hhex, .inl (Nat.le_refl _)⟩
  · rename_i hhex
    rw [if_neg hhex]
    cases rest with
    | nil =>
        cases h
        refine ⟨?_, .inr ⟨rfl, by simpa using hhex⟩⟩
        rw [lone_cons, if_neg hhex]
    | cons path rest =>
        obtain ⟨file, -, h⟩ := bind_ok_iff.mp h
        obtain ⟨m, -, h⟩ := bind_ok_iff.mp h
        cases h
        exact ⟨rfl, .inl (by simp)⟩

theorem lone_fails {turns : Nat} {args : List CString} {line line' : Line}
    (hlone : Lone args = true) :
    flashArgs host chip flashParams turns args line ≠ some (.ok line') := by
  induction turns generalizing args line with
  | zero =>
      cases args with
      | nil => cases hlone
      | cons arg rest => simp [flashArgs]
  | succ turns ih =>
      cases args with
      | nil => cases hlone
      | cons arg rest =>
          rw [flashArgs]
          split
          · rename_i args m hturn
            exact ih ((flashArg_ok hturn).1.symm.trans hlone)
          · simp

theorem not_lone_ends {args : List CString} (line : Line) (hlone : Lone args = false) :
    ∃ result, ∀ turns, args.length ≤ turns →
      flashArgs host chip flashParams turns args line = some result := by
  induction hlength : args.length using Nat.strong_induction_on generalizing args line with
  | _ n ih =>
      subst hlength
      cases args with
      | nil => exact ⟨.ok line, fun turns _ => by simp [flashArgs]⟩
      | cons arg rest =>
          cases hturn : flashArg host chip flashParams line (arg :: rest) with
          | error e =>
              refine ⟨.error e, fun turns hturns => ?_⟩
              obtain ⟨turns, rfl⟩ := Nat.exists_eq_add_one_of_ne_zero (Nat.ne_zero_of_lt hturns)
              rw [flashArgs, hturn]
          | ok next =>
              obtain ⟨args, m⟩ := next
              obtain ⟨hsame, hfewer⟩ := flashArg_ok hturn
              rcases hfewer with hle | ⟨rfl, hhex⟩
              · obtain ⟨result, hresult⟩ :=
                  ih args.length (Nat.lt_succ_of_le hle) m (hsame.symm.trans hlone) rfl
                refine ⟨result, fun turns hturns => ?_⟩
                obtain ⟨turns, rfl⟩ := Nat.exists_eq_add_one_of_ne_zero (Nat.ne_zero_of_lt hturns)
                rw [List.length_cons] at hturns
                rw [flashArgs, hturn]
                exact hresult turns (by omega)
              · rw [hsame, lone_cons, hhex] at hlone
                cases hlone

/-- **A lone address.** If the loop over the arguments comes to an address
without a file, it does not come to its end; otherwise it does, with at most
as many turns as there are arguments. -/
theorem flash_args_lone (args : List CString) (line : Line) :
    (Lone args = true → ∀ turns line',
      flashArgs host chip flashParams turns args line ≠ some (.ok line'))
    ∧ (Lone args = false → ∃ result, ∀ turns, args.length ≤ turns →
        flashArgs host chip flashParams turns args line = some result) :=
  ⟨fun hlone _ _ => lone_fails hlone, fun hlone => not_lone_ends line hlone⟩

/-! ## A packed file -/

/-- What the loop goes on with when some files have been flashed. -/
def goOn (host : Host) (chip : Chip) (flashParams : BitVec 16) (turns : Nat)
    (rest : List CString) : Except FlashStop Line → Option (Except FlashStop Line)
  | .ok line => flashArgs host chip flashParams turns rest line
  | .error e => some (.error e)

/-- Two arguments that name a file and its address. -/
structure Given (host : Host) (arg : CString × CString) (file : Ulong × List Byte) : Prop where
  address : hasSuffix arg.1 dotHex = false ∧ strtoul arg.1 = file.1
  content : host.disk arg.2 = some file.2

/-- This path names this file, with the address it is flashed at. -/
def Named (host : Host) (path : CString) (file : Ulong × List Byte) : Prop :=
  host.disk path = some file.2 ∧ offsetOf path = file.1

theorem run_flashNamed {paths : List CString} {files : List (Ulong × List Byte)}
    (h : List.Forall₂ (Named host) paths files) (line : Line) :
    run (flashListed host chip flashParams) line paths
      = run (flashFile chip flashParams) line files := by
  induction h generalizing line with
  | nil => rfl
  | @cons path file paths files hfile hfiles ih =>
      have hlisted : flashListed host chip flashParams line path
          = flashFile chip flashParams line file := by
        rw [flashListed, Host.openFile, hfile.1, hfile.2]
        rfl
      rw [run_cons, run_cons, hlisted]
      cases flashFile chip flashParams line file with
      | error e => rfl
      | ok m => exact ih m

theorem flashArg_bin {arg path : CString} {file : List Byte} {rest : List CString} {line : Line}
    (hhex : hasSuffix arg dotHex = false) (hfile : host.disk path = some file) :
    flashArg host chip flashParams line (arg :: path :: rest)
      = flashFile chip flashParams line (strtoul arg, file) >>= fun m => .ok (rest, m) := by
  unfold flashArg
  dsimp only
  rw [hhex, if_neg (by simp), Host.openFile, hfile]
  rfl

theorem flashArg_hex {arg : CString} {hexfile : List Byte} {d : Unpacked}
    {files : List (Ulong × List Byte)} {rest : List CString} {line : Line}
    (hhex : hasSuffix arg dotHex = true) (hfile : host.disk arg = some hexfile)
    (hunhex : unhex host.tmp hexfile = .ok d)
    (hnamed : List.Forall₂ (Named (host.unpacked (tmpdir arg) d))
      (listedNames (fileList (tmpdir arg) d.created)) files) :
    flashArg host chip flashParams line (arg :: rest)
      = run (flashFile chip flashParams) line files >>= fun m => .ok (rest, m) := by
  have hflash : flashHex host chip flashParams line arg
      = run (flashFile chip flashParams) line files := by
    rw [flashHex, Host.openFile, hfile]
    show (match unhex host.tmp hexfile with
      | .ok d => run (flashListed (host.unpacked (tmpdir arg) d) chip flashParams) line
          (listedNames (fileList (tmpdir arg) d.created))
      | .error e => .error (.hex e)) = _
    rw [hunhex]
    exact run_flashNamed hnamed line
  unfold flashArg
  dsimp only
  rw [hhex, if_pos rfl, ← hflash]
  rfl

theorem flashArgs_given {args : List (CString × CString)} {files : List (Ulong × List Byte)}
    (h : List.Forall₂ (Given host) args files) (turns : Nat) (rest : List CString) (line : Line) :
    flashArgs host chip flashParams (turns + args.length)
        (args.flatMap (fun arg => [arg.1, arg.2]) ++ rest) line
      = goOn host chip flashParams turns rest (run (flashFile chip flashParams) line files) := by
  induction h generalizing line with
  | nil => rfl
  | @cons arg file args files harg hargs ih =>
      rw [List.length_cons, ← Nat.add_assoc, List.flatMap_cons]
      show flashArgs host chip flashParams (turns + args.length + 1)
        (arg.1 :: arg.2 :: (args.flatMap (fun arg => [arg.1, arg.2]) ++ rest)) line = _
      rw [flashArgs, flashArg_bin harg.address.1 harg.content, harg.address.2, run_cons]
      cases flashFile chip flashParams line file with
      | error e => rfl
      | ok m => exact ih m

theorem lookup_of_mem {files : List (Ulong × List Byte)} (hdistinct : (files.map Prod.fst).Nodup)
    {file : Ulong × List Byte} (h : file ∈ files) : files.lookup file.1 = some file.2 := by
  induction files with
  | nil => cases h
  | cons first files ih =>
      rw [List.map_cons, List.nodup_cons] at hdistinct
      rw [List.lookup_cons]
      rcases List.mem_cons.mp h with rfl | h
      · rw [beq_self_eq_true]
      · have hne : file.1 ≠ first.1 := by
          rintro heq
          exact hdistinct.1 (heq ▸ List.mem_map_of_mem h)
        have hbeq : (file.1 == first.1) = false := by simpa using hne
        rw [hbeq]
        exact ih hdistinct.2 h

theorem named_unpacked {d : Unpacked} {hexName : CString}
    (hlist : Listable hexName d.created) {file : Ulong × List Byte} (hmem : file.1 ∈ d.created)
    (hfile : d.files.lookup file.1 = some file.2) :
    Named (host.unpacked (tmpdir hexName) d) (tmpPath hexName file.1) file := by
  have hfind : d.created.reverse.find?
      (fun a => binPath (tmpdir hexName) a == tmpPath hexName file.1) = some file.1 := by
    cases hfound : d.created.reverse.find?
        (fun a => binPath (tmpdir hexName) a == tmpPath hexName file.1) with
    | none =>
        have habsent := List.find?_eq_none.mp hfound file.1 (List.mem_reverse.mpr hmem)
        rw [binPath_eq (hlist.short file.1 hmem), beq_self_eq_true] at habsent
        exact absurd rfl habsent
    | some a =>
        -- a path determines its address
        have ha := List.mem_reverse.mp (List.mem_of_find?_eq_some hfound)
        have hpath : binPath (tmpdir hexName) a = tmpPath hexName file.1 := by
          simpa using List.find?_some hfound
        rw [binPath_eq (hlist.short a ha)] at hpath
        rw [← offsetOf_tmpPath hexName a, hpath, offsetOf_tmpPath]
  refine ⟨?_, offsetOf_tmpPath hexName file.1⟩
  rw [Host.unpacked]
  dsimp only
  rw [hfind]
  exact hfile

/-- **Flashing a packed file** is flashing the files that `mkhex` has packed
into it, wherever it stands among the arguments: the same commands, the same
answers, and the same end. -/
theorem flash_hex {files : List (Ulong × List Byte)} (hgood : ∀ file ∈ files, Unpackable file)
    (hdistinct : (files.map Prod.fst).Nodup)
    (hapart : files.IsChain fun x y => x.1.toNat + x.2.length ≠ y.1.toNat)
    {hexName : CString} (hhex : hasSuffix hexName dotHex = true)
    (hlist : Listable hexName (files.map Prod.fst))
    (hpacked : host.disk hexName = some (mkhex files)) {args : List (CString × CString)}
    (hargs : List.Forall₂ (Given host) args files) (turns : Nat) (rest : List CString)
    (line : Line) :
    flashArgs host chip flashParams (turns + 1) (hexName :: rest) line
      = flashArgs host chip flashParams (turns + args.length)
          (args.flatMap (fun arg => [arg.1, arg.2]) ++ rest) line := by
  obtain ⟨d, hunhex, hfiles, hcreated⟩ := unpacked_args hgood hdistinct hapart host.tmp
  have hnamed : List.Forall₂ (Named (host.unpacked (tmpdir hexName) d))
      (listedNames (fileList (tmpdir hexName) d.created)) files := by
    rw [hcreated, listedNames_fileList hlist, List.forall₂_map_left_iff, List.forall₂_map_left_iff,
      List.forall₂_same]
    intro file hfile
    refine named_unpacked (hcreated ▸ hlist) ?_ ?_
    · rw [hcreated]
      exact List.mem_map_of_mem hfile
    · rw [hfiles]
      exact lookup_of_mem hdistinct hfile
  rw [flashArgs_given hargs, flashArgs, flashArg_hex hhex hpacked hunhex hnamed]
  cases run (flashFile chip flashParams) line files with
  | error e => rfl
  | ok m => rfl

end Loop

/-- Two files, and `a.hex` with both of them. -/
def packedHost : Host where
  disk := fun path =>
    if path = [120] then some [1, 2]
    else if path = [121] then some [3]
    else if path = 97 :: dotHex then some (mkhex [(0xfffa, [1, 2]), (0x20000, [3])])
    else none
  tmp := Vector.replicate sizeofTmp 0

/-- `0xfffa` -/
def firstAddress : CString := [48, 120, 102, 102, 102, 97]

/-- `131072` -/
def secondAddress : CString := [49, 51, 49, 48, 55, 50]

theorem flash_hex_two :
    flashArgs packedHost unknownChip 0 1 [97 :: dotHex] (findingLine [])
      = flashArgs packedHost unknownChip 0 2
          ([(firstAddress, [120]), (secondAddress, [121])].flatMap
            (fun arg => [arg.1, arg.2]) ++ []) (findingLine []) := by
  have hgood : ∀ file ∈ [((0xfffa : Ulong), ([1, 2] : List Byte)), (0x20000, [3])],
      Unpackable file := by
    intro file hfile
    simp only [List.mem_cons, List.not_mem_nil, or_false] at hfile
    rcases hfile with rfl | rfl
    · exact ⟨by decide, by decide, by decide⟩
    · exact ⟨by decide, by decide, by decide⟩
  have hlist : Listable (97 :: dotHex) [0xfffa, 0x20000] := by
    refine ⟨by decide, ?_, ?_⟩
    · simp [tmpPath, printHash, hexDigits, dotHex, dotTmp, dotBin]
    · simp [tmpPath, printHash, hexDigits, dotHex, dotTmp, dotBin]
  have hpacked : packedHost.disk (97 :: dotHex)
      = some (mkhex [(0xfffa, [1, 2]), (0x20000, [3])]) := by
    simp [packedHost, dotHex]
  have hargs : List.Forall₂ (Given packedHost) [(firstAddress, [120]), (secondAddress, [121])]
      [((0xfffa : Ulong), ([1, 2] : List Byte)), (0x20000, [3])] :=
    .cons ⟨by decide, by simp [packedHost]⟩ (.cons ⟨by decide, by simp [packedHost]⟩ .nil)
  exact flash_hex hgood (by decide) (by decide) (by decide) hlist hpacked hargs 0 [] _

end RiscvTe.Esputil
