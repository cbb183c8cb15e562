import RiscvTe.Esputil.Image

/-!
# From an ELF file to an image (`mkbin` in `esputil/esputil.c`)

`mkbin` writes the headers, then the segments that the program headers of the
ELF file name, each filled up to a multiple of 4, and sums them up on the way.
The file is read through structures that are laid over it; what lies behind its
end is out of bounds.

`mkbin_ok_iff` says when it returns and what it has written; `flash_mkbin` what
the chip gets when that file is flashed.
-/

namespace RiscvTe.Esputil

open Memory Codec EventRun

/-! ## Reading the file -/

/-- `n` bytes from an offset. Nothing is read for `n = 0`. -/
def sliceAt (file : List Byte) (offset n : Nat) : Except Halt (List Byte) :=
  if n = 0 ∨ offset + n ≤ file.length then .ok ((file.drop offset).take n)
  else .error .outOfBounds

def byteAt (file : List Byte) (offset : Nat) : Except Halt Byte :=
  match file[offset]? with
  | some b => .ok b
  | none => .error .outOfBounds

def halfAt (file : List Byte) (offset : Nat) : Except Halt (BitVec 16) := do
  let b0 ← byteAt file offset
  let b1 ← byteAt file (offset + 1)
  return b1 ++ b0

def wordAt (file : List Byte) (offset : Nat) : Except Halt Word := do
  let h0 ← halfAt file offset
  let h1 ← halfAt file (offset + 2)
  return h1 ++ h0

/-- `struct Elf32_Phdr` -/
structure Elf32Phdr where
  pType : Word
  pOffset : Word
  pVaddr : Word
  pPaddr : Word
  pFilesz : Word
  pMemsz : Word
  pFlags : Word
  pAlign : Word
  deriving DecidableEq, Repr

def sizeofElf32Phdr : Nat := 32

def phdrAt (file : List Byte) (offset : Nat) : Except Halt Elf32Phdr := do
  let pType ← wordAt file offset
  let pOffset ← wordAt file (offset + 4)
  let pVaddr ← wordAt file (offset + 8)
  let pPaddr ← wordAt file (offset + 12)
  let pFilesz ← wordAt file (offset + 16)
  let pMemsz ← wordAt file (offset + 20)
  let pFlags ← wordAt file (offset + 24)
  let pAlign ← wordAt file (offset + 28)
  return { pType, pOffset, pVaddr, pPaddr, pFilesz, pMemsz, pFlags, pAlign }

/-- `e_phnum` -/
def elfGetNumSegments (elf : List Byte) : Except Halt (BitVec 16) := halfAt elf 44

/-- `e_entry` -/
def elfGetEntryPoint (elf : List Byte) : Except Halt Word := wordAt elf 24

/-- The first program header is left out if it has no bytes in the file. -/
def elfGetPhdr (elf : List Byte) (no : Nat) : Except Halt Elf32Phdr := do
  let ePhoff ← wordAt elf 28
  let pFilesz ← wordAt elf (ePhoff.toNat + 16)
  let no := if pFilesz = 0 then no + 1 else no
  phdrAt elf (ePhoff.toNat + sizeofElf32Phdr * no)

/-! ## `mkbin` -/

def alignTo (n multiple : Nat) : Nat := (n + multiple - 1) / multiple * multiple

/-- The file that is written, and the checksum so far. -/
structure Bin where
  bytes : List Byte
  cs : Byte
  deriving DecidableEq, Repr

/-- One turn of the loop over the segments. -/
def mkbinSegment (elf : List Byte) (bin : Bin) (i : Nat) : Except Halt Bin := do
  let h ← elfGetPhdr elf i
  let alignedSize := BitVec.ofNat 32 (alignTo h.pFilesz.toNat 4)
  let data ← sliceAt elf h.pOffset.toNat h.pFilesz.toNat
  -- at most three zeros, so that the counter of 8 bits is wide enough
  return {
    bytes := bin.bytes ++ wordBytes h.pVaddr ++ wordBytes alignedSize ++ data
      ++ List.replicate (alignedSize - h.pFilesz).toNat 0
    cs := checksum2 bin.cs data }

/-- `if (..) fail(..)` -/
def failIf (c : Prop) [Decidable c] (text : String) : Except Halt Unit :=
  if c then .error (.failed text) else .ok ()

theorem failIf_ok_iff {c : Prop} [Decidable c] {text : String} {u : Unit} :
    failIf c text = .ok u ↔ ¬ c := by
  simp [failIf]

/-- What is written to `bin_path`. -/
def mkbin (elf : List Byte) : Except Halt (List Byte) := do
  let numSegments := (← elfGetNumSegments elf).setWidth 8
  let entrypoint ← elfGetEntryPoint elf
  failIf (elf.length < sizeofElf32Phdr) "corrupt ELF file\n"
  let cls ← byteAt elf 4
  failIf (cls ≠ 1) ("Not ELF32: " ++ toString cls.toNat ++ "\n")
  let commonHdr : List Byte := [0xe9, numSegments, 0, 0]
  let extendedHdr : List Byte := [0xee, 0, 0, 0, 0, 0, 0, 0, 0, 0, 0, 0, 0, 0, 0, 1]
  let bin ← run (mkbinSegment elf)
    { bytes := commonHdr ++ wordBytes entrypoint ++ extendedHdr, cs := 0xef }
    (List.range numSegments.toNat)
  let ofs := bin.bytes.length
  let alignedOfs := alignTo (ofs + 1) 16
  return bin.bytes ++ List.replicate (alignedOfs - ofs - 1) 0 ++ [bin.cs]

/-! ## Offsets -/

theorem byteAt_ok_iff {file : List Byte} {offset : Nat} :
    (∃ b, byteAt file offset = .ok b) ↔ offset < file.length := by
  rw [byteAt]
  split
  · rename_i b hb
    simpa using (List.getElem?_eq_some_iff.mp hb).1
  · rename_i hnone
    simpa using List.getElem?_eq_none_iff.mp hnone

theorem halfAt_ok_iff {file : List Byte} {offset : Nat} :
    (∃ v, halfAt file offset = .ok v) ↔ offset + 2 ≤ file.length := by
  constructor
  · intro h
    obtain ⟨v, h⟩ := h
    obtain ⟨b0, -, h⟩ := bind_ok_iff.mp h
    obtain ⟨b1, hb1, -⟩ := bind_ok_iff.mp h
    exact byteAt_ok_iff.mp ⟨b1, hb1⟩
  · intro h
    obtain ⟨b0, hb0⟩ := byteAt_ok_iff.mpr (by omega : offset < file.length)
    obtain ⟨b1, hb1⟩ := byteAt_ok_iff.mpr (by omega : offset + 1 < file.length)
    exact ⟨_, bind_ok_iff.mpr ⟨b0, hb0, bind_ok_iff.mpr ⟨b1, hb1, rfl⟩⟩⟩

theorem wordAt_ok_iff {file : List Byte} {offset : Nat} :
    (∃ w, wordAt file offset = .ok w) ↔ offset + 4 ≤ file.length := by
  constructor
  · intro h
    obtain ⟨v, h⟩ := h
    obtain ⟨h0, -, h⟩ := bind_ok_iff.mp h
    obtain ⟨h1, hh1, -⟩ := bind_ok_iff.mp h
    exact halfAt_ok_iff.mp ⟨h1, hh1⟩
  · intro h
    obtain ⟨h0, hh0⟩ := halfAt_ok_iff.mpr (by omega : offset + 2 ≤ file.length)
    obtain ⟨h1, hh1⟩ := halfAt_ok_iff.mpr (by omega : offset + 2 + 2 ≤ file.length)
    exact ⟨_, bind_ok_iff.mpr ⟨h0, hh0, bind_ok_iff.mpr ⟨h1, hh1, rfl⟩⟩⟩

theorem sliceAt_length {file : List Byte} {offset n : Nat} {data : List Byte}
    (h : sliceAt file offset n = .ok data) : data.length = n ∧ n ≤ file.length := by
  rw [sliceAt] at h
  split at h
  · rename_i hin
    cases h
    rw [List.length_take, List.length_drop]
    omega
  · cases h

/-! ## Segments -/

/-- What the program header of a number says is to be loaded. -/
def SegmentAt (elf : List Byte) (i : Nat) (s : Segment) : Prop :=
  ∃ h data, elfGetPhdr elf i = .ok h
    ∧ sliceAt elf h.pOffset.toNat h.pFilesz.toNat = .ok data
    ∧ s.addr = h.pVaddr
    ∧ s.data = data ++ List.replicate (alignTo data.length 4 - data.length) 0

theorem padded_length (data : List Byte) :
    (data ++ List.replicate (alignTo data.length 4 - data.length) (0 : Byte)).length
      = alignTo data.length 4 := by
  rw [List.length_append, List.length_replicate, alignTo]
  omega

/-- What one turn writes is the segment of the format; the zeros do not show in
the checksum. -/
theorem segment_written {size : Word} {data : List Byte} (hsize : data.length = size.toNat)
    (hsmall : size.toNat < 2 ^ 31) {s : Segment}
    (hdata : s.data = data ++ List.replicate (alignTo data.length 4 - data.length) 0)
    (bin : Bin) :
    ({ bytes := bin.bytes ++ wordBytes s.addr ++ wordBytes (BitVec.ofNat 32 (alignTo size.toNat 4))
          ++ data ++ List.replicate (BitVec.ofNat 32 (alignTo size.toNat 4) - size).toNat 0
       cs := checksum2 bin.cs data } : Bin)
      = { bytes := bin.bytes ++ segment.put s, cs := checksum2 bin.cs s.data } := by
  have hzeros : (BitVec.ofNat 32 (alignTo size.toNat 4) - size).toNat
      = alignTo data.length 4 - data.length := by
    rw [hsize, alignTo]
    bv_omega
  rw [segment_put, hdata, padded_length, hzeros, checksum2_append, checksum2_zeros, hsize]
  simp only [List.append_assoc]

/-- **One segment** is written as in the format. -/
theorem mkbinSegment_ok_iff {elf : List Byte} (hlen : elf.length < 2 ^ 31) {bin bin' : Bin}
    {i : Nat} : mkbinSegment elf bin i = .ok bin'
      ↔ ∃ s, SegmentAt elf i s
        ∧ bin' = { bytes := bin.bytes ++ segment.put s, cs := checksum2 bin.cs s.data } := by
  constructor
  · intro h
    obtain ⟨phdr, hphdr, h⟩ := bind_ok_iff.mp h
    obtain ⟨data, hdata, h⟩ := bind_ok_iff.mp h
    cases h
    obtain ⟨hsize, hle⟩ := sliceAt_length hdata
    have hlength := padded_length data
    obtain ⟨s, haddr, hpadded⟩ : ∃ s : Segment, s.addr = phdr.pVaddr
        ∧ s.data = data ++ List.replicate (alignTo data.length 4 - data.length) 0 := by
      refine ⟨⟨phdr.pVaddr, _, ?_, ?_⟩, rfl, rfl⟩
      · rw [hlength]
        exact Nat.mul_mod_left _ _
      · rw [hlength, alignTo]
        omega
    refine ⟨s, ⟨phdr, data, hphdr, hdata, haddr, hpadded⟩, ?_⟩
    rw [← haddr]
    exact segment_written hsize (by omega) hpadded bin
  · intro h
    obtain ⟨s, ⟨phdr, data, hphdr, hdata, haddr, hpadded⟩, rfl⟩ := h
    obtain ⟨hsize, hle⟩ := sliceAt_length hdata
    refine bind_ok_iff.mpr ⟨phdr, hphdr, bind_ok_iff.mpr ⟨data, hdata, congrArg Except.ok ?_⟩⟩
    rw [← haddr]
    exact segment_written hsize (by omega) hpadded bin

/-- **The loop over the segments.** -/
theorem mkbinSegments_ok_iff {elf : List Byte} (hlen : elf.length < 2 ^ 31) {is : List Nat}
    {bin bin' : Bin} : run (mkbinSegment elf) bin is = .ok bin'
      ↔ ∃ segments, List.Forall₂ (SegmentAt elf) is segments
        ∧ bin' = {
          bytes := bin.bytes ++ segment.putAll segments
          cs := checksum2 bin.cs (segments.flatMap Segment.data) } := by
  induction is generalizing bin with
  | nil =>
      constructor
      · intro h
        cases h
        exact ⟨[], .nil, by simp [Format.putAll, checksum2]⟩
      · intro h
        obtain ⟨segments, hsegments, rfl⟩ := h
        cases hsegments
        simp only [Format.putAll, checksum2, List.flatMap_nil, List.append_nil, List.foldl_nil]
        rfl
  | cons i is ih =>
      rw [run_cons_ok]
      constructor
      · intro h
        obtain ⟨middle, hturn, hrest⟩ := h
        obtain ⟨s, hs, rfl⟩ := (mkbinSegment_ok_iff hlen).mp hturn
        obtain ⟨segments, hsegments, rfl⟩ := ih.mp hrest
        refine ⟨s :: segments, .cons hs hsegments, ?_⟩
        rw [Format.putAll, Format.putAll, List.flatMap_cons, List.flatMap_cons, checksum2_append,
          List.append_assoc]
      · intro h
        obtain ⟨_, hsegments, rfl⟩ := h
        cases hsegments with
        | cons hs hsegments =>
            refine ⟨_, (mkbinSegment_ok_iff hlen).mpr ⟨_, hs, rfl⟩, ih.mpr ⟨_, hsegments, ?_⟩⟩
            rw [Format.putAll, Format.putAll, List.flatMap_cons, List.flatMap_cons,
              checksum2_append, List.append_assoc]

/-! ## The whole file -/

/-- The image that an ELF file describes. -/
structure ElfImage (elf : List Byte) (i : Image) : Prop where
  elf32 : byteAt elf 4 = .ok 1
  entry : elfGetEntryPoint elf = .ok i.entry
  /-- of the number of program headers the low byte counts -/
  segments : ∃ n, elfGetNumSegments elf = .ok n
    ∧ List.Forall₂ (SegmentAt elf) (List.range (n.setWidth 8).toNat) i.segments
  blank : i.mode = 0 ∧ i.speed = 0 ∧ i.chip = 0 ∧ i.revision = 0

/-- The zeros in front of the checksum. -/
theorem ending_eq (segments : List Segment) :
    ending segments = List.replicate
        (alignTo (24 + (segment.putAll segments).length + 1) 16
          - (24 + (segment.putAll segments).length) - 1) 0
      ++ [checksum2 0xef (segments.flatMap Segment.data)] := by
  have hzeros : 15 - (24 + (segment.putAll segments).length) % 16
      = alignTo (24 + (segment.putAll segments).length + 1) 16
          - (24 + (segment.putAll segments).length) - 1 := by
    rw [alignTo]
    omega
  rw [ending, hzeros, checksum]

/-- What is in the file when the loop begins. -/
def mkbinStart (numSegments : Byte) (entrypoint : Word) : Bin :=
  { bytes := [0xe9, numSegments, 0, 0] ++ wordBytes entrypoint
      ++ [0xee, 0, 0, 0, 0, 0, 0, 0, 0, 0, 0, 0, 0, 0, 0, 1]
    cs := 0xef }

/-- Padding and checksum behind the segments. -/
def Bin.finish (bin : Bin) : List Byte :=
  bin.bytes ++ List.replicate (alignTo (bin.bytes.length + 1) 16 - bin.bytes.length - 1) 0
    ++ [bin.cs]

theorem mkbin_eq (elf : List Byte) :
    mkbin elf = do
      let n ← elfGetNumSegments elf
      let entrypoint ← elfGetEntryPoint elf
      failIf (elf.length < sizeofElf32Phdr) "corrupt ELF file\n"
      let cls ← byteAt elf 4
      failIf (cls ≠ 1) ("Not ELF32: " ++ toString cls.toNat ++ "\n")
      let bin ← run (mkbinSegment elf) (mkbinStart (n.setWidth 8) entrypoint)
        (List.range (n.setWidth 8).toNat)
      return bin.finish := rfl

/-- The file that the loop and the padding make of the segments. -/
theorem finish_eq {i : Image} (hblank : i.mode = 0 ∧ i.speed = 0 ∧ i.chip = 0 ∧ i.revision = 0)
    {n : Byte} (hn : i.segments.length = n.toNat) :
    Bin.finish {
        bytes := (mkbinStart n i.entry).bytes ++ segment.putAll i.segments
        cs := checksum2 (mkbinStart n i.entry).cs (i.segments.flatMap Segment.data) }
      = image.put i := by
  have hlength : ((mkbinStart n i.entry).bytes ++ segment.putAll i.segments).length
      = 24 + (segment.putAll i.segments).length := by
    rw [List.length_append]
    rfl
  rw [image_put, Image.headers, hblank.1, hblank.2.1, hblank.2.2.1, hblank.2.2.2, hn, ending_eq,
    BitVec.ofNat_toNat, BitVec.setWidth_eq, Bin.finish, hlength, mkbinStart]
  simp only [List.append_assoc]

theorem image_of_mkbin {elf bin : List Byte} (hlen : elf.length < 2 ^ 31)
    (h : mkbin elf = .ok bin) : ∃ i, ElfImage elf i ∧ bin = image.put i := by
  rw [mkbin_eq] at h
  obtain ⟨n, hn, h⟩ := bind_ok_iff.mp h
  obtain ⟨entry, hentry, h⟩ := bind_ok_iff.mp h
  obtain ⟨_, _, h⟩ := bind_ok_iff.mp h
  obtain ⟨cls, hcls, h⟩ := bind_ok_iff.mp h
  obtain ⟨_, helf32, h⟩ := bind_ok_iff.mp h
  obtain ⟨_, hrun, h⟩ := bind_ok_iff.mp h
  obtain ⟨segments, hsegments, rfl⟩ := (mkbinSegments_ok_iff hlen).mp hrun
  have hnumber : segments.length = (n.setWidth 8).toNat := by
    rw [← hsegments.length_eq, List.length_range]
  have hone : cls = 1 := not_not.mp (failIf_ok_iff.mp helf32)
  obtain ⟨i, hblank, rfl, rfl⟩ : ∃ i : Image,
      (i.mode = 0 ∧ i.speed = 0 ∧ i.chip = 0 ∧ i.revision = 0)
        ∧ i.entry = entry ∧ i.segments = segments :=
    ⟨{ mode := 0, speed := 0, entry, chip := 0, revision := 0, segments
       few := hnumber ▸ (n.setWidth 8).isLt }, ⟨rfl, rfl, rfl, rfl⟩, rfl, rfl⟩
  rw [finish_eq hblank hnumber] at h
  cases h
  exact ⟨i, ⟨hone ▸ hcls, hentry, ⟨n, hn, hsegments⟩, hblank⟩, rfl⟩

theorem mkbin_of_image {elf : List Byte} (hlen : elf.length < 2 ^ 31) {i : Image}
    (h : ElfImage elf i) : mkbin elf = .ok (image.put i) := by
  obtain ⟨helf32, hentry, ⟨n, hn, hsegments⟩, hblank⟩ := h
  have hnumber : i.segments.length = (n.setWidth 8).toNat := by
    rw [← hsegments.length_eq, List.length_range]
  -- the file is longer than the part of it that has been read
  have hlong : ¬ elf.length < sizeofElf32Phdr := by
    have hhalf := halfAt_ok_iff.mp ⟨n, hn⟩
    rw [sizeofElf32Phdr]
    omega
  rw [mkbin_eq]
  refine bind_ok_iff.mpr ⟨n, hn, bind_ok_iff.mpr ⟨i.entry, hentry, bind_ok_iff.mpr
    ⟨(), failIf_ok_iff.mpr hlong, bind_ok_iff.mpr ⟨1, helf32, bind_ok_iff.mpr
      ⟨(), failIf_ok_iff.mpr (by simp), bind_ok_iff.mpr
        ⟨_, (mkbinSegments_ok_iff hlen).mpr ⟨_, hsegments, rfl⟩, ?_⟩⟩⟩⟩⟩⟩
  exact congrArg Except.ok (finish_eq hblank hnumber)

/-- **What `mkbin` writes**: it returns exactly if the file describes an image,
and then with the file that reads as that image. -/
theorem mkbin_ok_iff {elf bin : List Byte} (hlen : elf.length < 2 ^ 31) :
    mkbin elf = .ok bin ↔ ∃ i, ElfImage elf i ∧ image.decode bin = some i := by
  constructor
  · intro h
    obtain ⟨i, hi, hbin⟩ := image_of_mkbin hlen h
    exact ⟨i, hi, image_decode.mpr hbin⟩
  · intro h
    obtain ⟨i, hi, hdecode⟩ := h
    rw [image_decode.mp hdecode]
    exact mkbin_of_image hlen hi

/-- An ELF file with one segment of one byte. -/
def smallElf : List Byte :=
  [0x7f, 0x45, 0x4c, 0x46, 1, 1, 1, 0, 0, 0, 0, 0, 0, 0, 0, 0]
    ++ [2, 0, 0xf3, 0] ++ wordBytes 1 ++ wordBytes 0x40380000 ++ wordBytes 52 ++ wordBytes 0
    ++ wordBytes 0 ++ [52, 0, 32, 0, 1, 0, 40, 0, 0, 0, 0, 0]
    ++ wordBytes 1 ++ wordBytes 84 ++ wordBytes 0x40380000 ++ wordBytes 0x40380000
    ++ wordBytes 1 ++ wordBytes 1 ++ wordBytes 5 ++ wordBytes 4 ++ [7]

/-- Its image. -/
def smallBin : List Byte :=
  [0xe9, 1, 0, 0, 0, 0, 0x38, 0x40, 0xee, 0, 0, 0, 0, 0, 0, 0, 0, 0, 0, 0, 0, 0, 0, 1,
    0, 0, 0x38, 0x40, 4, 0, 0, 0, 7, 0, 0, 0, 0, 0, 0, 0, 0, 0, 0, 0, 0, 0, 0, 0xe8]

theorem mkbin_small : mkbin smallElf = .ok smallBin := by decide +kernel

theorem mkbin_ok_iff_small : ∃ i, ElfImage smallElf i ∧ image.decode smallBin = some i :=
  (mkbin_ok_iff (by decide)).mp mkbin_small

/-! ## When it fails -/

/-- Reading a file fails in one way only. -/
def ReadsFile {α : Type} (x : Except Halt α) : Prop := ∀ e, x = .error e → e = .outOfBounds

theorem ReadsFile.ok {α : Type} (a : α) : ReadsFile (.ok a) := by
  intro e h
  cases h

theorem ReadsFile.bind {α β : Type} {x : Except Halt α} {f : α → Except Halt β}
    (h : ReadsFile x) (hf : ∀ a, ReadsFile (f a)) : ReadsFile (x >>= f) := by
  intro e he
  cases x with
  | error e' =>
      cases he
      exact h e rfl
  | ok a => exact hf a e he

theorem ReadsFile.eq_error {α : Type} {x : Except Halt α} (h : ReadsFile x)
    (hno : ¬ ∃ a, x = .ok a) : x = .error .outOfBounds := by
  cases x with
  | error e => rw [h e rfl]
  | ok a => exact absurd ⟨a, rfl⟩ hno

theorem ReadsFile.run {σ α : Type} {f : σ → α → Except Halt σ} (h : ∀ s a, ReadsFile (f s a))
    (s : σ) (as : List α) : ReadsFile (EventRun.run f s as) := by
  induction as generalizing s with
  | nil => exact .ok s
  | cons a as ih =>
      rw [run_cons]
      exact (h s a).bind fun s' => ih s'

theorem byteAt_reads (file : List Byte) (offset : Nat) : ReadsFile (byteAt file offset) := by
  intro e h
  rw [byteAt] at h
  split at h
  · cases h
  · cases h
    rfl

theorem sliceAt_reads (file : List Byte) (offset n : Nat) :
    ReadsFile (sliceAt file offset n) := by
  intro e h
  rw [sliceAt] at h
  split at h
  · cases h
  · cases h
    rfl

theorem halfAt_reads (file : List Byte) (offset : Nat) : ReadsFile (halfAt file offset) :=
  (byteAt_reads _ _).bind fun _ => (byteAt_reads _ _).bind fun _ => .ok _

theorem wordAt_reads (file : List Byte) (offset : Nat) : ReadsFile (wordAt file offset) :=
  (halfAt_reads _ _).bind fun _ => (halfAt_reads _ _).bind fun _ => .ok _

theorem elfGetPhdr_reads (elf : List Byte) (no : Nat) : ReadsFile (elfGetPhdr elf no) := by
  refine (wordAt_reads _ _).bind fun _ => (wordAt_reads _ _).bind fun _ => ?_
  unfold phdrAt
  repeat refine (wordAt_reads _ _).bind fun _ => ?_
  exact .ok _

theorem mkbinSegment_reads (elf : List Byte) (bin : Bin) (i : Nat) :
    ReadsFile (mkbinSegment elf bin i) :=
  (elfGetPhdr_reads _ _).bind fun _ => (sliceAt_reads _ _ _).bind fun _ => .ok _

/-- A program header that is used and what it names lie in the file. -/
def InFile (elf : List Byte) (i : Nat) : Prop :=
  ∃ h, elfGetPhdr elf i = .ok h
    ∧ (h.pFilesz = 0 ∨ h.pOffset.toNat + h.pFilesz.toNat ≤ elf.length)

theorem sliceAt_ok_iff {file : List Byte} {offset n : Nat} :
    (∃ data, sliceAt file offset n = .ok data) ↔ n = 0 ∨ offset + n ≤ file.length := by
  rw [sliceAt]
  split
  · simp_all
  · simp_all

theorem mkbinSegments_inFile {elf : List Byte} {is : List Nat} {bin : Bin} :
    (∃ bin', run (mkbinSegment elf) bin is = .ok bin') ↔ ∀ i ∈ is, InFile elf i := by
  have hturn {bin : Bin} {i : Nat} :
      (∃ bin', mkbinSegment elf bin i = .ok bin') ↔ InFile elf i := by
    constructor
    · intro h
      obtain ⟨bin', h⟩ := h
      obtain ⟨phdr, hphdr, h⟩ := bind_ok_iff.mp h
      obtain ⟨data, hdata, -⟩ := bind_ok_iff.mp h
      refine ⟨phdr, hphdr, ?_⟩
      rw [BitVec.toNat_eq]
      exact sliceAt_ok_iff.mp ⟨data, hdata⟩
    · intro h
      obtain ⟨phdr, hphdr, hin⟩ := h
      rw [BitVec.toNat_eq] at hin
      obtain ⟨data, hdata⟩ := sliceAt_ok_iff.mpr hin
      exact ⟨_, bind_ok_iff.mpr ⟨phdr, hphdr, bind_ok_iff.mpr ⟨data, hdata, rfl⟩⟩⟩
  induction is generalizing bin with
  | nil => simp [run, pure, Except.pure]
  | cons i is ih =>
      rw [List.forall_mem_cons]
      constructor
      · intro h
        obtain ⟨bin', h⟩ := h
        obtain ⟨middle, hfirst, hrest⟩ := run_cons_ok.mp h
        exact ⟨hturn.mp ⟨middle, hfirst⟩, ih.mp ⟨bin', hrest⟩⟩
      · intro h
        obtain ⟨middle, hfirst⟩ := hturn.mpr h.1
        obtain ⟨bin', hrest⟩ := ih.mpr h.2
        exact ⟨bin', run_cons_ok.mpr ⟨middle, hfirst, hrest⟩⟩

theorem mkbinSegments_error_iff {elf : List Byte} {is : List Nat} {bin : Bin} {e : Halt} :
    run (mkbinSegment elf) bin is = .error e
      ↔ (∃ i ∈ is, ¬ InFile elf i) ∧ e = .outOfBounds := by
  have hok : (∃ bin', run (mkbinSegment elf) bin is = .ok bin') ↔ ∀ i ∈ is, InFile elf i :=
    mkbinSegments_inFile
  constructor
  · intro h
    refine ⟨?_, ReadsFile.run (mkbinSegment_reads elf) bin is e h⟩
    by_contra hnone
    push Not at hnone
    obtain ⟨bin', hbin'⟩ := hok.mpr hnone
    rw [h] at hbin'
    cases hbin'
  · intro h
    obtain ⟨⟨i, hi, hout⟩, rfl⟩ := h
    exact (ReadsFile.run (mkbinSegment_reads elf) bin is).eq_error
      fun hall => hout (hok.mp hall i hi)

/-- What is left to do once the header has been read. -/
theorem mkbin_header {elf : List Byte} {n : BitVec 16} {entry : Word} {cls : Byte}
    (hn : elfGetNumSegments elf = .ok n) (hentry : elfGetEntryPoint elf = .ok entry)
    (hcls : byteAt elf 4 = .ok cls) :
    mkbin elf = if cls ≠ 1 then .error (.failed ("Not ELF32: " ++ toString cls.toNat ++ "\n"))
      else do
        let bin ← run (mkbinSegment elf) (mkbinStart (n.setWidth 8) entry)
          (List.range (n.setWidth 8).toNat)
        return bin.finish := by
  have hlong : ¬ elf.length < sizeofElf32Phdr := by
    have hhalf := halfAt_ok_iff.mp ⟨n, hn⟩
    rw [sizeofElf32Phdr]
    omega
  rw [mkbin_eq, hn, hentry, hcls, failIf, if_neg hlong]
  change (failIf (cls ≠ 1) _ >>= _) = _
  rw [failIf]
  split <;> rfl

/-- **How `mkbin` fails.** A file that is too short for an ELF header is read
behind its end before its length is looked at, so that it is never reported as
corrupt. The class is reported; all else that is wrong with the file is not
noticed, and read out of bounds. -/
theorem mkbin_error_iff {elf : List Byte} {e : Halt} :
    mkbin elf = .error e ↔
      (elf.length < 46 ∧ e = .outOfBounds)
      ∨ (46 ≤ elf.length ∧ ∃ cls, byteAt elf 4 = .ok cls ∧ cls ≠ 1
        ∧ e = .failed ("Not ELF32: " ++ toString cls.toNat ++ "\n"))
      ∨ (byteAt elf 4 = .ok 1 ∧ ∃ n, elfGetNumSegments elf = .ok n
        ∧ (∃ i < (n.setWidth 8).toNat, ¬ InFile elf i) ∧ e = .outOfBounds) := by
  by_cases hshort : elf.length < 46
  · have hno : ¬ ∃ n, elfGetNumSegments elf = .ok n := by
      intro h
      have hhalf := halfAt_ok_iff.mp h
      omega
    have hmkbin : mkbin elf = .error .outOfBounds := by
      have herror : elfGetNumSegments elf = .error .outOfBounds :=
        (halfAt_reads elf 44).eq_error hno
      rw [mkbin_eq, herror]
      rfl
    rw [hmkbin]
    constructor
    · intro h
      cases h
      exact .inl ⟨hshort, rfl⟩
    · rintro (⟨-, rfl⟩ | ⟨hlong, -⟩ | ⟨-, n, hn, -⟩)
      · rfl
      · omega
      · exact absurd ⟨n, hn⟩ hno
  · obtain ⟨n, hn⟩ : ∃ n, elfGetNumSegments elf = .ok n :=
      halfAt_ok_iff.mpr (by omega : 44 + 2 ≤ elf.length)
    obtain ⟨entry, hentry⟩ := wordAt_ok_iff.mpr (by omega : 24 + 4 ≤ elf.length)
    obtain ⟨cls, hcls⟩ := byteAt_ok_iff.mpr (by omega : 4 < elf.length)
    rw [mkbin_header hn hentry hcls]
    by_cases hone : cls = 1
    · subst hone
      rw [if_neg (not_not.mpr rfl), bind_pure_error_iff, mkbinSegments_error_iff]
      simp only [List.mem_range]
      constructor
      · intro h
        exact .inr (.inr ⟨hcls, n, hn, h⟩)
      · rintro (⟨hlt, -⟩ | ⟨-, cls, hcls', hne, -⟩ | ⟨-, n', hn', h⟩)
        · exact absurd hlt hshort
        · rw [hcls] at hcls'
          cases hcls'
          exact absurd rfl hne
        · rw [hn] at hn'
          cases hn'
          exact h
    · rw [if_pos hone]
      constructor
      · intro h
        cases h
        exact .inr (.inl ⟨by omega, cls, hcls, hone, rfl⟩)
      · rintro (⟨hlt, -⟩ | ⟨-, cls', hcls', -, rfl⟩ | ⟨hcls', -⟩)
        · exact absurd hlt hshort
        · rw [hcls] at hcls'
          cases hcls'
          rfl
        · rw [hcls] at hcls'
          cases hcls'
          exact absurd rfl hone

/-! ## An empty first program header -/

/-- The header of a number, if the first one is left out. -/
theorem elfGetPhdr_skip {elf : List Byte} {ePhoff : Word} (hoff : wordAt elf 28 = .ok ePhoff)
    (hempty : wordAt elf (ePhoff.toNat + 16) = .ok 0) (no : Nat) :
    elfGetPhdr elf no = phdrAt elf (ePhoff.toNat + sizeofElf32Phdr * (no + 1)) := by
  rw [elfGetPhdr, hoff]
  change (wordAt elf (ePhoff.toNat + 16) >>= _) = _
  rw [hempty]
  rfl

theorem phdrAt_bound {file : List Byte} {offset : Nat} {h : Elf32Phdr}
    (hphdr : phdrAt file offset = .ok h) :
    offset + sizeofElf32Phdr ≤ file.length ∧ wordAt file (offset + 8) = .ok h.pVaddr := by
  unfold phdrAt at hphdr
  obtain ⟨_, _, hphdr⟩ := bind_ok_iff.mp hphdr
  obtain ⟨_, _, hphdr⟩ := bind_ok_iff.mp hphdr
  obtain ⟨_, hvaddr, hphdr⟩ := bind_ok_iff.mp hphdr
  obtain ⟨_, _, hphdr⟩ := bind_ok_iff.mp hphdr
  obtain ⟨_, _, hphdr⟩ := bind_ok_iff.mp hphdr
  obtain ⟨_, _, hphdr⟩ := bind_ok_iff.mp hphdr
  obtain ⟨_, _, hphdr⟩ := bind_ok_iff.mp hphdr
  obtain ⟨w, hw, hphdr⟩ := bind_ok_iff.mp hphdr
  cases hphdr
  have hend := wordAt_ok_iff.mp ⟨w, hw⟩
  exact ⟨by rw [sizeofElf32Phdr]; omega, hvaddr⟩

/-- **Behind the table.** If the first program header is empty, the last segment
of the image is not one of the table's: its header is read from the bytes behind
the table. -/
theorem mkbin_behind_table {elf bin : List Byte} (hlen : elf.length < 2 ^ 31)
    {ePhoff : Word} (hoff : wordAt elf 28 = .ok ePhoff)
    (hempty : wordAt elf (ePhoff.toNat + 16) = .ok 0) {n : BitVec 16}
    (hn : elfGetNumSegments elf = .ok n) (hsmall : 0 < n.toNat ∧ n.toNat < 256)
    (h : mkbin elf = .ok bin) :
    ∃ i s, image.decode bin = some i ∧ i.segments.getLast? = some s
      ∧ ePhoff.toNat + sizeofElf32Phdr * n.toNat + sizeofElf32Phdr ≤ elf.length
      ∧ wordAt elf (ePhoff.toNat + sizeofElf32Phdr * n.toNat + 8) = .ok s.addr := by
  obtain ⟨i, hi, hbin⟩ := image_of_mkbin hlen h
  obtain ⟨n', hn', hsegments⟩ := hi.segments
  rw [hn] at hn'
  cases hn'
  have hnumber : (n.setWidth 8).toNat = n.toNat := by
    rw [BitVec.toNat_setWidth]
    omega
  rw [hnumber, List.forall₂_iff_get] at hsegments
  obtain ⟨hlength, hall⟩ := hsegments
  rw [List.length_range] at hlength
  have hlast : n.toNat - 1 < i.segments.length := by omega
  have hs := hall (n.toNat - 1) (by rw [List.length_range]; omega) hlast
  rw [List.get_eq_getElem, List.get_eq_getElem, List.getElem_range] at hs
  obtain ⟨phdr, data, hphdr, -, haddr, -⟩ := hs
  rw [elfGetPhdr_skip hoff hempty, Nat.sub_add_cancel hsmall.1] at hphdr
  obtain ⟨hbound, hvaddr⟩ := phdrAt_bound hphdr
  refine ⟨i, i.segments[n.toNat - 1], image_decode.mpr hbin, ?_, hbound, haddr ▸ hvaddr⟩
  rw [List.getLast?_eq_getElem?, ← hlength]
  exact List.getElem?_eq_getElem hlast

/-- An ELF file whose first header is empty, and what lies behind its table. -/
def emptyFirstElf : List Byte :=
  [0x7f, 0x45, 0x4c, 0x46, 1, 1, 1, 0, 0, 0, 0, 0, 0, 0, 0, 0]
    ++ [2, 0, 0xf3, 0] ++ wordBytes 1 ++ wordBytes 0x40380000 ++ wordBytes 52 ++ wordBytes 0
    ++ wordBytes 0 ++ [52, 0, 32, 0, 1, 0, 40, 0, 0, 0, 0, 0]
    ++ List.replicate 32 0
    ++ wordBytes 0 ++ wordBytes 0 ++ wordBytes 0x12345678 ++ List.replicate 20 0

theorem mkbin_behind_table_empty :
    ∃ bin i s, mkbin emptyFirstElf = .ok bin ∧ image.decode bin = some i
      ∧ i.segments.getLast? = some s
      ∧ 52 + sizeofElf32Phdr * 1 + sizeofElf32Phdr ≤ emptyFirstElf.length
      ∧ wordAt emptyFirstElf (52 + sizeofElf32Phdr * 1 + 8) = .ok s.addr := by
  have hok : (mkbin emptyFirstElf).isOk = true := by decide +kernel
  cases hrun : mkbin emptyFirstElf with
  | error e =>
      rw [hrun] at hok
      cases hok
  | ok bin =>
      obtain ⟨i, s, h⟩ := @mkbin_behind_table emptyFirstElf bin (by decide) 52 (by decide)
        (by decide) 1 (by decide) (by decide) hrun
      exact ⟨bin, i, s, rfl, h⟩

/-! ## Flashing the image -/

/-- **From the ELF file to the flash**: when `flashbin` returns, having been
given what `mkbin` wrote, the blocks on the line make up one image, that of the
ELF file but for the flash parameters and the chip type. -/
theorem flash_mkbin {elf bin : List Byte} (hlen : elf.length < 2 ^ 31)
    (hbin : mkbin elf = .ok bin) {chip : Chip} {flashParams : BitVec 16} {flashOffset : Word}
    {link link' : Link} (h : flashbin chip flashParams flashOffset bin link = .ok link') :
    ∃ (wire : List Byte) (bs : List (List Byte)) (i : Image),
      link'.sent = link.sent ++ wire
      ∧ rfc1055.items wire
        = .frame (eraseCommand chip flashOffset bin.length).packet
          :: bs.zipIdx.map (fun turn => .frame (dataCommand turn.2 turn.1).packet)
      ∧ image.decode bs.flatten = some (i.patched chip flashParams flashOffset)
      ∧ ElfImage elf i := by
  obtain ⟨i, hi, rfl⟩ := image_of_mkbin hlen hbin
  refine ⟨(flashPlan chip flashParams flashOffset (image.put i)).flatMap Command.wire,
    Blocks.blocks blockSize (patchFirst chip flashParams flashOffset (image.put i)), i,
    flashbin_sent h, ?_, ?_, hi⟩
  · rw [items_wire, flashPlan, List.map_cons, List.map_map]
    rfl
  · rw [Blocks.blocks_flatten (by decide), patchFirst_put]
    exact image_decode.mpr rfl

/-- The image of `smallElf`, to a chip without parameters. -/
theorem flash_mkbin_small :
    let link := answeringLink (flashPlan unknownChip 0 0 smallBin)
    ∃ (link' : Link) (wire : List Byte) (bs : List (List Byte)) (i : Image),
      link'.sent = link.sent ++ wire
      ∧ rfc1055.items wire
        = .frame (eraseCommand unknownChip 0 smallBin.length).packet
          :: bs.zipIdx.map (fun turn => .frame (dataCommand turn.2 turn.1).packet)
      ∧ image.decode bs.flatten = some (i.patched unknownChip 0 0)
      ∧ ElfImage smallElf i := by
  obtain ⟨link', hrun⟩ := flashbin_answered 0 0 smallBin
  exact ⟨link', flash_mkbin (by decide) mkbin_small hrun⟩

end RiscvTe.Esputil
