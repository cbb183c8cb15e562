import RiscvTe.Lib.Codec
import RiscvTe.Esputil.Flash

/-!
# Firmware images (`esputil/README.md`)

An image has a common header, the entry point, an extended header, and its
segments. It is filled up with zeros to one byte less than a multiple of 16; the
last byte is the checksum of what the segments load.

`flashbin` changes three bytes of an image on the way to the chip. What arrives
is an image again, that of `Image.patched`: the checksum does not cover the
headers.
-/

namespace RiscvTe.Esputil

open Memory Codec

/-! ## Segments -/

/-- What is loaded where. The size is a multiple of 4. -/
structure Segment where
  addr : Word
  data : List Byte
  aligned : data.length % 4 = 0
  small : data.length < 2 ^ 32
  deriving DecidableEq, Repr

/-- `| ADDR | SIZE | DATA |` -/
def segmentParts : Format Byte (Word × Word × List Byte) :=
  (word32.seq (word32.bind fun size => fixed Byte size.toNat)).filter
    fun s => s.2.2.length % 4 = 0

theorem segmentParts_valid {s : Word × Word × List Byte} :
    segmentParts.Valid s ↔ s.2.2.length = s.2.1.toNat ∧ s.2.2.length % 4 = 0 := by
  simp [segmentParts]

def segment : Format Byte Segment :=
  segmentParts.asType
    { toFun := fun s =>
        { addr := s.1.1
          data := s.1.2.2
          aligned := (segmentParts_valid.mp s.2).2
          small := (segmentParts_valid.mp s.2).1 ▸ s.1.2.1.isLt }
      invFun := fun s =>
        ⟨(s.addr, BitVec.ofNat 32 s.data.length, s.data),
          segmentParts_valid.mpr ⟨(Nat.mod_eq_of_lt s.small).symm, s.aligned⟩⟩
      left_inv := fun ⟨(addr, size, data), h⟩ => by
        have hsize : data.length = size.toNat := (segmentParts_valid.mp h).1
        simp [hsize]
      right_inv := fun s => rfl }

theorem segment_put (s : Segment) :
    segment.put s = wordBytes s.addr ++ (wordBytes (BitVec.ofNat 32 s.data.length) ++ s.data) :=
  rfl

/-! ## Images -/

structure Image where
  /-- flash mode -/
  mode : Byte
  /-- flash size and frequency -/
  speed : Byte
  entry : Word
  chip : Byte
  revision : Byte
  segments : List Segment
  few : segments.length < 256
  deriving DecidableEq, Repr

/-- The end of an image: zeros, and the checksum. -/
def ending (segments : List Segment) : List Byte :=
  List.replicate (15 - (24 + (segment.putAll segments).length) % 16) 0
    ++ [checksum (segments.flatMap Segment.data)]

/-- The parts of an image:
```
| COMMON HEADER |  ENTRY  |           EXTENDED HEADER          | SEGM1 | ... |
| 0xe9 N F1 F2  | X X X X | 0xee 0 0 0 C 0 V 0 0 0 0 0 0 0 0 1 |       | ... |
``` -/
def imageParts : Format Byte
    (Unit × Byte × Byte × Byte × Word × Unit × Byte × Unit × Byte × Unit
      × List Segment × Unit) :=
  (literal [0xe9]).seq <| (symbol Byte).bind fun n =>
    (symbol Byte).seq <| (symbol Byte).seq <| word32.seq <|
    (literal [0xee, 0, 0, 0]).seq <| (symbol Byte).seq <| (literal [0]).seq <|
    (symbol Byte).seq <| (literal [0, 0, 0, 0, 0, 0, 0, 0, 1]).seq <|
    (segment.count n.toNat).bind fun segments => literal (ending segments)

def Image.parts (i : Image) :
    Unit × Byte × Byte × Byte × Word × Unit × Byte × Unit × Byte × Unit × List Segment × Unit :=
  ((), BitVec.ofNat 8 i.segments.length, i.mode, i.speed, i.entry, (), i.chip, (), i.revision,
    (), i.segments, ())

theorem imageParts_valid {n mode speed chip revision : Byte} {entry : Word}
    {segments : List Segment} :
    imageParts.Valid ((), n, mode, speed, entry, (), chip, (), revision, (), segments, ())
      ↔ segments.length = n.toNat := by
  simp [imageParts, segment]

def image : Format Byte Image :=
  imageParts.asType
    { toFun := fun ⟨(_, n, mode, speed, entry, _, chip, _, revision, _, segments, _), h⟩ =>
        { mode, speed, entry, chip, revision, segments
          few := imageParts_valid.mp h ▸ n.isLt }
      invFun := fun i => ⟨i.parts, imageParts_valid.mpr (Nat.mod_eq_of_lt i.few).symm⟩
      left_inv := fun ⟨(_, n, mode, speed, entry, _, chip, _, revision, _, segments, _), h⟩ => by
        have hn : segments.length = n.toNat := imageParts_valid.mp h
        simp [Image.parts, hn]
      right_inv := fun i => rfl }

/-- The 24 bytes in front of the segments. -/
def Image.headers (i : Image) : List Byte :=
  [0xe9, BitVec.ofNat 8 i.segments.length, i.mode, i.speed] ++ wordBytes i.entry
    ++ [0xee, 0, 0, 0, i.chip, 0, i.revision, 0, 0, 0, 0, 0, 0, 0, 0, 1]

theorem image_put (i : Image) :
    image.put i = i.headers ++ (segment.putAll i.segments ++ ending i.segments) := by
  rfl

theorem image_decode {bytes : List Byte} {i : Image} :
    image.decode bytes = some i ↔ bytes = image.put i := by
  rw [image.decode_eq_some]
  exact and_iff_right trivial

/-- An image fills whole blocks of 16 bytes. -/
theorem image_put_length (i : Image) : (image.put i).length % 16 = 0 := by
  rw [image_put, ending]
  simp only [Image.headers, wordBytes, List.length_append, List.length_cons, List.length_nil,
    List.length_replicate]
  omega

/-! ## Patching -/

/-- The image with other flash parameters and another chip, as far as they are
set for this chip. -/
def Image.patched (chip : Chip) (flashParams : BitVec 16) (flashOffset : Word)
    (i : Image) : Image :=
  let i :=
    if flashOffset = chip.bla ∧ flashParams ≠ 0 then
      { i with mode := byteOf flashParams 1, speed := byteOf flashParams 0 }
    else i
  if chip.id = chipIdEsp32C3Eco3 ∨ chip.id = chipIdEsp32C3Eco12 then { i with chip := 5 } else i

/-- **Patching an image** gives an image, with the same segments. -/
theorem patchFirst_put (chip : Chip) (flashParams : BitVec 16) (flashOffset : Word) (i : Image) :
    patchFirst chip flashParams flashOffset (image.put i)
      = image.put (i.patched chip flashParams flashOffset) := by
  unfold patchFirst Image.patched
  -- the three bytes are in the headers, so that each case computes
  by_cases hparams : flashOffset = chip.bla ∧ flashParams ≠ 0
  all_goals
    by_cases heco3 : chip.id = chipIdEsp32C3Eco3
    all_goals by_cases heco12 : chip.id = chipIdEsp32C3Eco12
  all_goals
    simp only [hparams, heco3, heco12, ite_true, ite_false, or_true, or_false, ne_eq,
      and_self, not_false_eq_true]
  all_goals rfl

theorem patched_segments (chip : Chip) (flashParams : BitVec 16) (flashOffset : Word)
    (i : Image) : (i.patched chip flashParams flashOffset).segments = i.segments := by
  unfold Image.patched
  split_ifs <;> rfl

theorem patched_entry (chip : Chip) (flashParams : BitVec 16) (flashOffset : Word)
    (i : Image) : (i.patched chip flashParams flashOffset).entry = i.entry := by
  unfold Image.patched
  split_ifs <;> rfl

end RiscvTe.Esputil
