import RiscvTe.Lib.Blocks
import RiscvTe.Esputil.Command

/-!
# Writing a file to flash (`flashbin` in `esputil/esputil.c`)

`flashbin` announces the file with FLASH_BEGIN and sends it in blocks of 4096
bytes with FLASH_DATA, each with its size, its number and its checksum. The
first block is patched on the way: with the flash parameters if it goes where
the chip looks for its boot loader, and with the chip type on an ESP32-C3.

What the commands carry is `flashPlan`, a function of the file alone: `flashbin`
goes through it as long as every command is answered with the code 0.
-/

namespace RiscvTe.Esputil

open Memory Stuffing Blocks EventRun

/-! ## Chips -/

def chipIdEsp32S2 : Word := 0x000007c6
def chipIdEsp32C3Eco12 : Word := 0x6921506f
def chipIdEsp32C3Eco3 : Word := 0x1b31506f
def chipIdEsp32S3Beta2 : Word := 0xeb004136
def chipIdEsp32S3Beta3 : Word := 0x9
def chipIdEsp32C6Beta : Word := 0x0da1806f

/-- `struct chip`: the id read from ROM, and where the boot loader is. -/
structure Chip where
  id : Word
  bla : Word
  deriving DecidableEq, Repr

/-! ## Checksums -/

def checksum2 (v : Byte) (buf : List Byte) : Byte := buf.foldl (· ^^^ ·) v

def checksum (buf : List Byte) : Byte := checksum2 0xef buf

theorem checksum2_append (v : Byte) (xs ys : List Byte) :
    checksum2 v (xs ++ ys) = checksum2 (checksum2 v xs) ys := List.foldl_append

/-- Padding with zeros does not show in a checksum. -/
theorem checksum2_zeros (v : Byte) (n : Nat) : checksum2 v (List.replicate n 0) = v := by
  induction n with
  | zero => rfl
  | succ n ih =>
      have hzero : v ^^^ (0 : Byte) = v := BitVec.xor_zero
      rw [List.replicate_succ, checksum2, List.foldl_cons, hzero]
      exact ih

/-! ## The link to the chip -/

/-- The arguments of a call of `cmd`. -/
structure Command where
  op : Byte
  data : List Byte
  cs : Word
  deriving DecidableEq, Repr

/-- The packet of a command. -/
def Command.packet (c : Command) : List Byte :=
  commandHeader c.op (BitVec.ofNat 16 c.data.length) c.cs ++ c.data

/-- The serial line: the state machine, what will be read, what was written;
and what `cmd` and the dumps have printed. The progress of `flashbin` is not
among this. -/
structure Link where
  slip : Slip
  reads : List Read
  sent : List Byte
  printed : List Byte
  deriving DecidableEq, Repr

/-- A call of `cmd`, with the value it returns. -/
def Link.exec (chipId : Word) (link : Link) (c : Command) : Except Halt (Link × Nat) := do
  let x ← cmd chipId link.slip c.op c.data c.cs link.reads
  return ({ slip := x.heard.slip, reads := x.reads, sent := link.sent ++ x.sent
            printed := link.printed ++ x.printed }, x.result)

/-- `if (cmd(..)) fail(failure)` -/
def Link.send (chipId : Word) (failure : String) (link : Link) (c : Command) :
    Except Halt Link := do
  let (link, result) ← link.exec chipId c
  if result ≠ 0 then .error (.failed failure) else return link

/-! ## `flashbin` -/

def blockSize : Nat := 4096

/-- `num_blocks`, in unsigned arithmetic. -/
def numBlocks (size : Word) : Word :=
  (size + BitVec.ofNat 32 blockSize - 1) / BitVec.ofNat 32 blockSize

/-- The chips whose FLASH_BEGIN has a fifth parameter. -/
def hasFifthParameter (chip : Chip) : Bool :=
  chip.id = chipIdEsp32S2 || chip.id = chipIdEsp32S3Beta2 || chip.id = chipIdEsp32S3Beta3
    || chip.id = chipIdEsp32C6Beta || chip.id = chipIdEsp32C3Eco12 || chip.id = chipIdEsp32C3Eco3

/-- FLASH_BEGIN: `d1`, of which `d1size` bytes are sent. -/
def eraseCommand (chip : Chip) (flashOffset : Word) (size : Nat) : Command :=
  let size := BitVec.ofNat 32 size
  let encrypted : Word := 0
  { op := 2
    data := wordBytes size ++ wordBytes (numBlocks size)
      ++ wordBytes (BitVec.ofNat 32 blockSize) ++ wordBytes flashOffset
      ++ if hasFifthParameter chip then wordBytes encrypted else []
    cs := 0 }

/-- FLASH_DATA: the 16 bytes in front of the block hold its size and number. -/
def dataCommand (seq : Nat) (block : List Byte) : Command :=
  { op := 3
    data := wordBytes (BitVec.ofNat 32 block.length) ++ wordBytes (BitVec.ofNat 32 seq)
      ++ List.replicate 8 0 ++ block
    cs := (checksum block).setWidth 32 }

/-- The flash parameters and the chip type, embedded into the first block. A
byte behind the end of the block is not sent. -/
def patchFirst (chip : Chip) (flashParams : BitVec 16) (flashOffset : Word)
    (block : List Byte) : List Byte :=
  let block :=
    if flashOffset = chip.bla ∧ flashParams ≠ 0 then
      (block.set 2 (byteOf flashParams 1)).set 3 (byteOf flashParams 0)
    else block
  let block := if chip.id = chipIdEsp32C3Eco3 then block.set 12 5 else block
  if chip.id = chipIdEsp32C3Eco12 then block.set 12 5 else block

/-- One turn of the loop over the file. -/
def flashBlock (chip : Chip) (flashParams : BitVec 16) (flashOffset : Word) (link : Link)
    (turn : List Byte × Nat) : Except Halt Link :=
  let block :=
    if turn.2 = 0 then patchFirst chip flashParams flashOffset turn.1 else turn.1
  link.send chip.id "flash_data failed\n" (dataCommand turn.2 block)

def flashbin (chip : Chip) (flashParams : BitVec 16) (flashOffset : Word)
    (file : List Byte) (link : Link) : Except Halt Link := do
  let link ← link.send chip.id "\nerase failed\n" (eraseCommand chip flashOffset file.length)
  run (flashBlock chip flashParams flashOffset) link (blocks blockSize file).zipIdx

/-! ## The plan -/

/-- The commands of a file, from the file as patched. -/
def flashPlan (chip : Chip) (flashParams : BitVec 16) (flashOffset : Word)
    (file : List Byte) : List Command :=
  eraseCommand chip flashOffset file.length
    :: (blocks blockSize (patchFirst chip flashParams flashOffset file)).zipIdx.map
      fun turn => dataCommand turn.2 turn.1

theorem patchFirst_length (chip : Chip) (flashParams : BitVec 16) (flashOffset : Word)
    (block : List Byte) :
    (patchFirst chip flashParams flashOffset block).length = block.length := by
  unfold patchFirst
  split_ifs <;> simp

/-- Patching touches the first block only. -/
theorem patchFirst_take (chip : Chip) (flashParams : BitVec 16) (flashOffset : Word)
    (file : List Byte) :
    (patchFirst chip flashParams flashOffset file).take blockSize
      = patchFirst chip flashParams flashOffset (file.take blockSize) := by
  unfold patchFirst
  split_ifs <;> simp [List.take_set]

theorem patchFirst_drop (chip : Chip) (flashParams : BitVec 16) (flashOffset : Word)
    (file : List Byte) :
    (patchFirst chip flashParams flashOffset file).drop blockSize = file.drop blockSize := by
  unfold patchFirst
  split_ifs <;> simp [List.drop_set, blockSize]

/-- The blocks sent are those of the file as patched. -/
theorem blocks_patchFirst (chip : Chip) (flashParams : BitVec 16) (flashOffset : Word)
    (file : List Byte) :
    (blocks blockSize (patchFirst chip flashParams flashOffset file)).zipIdx.map
        (fun turn => dataCommand turn.2 turn.1)
      = (blocks blockSize file).zipIdx.map fun turn => dataCommand turn.2
          (if turn.2 = 0 then patchFirst chip flashParams flashOffset turn.1 else turn.1) := by
  have hsize : 0 < blockSize := by decide
  by_cases hfile : file = []
  · have hpatched : patchFirst chip flashParams flashOffset file = [] := by
      rw [← List.length_eq_zero_iff, patchFirst_length, hfile, List.length_nil]
    rw [hpatched, hfile, blocks_nil hsize]
    rfl
  · have hpatched : patchFirst chip flashParams flashOffset file ≠ [] := by
      rw [← List.length_pos_iff, patchFirst_length]
      exact List.length_pos_iff.mpr hfile
    rw [blocks_cons hsize hpatched, blocks_cons hsize hfile, patchFirst_take, patchFirst_drop,
      List.zipIdx_cons, List.zipIdx_cons, List.map_cons, List.map_cons, if_pos rfl]
    congr 1
    apply List.map_congr_left
    intro turn hturn
    have hseq : turn.2 ≠ 0 := by
      have hle := List.le_snd_of_mem_zipIdx hturn
      omega
    rw [if_neg hseq]

/-! ## Going through the plan -/

/-- What a command writes to the line. -/
def Command.wire (c : Command) : List Byte := slipSend c.packet

theorem exec_sent {chipId : Word} {link link' : Link} {c : Command} {result : Nat}
    (h : link.exec chipId c = .ok (link', result)) : link'.sent = link.sent ++ c.wire := by
  obtain ⟨x, hx, h⟩ := bind_ok_iff.mp h
  obtain ⟨packet, hpacket, hx⟩ := bind_ok_iff.mp hx
  obtain ⟨⟨heard, left⟩, -, hx⟩ := bind_ok_iff.mp hx
  cases hx
  cases h
  rw [request] at hpacket
  split at hpacket
  · cases hpacket
    rfl
  · cases hpacket

theorem send_ok_iff {chipId : Word} {failure : String} {link link' : Link} {c : Command} :
    link.send chipId failure c = .ok link' ↔ link.exec chipId c = .ok (link', 0) := by
  constructor
  · intro h
    obtain ⟨⟨m, result⟩, hexec, h⟩ := bind_ok_iff.mp h
    dsimp only at h
    split at h
    · cases h
    · rename_i hresult
      cases h
      rw [not_not] at hresult
      rw [hexec, hresult]
  · intro h
    exact bind_ok_iff.mpr ⟨(link', 0), h, rfl⟩

theorem send_sent {chipId : Word} {failure : String} {link link' : Link} {c : Command}
    (h : link.send chipId failure c = .ok link') : link'.sent = link.sent ++ c.wire :=
  exec_sent (send_ok_iff.mp h)

/-- The commands of the loop, in order. -/
theorem flashBlocks_sent {chip : Chip} {flashParams : BitVec 16} {flashOffset : Word}
    {turns : List (List Byte × Nat)} {link link' : Link}
    (h : run (flashBlock chip flashParams flashOffset) link turns = .ok link') :
    link'.sent = link.sent ++ turns.flatMap fun turn => (dataCommand turn.2
      (if turn.2 = 0 then patchFirst chip flashParams flashOffset turn.1 else turn.1)).wire := by
  induction turns generalizing link with
  | nil =>
      cases h
      simp
  | cons turn turns ih =>
      obtain ⟨m, hm, hrest⟩ := run_cons_ok.mp h
      rw [ih hrest, send_sent hm, List.flatMap_cons, List.append_assoc]

theorem flashbin_sent {chip : Chip} {flashParams : BitVec 16} {flashOffset : Word}
    {file : List Byte} {link link' : Link}
    (h : flashbin chip flashParams flashOffset file link = .ok link') :
    link'.sent = link.sent
      ++ (flashPlan chip flashParams flashOffset file).flatMap Command.wire := by
  obtain ⟨m, hm, hrest⟩ := bind_ok_iff.mp h
  rw [flashBlocks_sent hrest, send_sent hm, flashPlan, blocks_patchFirst, List.flatMap_cons,
    List.flatMap_map, List.append_assoc]

/-- The packets of commands, read from the line. -/
theorem items_wire (commands : List Command) :
    rfc1055.items (commands.flatMap Command.wire) = commands.map fun c => .frame c.packet := by
  induction commands with
  | nil => rfl
  | cons c commands ih =>
      have hsend := @Code.items_send _ rfc1055 _ [] (by simp) c.packet
        (commands.flatMap Command.wire)
      rw [List.flatMap_cons, Command.wire, slipSend_eq, List.map_cons, ← ih]
      simpa using hsend

/-- `num_blocks` is the number of reads of the file; its size is an `int`. -/
theorem numBlocks_toNat {size : Nat} (hsize : size < 2 ^ 31) :
    (numBlocks (BitVec.ofNat 32 size)).toNat = count blockSize size := by
  have hsum : (BitVec.ofNat 32 size + BitVec.ofNat 32 blockSize - 1).toNat
      = size + (blockSize - 1) := by
    rw [blockSize]
    have h : (BitVec.ofNat 32 size).toNat = size := by
      rw [BitVec.toNat_ofNat]
      omega
    bv_omega
  rw [numBlocks, BitVec.toNat_udiv, hsum]
  rfl

/-! ## A chip that answers -/

/-- A command that is answered: the packet is in the buffer. -/
theorem exec_reply {chipId : Word} {link : Link} {c : Command} {chunks : List (List Byte)}
    {reads : List Read} {code : Byte} (hidle : link.slip.Idle)
    (hdata : c.data.length ≤ 16384) (hreads : link.reads = chunks.map .data ++ reads)
    (hreply : Reply chipId c.op link.slip.size chunks code) :
    ∃ slip', link.exec chipId c
        = .ok ({ slip := slip', reads := reads, sent := link.sent ++ c.wire
                 printed := link.printed ++ replyText chipId c.op link.slip.size chunks code },
            code.toNat)
      ∧ slip'.Idle ∧ slip'.size = link.slip.size
      ∧ ∀ packet ∈ firstPacket chipId c.op (lineEvents link.slip.size chunks.flatten),
          slip'.buf.take packet.length = packet := by
  obtain ⟨x, hx, hsent, hleft, hresult, hprinted, hslip, hsize, hpacket⟩ :=
    cmd_reply chipId hidle c.op hdata c.cs hreply reads
  refine ⟨x.heard.slip, ?_, hslip, hsize, hpacket⟩
  rw [Link.exec, hreads, hx]
  show Except.ok _ = _
  rw [hsent, hleft, hresult, hprinted]
  rfl

/-- A command that is answered with the code 0. -/
theorem send_reply {chipId : Word} (failure : String) {link : Link} {c : Command}
    {chunks : List (List Byte)} {reads : List Read} (hidle : link.slip.Idle)
    (hdata : c.data.length ≤ 16384) (hreads : link.reads = chunks.map .data ++ reads)
    (hreply : Reply chipId c.op link.slip.size chunks 0) :
    ∃ slip', link.send chipId failure c
        = .ok { slip := slip', reads := reads, sent := link.sent ++ c.wire
                printed := link.printed ++ replyText chipId c.op link.slip.size chunks 0 }
      ∧ slip'.Idle ∧ slip'.size = link.slip.size := by
  obtain ⟨slip', hexec, hslip, hsize, -⟩ := exec_reply hidle hdata hreads hreply
  exact ⟨slip', send_ok_iff.mpr hexec, hslip, hsize⟩

/-- The chip answers each command with the code 0. -/
def Answers (chipId : Word) (size : Nat) (commands : List Command)
    (replies : List (List (List Byte))) : Prop :=
  List.Forall₂ (fun c chunks => Reply chipId c.op size chunks 0) commands replies

theorem eraseCommand_length (chip : Chip) (flashOffset : Word) (size : Nat) :
    (eraseCommand chip flashOffset size).data.length ≤ 16384 := by
  unfold eraseCommand
  split_ifs <;> simp [wordBytes]

theorem dataCommand_length (seq : Nat) {block : List Byte} (h : block.length ≤ blockSize) :
    (dataCommand seq block).data.length ≤ 16384 := by
  rw [blockSize] at h
  simp only [dataCommand, wordBytes, List.length_append, List.length_cons, List.length_nil,
    List.length_replicate]
  omega

theorem flashBlocks_reply {chip : Chip} {flashParams : BitVec 16} {flashOffset : Word}
    {turns : List (List Byte × Nat)} {replies : List (List (List Byte))} (link : Link)
    {rest : List Read} (hturns : ∀ turn ∈ turns, turn.1.length ≤ blockSize)
    (hidle : link.slip.Idle)
    (hreads : link.reads = replies.flatMap (List.map .data) ++ rest)
    (hreplies : Answers chip.id link.slip.size
      (turns.map fun turn => dataCommand turn.2
        (if turn.2 = 0 then patchFirst chip flashParams flashOffset turn.1 else turn.1))
      replies) :
    ∃ link', run (flashBlock chip flashParams flashOffset) link turns = .ok link'
      ∧ link'.slip.Idle ∧ link'.slip.size = link.slip.size ∧ link'.reads = rest := by
  induction turns generalizing link replies with
  | nil =>
      cases hreplies
      exact ⟨link, rfl, hidle, rfl, by simpa using hreads⟩
  | cons turn turns ih =>
      cases hreplies with
      | cons hreply hreplies =>
          rw [List.flatMap_cons, List.append_assoc] at hreads
          have hblock : (if turn.2 = 0 then patchFirst chip flashParams flashOffset turn.1
              else turn.1).length ≤ blockSize := by
            have hturn := hturns turn (by simp)
            split
            · rwa [patchFirst_length]
            · exact hturn
          obtain ⟨slip', hsend, hslip, hsize⟩ := send_reply "flash_data failed\n" hidle
            (dataCommand_length turn.2 hblock) hreads hreply
          rw [← hsize] at hreplies
          obtain ⟨link', hrun, hidle', hsize', hreads'⟩ :=
            ih { slip := slip', reads := _, sent := _, printed := _ } (fun t ht => hturns t (by simp [ht]))
              hslip rfl hreplies
          exact ⟨link', run_cons_ok.mpr ⟨_, hsend, hrun⟩, hidle', hsize'.trans hsize, hreads'⟩

/-- **A chip that answers gets the whole file**: `flashbin` returns, has read the
answers and nothing else, and the line is between packets. -/
theorem flashbin_completes {chip : Chip} {flashParams : BitVec 16} {flashOffset : Word}
    {file : List Byte} {replies : List (List (List Byte))} {link : Link} {rest : List Read}
    (hidle : link.slip.Idle)
    (hreads : link.reads = replies.flatMap (List.map .data) ++ rest)
    (hreplies : Answers chip.id link.slip.size
      (flashPlan chip flashParams flashOffset file) replies) :
    ∃ link', flashbin chip flashParams flashOffset file link = .ok link'
      ∧ link'.slip.Idle ∧ link'.slip.size = link.slip.size ∧ link'.reads = rest := by
  rw [flashPlan, blocks_patchFirst] at hreplies
  cases hreplies with
  | cons hreply hreplies =>
      rw [List.flatMap_cons, List.append_assoc] at hreads
      obtain ⟨slip', hsend, hslip, hsize⟩ := send_reply "\nerase failed\n" hidle
        (eraseCommand_length chip flashOffset file.length) hreads hreply
      have hturns : ∀ turn ∈ (blocks blockSize file).zipIdx, turn.1.length ≤ blockSize := by
        intro turn hturn
        exact (length_of_mem_blocks (by decide) (List.fst_mem_of_mem_zipIdx hturn)).2
      rw [← hsize] at hreplies
      obtain ⟨link', hrun, hidle', hsize', hreads'⟩ :=
        flashBlocks_reply { slip := slip', reads := _, sent := _, printed := _ } hturns hslip rfl hreplies
      refine ⟨link', ?_, hidle', hsize'.trans hsize, hreads'⟩
      rw [flashbin, hsend]
      exact hrun

/-! ## What arrives -/

/-- **What `flashbin` transfers.** When it returns, the frames it has put on the
line are those of its plan: FLASH_BEGIN with the number of blocks, then the
blocks of the patched file in order, each under its number. -/
theorem flashbin_transfers {chip : Chip} {flashParams : BitVec 16} {flashOffset : Word}
    {file : List Byte} (hsize : file.length < 2 ^ 31) {link link' : Link}
    (h : flashbin chip flashParams flashOffset file link = .ok link') :
    ∃ (wire : List Byte) (bs : List (List Byte)), link'.sent = link.sent ++ wire
      ∧ rfc1055.items wire
        = .frame (eraseCommand chip flashOffset file.length).packet
          :: bs.zipIdx.map (fun turn => .frame (dataCommand turn.2 turn.1).packet)
      ∧ (numBlocks (BitVec.ofNat 32 file.length)).toNat = bs.length
      ∧ bs.flatten = patchFirst chip flashParams flashOffset file
      ∧ ∀ i (hi : i < bs.length), bs[i]
        = ((patchFirst chip flashParams flashOffset file).drop (i * blockSize)).take
            blockSize := by
  refine ⟨(flashPlan chip flashParams flashOffset file).flatMap Command.wire,
    blocks blockSize (patchFirst chip flashParams flashOffset file), flashbin_sent h, ?_, ?_,
    blocks_flatten (by decide) _, fun i hi => blocks_getElem hi⟩
  · rw [items_wire, flashPlan, List.map_cons, List.map_map]
    rfl
  · rw [blocks_length, patchFirst_length, numBlocks_toNat hsize]

/-- Ten bytes that answer an operation with the code 0. -/
def okPacket (op : Byte) : List Byte := [1, op, 0, 0, 0, 0, 0, 0, 0, 0]

theorem okPacket_reply (chipId : Word) (op : Byte) {size : Nat} (hsize : 10 < size) :
    Reply chipId op size [slipSend (okPacket op)] 0 := by
  have hcode : answerCode chipId op (okPacket op) = some 0 := by
    unfold answerCode eofs okPacket
    split <;> simp
  exact packet_reply [] (by simp) hsize hcode

def unknownChip : Chip := { id := 0, bla := 0 }

/-- A line on which the commands of `flashbin` are answered, one read each. -/
def answeringLink (commands : List Command) : Link :=
  { slip := Slip.initial (List.replicate 12 0)
    reads := commands.map fun c => .data (slipSend (okPacket c.op))
    sent := []
    printed := [] }

theorem flashbin_answered (flashParams : BitVec 16) (flashOffset : Word) (file : List Byte) :
    ∃ link', flashbin unknownChip flashParams flashOffset file
      (answeringLink (flashPlan unknownChip flashParams flashOffset file)) = .ok link' := by
  have hreplies : Answers unknownChip.id 12 (flashPlan unknownChip flashParams flashOffset file)
      ((flashPlan unknownChip flashParams flashOffset file).map
        fun c => [slipSend (okPacket c.op)]) := by
    rw [Answers, List.forall₂_map_right_iff, List.forall₂_same]
    exact fun c _ => okPacket_reply _ c.op (by decide)
  have hreads : (answeringLink (flashPlan unknownChip flashParams flashOffset file)).reads
      = ((flashPlan unknownChip flashParams flashOffset file).map
          fun c => [slipSend (okPacket c.op)]).flatMap (List.map .data) ++ [] := by
    rw [List.append_nil, List.flatMap_map]
    exact List.map_eq_flatMap
  obtain ⟨link', hrun, -⟩ := flashbin_completes (Slip.initial_idle (by decide)) hreads hreplies
  exact ⟨link', hrun⟩

/-- A file of two blocks. -/
def largeFile : List Byte := List.replicate 5000 7

theorem flashbin_transfers_large :
    let link := answeringLink (flashPlan unknownChip 0 0 largeFile)
    ∃ (link' : Link) (wire : List Byte) (bs : List (List Byte)),
      link'.sent = link.sent ++ wire
      ∧ rfc1055.items wire
        = .frame (eraseCommand unknownChip 0 largeFile.length).packet
          :: bs.zipIdx.map (fun turn => .frame (dataCommand turn.2 turn.1).packet)
      ∧ (numBlocks (BitVec.ofNat 32 largeFile.length)).toNat = bs.length
      ∧ bs.flatten = patchFirst unknownChip 0 0 largeFile
      ∧ ∀ i (hi : i < bs.length), bs[i]
        = ((patchFirst unknownChip 0 0 largeFile).drop (i * blockSize)).take blockSize := by
  have hsize : largeFile.length < 2 ^ 31 := by
    rw [largeFile, List.length_replicate]
    decide
  obtain ⟨link', hrun⟩ := flashbin_answered 0 0 largeFile
  exact ⟨link', flashbin_transfers hsize hrun⟩

end RiscvTe.Esputil
