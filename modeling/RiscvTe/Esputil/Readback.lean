import RiscvTe.Esputil.Connect
import RiscvTe.Esputil.FileNames

/-!
# Reading the flash back (`readflash` in `esputil/esputil.c`)

The flash is read in pieces of up to 64 bytes. What is written to `stdout` is
taken from the buffer of the state machine, behind the eight bytes of the
header, and as many bytes as were asked for: nothing looks at how long the
packet was. The text that `cmd` finds on the line goes to `stdout`, too, in
front of the piece it waits for (`dumped`).
-/

namespace RiscvTe.Esputil

open Memory Stuffing Blocks EventRun

/-! ## The loop -/

/-- The arguments of `FLASH_SPI`, in the order of `sscanf`. -/
structure SpiPins where
  a : Word
  b : Word
  c : Word
  e : Word
  d : Word
  deriving DecidableEq, Repr

def SpiPins.packed (p : SpiPins) : Word :=
  p.a ||| p.b <<< 6 ||| p.c <<< 12 ||| p.d <<< 18 ||| p.e <<< 24

/-- `if (cmd(..)) fail(failure)`, on the line. -/
def Line.send (chipId : Word) (failure : String) (line : Line) (c : Command) :
    Except Halt Line := do
  let link ← line.link.send chipId failure c
  return { line with link := link }

def spiAttachCommand (fspi : Option SpiPins) : Command :=
  { op := 13
    data := wordBytes ((fspi.map SpiPins.packed).getD 0) ++ wordBytes 0
    cs := 0 }

/-- The flash id, its size, and the sizes of blocks, sectors and pages. -/
def spiParamsCommand : Command :=
  { op := 11
    data := wordBytes 0 ++ wordBytes (4 * 1024 * 1024) ++ wordBytes 65536 ++ wordBytes 4096
      ++ wordBytes 256 ++ wordBytes 0xffff
    cs := 0 }

def spiattach (chip : Chip) (fspi : Option SpiPins) (line : Line) : Except Halt Line := do
  let line ← line.send chip.id "SPI_ATTACH failed\n" (spiAttachCommand fspi)
  line.send chip.id "SPI_SET_PARAMS failed\n" spiParamsCommand

def readFlashCommand (addr size : Word) : Command :=
  { op := 14, data := wordBytes addr ++ wordBytes size, cs := 0 }

/-- A write to `stdout`. -/
def Line.print (line : Line) (bytes : List Byte) : Line :=
  { line with link := { line.link with printed := line.link.printed ++ bytes } }

/-- `printf("Error: flash read @ addr %#x\n", addr)` -/
def readFlashError (addr : Word) : List Byte :=
  ascii "Error: flash read @ addr " ++ printHash (addr.setWidth 64) ++ ascii "\n"

/-- `while (i < size)` -/
def readflashLoop (chipId base size i : Word) (line : Line) : Except Halt Line :=
  if i < size then do
    let bs := if 64 < size - i then 64 else size - i
    let (line, result) ← line.exec chipId (readFlashCommand (base + i) bs)
    if result ≠ 0 then return line.print (readFlashError (base + i))
    else
      let bytes ← sliceAt line.link.slip.buf 8 bs.toNat
      readflashLoop chipId base size (i + bs) (line.print bytes)
  else .ok line
termination_by size.toNat - i.toNat
decreasing_by
  rename_i hlt
  split <;> bv_omega

def readflash (fspi : Option SpiPins) (base size : Word) (line : Line) : Except Halt Line := do
  let (line, chip) ← chipConnect unknownChip line
  match chip with
  | none => .error (.failed "Error connecting\n")
  | some chip =>
      if chip.id = chipIdEsp8266 then .error (.failed "Can't do it on esp8266\n")
      else
        let line ← spiattach chip fspi line
        readflashLoop chip.id base size 0 line

/-! ## What is read -/

/-- The bytes are taken from the buffer. -/
theorem sliceAt_carried {buf header bytes rest : List Byte} (hheader : header.length = 8)
    (hbuf : buf.take (header ++ bytes ++ rest).length = header ++ bytes ++ rest) :
    sliceAt buf 8 bytes.length = .ok bytes := by
  have hsplit : buf = header ++ (bytes ++ (rest ++ buf.drop (header ++ bytes ++ rest).length)) := by
    conv_lhs => rw [← List.take_append_drop (header ++ bytes ++ rest).length buf, hbuf]
    simp only [List.append_assoc]
  rw [sliceAt, if_pos, hsplit, List.drop_left' hheader, List.take_left' rfl]
  have hlength := congrArg List.length hsplit
  simp only [List.length_append] at hlength
  omega

/-- The commands that read pieces one behind the other. -/
def requests (addr : Word) : List (List Byte) → List Command
  | [] => []
  | piece :: pieces =>
      readFlashCommand addr (BitVec.ofNat 32 piece.length)
        :: requests (addr + BitVec.ofNat 32 piece.length) pieces

/-- What is printed when answers are waited for, each with a piece to print. -/
def dumped (chipId : Word) (op : Byte) (size : Nat) (replies : List (List (List Byte)))
    (pieces : List (List Byte)) : List Byte :=
  (List.zipWith (fun chunks piece => replyText chipId op size chunks 0 ++ piece) replies
    pieces).flatten

theorem dumped_cons {chipId : Word} {op : Byte} {size : Nat} {chunks : List (List Byte)}
    {replies : List (List (List Byte))} {piece : List Byte} {pieces : List (List Byte)} :
    dumped chipId op size (chunks :: replies) (piece :: pieces)
      = replyText chipId op size chunks 0 ++ piece ++ dumped chipId op size replies pieces := rfl

/-- Without text on the line these are the pieces. -/
theorem dumped_quiet {chipId : Word} {op : Byte} {size : Nat} {α : Type}
    {P : α → List (List Byte) → Prop} {f : α → List Byte} {as : List α}
    {replies : List (List (List Byte))} (h : List.Forall₂ P as replies)
    (hquiet : ∀ chunks ∈ replies, replyText chipId op size chunks 0 = []) :
    dumped chipId op size replies (as.map f) = as.flatMap f := by
  induction h with
  | nil => rfl
  | cons ha has ih =>
      rw [List.map_cons, dumped_cons, hquiet _ (by simp), List.flatMap_cons,
        ih fun chunks hchunks => hquiet chunks (by simp [hchunks])]
      rfl

/-- **The loop prints what the answers carry**, and asks for it piece by piece
without a gap. -/
theorem readflashLoop_reads {chipId base size i : Word} {content : List Byte}
    (hsize : i.toNat + content.length = size.toNat) {line : Line}
    (hidle : line.link.slip.Idle) {replies : List (List (List Byte))} {rest : List Read}
    (hreads : line.link.reads = replies.flatMap (List.map .data) ++ rest)
    (hreplies : List.Forall₂ (Carries chipId 14 line.link.slip.size 8) (blocks 64 content)
      replies) :
    ∃ line', readflashLoop chipId base size i line = .ok line'
      ∧ line'.link.slip.Idle ∧ line'.link.reads = rest
      ∧ line'.link.sent = line.link.sent
        ++ (requests (base + i) (blocks 64 content)).flatMap Command.wire
      ∧ line'.link.printed = line.link.printed
        ++ dumped chipId 14 line.link.slip.size replies (blocks 64 content) := by
  induction content using blocks_induction (n := 64) (by decide)
    generalizing i line replies with
  | nil =>
      rw [blocks_nil (by decide)] at hreplies ⊢
      cases hreplies
      have hend : ¬ i < size := by
        rw [List.length_nil] at hsize
        bv_omega
      refine ⟨line, ?_, hidle, by simpa using hreads, by simp [requests], by simp [dumped]⟩
      rw [readflashLoop, if_neg hend]
  | cons content hne ih =>
      have hpos := List.length_pos_iff.mpr hne
      have htake : (content.take 64).length = min 64 content.length := List.length_take
      have hdrop : (content.drop 64).length = content.length - 64 := List.length_drop
      have hmore : i < size := by bv_omega
      obtain ⟨bs, hbs⟩ : ∃ bs, (if 64 < size - i then 64 else size - i : Word) = bs := ⟨_, rfl⟩
      have hpiece : bs = BitVec.ofNat 32 (content.take 64).length := by
        rw [← hbs, htake]
        split <;> bv_omega
      have hbsNat : bs.toNat = (content.take 64).length := by
        rw [hpiece, BitVec.toNat_ofNat]
        omega
      rw [blocks_cons (by decide) hne] at hreplies ⊢
      cases hreplies with
      | cons hcarries hreplies =>
          obtain ⟨hreply, header, tail, hheader, hpacket⟩ := hcarries
          rw [List.flatMap_cons, List.append_assoc] at hreads
          obtain ⟨m, hexec, hm, hmsize, hmreads, hmsent, hmprinted, -, hbuf⟩ :=
            @line_exec_reply _ _ (readFlashCommand (base + i) bs) _ _ _ hidle
              (by simp [readFlashCommand, wordBytes]) hreads hreply
          have hslice := sliceAt_carried hheader (hbuf _ hpacket)
          rw [← hmsize] at hreplies
          obtain ⟨line', hloop, hidle', hreads', hsent', hprinted'⟩ :=
            @ih (i + bs) (by rw [hdrop]; bv_omega) (m.print (content.take 64)) hm _ hmreads
              hreplies
          refine ⟨line', ?_, hidle', hreads', ?_, ?_⟩
          · rw [readflashLoop, if_pos hmore]
            dsimp only
            rw [hbs, hexec]
            show (sliceAt m.link.slip.buf 8 bs.toNat >>= _) = _
            rw [hbsNat, hslice]
            exact hloop
          · have hsame : (m.print (content.take 64)).link.sent = m.link.sent := rfl
            rw [hsent', hsame, hmsent, requests, List.flatMap_cons, hpiece, List.append_assoc,
              BitVec.add_assoc]
          · have hpieces : (m.print (content.take 64)).link.printed
                = m.link.printed ++ content.take 64 := rfl
            have hsame : (m.print (content.take 64)).link.slip.size = line.link.slip.size := hmsize
            rw [hprinted', hpieces, hmprinted, hsame, dumped_cons]
            simp only [List.append_assoc]
            rfl

theorem line_send_reply {chipId : Word} (failure : String) {line : Line} {c : Command}
    {chunks : List (List Byte)} {reads : List Read} (hidle : line.link.slip.Idle)
    (hdata : c.data.length ≤ 16384) (hreads : line.link.reads = chunks.map .data ++ reads)
    (hreply : Reply chipId c.op line.link.slip.size chunks 0) :
    ∃ line', line.send chipId failure c = .ok line' ∧ line'.link.slip.Idle
      ∧ line'.link.slip.size = line.link.slip.size ∧ line'.link.reads = reads := by
  obtain ⟨slip', hsend, hslip, hsize⟩ := send_reply failure hidle hdata hreads hreply
  exact ⟨_, bind_ok_iff.mpr ⟨_, hsend, rfl⟩, hslip, hsize, rfl⟩

/-- Both commands of `spiattach` are answered. -/
theorem spiattach_reply {chip : Chip} (fspi : Option SpiPins) {line : Line}
    {attach params : List (List Byte)} {reads : List Read} (hidle : line.link.slip.Idle)
    (hreads : line.link.reads = attach.map .data ++ (params.map .data ++ reads))
    (hattach : Reply chip.id 13 line.link.slip.size attach 0)
    (hparams : Reply chip.id 11 line.link.slip.size params 0) :
    ∃ line', spiattach chip fspi line = .ok line' ∧ line'.link.slip.Idle
      ∧ line'.link.slip.size = line.link.slip.size ∧ line'.link.reads = reads := by
  obtain ⟨m, hsend, hm, hmsize, hmreads⟩ :=
    @line_send_reply chip.id "SPI_ATTACH failed\n" line (spiAttachCommand fspi) _ _ hidle
      (by simp [spiAttachCommand, wordBytes]) hreads hattach
  rw [← hmsize] at hparams
  obtain ⟨line', hsend', hline', hsize, hreads'⟩ :=
    @line_send_reply chip.id "SPI_SET_PARAMS failed\n" m spiParamsCommand _ _ hm
      (by decide) hmreads hparams
  exact ⟨line', bind_ok_iff.mpr ⟨m, hsend, hsend'⟩, hline', hsize.trans hmsize, hreads'⟩

/-- **What is read back.** If the chip is found and answers, and its answers
carry the pieces of a content of the size asked for, `readflash` has written to
`stdout`, behind what finding the chip and attaching the flash have printed, the
pieces of this content, each behind the text that has come before its answer: so
the content, if there is no such text. The last commands have asked for it from
`base` on, without a gap. -/
theorem readflash_reads (fspi : Option SpiPins) {base size id : Word} {content : List Byte}
    (hsize : content.length = size.toNat) (hchip : id ≠ chipIdEsp8266) {line : Line}
    {attach params : List (List Byte)} {replies : List (List (List Byte))} {rest : List Read}
    {later : List (List Read)}
    (hfound : Found unknownChip line id (attach.map .data ++ (params.map .data
      ++ (replies.flatMap (List.map .data) ++ rest))) later)
    (hattach : Reply id 13 line.link.slip.size attach 0)
    (hparams : Reply id 11 line.link.slip.size params 0)
    (hreplies : List.Forall₂ (Carries id 14 line.link.slip.size 8) (blocks 64 content) replies) :
    ∃ chip m n line', chipConnect unknownChip line = .ok (m, some chip)
      ∧ spiattach chip fspi m = .ok n ∧ readflash fspi base size line = .ok line'
      ∧ line'.link.printed = n.link.printed
        ++ dumped id 14 line.link.slip.size replies (blocks 64 content)
      ∧ ((∀ chunks ∈ replies, replyText id 14 line.link.slip.size chunks 0 = []) →
          line'.link.printed = n.link.printed ++ content)
      ∧ line'.link.sent = n.link.sent ++ (requests base (blocks 64 content)).flatMap Command.wire
      ∧ line'.link.slip.Idle ∧ line'.link.reads = rest := by
  obtain ⟨m, hconnect, hm, hmsize, hmreads, -⟩ := hfound.connected
  obtain ⟨chip, hknown⟩ : ∃ chip, lookUp { unknownChip with id := id } = chip := ⟨_, rfl⟩
  obtain rfl : chip.id = id := hknown ▸ lookUp_id _
  rw [hknown] at hconnect
  rw [← hmsize] at hattach hparams hreplies ⊢
  obtain ⟨n, hspi, hn, hnsize, hnreads⟩ := spiattach_reply fspi hm hmreads hattach hparams
  rw [← hnsize] at hreplies ⊢
  obtain ⟨line', hloop, hline', hreads', hsent, hprinted⟩ :=
    @readflashLoop_reads chip.id base size 0 content (by simpa using hsize) n hn _ _ hnreads
      hreplies
  have hbase : base + 0 = base := BitVec.add_zero base
  rw [hbase] at hsent
  refine ⟨chip, m, n, line', hconnect, hspi, ?_, hprinted, fun hquiet => ?_, hsent, hline',
    hreads'⟩
  · refine bind_ok_iff.mpr ⟨_, hconnect, ?_⟩
    dsimp only
    rw [if_neg hchip]
    exact bind_ok_iff.mpr ⟨n, hspi, hloop⟩
  · have hpieces := dumped_quiet (f := id) hreplies hquiet
    rw [List.map_id, List.flatMap_id, blocks_flatten (by decide)] at hpieces
    rw [hprinted, hpieces]

/-- The packet that carries a piece of the flash. -/
def piecePacket (piece : List Byte) : List Byte :=
  [1, 14, 0, 0, 0, 0, 0, 0] ++ piece ++ [0, 0, 0, 0]

theorem piece_carries {size : Nat} {piece : List Byte} (text : List Byte)
    (htext : endByte ∉ text) (hsize : (piecePacket piece).length < size) :
    Carries chipIdEsp32 14 size 8 piece [text ++ slipSend (piecePacket piece)] := by
  have hcode : answerCode chipIdEsp32 14 (piecePacket piece) = some 0 := by
    have heofs : eofs chipIdEsp32 (piecePacket piece).length = piece.length + 8 := by
      rw [eofs, if_neg (by decide), piecePacket]
      simp
    rw [answerCode, if_neg (by simp [piecePacket])]
    dsimp only
    rw [heofs, if_neg]
    simp [piecePacket, List.getD]
  exact @packet_carries _ _ _ text [1, 14, 0, 0, 0, 0, 0, 0] piece [0, 0, 0, 0] htext hsize hcode

/-- A hundred bytes, of which two pieces are read. -/
def flashed : List Byte := (List.range 100).map (BitVec.ofNat 8)

/-- The packets with the pieces, the second behind a character of text. -/
def flashedReplies : List (List (List Byte)) :=
  [[slipSend (piecePacket (flashed.take 64))], [65 :: slipSend (piecePacket (flashed.drop 64))]]

theorem flashedReplies_carry :
    List.Forall₂ (Carries chipIdEsp32 14 96 8) (blocks 64 flashed) flashedReplies := by
  have hblocks : blocks 64 flashed = [flashed.take 64, flashed.drop 64] := by
    have hrest : (flashed.drop 64).drop 64 = [] := by decide
    rw [blocks_cons (by decide) (by decide), blocks_cons (by decide) (by decide), hrest,
      blocks_nil (by decide)]
    rfl
  rw [hblocks]
  exact .cons (piece_carries [] (by simp) (by decide))
    (.cons (piece_carries [65] (by decide) (by decide)) .nil)

/-- A line on which the chip is found and sends them. -/
def flashedLine : Line :=
  findingLine ([slipSend (okPacket 13)].map .data
    ++ ([slipSend (okPacket 11)].map .data ++ (flashedReplies.flatMap (List.map .data) ++ [])))

theorem readflash_reads_pieces :
    ∃ (chip : Chip) (m n line' : Line),
      chipConnect unknownChip flashedLine = .ok (m, some chip)
      ∧ spiattach chip none m = .ok n ∧ readflash none 0x1000 100 flashedLine = .ok line'
      ∧ line'.link.printed = n.link.printed
        ++ dumped chipIdEsp32 14 flashedLine.link.slip.size flashedReplies (blocks 64 flashed)
      ∧ ((∀ chunks ∈ flashedReplies,
            replyText chipIdEsp32 14 flashedLine.link.slip.size chunks 0 = []) →
          line'.link.printed = n.link.printed ++ flashed)
      ∧ line'.link.sent
        = n.link.sent ++ (requests 0x1000 (blocks 64 flashed)).flatMap Command.wire
      ∧ line'.link.slip.Idle ∧ line'.link.reads = [] := by
  exact readflash_reads none (by decide) (by decide) (findingLine_found _)
    (okPacket_reply _ 13 (by decide)) (okPacket_reply _ 11 (by decide)) flashedReplies_carry

end RiscvTe.Esputil
