import RiscvTe.Esputil.Mkbin

/-!
# Finding the chip (`chip_connect` in `esputil/esputil.c`)

The chip is reset into its ROM loader and asked for an answer to SYNC, up to
50 times; then its id is read from ROM and looked up in a table. Before each
try what the chip has sent so far is thrown away, but the state machine of
`slip_recv` stays as it is. If the rest of a frame was thrown away, the end of
the next frame is its beginning, and so it goes on (`phase_lost`).
-/

namespace RiscvTe.Esputil

open Memory Stuffing EventRun

/-! ## Commands -/

/-- The link, and what arrives behind each of the next calls of `flushio`. -/
structure Line where
  link : Link
  later : List (List Read)
  deriving DecidableEq, Repr

/-- `flushio`: what has arrived and has not been read is lost. -/
def Line.flushio (line : Line) : Line :=
  { link := { line.link with reads := line.later.headD [] }, later := line.later.tail }

/-- `cmd` on the line. -/
def Line.exec (chipId : Word) (line : Line) (c : Command) : Except Halt (Line × Nat) := do
  let (link, result) ← line.link.exec chipId c
  return ({ line with link := link }, result)

def read32Command (addr : Word) : Command := { op := 10, data := wordBytes addr, cs := 0 }

/-- `read32`: the word, if there was an answer with the code 0. -/
def read32 (chipId : Word) (addr : Word) (line : Line) :
    Except Halt (Line × Option Word) := do
  let (line, ok) ← line.exec chipId (read32Command addr)
  if ok = 0 then
    let value ← wordAt line.link.slip.buf 4
    return (line, some value)
  else return (line, none)

/-! ## The chip -/

def chipIdEsp32 : Word := 0x00f01d83

/-- `s_known_chips`; the last two have the id of the one before them. -/
def knownChips : List Chip :=
  [{ id := 0, bla := 0 }, { id := chipIdEsp8266, bla := 0 }, { id := chipIdEsp32, bla := 4096 },
    { id := chipIdEsp32C3Eco12, bla := 0 }, { id := chipIdEsp32C3Eco3, bla := 0 },
    { id := chipIdEsp32S2, bla := 0 }, { id := chipIdEsp32S3Beta2, bla := 0 },
    { id := chipIdEsp32S3Beta2, bla := 0 }, { id := chipIdEsp32S3Beta2, bla := 0 }]

/-- The loop over the table. -/
def lookUp (chip : Chip) : Chip :=
  knownChips.foldl (fun chip known => if known.id = chip.id then known else chip) chip

def chipDetect (chip : Chip) (line : Line) : Except Halt (Line × Chip) := do
  let (line, value) ← read32 chip.id 0x40001000 line
  match value with
  | some id => return (line, lookUp { chip with id := id })
  | none => .error (.failed "Error reading chip ID\n")

def syncCommand : Command :=
  { op := 8, data := [7, 7, 0x12, 0x20] ++ List.replicate 32 0x55, cs := 0 }

/-- The loop of `chip_connect`, with so many tries left. -/
def connectTries (chip : Chip) : Nat → Line → Except Halt (Line × Option Chip)
  | 0, line => .ok (line, none)
  | tries + 1, line => do
      let (line, ok) ← line.exec chip.id syncCommand
      let line := line.flushio
      if ok = 0 then
        let (line, chip) ← chipDetect chip line
        return (line, some chip)
      else connectTries chip tries line

/-- `chip_connect`; `reset_to_bootloader` ends with `flushio`. -/
def chipConnect (chip : Chip) (line : Line) : Except Halt (Line × Option Chip) :=
  connectTries chip 50 line.flushio

/-! ## What is sent -/

theorem line_exec_sent {chipId : Word} {line line' : Line} {c : Command} {result : Nat}
    (h : line.exec chipId c = .ok (line', result)) :
    line'.link.sent = line.link.sent ++ c.wire := by
  obtain ⟨⟨link, result'⟩, hlink, h⟩ := bind_ok_iff.mp h
  cases h
  exact exec_sent hlink

theorem read32_sent {chipId addr : Word} {line line' : Line} {value : Option Word}
    (h : read32 chipId addr line = .ok (line', value)) :
    line'.link.sent = line.link.sent ++ (read32Command addr).wire := by
  obtain ⟨⟨m, ok⟩, hexec, h⟩ := bind_ok_iff.mp h
  have hsent := line_exec_sent hexec
  dsimp only at h
  split at h
  · obtain ⟨w, -, h⟩ := bind_ok_iff.mp h
    cases h
    exact hsent
  · cases h
    exact hsent

/-- What `chip_detect` reads is looked up. -/
theorem chipDetect_sent {chip chip' : Chip} {line line' : Line}
    (h : chipDetect chip line = .ok (line', chip')) :
    line'.link.sent = line.link.sent ++ (read32Command 0x40001000).wire
      ∧ ∃ id, chip' = lookUp { chip with id := id } := by
  obtain ⟨⟨m, value⟩, hread, h⟩ := bind_ok_iff.mp h
  cases value with
  | none => cases h
  | some id =>
      cases h
      exact ⟨read32_sent hread, id, rfl⟩

/-- At most so many SYNCs, and the command that reads the id. -/
theorem connectTries_sent {chip chip' : Chip} {tries : Nat} {line line' : Line}
    (h : connectTries chip tries line = .ok (line', some chip')) :
    ∃ n, 0 < n ∧ n ≤ tries
      ∧ line'.link.sent = line.link.sent
        ++ (List.replicate n syncCommand ++ [read32Command 0x40001000]).flatMap Command.wire
      ∧ ∃ id, chip' = lookUp { chip with id := id } := by
  induction tries generalizing line with
  | zero => cases h
  | succ tries ih =>
      obtain ⟨⟨m, ok⟩, hexec, h⟩ := bind_ok_iff.mp h
      have hsent := line_exec_sent hexec
      dsimp only at h
      split at h
      · obtain ⟨⟨line₂, chip₂⟩, hdetect, h⟩ := bind_ok_iff.mp h
        cases h
        obtain ⟨hsent', hchip⟩ := chipDetect_sent hdetect
        refine ⟨1, by omega, by omega, ?_, hchip⟩
        have hflush : m.flushio.link.sent = m.link.sent := rfl
        rw [hsent', hflush, hsent]
        simp
      · obtain ⟨n, hpos, hle, hsent', hchip⟩ := ih h
        refine ⟨n + 1, by omega, by omega, ?_, hchip⟩
        have hflush : m.flushio.link.sent = m.link.sent := rfl
        rw [hsent', hflush, hsent, List.replicate_succ]
        simp

/-! ## A chip that answers -/

theorem line_exec_reply {chipId : Word} {line : Line} {c : Command} {chunks : List (List Byte)}
    {reads : List Read} {code : Byte} (hidle : line.link.slip.Idle)
    (hdata : c.data.length ≤ 16384) (hreads : line.link.reads = chunks.map .data ++ reads)
    (hreply : Reply chipId c.op line.link.slip.size chunks code) :
    ∃ line', line.exec chipId c = .ok (line', code.toNat) ∧ line'.link.slip.Idle
      ∧ line'.link.slip.size = line.link.slip.size ∧ line'.link.reads = reads
      ∧ line'.link.sent = line.link.sent ++ c.wire
      ∧ line'.link.printed
        = line.link.printed ++ replyText chipId c.op line.link.slip.size chunks code
      ∧ line'.later = line.later
      ∧ ∀ packet ∈ firstPacket chipId c.op (lineEvents line.link.slip.size chunks.flatten),
          line'.link.slip.buf.take packet.length = packet := by
  obtain ⟨slip', hexec, hslip, hsize, hpacket⟩ := exec_reply hidle hdata hreads hreply
  exact ⟨_, bind_ok_iff.mpr ⟨_, hexec, rfl⟩, hslip, hsize, rfl, rfl, rfl, rfl, hpacket⟩

/-- The answer to a command has these bytes in this place. -/
structure Carries (chipId : Word) (op : Byte) (size offset : Nat) (bytes : List Byte)
    (chunks : List (List Byte)) : Prop where
  reply : Reply chipId op size chunks 0
  packet : ∃ header rest, header.length = offset
    ∧ firstPacket chipId op (lineEvents size chunks.flatten) = some (header ++ bytes ++ rest)

/-- One read with an answer behind some text. -/
theorem packet_carries {chipId : Word} {op : Byte} {size : Nat} (text : List Byte)
    {header bytes rest : List Byte} (htext : endByte ∉ text)
    (hlt : (header ++ bytes ++ rest).length < size)
    (hcode : answerCode chipId op (header ++ bytes ++ rest) = some 0) :
    Carries chipId op size header.length bytes [text ++ slipSend (header ++ bytes ++ rest)] :=
  ⟨packet_reply text htext hlt hcode, header, rest, rfl, packet_first text htext hlt hcode⟩

theorem wordAt_append (header : List Byte) (w : Word) (rest : List Byte) :
    wordAt (header ++ (wordBytes w ++ rest)) header.length = .ok w := by
  have hbyte : ∀ i b, (wordBytes w ++ rest)[i]? = some b →
      byteAt (header ++ (wordBytes w ++ rest)) (header.length + i) = .ok b := by
    intro i b hb
    rw [byteAt, List.getElem?_append_right (by omega), Nat.add_sub_cancel_left, hb]
  have hword : (byteOf w 3 ++ byteOf w 2) ++ (byteOf w 1 ++ byteOf w 0) = w := by
    have hassoc := word_of_bytes w
    rwa [BitVec.append_assoc] at hassoc
  have hhalf : ∀ i b0 b1, (wordBytes w ++ rest)[i]? = some b0 →
      (wordBytes w ++ rest)[i + 1]? = some b1 →
      halfAt (header ++ (wordBytes w ++ rest)) (header.length + i) = .ok (b1 ++ b0) := by
    intro i b0 b1 h0 h1
    rw [halfAt, hbyte i b0 h0, Nat.add_assoc, hbyte (i + 1) b1 h1]
    rfl
  exact bind_ok_iff.mpr ⟨_, hhalf 0 _ _ rfl rfl,
    bind_ok_iff.mpr ⟨_, hhalf 2 _ _ rfl rfl, congrArg Except.ok hword⟩⟩

/-- The word is taken from the buffer. -/
theorem wordAt_carried {buf header rest : List Byte} {w : Word}
    (hbuf : buf.take (header ++ wordBytes w ++ rest).length = header ++ wordBytes w ++ rest) :
    wordAt buf header.length = .ok w := by
  have hsplit : buf = header ++ (wordBytes w
      ++ (rest ++ buf.drop (header ++ wordBytes w ++ rest).length)) := by
    conv_lhs => rw [← List.take_append_drop (header ++ wordBytes w ++ rest).length buf, hbuf]
    simp only [List.append_assoc]
  rw [hsplit]
  exact wordAt_append header w _

theorem lookUp_id (chip : Chip) : (lookUp chip).id = chip.id := by
  have hfold : ∀ (table : List Chip) (chip : Chip),
      (table.foldl (fun chip known => if known.id = chip.id then known else chip) chip).id
        = chip.id := by
    intro table
    induction table with
    | nil => intro chip; rfl
    | cons known table ih =>
        intro chip
        rw [List.foldl_cons, ih]
        split
        · assumption
        · rfl
  exact hfold knownChips chip

/-- A command that is not answered. -/
theorem exec_silent {chipId : Word} {link : Link} {c : Command} {slip' : Slip}
    {chunks : List (List Byte)} {events : List Event} {reads : List Read} (hwf : link.slip.WF)
    (hdata : c.data.length ≤ 16384) (hchunks : ∀ bytes ∈ chunks, bytes ≠ [])
    (hreads : link.reads = chunks.map .data ++ .silent :: reads)
    (h : receive link.slip chunks.flatten = .ok (slip', events))
    (hnone : firstAnswer chipId c.op events = none) :
    link.exec chipId c
      = .ok ({ slip := slip', reads := reads, sent := link.sent ++ c.wire
               printed := link.printed ++ textBefore chipId c.op events }, 1) := by
  obtain ⟨heard, hlisten, hcode, hslip, hprinted⟩ := listen_silent hwf hchunks h hnone reads
  rw [Link.exec, hreads, cmd, request, if_pos hdata]
  show ((listen chipId c.op link.slip _ >>= _) >>= _) = _
  rw [hlisten]
  show Except.ok (Link.mk _ _ _ (_ ++ Exchange.printed _), Exchange.result _) = _
  rw [Exchange.result, Exchange.printed, hcode, hslip, hprinted, Option.map_none,
    Option.getD_none, List.append_nil]
  rfl

/-- What is read before there is nothing more. -/
def unheard (chunks : List (List Byte)) : List Read := chunks.map .data ++ [.silent]

theorem syncCommand_length : syncCommand.data.length ≤ 16384 := by decide

theorem connectTries_succ {chip : Chip} {tries : Nat} {line m : Line}
    (h : line.exec chip.id syncCommand = .ok (m, 1)) :
    connectTries chip (tries + 1) line = connectTries chip tries m.flushio := by
  rw [connectTries, h]
  rfl

/-- Nothing that is read answers the SYNC, and no frame has been begun. -/
structure Missed (chipId : Word) (size : Nat) (chunks : List (List Byte)) : Prop where
  reads : ∀ bytes ∈ chunks, bytes ≠ []
  unanswered : firstAnswer chipId syncCommand.op (lineEvents size chunks.flatten) = none
  whole : Even (chunks.flatten.count endByte)

/-- What arrives lets `chip_connect` find a chip: some SYNCs are not answered,
the next one is, and then the id is read. -/
structure Found (chip : Chip) (line : Line) (id : Word) (reads : List Read)
    (later : List (List Read)) : Prop where
  idle : line.link.slip.Idle
  tries : ∃ (missed : List (List (List Byte))) (sync detect : List (List Byte)) (left : List Read),
    missed.length < 50
    ∧ line.later = missed.map unheard ++ (sync.map .data ++ left) :: (detect.map .data ++ reads)
        :: later
    ∧ (∀ chunks ∈ missed, Missed chip.id line.link.slip.size chunks)
    ∧ Reply chip.id syncCommand.op line.link.slip.size sync 0
    ∧ Carries chip.id 10 line.link.slip.size 4 (wordBytes id) detect

theorem sync_missed {chip : Chip} {chunks : List (List Byte)} {line : Line}
    (hidle : line.link.slip.Idle) (hmissed : Missed chip.id line.link.slip.size chunks)
    (hreads : line.link.reads = unheard chunks) :
    ∃ m, line.exec chip.id syncCommand = .ok (m, 1) ∧ m.link.slip.Idle
      ∧ m.link.slip.size = line.link.slip.size ∧ m.later = line.later := by
  obtain ⟨slip', hrun, hsize, hbehind⟩ := receive_stream hidle chunks.flatten
  have hexec := exec_silent hidle.wf syncCommand_length hmissed.reads hreads hrun hmissed.unanswered
  exact ⟨_, bind_ok_iff.mpr ⟨_, hexec, rfl⟩, hbehind.idle hmissed.whole, hsize, rfl⟩

theorem read32_reply {chipId : Word} (addr : Word) {line : Line} {w : Word}
    {chunks : List (List Byte)} {reads : List Read} (hidle : line.link.slip.Idle)
    (hreads : line.link.reads = chunks.map .data ++ reads)
    (hcarries : Carries chipId 10 line.link.slip.size 4 (wordBytes w) chunks) :
    ∃ line', read32 chipId addr line = .ok (line', some w) ∧ line'.link.slip.Idle
      ∧ line'.link.slip.size = line.link.slip.size ∧ line'.link.reads = reads
      ∧ line'.link.sent = line.link.sent ++ (read32Command addr).wire
      ∧ line'.link.printed
        = line.link.printed ++ replyText chipId 10 line.link.slip.size chunks 0
      ∧ line'.later = line.later := by
  obtain ⟨hreply, header, rest, hheader, hpacket⟩ := hcarries
  obtain ⟨m, hexec, hm, hsize, hmreads, hsent, hprinted, hlater, hbuf⟩ :=
    @line_exec_reply _ _ (read32Command addr) _ _ _ hidle (by simp [read32Command, wordBytes])
      hreads hreply
  have hword := wordAt_carried (hbuf _ hpacket)
  rw [hheader] at hword
  exact ⟨m, bind_ok_iff.mpr ⟨_, hexec, bind_ok_iff.mpr ⟨w, hword, rfl⟩⟩, hm, hsize, hmreads,
    hsent, hprinted, hlater⟩

theorem chipDetect_reply {chip : Chip} {line : Line} {id : Word} {detect : List (List Byte)}
    {reads : List Read} (hidle : line.link.slip.Idle)
    (hreads : line.link.reads = detect.map .data ++ reads)
    (hdetect : Carries chip.id 10 line.link.slip.size 4 (wordBytes id) detect) :
    ∃ line', chipDetect chip line = .ok (line', lookUp { chip with id := id })
      ∧ line'.link.slip.Idle ∧ line'.link.slip.size = line.link.slip.size
      ∧ line'.link.reads = reads ∧ line'.later = line.later := by
  obtain ⟨m, hread, hm, hsize, hmreads, -, -, hlater⟩ :=
    read32_reply 0x40001000 hidle hreads hdetect
  exact ⟨m, bind_ok_iff.mpr ⟨_, hread, rfl⟩, hm, hsize, hmreads, hlater⟩

/-- The tries that are left, with what arrives in each of them. -/
theorem connectTries_finds {chip : Chip} {id : Word} {sync detect : List (List Byte)}
    {left reads : List Read} {later : List (List Read)} {missed : List (List (List Byte))}
    {line : Line} (hidle : line.link.slip.Idle)
    (harrives : line.link.reads :: line.later
      = missed.map unheard ++ (sync.map .data ++ left) :: (detect.map .data ++ reads) :: later)
    (hmissed : ∀ chunks ∈ missed, Missed chip.id line.link.slip.size chunks)
    (hsync : Reply chip.id syncCommand.op line.link.slip.size sync 0)
    (hdetect : Carries chip.id 10 line.link.slip.size 4 (wordBytes id) detect)
    {tries : Nat} (htries : missed.length < tries) :
    ∃ line', connectTries chip tries line = .ok (line', some (lookUp { chip with id := id }))
      ∧ line'.link.slip.Idle ∧ line'.link.slip.size = line.link.slip.size
      ∧ line'.link.reads = reads ∧ line'.later = later := by
  induction missed generalizing line tries with
  | nil =>
      obtain ⟨tries, rfl⟩ := Nat.exists_eq_add_one_of_ne_zero (Nat.pos_iff_ne_zero.mp htries)
      rw [List.map_nil, List.nil_append] at harrives
      obtain ⟨hreads, hlater⟩ := List.cons_eq_cons.mp harrives
      obtain ⟨m, hexec, hm, hmsize, -, -, -, hmlater, -⟩ :=
        line_exec_reply hidle syncCommand_length hreads hsync
      have hnext : m.later = (detect.map .data ++ reads) :: later := hmlater.trans hlater
      rw [← hmsize] at hdetect
      obtain ⟨line', hdetects, hidle', hsize', hreads', hlater'⟩ :=
        @chipDetect_reply chip m.flushio id detect reads hm (by simp [Line.flushio, hnext]) hdetect
      refine ⟨line', ?_, hidle', hsize'.trans hmsize, hreads', ?_⟩
      · rw [connectTries, hexec]
        show (chipDetect chip m.flushio >>= _) = _
        rw [hdetects]
        rfl
      · rw [hlater']
        simp [Line.flushio, hnext]
  | cons chunks missed ih =>
      obtain ⟨tries, rfl⟩ := Nat.exists_eq_add_one_of_ne_zero (Nat.ne_zero_of_lt htries)
      rw [List.map_cons, List.cons_append] at harrives
      obtain ⟨hreads, hlater⟩ := List.cons_eq_cons.mp harrives
      obtain ⟨m, hexec, hm, hmsize, hmlater⟩ := sync_missed hidle (hmissed chunks (by simp)) hreads
      have hnext : m.flushio.link.reads :: m.flushio.later = line.later := by
        rw [Line.flushio, hmlater, hlater]
        cases missed <;> rfl
      rw [connectTries_succ hexec]
      have hfound := @ih m.flushio hm (hnext.trans hlater)
        (fun cs hcs => by rw [show m.flushio.link.slip.size = line.link.slip.size from hmsize]
                          exact hmissed cs (by simp [hcs]))
      rw [show m.flushio.link.slip.size = line.link.slip.size from hmsize] at hfound
      exact hfound hsync hdetect (by simpa using htries)

/-- The chip is what the table says of its id. -/
theorem Found.connected {chip : Chip} {line : Line} {id : Word} {reads : List Read}
    {later : List (List Read)} (hfound : Found chip line id reads later) :
    ∃ line', chipConnect chip line = .ok (line', some (lookUp { chip with id := id }))
      ∧ line'.link.slip.Idle ∧ line'.link.slip.size = line.link.slip.size
      ∧ line'.link.reads = reads ∧ line'.later = later := by
  obtain ⟨missed, sync, detect, left, hfew, hlater, hmissed, hsync, hdetect⟩ := hfound.tries
  have harrives : line.flushio.link.reads :: line.flushio.later
      = missed.map unheard ++ (sync.map .data ++ left) :: (detect.map .data ++ reads) :: later := by
    rw [Line.flushio, hlater]
    cases missed <;> rfl
  exact @connectTries_finds chip id sync detect left reads later missed line.flushio hfound.idle
    harrives hmissed hsync hdetect 50 hfew

/-- **The chip is found** under any number of SYNCs below 50 that are not
answered, and with what the table says of its id. -/
theorem connect_finds {chip : Chip} {line : Line} {id : Word} {reads : List Read}
    {later : List (List Read)} (hfound : Found chip line id reads later) :
    ∃ line' chip', chipConnect chip line = .ok (line', some chip') ∧ chip'.id = id
      ∧ chip' = lookUp { chip with id := id } ∧ line'.link.slip.Idle
      ∧ line'.link.slip.size = line.link.slip.size
      ∧ line'.link.reads = reads ∧ line'.later = later := by
  obtain ⟨line', hconnect, hline'⟩ := hfound.connected
  exact ⟨line', _, hconnect, lookUp_id _, rfl, hline'⟩

/-- The packet that answers with a word. -/
def wordPacket (w : Word) : List Byte := [1, 10, 0, 0] ++ wordBytes w ++ [0, 0]

theorem word_carries {chipId w : Word} {size : Nat} (text : List Byte) (htext : endByte ∉ text)
    (hsize : 10 < size) (hcode : answerCode chipId 10 (wordPacket w) = some 0) :
    Carries chipId 10 size 4 (wordBytes w) [text ++ slipSend (wordPacket w)] :=
  @packet_carries _ _ _ text [1, 10, 0, 0] (wordBytes w) [0, 0] htext hsize hcode

/-- The first SYNC is not answered; the second one is, in an ESP32. -/
def findingLine (reads : List Read) : Line :=
  { link := { slip := Slip.initial (List.replicate 96 0), reads := [], sent := [], printed := [] }
    later := [[.silent], [.data (slipSend (okPacket 8))],
      .data (slipSend (wordPacket chipIdEsp32)) :: reads] }

theorem findingLine_found (reads : List Read) :
    Found unknownChip (findingLine reads) chipIdEsp32 reads [] := by
  have hroom : 10 < 96 := by decide
  refine ⟨Slip.initial_idle (by decide), [[]], [slipSend (okPacket 8)],
    [slipSend (wordPacket chipIdEsp32)], [], by decide, rfl, ?_, okPacket_reply 0 8 hroom,
    word_carries [] (by simp) hroom (by decide)⟩
  intro chunks hchunks
  rw [List.mem_singleton.mp hchunks]
  exact ⟨by simp, rfl, by decide⟩

theorem connect_finds_second :
    ∃ line' chip', chipConnect unknownChip (findingLine []) = .ok (line', some chip')
      ∧ chip'.id = chipIdEsp32 ∧ chip' = lookUp { unknownChip with id := chipIdEsp32 }
      ∧ line'.link.slip.Idle ∧ line'.link.slip.size = (findingLine []).link.slip.size
      ∧ line'.link.reads = [] ∧ line'.later = [] :=
  connect_finds (findingLine_found [])

/-! ## Out of phase -/

/-- Inside a frame for the receiver, with too little of it for an answer. -/
def Slip.Lost (slip : Slip) : Prop :=
  ∃ content escaped, slip.Holds content escaped ∧ content.length < 10

theorem Slip.Lost.wf {slip : Slip} (h : slip.Lost) : slip.WF := by
  obtain ⟨content, escaped, hholds, -⟩ := h
  exact hholds.wf

/-- Behind the first bytes of a frame. -/
theorem lost_of_begin {slip : Slip} (hidle : slip.Idle) {inside : List Byte}
    (hinside : endByte ∉ inside) (hshort : inside.length < 10) :
    ∃ slip', receive slip (endByte :: inside) = .ok (slip', []) ∧ slip'.Lost := by
  obtain ⟨m, hopen, -, hholds⟩ := hidle.opening
  obtain ⟨slip', escaped, hin, -, hholds'⟩ := hholds.inside hinside
  have hle := rfc1055.decodeFrom_length_le false inside
  exact ⟨slip', Emitter.run_cons hopen hin, _, _, hholds', by simpa using hle.trans_lt hshort⟩

theorem answer_short {chipId : Word} {op : Byte} {packet : List Byte}
    (h : packet.length < 10) : (Event.packet packet).answer chipId op = none :=
  if_pos (.inl h)

/-- A frame goes by: what was in the buffer is handed on, and the frame itself
is text. Its end is taken for the beginning of the next one. -/
theorem Slip.Lost.frame {slip : Slip} (h : slip.Lost) (chipId : Word) (op : Byte)
    (packet : List Byte) :
    ∃ slip' events, receive slip (slipSend packet) = .ok (slip', events)
      ∧ firstAnswer chipId op events = none ∧ slip'.Lost := by
  obtain ⟨content, escaped, hholds, hshort⟩ := h
  obtain ⟨m, hclose, -, hidle⟩ := hholds.closing
  obtain ⟨n, htext, -, hidle'⟩ := hidle.outside (rfc1055.delim_not_mem_encode packet)
  obtain ⟨slip', hopen, -, hholds'⟩ := hidle'.opening
  have hrun := Emitter.run_cons hclose
    (Emitter.run_append htext (Emitter.run_cons hopen (Emitter.run_nil slip')))
  refine ⟨slip', _, by rw [slipSend_eq]; exact hrun, ?_, [], false, hholds', by simp⟩
  refine List.findSome?_eq_none_iff.mpr fun e he => ?_
  rcases List.mem_append.mp he with he | he
  · rw [frameEvents] at he
    split at he
    · rw [List.mem_singleton.mp he]
      rfl
    · rw [List.mem_singleton.mp he]
      refine answer_short ?_
      rw [kept_length]
      exact (Nat.mod_le _ _).trans_lt hshort
  · obtain ⟨c, -, rfl⟩ : ∃ c, c ∈ rfc1055.encode packet ∧ Event.putchar c = e := by
      simpa using he
    rfl

/-- Any number of frames goes by. -/
theorem Slip.Lost.frames {slip : Slip} (h : slip.Lost) (chipId : Word) (op : Byte)
    (packets : List (List Byte)) :
    ∃ slip' events, receive slip (packets.flatMap slipSend) = .ok (slip', events)
      ∧ firstAnswer chipId op events = none ∧ slip'.Lost := by
  induction packets generalizing slip with
  | nil => exact ⟨slip, [], rfl, rfl, h⟩
  | cons packet packets ih =>
      obtain ⟨m, events, hframe, hnone, hlost⟩ := h.frame chipId op packet
      obtain ⟨slip', more, hframes, hnone', hlost'⟩ := ih hlost
      refine ⟨slip', events ++ more, Emitter.run_append hframe hframes, ?_, hlost'⟩
      rw [firstAnswer_append, hnone, hnone', Option.or_none]

/-- The reads are those of whole frames, cut as they may be. -/
def WholeFrames (chunks : List (List Byte)) : Prop :=
  (∀ bytes ∈ chunks, bytes ≠ [])
    ∧ ∃ packets : List (List Byte), chunks.flatten = packets.flatMap slipSend

/-- A try, of which only the time is over. -/
theorem sync_lost {chip : Chip} {chunks : List (List Byte)} {line : Line}
    (hlost : line.link.slip.Lost) (hframes : WholeFrames chunks)
    (hreads : line.link.reads = unheard chunks) :
    ∃ m, line.exec chip.id syncCommand = .ok (m, 1) ∧ m.link.slip.Lost ∧ m.later = line.later := by
  obtain ⟨hchunks, packets, hflat⟩ := hframes
  obtain ⟨slip', events, hrun, hnone, hlost'⟩ := hlost.frames chip.id syncCommand.op packets
  rw [← hflat] at hrun
  have hexec := exec_silent hlost.wf syncCommand_length hchunks hreads hrun hnone
  exact ⟨_, bind_ok_iff.mpr ⟨_, hexec, rfl⟩, hlost', rfl⟩

/-- No try succeeds. -/
theorem connectTries_lost {chip : Chip} {chunks : List (List Byte)}
    {answers : List (List (List Byte))} {line : Line} {rest : List (List Read)}
    (hlost : line.link.slip.Lost) (hframes : ∀ cs ∈ chunks :: answers, WholeFrames cs)
    (hreads : line.link.reads = unheard chunks)
    (hlater : line.later = answers.map unheard ++ rest) :
    ∃ line', connectTries chip (answers.length + 1) line = .ok (line', none) := by
  induction answers generalizing chunks line with
  | nil =>
      obtain ⟨m, hexec, -, -⟩ := @sync_lost chip _ _ hlost (hframes chunks (by simp)) hreads
      exact ⟨m.flushio, connectTries_succ hexec⟩
  | cons next answers ih =>
      obtain ⟨m, hexec, hlost', hm⟩ := @sync_lost chip _ _ hlost (hframes chunks (by simp)) hreads
      rw [List.length_cons, connectTries_succ hexec]
      refine @ih next m.flushio hlost' (fun cs hcs => hframes cs (by simp [hcs])) ?_ ?_
      · simp [Line.flushio, hm, hlater]
      · simp [Line.flushio, hm, hlater]

/-- **Out of phase.** If the time is up in the first bytes of the first answer
and `flushio` throws the rest away, `chip_connect` gives up, even if the chip
answers each of the 49 SYNCs that follow. -/
theorem phase_lost {chip : Chip} {line : Line} (hidle : line.link.slip.Idle)
    {inside : List Byte} (hinside : endByte ∉ inside) (hshort : inside.length < 10)
    {answers : List (List (List Byte))} (hlength : answers.length = 49)
    (hframes : ∀ chunks ∈ answers, WholeFrames chunks) {rest : List (List Read)}
    (hlater : line.later = unheard [endByte :: inside] :: answers.map unheard ++ rest) :
    ∃ line', chipConnect chip line = .ok (line', none) := by
  obtain ⟨slip', hrun, hlost⟩ := lost_of_begin hidle hinside hshort
  have hbegin : receive line.link.slip [endByte :: inside].flatten = .ok (slip', []) := by
    simpa using hrun
  have hreads : line.flushio.link.reads = [endByte :: inside].map .data ++ [.silent] := by
    simp [Line.flushio, hlater, unheard]
  have hexec : line.flushio.exec chip.id syncCommand = .ok (⟨⟨slip', [], _, _⟩, _⟩, 1) :=
    bind_ok_iff.mpr ⟨_, exec_silent hidle.wf syncCommand_length (by simp) hreads hbegin rfl, rfl⟩
  rw [chipConnect, connectTries_succ hexec]
  obtain ⟨chunks, answers, rfl⟩ := List.exists_cons_of_length_eq_add_one hlength
  have htries : 49 = answers.length + 1 := hlength.symm
  rw [htries]
  refine @connectTries_lost chip chunks answers _ rest hlost hframes ?_ ?_
  · simp [Line.flushio, hlater]
  · simp [Line.flushio, hlater]

/-- Three bytes of the first answer, and then 49 answers. -/
theorem phase_lost_three :
    ∃ line', chipConnect unknownChip
        { link := { slip := Slip.initial (List.replicate 12 0), reads := [], sent := [],
                    printed := [] }
          later := unheard [[endByte, 1, 8, 4]]
            :: (List.replicate 49 [slipSend (okPacket 8)]).map unheard ++ [] }
      = .ok (line', none) := by
  have hframes : ∀ chunks ∈ List.replicate 49 [slipSend (okPacket 8)], WholeFrames chunks := by
    intro chunks hchunks
    rw [List.eq_of_mem_replicate hchunks]
    exact ⟨by decide, [okPacket 8], rfl⟩
  exact phase_lost (Slip.initial_idle (by decide)) (by decide) (by decide) (by simp) hframes rfl

end RiscvTe.Esputil
