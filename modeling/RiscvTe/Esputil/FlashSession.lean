import RiscvTe.Esputil.FlashCommand

/-!
# A whole session (`flash` in `esputil/esputil.c`)

The chip is found, the line set to its baud rate and the flash attached; then
come the files, and FLASH_END. A session that comes to its end has sent exactly
these commands in this order (`flash_sends`), and with a chip that answers each
of them it comes to its end (`flash_completes`), unless an address without a file
is left (`flash_hangs`).
-/

namespace RiscvTe.Esputil

open Memory Stuffing EventRun

/-! ## The session -/

/-- `fpar`, `atoi(baud)` and `fspi` of the context. -/
structure FlashOptions where
  fpar : Option CString
  baud : Word
  fspi : Option SpiPins

def baudCommand (baud : Word) : Command :=
  { op := 15, data := wordBytes baud ++ wordBytes 0, cs := 0 }

def endCommand : Command := { op := 4, data := wordBytes 0, cs := 0 }

def setBaud (options : FlashOptions) (chip : Chip) (line : Line) : Except Halt Line :=
  if 115200 < options.baud.toInt then
    line.send chip.id "SET_BAUD failed\n" (baudCommand options.baud)
  else .ok line

/-- The flash parameters in the first word of the boot loader. -/
def loaderParams (chip : Chip) (line : Line) : Except Halt (Line × BitVec 16) := do
  let (line, result) ← line.exec chip.id (readFlashCommand chip.bla 16)
  if result ≠ 0 then return (line, 0)
  else
    let magic ← byteAt line.link.slip.buf 8
    if magic ≠ 0xe9 then return (line, 0)
    else
      let high ← byteAt line.link.slip.buf 10
      let low ← byteAt line.link.slip.buf 11
      return (line, high ++ low)

def FlashOptions.params (options : FlashOptions) : BitVec 16 :=
  ((options.fpar.map strtoul).getD 0).setWidth 16

/-- From the chip to the arguments. -/
def setUp (options : FlashOptions) (chip : Chip) (line : Line) :
    Except Halt (Line × BitVec 16) := do
  let line ← setBaud options chip line
  if chip.id = chipIdEsp8266 then return (line, options.params)
  else
    let line ← spiattach chip options.fspi line
    if options.fpar.isSome then return (line, options.params)
    else loaderParams chip line

def flashReady (options : FlashOptions) (line : Line) :
    Except Halt (Line × Chip × BitVec 16) := do
  let (line, chip) ← chipConnect unknownChip line
  match chip with
  | none => .error (.failed "Error connecting\n")
  | some chip =>
      let (line, flashParams) ← setUp options chip line
      return (line, chip, flashParams)

def flashEnd (chip : Chip) (line : Line) : Except FlashStop Line :=
  match line.send chip.id "flash_end failed\n" endCommand with
  | .ok line => .ok line
  | .error e => .error (.halt e)

/-- `flash`, if that many turns are enough for its arguments. -/
def flash (host : Host) (options : FlashOptions) (turns : Nat) (args : List CString)
    (line : Line) : Option (Except FlashStop Line) :=
  match flashReady options line with
  | .ok (line, chip, flashParams) =>
      (flashArgs host chip flashParams turns args line).map (· >>= flashEnd chip)
  | .error e => some (.error (.halt e))

/-! ## The commands -/

/-- The arguments name these files. -/
inductive Resolved (host : Host) : List CString → List (Ulong × List Byte) → Prop
  | nil : Resolved host [] []
  | bin {arg path rest file files} :
      hasSuffix arg dotHex = false → host.disk path = some file → Resolved host rest files →
      Resolved host (arg :: path :: rest) ((strtoul arg, file) :: files)
  | hex {arg hexfile d unpacked rest files} :
      hasSuffix arg dotHex = true → host.disk arg = some hexfile → unhex host.tmp hexfile = .ok d →
      List.Forall₂ (Named (host.unpacked (tmpdir arg) d))
        (listedNames (fileList (tmpdir arg) d.created)) unpacked →
      Resolved host rest files → Resolved host (arg :: rest) (unpacked ++ files)

/-- The commands from the chip to the arguments. -/
def setUpCommands (options : FlashOptions) (chip : Chip) : List Command :=
  (if 115200 < options.baud.toInt then [baudCommand options.baud] else [])
    ++ if chip.id = chipIdEsp8266 then [] else
        [spiAttachCommand options.fspi, spiParamsCommand]
          ++ if options.fpar.isSome then [] else [readFlashCommand chip.bla 16]

def filesPlan (chip : Chip) (flashParams : BitVec 16) (files : List (Ulong × List Byte)) :
    List Command :=
  files.flatMap fun file => flashPlan chip flashParams (file.1.setWidth 32) file.2

/-- What a session sends when the chip is known. -/
def sessionCommands (options : FlashOptions) (chip : Chip) (flashParams : BitVec 16)
    (files : List (Ulong × List Byte)) : List Command :=
  setUpCommands options chip ++ filesPlan chip flashParams files ++ [endCommand]

/-! ## A chip that answers -/

section Answered

variable {host : Host} {options : FlashOptions} {chip : Chip} {flashParams : BitVec 16}

theorem Answers.append {chipId : Word} {size : Nat} {xs ys : List Command}
    {replies : List (List (List Byte))} (h : Answers chipId size (xs ++ ys) replies) :
    ∃ first second, replies = first ++ second ∧ Answers chipId size xs first
      ∧ Answers chipId size ys second := by
  induction xs generalizing replies with
  | nil => exact ⟨[], replies, rfl, .nil, h⟩
  | cons c xs ih =>
      cases h with
      | @cons _ reply _ replies hreply h =>
          obtain ⟨first, second, rfl, hfirst, hsecond⟩ := ih h
          exact ⟨reply :: first, second, rfl, .cons hreply hfirst, hsecond⟩

/-- Between two packets, with these answers still to come. -/
structure Awaits (line line' : Line) (reads : List Read) : Prop where
  idle : line'.link.slip.Idle
  size : line'.link.slip.size = line.link.slip.size
  reads : line'.link.reads = reads

theorem Awaits.trans {line m line' : Line} {reads reads' : List Read} (h : Awaits line m reads)
    (h' : Awaits m line' reads') : Awaits line line' reads' :=
  ⟨h'.idle, h'.size.trans h.size, h'.reads⟩

theorem setBaud_reply {line : Line} {replies : List (List (List Byte))} {rest : List Read}
    (hidle : line.link.slip.Idle)
    (hreads : line.link.reads = replies.flatMap (List.map .data) ++ rest)
    (hreplies : Answers chip.id line.link.slip.size
      (if 115200 < options.baud.toInt then [baudCommand options.baud] else []) replies) :
    ∃ line', setBaud options chip line = .ok line' ∧ Awaits line line' rest := by
  unfold setBaud
  split at hreplies
  · rename_i hbaud
    cases hreplies with
    | cons hreply hnone =>
        cases hnone
        rw [List.flatMap_cons, List.append_assoc] at hreads
        obtain ⟨line', hsend, hidle', hsize, hreads'⟩ := line_send_reply "SET_BAUD failed\n" hidle
          (by simp [baudCommand, wordBytes]) hreads hreply
        exact ⟨line', by rw [if_pos hbaud]; exact hsend, hidle', hsize, hreads'⟩
  · rename_i hbaud
    cases hreplies
    exact ⟨line, if_neg hbaud, hidle, rfl, hreads⟩

/-- The boot loader is read; its first word may be anything. -/
theorem loaderParams_reply {line : Line} {loader : List (List Byte)} {rest : List Read}
    (hidle : line.link.slip.Idle) (hroom : 12 ≤ line.link.slip.size)
    (hreads : line.link.reads = loader.map .data ++ rest)
    (hreply : Reply chip.id 14 line.link.slip.size loader 0) :
    ∃ line' flashParams, loaderParams chip line = .ok (line', flashParams)
      ∧ Awaits line line' rest := by
  obtain ⟨m, hexec, hm, hsize, hmreads, -, -, -⟩ :=
    @line_exec_reply chip.id line (readFlashCommand chip.bla 16) loader rest 0 hidle
      (by simp [readFlashCommand, wordBytes]) hreads hreply
  have hbyte : ∀ i, i < 12 → ∃ b, byteAt m.link.slip.buf i = .ok b := by
    intro i hi
    have hin : i < m.link.slip.buf.length := by
      have hbuf := hm.wf.size
      omega
    exact ⟨m.link.slip.buf[i], by rw [byteAt, List.getElem?_eq_getElem hin]⟩
  obtain ⟨magic, hmagic⟩ := hbyte 8 (by decide)
  obtain ⟨high, hhigh⟩ := hbyte 10 (by decide)
  obtain ⟨low, hlow⟩ := hbyte 11 (by decide)
  have hawaits : Awaits line m rest := ⟨hm, hsize, hmreads⟩
  by_cases hloader : magic = 0xe9
  · refine ⟨m, high ++ low, bind_ok_iff.mpr ⟨_, hexec, ?_⟩, hawaits⟩
    dsimp only
    rw [if_neg (by simp)]
    refine bind_ok_iff.mpr ⟨magic, hmagic, ?_⟩
    rw [if_neg (by simpa using hloader)]
    exact bind_ok_iff.mpr ⟨high, hhigh, bind_ok_iff.mpr ⟨low, hlow, rfl⟩⟩
  · refine ⟨m, 0, bind_ok_iff.mpr ⟨_, hexec, ?_⟩, hawaits⟩
    dsimp only
    rw [if_neg (by simp)]
    refine bind_ok_iff.mpr ⟨magic, hmagic, ?_⟩
    rw [if_pos hloader]
    rfl

theorem setUp_reply {line : Line} {replies : List (List (List Byte))} {rest : List Read}
    (hidle : line.link.slip.Idle) (hroom : 12 ≤ line.link.slip.size)
    (hreads : line.link.reads = replies.flatMap (List.map .data) ++ rest)
    (hreplies : Answers chip.id line.link.slip.size (setUpCommands options chip) replies) :
    ∃ line' flashParams, setUp options chip line = .ok (line', flashParams)
      ∧ Awaits line line' rest := by
  obtain ⟨first, second, rfl, hfirst, hsecond⟩ := hreplies.append
  rw [List.flatMap_append, List.append_assoc] at hreads
  obtain ⟨m, hbaud, hm⟩ := setBaud_reply hidle hreads hfirst
  by_cases hold : chip.id = chipIdEsp8266
  · rw [if_pos hold] at hsecond
    cases hsecond
    refine ⟨m, options.params, bind_ok_iff.mpr ⟨m, hbaud, ?_⟩, hm⟩
    rw [if_pos hold]
    rfl
  · rw [if_neg hold] at hsecond
    cases hsecond with
    | @cons _ attach _ _ hattach hsecond =>
      cases hsecond with
      | @cons _ params _ third hparams hthird =>
        have hmreads : m.link.reads = attach.map .data ++ (params.map .data
            ++ (third.flatMap (List.map .data) ++ rest)) := by
          rw [hm.reads]
          simp
        rw [← hm.size] at hattach hparams
        obtain ⟨n, hspi, hn, hnsize, hnreads⟩ :=
          spiattach_reply options.fspi hm.idle hmreads hattach hparams
        have hawaits := hm.trans ⟨hn, hnsize, hnreads⟩
        by_cases hgiven : options.fpar.isSome = true
        · rw [List.append_eq, List.nil_append, if_pos hgiven] at hthird
          cases hthird
          refine ⟨n, options.params, bind_ok_iff.mpr ⟨m, hbaud, ?_⟩, hawaits⟩
          rw [if_neg hold]
          refine bind_ok_iff.mpr ⟨n, hspi, ?_⟩
          rw [if_pos hgiven]
          rfl
        · rw [List.append_eq, List.nil_append, if_neg hgiven] at hthird
          cases hthird with
          | @cons _ loader _ _ hloader hnone =>
              cases hnone
              have hreads' : n.link.reads = loader.map .data ++ rest := by
                rw [hnreads]
                simp
              rw [← hawaits.size] at hloader hroom
              obtain ⟨line', flashParams, hparams', hline'⟩ :=
                loaderParams_reply hn hroom hreads' hloader
              refine ⟨line', flashParams, bind_ok_iff.mpr ⟨m, hbaud, ?_⟩, hawaits.trans hline'⟩
              rw [if_neg hold]
              refine bind_ok_iff.mpr ⟨n, hspi, ?_⟩
              rw [if_neg hgiven]
              exact hparams'

theorem ready_reply {line : Line} {id : Word} {replies : List (List (List Byte))}
    {rest : List Read} {later : List (List Read)} (hroom : 12 ≤ line.link.slip.size)
    (hfound : Found unknownChip line id (replies.flatMap (List.map .data) ++ rest) later)
    (hreplies : Answers id line.link.slip.size
      (setUpCommands options (lookUp { unknownChip with id := id })) replies) :
    ∃ line' flashParams, flashReady options line
        = .ok (line', lookUp { unknownChip with id := id }, flashParams)
      ∧ Awaits line line' rest := by
  obtain ⟨m, hconnect, hm, hmsize, hmreads, -⟩ := hfound.connected
  have hid : (lookUp { unknownChip with id := id }).id = id := lookUp_id _
  generalize lookUp { unknownChip with id := id } = chip at hconnect hreplies hid ⊢
  rw [← hid, ← hmsize] at hreplies
  rw [← hmsize] at hroom
  obtain ⟨line', flashParams, hset, hline'⟩ := setUp_reply hm hroom hmreads hreplies
  refine ⟨line', flashParams, bind_ok_iff.mpr ⟨_, hconnect, ?_⟩,
    Awaits.trans ⟨hm, hmsize, hmreads⟩ hline'⟩
  exact bind_ok_iff.mpr ⟨_, hset, rfl⟩

theorem flashEnd_reply {line : Line} {finish : List (List Byte)} {rest : List Read}
    (hidle : line.link.slip.Idle) (hreads : line.link.reads = finish.map .data ++ rest)
    (hreply : Reply chip.id 4 line.link.slip.size finish 0) :
    ∃ line', flashEnd chip line = .ok line' ∧ Awaits line line' rest := by
  obtain ⟨line', hsend, hidle', hsize, hreads'⟩ :=
    @line_send_reply chip.id "flash_end failed\n" line endCommand finish rest hidle (by decide)
      hreads hreply
  exact ⟨line', by rw [flashEnd, hsend], hidle', hsize, hreads'⟩

theorem flashFiles_reply {line : Line} {files : List (Ulong × List Byte)}
    {replies : List (List (List Byte))} {rest : List Read} (hidle : line.link.slip.Idle)
    (hreads : line.link.reads = replies.flatMap (List.map .data) ++ rest)
    (hreplies : Answers chip.id line.link.slip.size (filesPlan chip flashParams files) replies) :
    ∃ line', run (flashFile chip flashParams) line files = .ok line'
      ∧ Awaits line line' rest := by
  induction files generalizing line replies with
  | nil =>
      cases hreplies
      exact ⟨line, rfl, hidle, rfl, hreads⟩
  | cons file files ih =>
      obtain ⟨first, second, rfl, hfirst, hsecond⟩ := hreplies.append
      rw [List.flatMap_append, List.append_assoc] at hreads
      obtain ⟨link, hflash, hlink, hsize, hleft⟩ := flashbin_completes hidle hreads hfirst
      have hfile : flashFile chip flashParams line file = .ok { line with link := link } := by
        rw [flashFile, hflash]
      rw [← hsize] at hsecond
      obtain ⟨line', hrun, hline'⟩ := @ih { line with link := link } _ hlink hleft hsecond
      exact ⟨line', run_cons_ok.mpr ⟨_, hfile, hrun⟩, Awaits.trans ⟨hlink, hsize, hleft⟩ hline'⟩

/-- The loop over the arguments is the loop over their files. -/
theorem flashArgs_resolved {args : List CString} {files : List (Ulong × List Byte)}
    (h : Resolved host args files) {turns : Nat} (hturns : args.length ≤ turns) (line : Line) :
    flashArgs host chip flashParams turns args line
      = some (run (flashFile chip flashParams) line files) := by
  induction h generalizing turns line with
  | nil => simp [flashArgs]
  | @bin arg path rest file files hhex hfile hrest ih =>
      obtain ⟨turns, rfl⟩ := Nat.exists_eq_add_one_of_ne_zero (Nat.ne_zero_of_lt hturns)
      rw [flashArgs, flashArg_bin hhex hfile, run_cons]
      cases flashFile chip flashParams line (strtoul arg, file) with
      | error e => rfl
      | ok m =>
          simp only [List.length_cons] at hturns
          exact ih (by omega) m
  | @hex arg hexfile d unpacked rest files hhex hfile hunhex hnamed hrest ih =>
      obtain ⟨turns, rfl⟩ := Nat.exists_eq_add_one_of_ne_zero (Nat.ne_zero_of_lt hturns)
      rw [flashArgs, flashArg_hex hhex hfile hunhex hnamed, run_append]
      cases run (flashFile chip flashParams) line unpacked with
      | error e => rfl
      | ok m =>
          simp only [List.length_cons] at hturns
          exact ih (by omega) m

/-- **The loop goes on for ever** behind the files, if an address without a file
is left: no number of turns is enough. -/
theorem flash_hangs {args : List CString} {files : List (Ulong × List Byte)}
    (h : Resolved host args files) {arg : CString} (hlone : hasSuffix arg dotHex = false)
    {line line' : Line} (hrun : run (flashFile chip flashParams) line files = .ok line')
    (turns : Nat) : flashArgs host chip flashParams turns (args ++ [arg]) line = none := by
  induction h generalizing turns line with
  | nil =>
      have hturn : flashArg host chip flashParams line [arg] = .ok ([arg], line) := by
        unfold flashArg
        dsimp only
        rw [hlone, if_neg (by simp)]
      -- nothing changes in a turn
      rw [List.nil_append]
      induction turns with
      | zero => rfl
      | succ turns ih =>
          rw [flashArgs, hturn]
          exact ih
  | @bin arg' path rest file files hhex hfile hrest ih =>
      obtain ⟨m, hflash, hrun⟩ := run_cons_ok.mp hrun
      cases turns with
      | zero => rfl
      | succ turns =>
          rw [List.cons_append, List.cons_append, flashArgs, flashArg_bin hhex hfile, hflash]
          exact ih hrun turns
  | @hex arg' hexfile d unpacked rest files hhex hfile hunhex hnamed hrest ih =>
      obtain ⟨m, hflash, hrun⟩ := run_append_ok.mp hrun
      cases turns with
      | zero => rfl
      | succ turns =>
          rw [List.cons_append, flashArgs, flashArg_hex hhex hfile hunhex hnamed, hflash]
          exact ih hrun turns

/-- One file, at 131072. -/
theorem oneFile_resolved :
    Resolved packedHost [secondAddress, [121]] [(strtoul secondAddress, [3])] :=
  .bin (by decide) (by simp [packedHost]) .nil

/-- The commands for it. -/
def onePlan : List Command := filesPlan unknownChip 0 [(strtoul secondAddress, [3])]

/-- An address behind the file. -/
theorem flash_hangs_behind_file :
    flashArgs packedHost unknownChip 0 1000 ([secondAddress, [121]] ++ [firstAddress])
      { link := answeringLink onePlan, later := [] } = none := by
  have hreplies : Answers unknownChip.id 12 onePlan
      [[slipSend (okPacket 2)], [slipSend (okPacket 3)]] :=
    .cons (okPacket_reply _ 2 (by decide)) (.cons (okPacket_reply _ 3 (by decide)) .nil)
  obtain ⟨line', hrun, -⟩ := @flashFiles_reply unknownChip 0
    { link := answeringLink onePlan, later := [] } [(strtoul secondAddress, [3])]
    [[slipSend (okPacket 2)], [slipSend (okPacket 3)]] [] (Slip.initial_idle (by decide)) rfl
    hreplies
  exact flash_hangs oneFile_resolved (by decide) hrun 1000

/-- **A chip that answers gets all files**: if it is found and answers each
command of the session with the code 0, `flash` comes to its end, has read the
answers and nothing else, and the line is between packets. -/
theorem flash_completes {args : List CString} {files : List (Ulong × List Byte)}
    (hfiles : Resolved host args files) {line : Line} (hroom : 12 ≤ line.link.slip.size) {id : Word}
    {ready plan : List (List (List Byte))} {finish : List (List Byte)} {rest : List Read}
    {later : List (List Read)}
    (hfound : Found unknownChip line id (ready.flatMap (List.map .data)
      ++ (plan.flatMap (List.map .data) ++ (finish.map .data ++ rest))) later)
    (hready : Answers id line.link.slip.size
      (setUpCommands options (lookUp { unknownChip with id := id })) ready)
    (hplan : ∀ flashParams, Answers id line.link.slip.size
      (filesPlan (lookUp { unknownChip with id := id }) flashParams files) plan)
    (hfinish : Reply id endCommand.op line.link.slip.size finish 0)
    {turns : Nat} (hturns : args.length ≤ turns) :
    ∃ line', flash host options turns args line = some (.ok line')
      ∧ line'.link.slip.Idle ∧ line'.link.reads = rest := by
  obtain ⟨m, flashParams, hset, hm⟩ := ready_reply hroom hfound hready
  have hid : (lookUp { unknownChip with id := id }).id = id := lookUp_id _
  generalize lookUp { unknownChip with id := id } = chip at hset hplan hid
  have hplan := hplan flashParams
  rw [← hm.size, ← hid] at hplan hfinish
  obtain ⟨n, hrun, hn⟩ := flashFiles_reply hm.idle hm.reads hplan
  rw [← hn.size] at hfinish
  obtain ⟨line', hend, hline'⟩ := flashEnd_reply hn.idle hn.reads hfinish
  refine ⟨line', ?_, hline'.idle, hline'.reads⟩
  rw [flash, hset]
  dsimp only
  rw [flashArgs_resolved hfiles hturns, hrun]
  exact congrArg some hend

end Answered

/-- The parameters are given, and the baud rate stays. -/
def plainOptions : FlashOptions := { fpar := some [48], baud := 115200, fspi := none }

/-- The chip is found, and answers the commands of a session with one file. -/
def oneFileLine : Line :=
  findingLine ([[slipSend (okPacket 13)], [slipSend (okPacket 11)]].flatMap (List.map .data)
    ++ ([[slipSend (okPacket 2)], [slipSend (okPacket 3)]].flatMap (List.map .data)
      ++ ([slipSend (okPacket 4)].map .data ++ [])))

theorem oneFile_ready : Answers chipIdEsp32 96
    (setUpCommands plainOptions (lookUp { unknownChip with id := chipIdEsp32 }))
    [[slipSend (okPacket 13)], [slipSend (okPacket 11)]] :=
  .cons (okPacket_reply _ 13 (by decide)) (.cons (okPacket_reply _ 11 (by decide)) .nil)

theorem oneFile_plan (flashParams : BitVec 16) : Answers chipIdEsp32 96
    (filesPlan (lookUp { unknownChip with id := chipIdEsp32 }) flashParams
      [(strtoul secondAddress, [3])])
    [[slipSend (okPacket 2)], [slipSend (okPacket 3)]] := by
  have hone : patchFirst (lookUp { unknownChip with id := chipIdEsp32 }) flashParams
      ((strtoul secondAddress).setWidth 32) [3] = [3] := by
    unfold patchFirst
    split_ifs <;> rfl
  rw [filesPlan, List.flatMap_cons, List.flatMap_nil, List.append_nil, flashPlan, hone]
  exact .cons (okPacket_reply _ 2 (by decide)) (.cons (okPacket_reply _ 3 (by decide)) .nil)

theorem oneFile_finish : Reply chipIdEsp32 endCommand.op 96 [slipSend (okPacket 4)] 0 :=
  okPacket_reply _ 4 (by decide)

theorem flash_completes_file :
    ∃ line', flash packedHost plainOptions 2 [secondAddress, [121]] oneFileLine
        = some (.ok line')
      ∧ line'.link.slip.Idle ∧ line'.link.reads = [] :=
  flash_completes oneFile_resolved (by decide) (findingLine_found _) oneFile_ready oneFile_plan
    oneFile_finish (by decide)

/-! ## What is sent -/

section Sent

variable {host : Host} {options : FlashOptions} {chip : Chip} {flashParams : BitVec 16}
  {line line' : Line}

theorem line_send_sent {chipId : Word} {failure : String} {c : Command}
    (h : line.send chipId failure c = .ok line') :
    line'.link.sent = line.link.sent ++ c.wire := by
  obtain ⟨link, hlink, h⟩ := bind_ok_iff.mp h
  cases h
  exact send_sent hlink

theorem setBaud_sent (h : setBaud options chip line = .ok line') :
    line'.link.sent = line.link.sent
      ++ (if 115200 < options.baud.toInt then [baudCommand options.baud] else []).flatMap
        Command.wire := by
  unfold setBaud at h
  split at h
  · rename_i hbaud
    rw [if_pos hbaud, line_send_sent h]
    simp
  · rename_i hbaud
    cases h
    rw [if_neg hbaud]
    simp

theorem spiattach_sent {fspi : Option SpiPins} (h : spiattach chip fspi line = .ok line') :
    line'.link.sent = line.link.sent
      ++ [spiAttachCommand fspi, spiParamsCommand].flatMap Command.wire := by
  obtain ⟨m, hattach, hparams⟩ := bind_ok_iff.mp h
  rw [line_send_sent hparams, line_send_sent hattach]
  simp

theorem loaderParams_sent (h : loaderParams chip line = .ok (line', flashParams)) :
    line'.link.sent = line.link.sent ++ (readFlashCommand chip.bla 16).wire := by
  obtain ⟨⟨m, result⟩, hexec, h⟩ := bind_ok_iff.mp h
  have hsent := line_exec_sent hexec
  dsimp only at h
  split at h
  · cases h
    exact hsent
  · obtain ⟨magic, -, h⟩ := bind_ok_iff.mp h
    split at h
    · cases h
      exact hsent
    · obtain ⟨high, -, h⟩ := bind_ok_iff.mp h
      obtain ⟨low, -, h⟩ := bind_ok_iff.mp h
      cases h
      exact hsent

/-- The parameters are those given, where the boot loader is not asked. -/
theorem setUp_sent (h : setUp options chip line = .ok (line', flashParams)) :
    line'.link.sent = line.link.sent ++ (setUpCommands options chip).flatMap Command.wire
      ∧ (options.fpar.isSome ∨ chip.id = chipIdEsp8266 → flashParams = options.params) := by
  obtain ⟨m, hbaud, h⟩ := bind_ok_iff.mp h
  have hsent := setBaud_sent hbaud
  unfold setUpCommands
  rw [List.flatMap_append, ← List.append_assoc, ← hsent]
  split at h
  · rename_i hold
    cases h
    rw [if_pos hold]
    exact ⟨by simp, fun _ => rfl⟩
  · rename_i hnew
    rw [if_neg hnew, List.flatMap_append, ← List.append_assoc]
    obtain ⟨n, hattach, h⟩ := bind_ok_iff.mp h
    rw [← spiattach_sent hattach]
    split at h
    · rename_i hgiven
      cases h
      rw [if_pos hgiven]
      exact ⟨by simp, fun _ => rfl⟩
    · rename_i hgiven
      rw [if_neg hgiven, loaderParams_sent h]
      exact ⟨by simp, fun hor => absurd hor (by simp [hgiven, hnew])⟩

theorem flashFile_sent {file : Ulong × List Byte}
    (h : flashFile chip flashParams line file = .ok line') :
    line'.link.sent = line.link.sent
      ++ (flashPlan chip flashParams (file.1.setWidth 32) file.2).flatMap Command.wire := by
  unfold flashFile at h
  split at h
  · rename_i link hflash
    cases h
    exact flashbin_sent hflash
  · cases h

theorem openFile_ok {path : CString} {file : List Byte} (h : host.openFile path = .ok file) :
    host.disk path = some file := by
  unfold Host.openFile at h
  split at h
  · rename_i found hdisk
    cases h
    exact hdisk
  · cases h

theorem filesPlan_append (files more : List (Ulong × List Byte)) :
    filesPlan chip flashParams (files ++ more)
      = filesPlan chip flashParams files ++ filesPlan chip flashParams more :=
  List.flatMap_append

theorem run_flashListed_sent {paths : List CString}
    (h : run (flashListed host chip flashParams) line paths = .ok line') :
    ∃ files, List.Forall₂ (Named host) paths files ∧ line'.link.sent
        = line.link.sent ++ (filesPlan chip flashParams files).flatMap Command.wire := by
  induction paths generalizing line with
  | nil =>
      cases h
      exact ⟨[], .nil, by simp [filesPlan]⟩
  | cons path paths ih =>
      obtain ⟨m, hfirst, hrest⟩ := run_cons_ok.mp h
      obtain ⟨file, hopen, hflash⟩ := bind_ok_iff.mp hfirst
      obtain ⟨files, hfiles, hsent⟩ := ih hrest
      refine ⟨(offsetOf path, file) :: files, .cons ⟨openFile_ok hopen, rfl⟩ hfiles, ?_⟩
      rw [hsent, flashFile_sent hflash]
      simp [filesPlan]

/-- The files of one argument come before those of the arguments behind it. -/
theorem flashArg_sent {arg : CString} {rest args : List CString}
    (h : flashArg host chip flashParams line (arg :: rest) = .ok (args, line'))
    {more : List (Ulong × List Byte)} (hmore : Resolved host args more) :
    ∃ files, Resolved host (arg :: rest) (files ++ more)
      ∧ line'.link.sent
        = line.link.sent ++ (filesPlan chip flashParams files).flatMap Command.wire := by
  unfold flashArg at h
  dsimp only at h
  split at h
  · rename_i hhex
    obtain ⟨m, hflash, h⟩ := bind_ok_iff.mp h
    cases h
    obtain ⟨hexfile, hopen, hflash⟩ := bind_ok_iff.mp hflash
    split at hflash
    · rename_i d hunhex
      obtain ⟨files, hnamed, hsent⟩ := run_flashListed_sent hflash
      exact ⟨files, .hex hhex (openFile_ok hopen) hunhex hnamed hmore, hsent⟩
    · cases hflash
  · rename_i hhex
    cases rest with
    | nil =>
        -- the argument is still there
        cases h
        exact ⟨[], hmore, by simp [filesPlan]⟩
    | cons path rest =>
        obtain ⟨file, hopen, h⟩ := bind_ok_iff.mp h
        obtain ⟨m, hflash, h⟩ := bind_ok_iff.mp h
        cases h
        refine ⟨[(strtoul arg, file)], .bin (by simpa using hhex) (openFile_ok hopen) hmore, ?_⟩
        rw [flashFile_sent hflash]
        simp [filesPlan]

/-- The files of the arguments, one after the other. -/
theorem flashArgs_sent {turns : Nat} {args : List CString}
    (h : flashArgs host chip flashParams turns args line = some (.ok line')) :
    ∃ files, Resolved host args files
      ∧ line'.link.sent
        = line.link.sent ++ (filesPlan chip flashParams files).flatMap Command.wire := by
  induction turns generalizing args line with
  | zero =>
      cases args with
      | nil =>
          cases h
          exact ⟨[], .nil, by simp [filesPlan]⟩
      | cons arg rest => cases h
  | succ turns ih =>
      cases args with
      | nil =>
          cases h
          exact ⟨[], .nil, by simp [filesPlan]⟩
      | cons arg rest =>
          rw [flashArgs] at h
          split at h
          · rename_i args m hturn
            obtain ⟨more, hmore, hsent⟩ := ih h
            obtain ⟨files, hfiles, hsent'⟩ := flashArg_sent hturn hmore
            refine ⟨files ++ more, hfiles, ?_⟩
            rw [hsent, hsent', filesPlan_append, List.flatMap_append, List.append_assoc]
          · cases h

theorem chipConnect_sent {chip' : Chip} (h : chipConnect chip' line = .ok (line', some chip)) :
    ∃ n, 0 < n ∧ n ≤ 50
      ∧ line'.link.sent = line.link.sent
        ++ (List.replicate n syncCommand ++ [read32Command 0x40001000]).flatMap Command.wire
      ∧ ∃ id, chip = lookUp { chip' with id := id } :=
  @connectTries_sent chip' chip 50 line.flushio line' h

theorem flashEnd_sent (h : flashEnd chip line = .ok line') :
    line'.link.sent = line.link.sent ++ endCommand.wire := by
  unfold flashEnd at h
  split at h
  · rename_i last hsend
    cases h
    exact line_send_sent hsend
  · cases h

/-- **What a session sends.** If it comes to its end, it has sent one to 50
SYNCs, the question for the id, the commands that set up the line and the flash,
then the files that its arguments name, in order, and FLASH_END: nothing is left
out or sent twice. -/
theorem flash_sends {turns : Nat} {args : List CString}
    (h : flash host options turns args line = some (.ok line')) :
    ∃ n chip flashParams files, 0 < n ∧ n ≤ 50 ∧ (∃ id, chip = lookUp { unknownChip with id := id })
      ∧ (options.fpar.isSome ∨ chip.id = chipIdEsp8266 → flashParams = options.params)
      ∧ Resolved host args files
      ∧ line'.link.sent = line.link.sent
        ++ (List.replicate n syncCommand ++ [read32Command 0x40001000]
          ++ sessionCommands options chip flashParams files).flatMap Command.wire := by
  unfold flash at h
  split at h
  · rename_i m chip flashParams hready
    obtain ⟨⟨l, found⟩, hconnect, hready⟩ := bind_ok_iff.mp hready
    cases found with
    | none => cases hready
    | some chip' =>
        obtain ⟨⟨l', flashParams'⟩, hset, hready⟩ := bind_ok_iff.mp hready
        cases hready
        obtain ⟨result, hargs, hend⟩ := Option.map_eq_some_iff.mp h
        obtain ⟨k, rfl, hend⟩ := bind_ok_iff.mp hend
        obtain ⟨n, hpos, hle, hsynced, hid⟩ := chipConnect_sent hconnect
        obtain ⟨hsettled, hparams⟩ := setUp_sent hset
        obtain ⟨files, hfiles, hsent⟩ := flashArgs_sent hargs
        refine ⟨n, chip, flashParams, files, hpos, hle, hid, hparams, hfiles, ?_⟩
        rw [flashEnd_sent hend, hsent, hsettled, hsynced]
        simp only [sessionCommands, List.flatMap_append, List.append_assoc, List.flatMap_cons,
          List.flatMap_nil, List.append_nil]
  · cases h

end Sent

/-- The session with one file comes to its end. -/
theorem oneFile_flash :
    ∃ line', flash packedHost plainOptions 2 [secondAddress, [121]] oneFileLine
      = some (.ok line') := by
  obtain ⟨m, flashParams, hset, hm⟩ := @ready_reply plainOptions oneFileLine _ _ _ _ (by decide)
    (findingLine_found _) oneFile_ready
  have hplan := oneFile_plan flashParams
  have hsize : (96 : Nat) = m.link.slip.size := hm.size.symm
  rw [hsize] at hplan
  obtain ⟨n, hrun, hn⟩ := @flashFiles_reply (lookUp { unknownChip with id := chipIdEsp32 })
    flashParams m _ _ _ hm.idle hm.reads hplan
  have hfinish := oneFile_finish
  rw [hsize, ← hn.size] at hfinish
  obtain ⟨line', hend, -⟩ := @flashEnd_reply (lookUp { unknownChip with id := chipIdEsp32 }) n _ _
    hn.idle hn.reads hfinish
  refine ⟨line', ?_⟩
  rw [flash, hset]
  dsimp only
  rw [flashArgs_resolved oneFile_resolved (by decide), hrun]
  exact congrArg some hend

theorem flash_sends_file :
    ∃ (line' : Line) (n : Nat) (chip : Chip) (flashParams : BitVec 16)
        (files : List (Ulong × List Byte)), 0 < n ∧ n ≤ 50
      ∧ (∃ id, chip = lookUp { unknownChip with id := id })
      ∧ (plainOptions.fpar.isSome ∨ chip.id = chipIdEsp8266 → flashParams = plainOptions.params)
      ∧ Resolved packedHost [secondAddress, [121]] files
      ∧ line'.link.sent = oneFileLine.link.sent
        ++ (List.replicate n syncCommand ++ [read32Command 0x40001000]
          ++ sessionCommands plainOptions chip flashParams files).flatMap Command.wire := by
  obtain ⟨line', hflash⟩ := oneFile_flash
  exact ⟨line', flash_sends hflash⟩

end RiscvTe.Esputil
