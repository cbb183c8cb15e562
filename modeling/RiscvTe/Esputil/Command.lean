import RiscvTe.Esputil.Slip

/-!
# Commands to the ROM loader (`cmd` in `esputil/esputil.c`)

A command is sent as one SLIP frame: a header of eight bytes and the data.
The answer is the first packet on the line that names the operation; its
status is in the last two bytes or in the last four, depending on the chip.

`cmd` stops in the middle of a read when it has its answer, and the bytes
behind it in the same read are lost. The state machine is between packets
then, so that the next command starts from there (`cmd_answer`).
-/

namespace RiscvTe.Esputil

open Memory Stuffing

/-! ## Sending -/

def halfBytes (h : BitVec 16) : List Byte := [byteOf h 0, byteOf h 1]

/-- The first eight bytes of `tmp`. -/
def commandHeader (op : Byte) (len : BitVec 16) (cs : Word) : List Byte :=
  [0, op] ++ halfBytes len ++ wordBytes cs

/-- What `tmp` holds of the command: `memcpy(&tmp[8], buf, len)` must fit. -/
def request (op : Byte) (data : List Byte) (cs : Word) : Except Halt (List Byte) :=
  if data.length ≤ 16384 then
    .ok (commandHeader op (BitVec.ofNat 16 data.length) cs ++ data)
  else .error .outOfBounds

/-! ## The answer -/

/-- `CHIP_ID_ESP8266` -/
def chipIdEsp8266 : Word := 0xfff0c101

/-- Where the status of a packet of `r` bytes begins. -/
def eofs (chipId : Word) (r : Nat) : Nat :=
  if chipId = 0 ∨ chipId = chipIdEsp8266 then r - 2 else r - 4

/-- The code a packet answers the operation with, if it does. -/
def answerCode (chipId : Word) (op : Byte) (packet : List Byte) : Option Byte :=
  let at' := fun i => packet.getD i 0
  if packet.length < 10 ∨ at' 0 ≠ 1 ∨ at' 1 ≠ op then none
  else
    let status := eofs chipId packet.length
    some (if at' status ≠ 0 then at' (status + 1) else 0)

/-- What `iowait` and `read` report: the bytes of a read, or that there is
nothing to read, be it that the time is up or that `select` has been woken by
`stdin` or the UDP socket first. -/
inductive Read where
  | silent
  | data (bytes : List Byte)
  deriving DecidableEq, Repr

/-- What the loops of `cmd` leave: the state machine, the text printed, and the
code of the answer. -/
structure Listened where
  slip : Slip
  printed : List Byte
  code : Option Byte
  deriving DecidableEq, Repr

/-- The loop over the bytes of a read. -/
def scanRead (chipId : Word) (op : Byte) (slip : Slip) : List Byte → Except Halt Listened
  | [] => .ok { slip := slip, printed := [], code := none }
  | c :: cs => do
      let (slip, r) ← slipRecv c slip
      let printed := if r = 0 ∧ slip.mode = false then [c] else []
      let code := if r = 0 then none else answerCode chipId op (slip.buf.take r)
      if code.isSome then
        -- the bytes left in `tmp` are not looked at
        return { slip := slip, printed := printed, code := code }
      let rest ← scanRead chipId op slip cs
      return { rest with printed := printed ++ rest.printed }

/-- The loop over the reads, of which the rest is returned. -/
def listen (chipId : Word) (op : Byte) (slip : Slip) :
    List Read → Except Halt (Listened × List Read)
  | [] => .ok ({ slip := slip, printed := [], code := none }, [])
  | .silent :: reads => .ok ({ slip := slip, printed := [], code := none }, reads)
  | .data bytes :: reads => do
      if bytes = [] then .error (.failed "Serial line closed\n")
      let first ← scanRead chipId op slip bytes
      if first.code.isSome then return (first, reads)
      let (rest, reads) ← listen chipId op first.slip reads
      return ({ rest with printed := first.printed ++ rest.printed }, reads)

def ecodeToStr (ecode : Byte) : String :=
  match ecode.toNat with
  | 5 => "Received message is invalid"
  | 6 => "Failed to act on received message"
  | 7 => "Invalid CRC in message"
  | 8 => "Flash write error"
  | 9 => "Flash read error"
  | 10 => "Flash read length error"
  | 11 => "Deflate error"
  | _ => "Unknown error"

/-- The characters of a text in ASCII. -/
def ascii (s : String) : List Byte := s.toList.map fun c => BitVec.ofNat 8 c.toNat

/-- `if (ecode) printf("error %d: %s\n", ..)` -/
def errorLine (ecode : Byte) : List Byte :=
  if ecode = 0 then []
  else ascii ("error " ++ toString ecode.toNat ++ ": " ++ ecodeToStr ecode ++ "\n")

/-- What a command leaves behind: the bytes sent and what was heard. -/
structure Exchange where
  sent : List Byte
  heard : Listened
  reads : List Read
  deriving DecidableEq, Repr

/-- The value `cmd` returns: 1 when there was no answer. -/
def Exchange.result (x : Exchange) : Nat :=
  match x.heard.code with
  | some ecode => ecode.toNat
  | none => 1

/-- What `cmd` has written to `stdout`: the text of the line, and the error it
was answered with. -/
def Exchange.printed (x : Exchange) : List Byte :=
  x.heard.printed ++ (x.heard.code.map errorLine).getD []

/-- `cmd`, without `-v`. -/
def cmd (chipId : Word) (slip : Slip) (op : Byte) (data : List Byte) (cs : Word)
    (reads : List Read) : Except Halt Exchange := do
  let packet ← request op data cs
  let (heard, reads) ← listen chipId op slip reads
  return { sent := slipSend packet, heard := heard, reads := reads }

/-! ## The answer in the events of the line -/

section Events

variable (chipId : Word) (op : Byte)

def Event.answer : Event → Option Byte
  | .putchar _ => none
  | .packet bytes => answerCode chipId op bytes

/-- The code of the first packet that answers. -/
def firstAnswer (events : List Event) : Option Byte :=
  events.findSome? (Event.answer chipId op)

def Event.answering : Event → Option (List Byte)
  | .putchar _ => none
  | .packet bytes => if (answerCode chipId op bytes).isSome then some bytes else none

/-- The first packet that answers. -/
def firstPacket (events : List Event) : Option (List Byte) :=
  events.findSome? (Event.answering chipId op)

def Event.text : Event → Option Byte
  | .putchar c => some c
  | .packet _ => none

/-- The text in front of the first packet that answers. -/
def textBefore (events : List Event) : List Byte :=
  (events.takeWhile fun e => (e.answer chipId op).isNone).filterMap Event.text

variable {chipId op}

theorem firstAnswer_append (xs ys : List Event) :
    firstAnswer chipId op (xs ++ ys) = (firstAnswer chipId op xs).or (firstAnswer chipId op ys) :=
  List.findSome?_append

theorem firstPacket_append (xs ys : List Event) :
    firstPacket chipId op (xs ++ ys) = (firstPacket chipId op xs).or (firstPacket chipId op ys) :=
  List.findSome?_append

/-- Without an answer there is no packet that answers. -/
theorem firstPacket_eq_none {events : List Event} (h : firstAnswer chipId op events = none) :
    firstPacket chipId op events = none := by
  refine List.findSome?_eq_none_iff.mpr fun e he => ?_
  have hnone := List.findSome?_eq_none_iff.mp h e he
  cases e with
  | putchar c => rfl
  | packet bytes =>
      have hcode : answerCode chipId op bytes = none := hnone
      rw [Event.answering, hcode]
      rfl

theorem firstPacket_isSome {events : List Event} (h : firstAnswer chipId op events ≠ none) :
    (firstPacket chipId op events).isSome = true := by
  rw [Option.isSome_iff_ne_none]
  intro hnone
  refine h (List.findSome?_eq_none_iff.mpr fun e he => ?_)
  have he' := List.findSome?_eq_none_iff.mp hnone e he
  cases e with
  | putchar c => rfl
  | packet bytes =>
      rw [Event.answering] at he'
      rw [Event.answer]
      split at he'
      · cases he'
      · rename_i hcode
        exact Option.not_isSome_iff_eq_none.mp hcode

/-- Without an answer all the text has been printed. -/
theorem textBefore_append {xs : List Event} (h : firstAnswer chipId op xs = none)
    (ys : List Event) :
    textBefore chipId op (xs ++ ys) = textBefore chipId op xs ++ textBefore chipId op ys := by
  have hall : ∀ e ∈ xs, (e.answer chipId op).isNone = true := by
    intro e he
    rw [Option.isNone_iff_eq_none]
    exact List.findSome?_eq_none_iff.mp h e he
  unfold textBefore
  rw [List.takeWhile_append_of_pos hall, List.filterMap_append,
    List.takeWhile_eq_self_iff.mpr hall]

/-- Behind an answer nothing is printed. -/
theorem textBefore_append_of_answer {xs : List Event} (h : firstAnswer chipId op xs ≠ none)
    (ys : List Event) : textBefore chipId op (xs ++ ys) = textBefore chipId op xs := by
  unfold textBefore
  rw [List.takeWhile_append, if_neg]
  intro hlength
  have hall : xs.takeWhile (fun e => (e.answer chipId op).isNone) = xs :=
    (List.takeWhile_prefix _).eq_of_length hlength
  refine h (List.findSome?_eq_none_iff.mpr fun e he => ?_)
  rw [← Option.isNone_iff_eq_none]
  exact List.takeWhile_eq_self_iff.mp hall e he

end Events

/-- What was heard of a stream with these events, by a state machine with a
buffer of this size that is in `slip'` behind them. -/
structure Listened.Of (heard : Listened) (chipId : Word) (op : Byte) (size : Nat)
    (slip' : Slip) (events : List Event) : Prop where
  code : heard.code = firstAnswer chipId op events
  printed : heard.printed = textBefore chipId op events
  wf : heard.slip.WF
  size : heard.slip.size = size
  packet : ∀ bytes ∈ firstPacket chipId op events, heard.slip.buf.take bytes.length = bytes
  unanswered : heard.code = none → heard.slip = slip'
  answered : heard.code ≠ none → heard.slip.Idle

/-- One byte of a read, and what the loops around `slip_recv` make of it. -/
theorem slipRecv_of_receiveByte {slip slip' : Slip} {c : Byte} {out : List Event}
    (hwf : slip.WF) (h : receiveByte slip c = .ok (slip', out)) :
    ∃ r, slipRecv c slip = .ok (slip', r) ∧ slip'.WF ∧ slip'.size = slip.size
      ∧ ((r = 0 ∧ out = if slip'.mode then [] else [.putchar c])
        ∨ (r ≠ 0 ∧ out = [.packet (slip'.buf.take r)] ∧ slip'.Idle)) := by
  obtain ⟨⟨u, r⟩, hrecv, hout⟩ := EventRun.bind_ok_iff.mp h
  cases hout
  obtain ⟨hwf', hsize⟩ := slipRecv_wf hwf hrecv
  refine ⟨r, hrecv, hwf', hsize, ?_⟩
  by_cases hr : r = 0
  · exact .inl ⟨hr, if_pos hr⟩
  · exact .inr ⟨hr, if_neg hr, slipRecv_idle hwf hrecv hr⟩

/-- A byte that brings no answer. -/
theorem scanRead_on {chipId : Word} {op c : Byte} {slip m : Slip} {cs : List Byte} {r : Nat}
    {rest : Listened} (hrecv : slipRecv c slip = .ok (m, r))
    (hcode : (if r = 0 then none else answerCode chipId op (m.buf.take r)) = none)
    (hrest : scanRead chipId op m cs = .ok rest) :
    scanRead chipId op slip (c :: cs)
      = .ok { rest with
          printed := (if r = 0 ∧ m.mode = false then [c] else []) ++ rest.printed } := by
  rw [scanRead, hrecv]
  show (if (if r = 0 then none else answerCode chipId op (m.buf.take r)).isSome = true
    then _ else _) = _
  rw [hcode, if_neg (by simp), hrest]
  rfl

/-- A byte that brings the answer. -/
theorem scanRead_stop {chipId : Word} {op c e : Byte} {slip m : Slip} {r : Nat}
    (hrecv : slipRecv c slip = .ok (m, r)) (hr : r ≠ 0)
    (hcode : answerCode chipId op (m.buf.take r) = some e) (cs : List Byte) :
    scanRead chipId op slip (c :: cs) = .ok { slip := m, printed := [], code := some e } := by
  rw [scanRead, hrecv]
  show (if (if r = 0 then none else answerCode chipId op (m.buf.take r)).isSome = true
    then _ else _) = _
  rw [if_neg hr, hcode, Option.isSome_some, if_pos rfl, if_neg (fun h => hr h.1)]
  rfl

/-- **One read.** -/
theorem scanRead_of (chipId : Word) (op : Byte) {slip slip' : Slip} {bytes : List Byte}
    {events : List Event} (hwf : slip.WF) (h : receive slip bytes = .ok (slip', events)) :
    ∃ heard, scanRead chipId op slip bytes = .ok heard
      ∧ heard.Of chipId op slip.size slip' events := by
  induction bytes generalizing slip events with
  | nil =>
      cases h
      exact ⟨_, rfl, rfl, rfl, hwf, rfl, nofun, fun _ => rfl, fun hcode => absurd rfl hcode⟩
  | cons c bytes ih =>
      obtain ⟨m, out, more, hbyte, hbytes, rfl⟩ := Emitter.run_cons_ok.mp h
      obtain ⟨r, hrecv, hm, hsize, hout⟩ := slipRecv_of_receiveByte hwf hbyte
      obtain ⟨rest, hscan, hrest⟩ := ih hm hbytes
      rcases hout with ⟨hr, hout⟩ | ⟨hr, hout, hidle⟩
      · refine ⟨_, scanRead_on hrecv (if_pos hr) hscan, ?_⟩
        have hnone : firstAnswer chipId op out = none := by
          rw [hout]
          cases m.mode <;> rfl
        have htext : textBefore chipId op out
            = if r = 0 ∧ m.mode = false then [c] else [] := by
          rw [hout]
          cases m.mode <;> simp [hr, textBefore, Event.answer, Event.text]
        refine ⟨?_, ?_, hrest.wf, hrest.size.trans hsize, ?_, hrest.unanswered, hrest.answered⟩
        · rw [firstAnswer_append, hnone, Option.none_or]
          exact hrest.code
        · rw [textBefore_append hnone, htext]
          exact congrArg _ hrest.printed
        · rw [firstPacket_append, firstPacket_eq_none hnone, Option.none_or]
          exact hrest.packet
      · cases hcode : answerCode chipId op (m.buf.take r) with
        | none =>
            refine ⟨_, scanRead_on hrecv ((if_neg hr).trans hcode) hscan, ?_⟩
            have hnone : firstAnswer chipId op out = none := by
              simp [hout, firstAnswer, Event.answer, hcode]
            have htext : textBefore chipId op out = [] := by
              simp [hout, textBefore, Event.answer, hcode, Event.text]
            refine ⟨?_, ?_, hrest.wf, hrest.size.trans hsize, ?_, hrest.unanswered,
              hrest.answered⟩
            · rw [firstAnswer_append, hnone, Option.none_or]
              exact hrest.code
            · rw [textBefore_append hnone, htext, if_neg (fun h => hr h.1)]
              exact congrArg ([] ++ ·) hrest.printed
            · rw [firstPacket_append, firstPacket_eq_none hnone, Option.none_or]
              exact hrest.packet
        | some e =>
            refine ⟨_, scanRead_stop hrecv hr hcode bytes, ?_⟩
            have hsome : firstAnswer chipId op out = some e := by
              simp [hout, firstAnswer, Event.answer, hcode]
            have htext : textBefore chipId op out = [] := by
              simp [hout, textBefore, Event.answer, hcode]
            have hpacket : firstPacket chipId op out = some (m.buf.take r) := by
              simp [hout, firstPacket, Event.answering, hcode]
            refine ⟨?_, ?_, hm, hsize, fun packet hin => ?_, nofun, fun _ => hidle⟩
            · rw [firstAnswer_append, hsome, Option.some_or]
            · rw [textBefore_append_of_answer (by simp [hsome]), htext]
            · rw [firstPacket_append, hpacket, Option.some_or] at hin
              cases hin
              simp

/-- A read without an answer. -/
theorem listen_on {chipId : Word} {op : Byte} {slip : Slip} {bytes : List Byte}
    {reads left : List Read} {first rest : Listened} (hbytes : bytes ≠ [])
    (hfirst : scanRead chipId op slip bytes = .ok first) (hcode : first.code = none)
    (hrest : listen chipId op first.slip reads = .ok (rest, left)) :
    listen chipId op slip (.data bytes :: reads)
      = .ok ({ rest with printed := first.printed ++ rest.printed }, left) := by
  rw [listen, if_neg hbytes]
  show (scanRead chipId op slip bytes >>= _) = _
  rw [hfirst]
  show (if first.code.isSome = true then _ else _) = _
  rw [hcode, if_neg (by simp), hrest]
  rfl

/-- A read with the answer. -/
theorem listen_stop {chipId : Word} {op : Byte} {slip : Slip} {bytes : List Byte}
    {first : Listened} (hbytes : bytes ≠ [])
    (hfirst : scanRead chipId op slip bytes = .ok first) (hcode : first.code ≠ none)
    (reads : List Read) :
    listen chipId op slip (.data bytes :: reads) = .ok (first, reads) := by
  rw [listen, if_neg hbytes]
  show (scanRead chipId op slip bytes >>= _) = _
  rw [hfirst]
  show (if first.code.isSome = true then _ else _) = _
  rw [if_pos (Option.isSome_iff_ne_none.mpr hcode)]
  rfl

/-- **What `cmd` hears**, however the bytes are cut into reads. -/
theorem listen_of (chipId : Word) (op : Byte) {slip slip' : Slip} {chunks : List (List Byte)}
    {events : List Event} (hwf : slip.WF) (hchunks : ∀ bytes ∈ chunks, bytes ≠ [])
    (h : receive slip chunks.flatten = .ok (slip', events)) :
    ∃ heard left, listen chipId op slip (chunks.map .data) = .ok (heard, left)
      ∧ heard.Of chipId op slip.size slip' events := by
  induction chunks generalizing slip events with
  | nil =>
      cases h
      exact ⟨_, _, rfl, rfl, rfl, hwf, rfl, nofun, fun _ => rfl, fun hcode => absurd rfl hcode⟩
  | cons bytes chunks ih =>
      have hbytes : bytes ≠ [] := hchunks bytes (by simp)
      obtain ⟨m, out, more, hread, hmore, rfl⟩ := Emitter.run_append_ok.mp h
      obtain ⟨first, hfirst, hof⟩ := scanRead_of chipId op hwf hread
      by_cases hcode : first.code = none
      · have hm : first.slip = m := hof.unanswered hcode
        have hnone : firstAnswer chipId op out = none := hof.code.symm.trans hcode
        obtain ⟨rest, left, hlisten, hrest⟩ :=
          ih (hm ▸ hof.wf) (fun b hb => hchunks b (by simp [hb])) hmore
        rw [← hm] at hlisten
        refine ⟨_, left, listen_on hbytes hfirst hcode hlisten, ?_, ?_, hrest.wf,
          hrest.size.trans (hm ▸ hof.size), ?_, hrest.unanswered, hrest.answered⟩
        · rw [firstAnswer_append, hnone, Option.none_or]
          exact hrest.code
        · rw [textBefore_append hnone, ← hof.printed]
          exact congrArg (first.printed ++ ·) hrest.printed
        · rw [firstPacket_append, firstPacket_eq_none hnone, Option.none_or]
          exact hrest.packet
      · have hsome : firstAnswer chipId op out ≠ none := hof.code ▸ hcode
        refine ⟨first, _, listen_stop hbytes hfirst hcode _, ?_, ?_, hof.wf, hof.size,
          ?_, fun hnone => absurd hnone hcode, hof.answered⟩
        · rw [firstAnswer_append, Option.or_of_isSome (Option.isSome_iff_ne_none.mpr hsome)]
          exact hof.code
        · rw [textBefore_append_of_answer hsome]
          exact hof.printed
        · rw [firstPacket_append, Option.or_of_isSome (firstPacket_isSome hsome)]
          exact hof.packet

/-- When no answer comes in time. -/
theorem listen_silent {chipId : Word} {op : Byte} {slip slip' : Slip}
    {chunks : List (List Byte)} {events : List Event} (hwf : slip.WF)
    (hchunks : ∀ bytes ∈ chunks, bytes ≠ [])
    (h : receive slip chunks.flatten = .ok (slip', events))
    (hnone : firstAnswer chipId op events = none) (reads : List Read) :
    ∃ heard, listen chipId op slip (chunks.map .data ++ .silent :: reads) = .ok (heard, reads)
      ∧ heard.code = none ∧ heard.slip = slip'
      ∧ heard.printed = textBefore chipId op events := by
  induction chunks generalizing slip events with
  | nil =>
      cases h
      exact ⟨_, rfl, rfl, rfl, rfl⟩
  | cons bytes chunks ih =>
      obtain ⟨m, out, more, hread, hmore, rfl⟩ := Emitter.run_append_ok.mp h
      rw [firstAnswer_append, Option.or_eq_none_iff] at hnone
      obtain ⟨first, hfirst, hof⟩ := scanRead_of chipId op hwf hread
      have hcode : first.code = none := hof.code.trans hnone.1
      have hm : first.slip = m := hof.unanswered hcode
      obtain ⟨heard, hlisten, hcode', hslip, hprinted⟩ :=
        ih (hm ▸ hof.wf) (fun b hb => hchunks b (by simp [hb])) hmore hnone.2
      rw [← hm] at hlisten
      refine ⟨_, listen_on (hchunks bytes (by simp)) hfirst hcode hlisten, hcode', hslip, ?_⟩
      rw [textBefore_append hnone.1, ← hof.printed]
      exact congrArg (first.printed ++ ·) hprinted

/-- **The answer of a command**, from a state machine between packets: the code
is that of the first packet on the line that names the operation, and 1 if
there is none; how the bytes are cut into reads does not matter. Behind an
answer the packet is in the buffer and the state machine is between packets
again, whatever has been lost of the read that brought it. -/
theorem cmd_answer (chipId : Word) {slip : Slip} (hidle : slip.Idle) (op : Byte)
    (data : List Byte) (hdata : data.length ≤ 16384) (cs : Word) (chunks : List (List Byte))
    (hchunks : ∀ bytes ∈ chunks, bytes ≠ []) :
    ∃ x, cmd chipId slip op data cs (chunks.map .data) = .ok x
      ∧ x.heard.code = firstAnswer chipId op (lineEvents slip.size chunks.flatten)
      ∧ x.heard.printed = textBefore chipId op (lineEvents slip.size chunks.flatten)
      ∧ (∀ packet ∈ firstPacket chipId op (lineEvents slip.size chunks.flatten),
          x.heard.slip.buf.take packet.length = packet)
      ∧ (x.heard.code ≠ none → x.heard.slip.Idle) := by
  obtain ⟨slip', hrun, -, -⟩ := receive_stream hidle chunks.flatten
  obtain ⟨heard, left, hlisten, hof⟩ := listen_of chipId op hidle.wf hchunks hrun
  refine ⟨{ sent := slipSend (commandHeader op (BitVec.ofNat 16 data.length) cs ++ data)
            heard := heard, reads := left }, ?_, hof.code, hof.printed, hof.packet,
    hof.answered⟩
  rw [cmd, request, if_pos hdata]
  show (listen chipId op slip _ >>= _) = _
  rw [hlisten]
  rfl

/-- The answer to SYNC, cut in two. -/
theorem cmd_answer_sync :
    ∃ x, cmd 0 (Slip.initial (List.replicate 12 0)) 8 [7, 7, 0x12, 0x20] 0
        ([[endByte, 1, 8, 4, 0], [0, 0, 0, 0, 0, 0, endByte]].map .data) = .ok x
      ∧ x.heard.code = firstAnswer 0 8 (lineEvents 12
          [[endByte, 1, 8, 4, 0], [0, 0, 0, 0, 0, 0, endByte]].flatten)
      ∧ x.heard.printed = textBefore 0 8 (lineEvents 12
          [[endByte, 1, 8, 4, 0], [0, 0, 0, 0, 0, 0, endByte]].flatten)
      ∧ (∀ packet ∈ firstPacket 0 8 (lineEvents 12
          [[endByte, 1, 8, 4, 0], [0, 0, 0, 0, 0, 0, endByte]].flatten),
          x.heard.slip.buf.take packet.length = packet)
      ∧ (x.heard.code ≠ none → x.heard.slip.Idle) :=
  cmd_answer 0 (Slip.initial_idle (by decide)) 8 _ (by decide) 0 _ (by decide)

/-! ## One answer for each command -/

/-- Reads of which the last one brings the answer: text and packets that
answer something else may come before it. -/
structure Reply (chipId : Word) (op : Byte) (size : Nat) (chunks : List (List Byte))
    (code : Byte) : Prop where
  nonempty : chunks ≠ []
  reads : ∀ bytes ∈ chunks, bytes ≠ []
  early : firstAnswer chipId op (lineEvents size chunks.dropLast.flatten) = none
  answer : firstAnswer chipId op (lineEvents size chunks.flatten) = some code

section Packet

variable {chipId : Word} {op : Byte} {size : Nat} (text : List Byte) {packet : List Byte}
  {code : Byte}

/-- Text does not answer. -/
theorem text_answer : firstAnswer chipId op (text.map .putchar) = none := by
  simp [firstAnswer, Event.answer, List.findSome?_eq_none_iff]

theorem answerCode_length (hcode : answerCode chipId op packet = some code) :
    0 < packet.length := by
  by_contra hempty
  rw [answerCode, if_pos (.inl (by omega))] at hcode
  cases hcode

/-- One read with an answer behind some text. -/
theorem packet_reply (htext : endByte ∉ text) (hlt : packet.length < size)
    (hcode : answerCode chipId op packet = some code) :
    Reply chipId op size [text ++ slipSend packet] code := by
  refine ⟨List.cons_ne_nil _ _, ?_, rfl, ?_⟩
  · intro bytes hbytes
    rw [List.mem_singleton.mp hbytes, slipSend_eq, Code.send]
    simp
  · rw [List.flatten_singleton, send_events htext (answerCode_length hcode) hlt,
      firstAnswer_append, text_answer, Option.none_or]
    simp [firstAnswer, Event.answer, hcode]

theorem packet_first (htext : endByte ∉ text) (hlt : packet.length < size)
    (hcode : answerCode chipId op packet = some code) :
    firstPacket chipId op (lineEvents size [text ++ slipSend packet].flatten) = some packet := by
  rw [List.flatten_singleton, send_events htext (answerCode_length hcode) hlt,
    firstPacket_append, firstPacket_eq_none (text_answer text), Option.none_or]
  simp [firstPacket, Event.answering, hcode]

end Packet

theorem listen_reply (chipId : Word) (op : Byte) {slip m slip' : Slip}
    {chunks : List (List Byte)} {early events : List Event} {code : Byte} (hwf : slip.WF)
    (hne : chunks ≠ []) (hchunks : ∀ bytes ∈ chunks, bytes ≠ [])
    (hearly : receive slip chunks.dropLast.flatten = .ok (m, early))
    (hnone : firstAnswer chipId op early = none)
    (h : receive slip chunks.flatten = .ok (slip', events))
    (hsome : firstAnswer chipId op events = some code) (reads : List Read) :
    ∃ heard, listen chipId op slip (chunks.map .data ++ reads) = .ok (heard, reads)
      ∧ heard.code = some code ∧ heard.slip.Idle ∧ heard.slip.size = slip.size
      ∧ heard.printed = textBefore chipId op events
      ∧ ∀ packet ∈ firstPacket chipId op events,
          heard.slip.buf.take packet.length = packet := by
  induction chunks generalizing slip early events with
  | nil => exact absurd rfl hne
  | cons bytes chunks ih =>
      have hbytes : bytes ≠ [] := hchunks bytes (by simp)
      cases chunks with
      | nil =>
          rw [List.flatten_cons, List.flatten_nil, List.append_nil] at h
          obtain ⟨first, hfirst, hof⟩ := scanRead_of chipId op hwf h
          have hcode : first.code = some code := hof.code.trans hsome
          have hcode' : first.code ≠ none := by simp [hcode]
          exact ⟨first, listen_stop hbytes hfirst hcode' reads, hcode, hof.answered hcode',
            hof.size, hof.printed, hof.packet⟩
      | cons next chunks =>
          rw [List.dropLast_cons_of_ne_nil (List.cons_ne_nil _ _)] at hearly
          obtain ⟨n, out, more, hread, hmore, rfl⟩ := Emitter.run_append_ok.mp hearly
          obtain ⟨n', out', rest, hread', hrest, rfl⟩ := Emitter.run_append_ok.mp h
          have hsame : (n, out) = (n', out') := Except.ok.inj (hread.symm.trans hread')
          cases hsame
          obtain ⟨first, hfirst, hof⟩ := scanRead_of chipId op hwf hread
          rw [firstAnswer_append, Option.or_eq_none_iff] at hnone
          have hcode : first.code = none := hof.code.trans hnone.1
          have hn : first.slip = n := hof.unanswered hcode
          rw [firstAnswer_append, hnone.1, Option.none_or] at hsome
          obtain ⟨heard, hlisten, hcode', hidle, hsize, hprinted, hpacket⟩ :=
            ih (hn ▸ hof.wf) (List.cons_ne_nil _ _) (fun b hb => hchunks b (by simp [hb]))
              hmore hnone.2 hrest hsome
          rw [← hn] at hlisten hsize
          refine ⟨_, listen_on hbytes hfirst hcode hlisten, hcode', hidle,
            hsize.trans hof.size, ?_, ?_⟩
          · rw [textBefore_append hnone.1, ← hof.printed]
            exact congrArg (first.printed ++ ·) hprinted
          · rw [firstPacket_append, firstPacket_eq_none hnone.1, Option.none_or]
            exact hpacket

/-- What a command prints that gets its reply. -/
def replyText (chipId : Word) (op : Byte) (size : Nat) (chunks : List (List Byte))
    (code : Byte) : List Byte :=
  textBefore chipId op (lineEvents size chunks.flatten) ++ errorLine code

/-- A command that gets its reply. -/
theorem cmd_reply (chipId : Word) {slip : Slip} (hidle : slip.Idle) (op : Byte)
    {data : List Byte} (hdata : data.length ≤ 16384) (cs : Word) {chunks : List (List Byte)}
    {code : Byte} (hreply : Reply chipId op slip.size chunks code) (reads : List Read) :
    ∃ x, cmd chipId slip op data cs (chunks.map .data ++ reads) = .ok x
      ∧ x.sent = slipSend (commandHeader op (BitVec.ofNat 16 data.length) cs ++ data)
      ∧ x.reads = reads ∧ x.result = code.toNat
      ∧ x.printed = replyText chipId op slip.size chunks code ∧ x.heard.slip.Idle
      ∧ x.heard.slip.size = slip.size
      ∧ ∀ packet ∈ firstPacket chipId op (lineEvents slip.size chunks.flatten),
          x.heard.slip.buf.take packet.length = packet := by
  obtain ⟨m, hearly, -, -⟩ := receive_stream hidle chunks.dropLast.flatten
  obtain ⟨slip', hrun, -, -⟩ := receive_stream hidle chunks.flatten
  obtain ⟨heard, hlisten, hcode, hheard, hsize, hprinted, hpacket⟩ :=
    listen_reply chipId op hidle.wf hreply.nonempty hreply.reads hearly hreply.early hrun
      hreply.answer reads
  refine ⟨{ sent := slipSend (commandHeader op (BitVec.ofNat 16 data.length) cs ++ data)
            heard := heard, reads := reads }, ?_, rfl, rfl, ?_, ?_, hheard, hsize, hpacket⟩
  · rw [cmd, request, if_pos hdata]
    show (listen chipId op slip _ >>= _) = _
    rw [hlisten]
    rfl
  · rw [Exchange.result, hcode]
  · rw [Exchange.printed, hcode, hprinted]
    rfl

end RiscvTe.Esputil
