import RiscvTe.Esputil.Slip

/-!
# The terminals (`tools/slipterm.c`, `monitor` in `esputil/esputil.c`)

Both loops stand between a user, a network and the serial line of a device.
What the device sends goes through `slip_recv`: text to the screen, packets to
the network. What the user types goes to the device as it is, and what comes
from the network goes there as a frame.

One turn handles everything that is ready, the device first. However the turns
are cut and mixed, each side gets what the other one has sent
(`terminal_relays`); `monitor` drops the packets of the device.
-/

namespace RiscvTe.Esputil

open Memory Stuffing

/-! ## One turn -/

/-- What a terminal puts on the line. -/
inductive Sent where
  | text (c : Byte)
  | frame (packet : List Byte)
  deriving DecidableEq, Repr

/-- `uart_tx`, and `slip_send` with it. -/
def Sent.wire : Sent → List Byte
  | .text c => [c]
  | .frame packet => slipSend packet

/-- What the device is meant to get. -/
def Sent.event : Sent → Event
  | .text c => .putchar c
  | .frame packet => .packet packet

/-- What a terminal does: `shown` stands for the screen and the network. -/
inductive Output (γ : Type) where
  | shown (e : γ)
  | uartTx (c : Byte)
  deriving DecidableEq, Repr

namespace Output

variable {γ : Type}

def shown? : Output γ → Option γ
  | .shown e => some e
  | .uartTx _ => none

def uartTx? : Output γ → Option Byte
  | .shown _ => none
  | .uartTx c => some c

theorem filterMap_shown (es : List γ) (bytes : List Byte) :
    (es.map shown ++ bytes.map uartTx).filterMap shown? = es := by
  rw [List.filterMap_append, List.filterMap_map, List.filterMap_map]
  simp [Function.comp_def, shown?]

theorem filterMap_uartTx (es : List γ) (bytes : List Byte) :
    (es.map shown ++ bytes.map uartTx).filterMap uartTx? = bytes := by
  rw [List.filterMap_append, List.filterMap_map, List.filterMap_map]
  simp [Function.comp_def, uartTx?]

end Output

/-- One turn of a loop that handles the bytes of the device one by one: what
was read from it, if it was ready, and what is to be sent to it. -/
def terminalTurn {γ : Type} (uartByte : Slip → Byte → Except Halt (Slip × List γ)) (slip : Slip)
    (turn : Option (List Byte) × List Sent) : Except Halt (Slip × List (Output γ)) := do
  let (slip, shown) ← match turn.1 with
    | none => .ok (slip, [])
    | some [] => .error (.failed "Serial line closed\n")
    | some bytes => Emitter.run uartByte slip bytes
  return (slip, shown.map .shown ++ (turn.2.flatMap Sent.wire).map .uartTx)

/-! ## The loop of `slipterm` -/

/-- Which of `tty_fd`, `ph` and `pcap_fd` there are. -/
structure Slipterm where
  tty : Bool
  ph : Bool
  pcapFd : Bool
  deriving DecidableEq, Repr

inductive SliptermEvent where
  | putchar (c : Byte)
  | writeTty (packet : List Byte)
  | pcapInject (packet : List Byte)
  deriving DecidableEq, Repr

def Slipterm.forward (t : Slipterm) (packet : List Byte) : List SliptermEvent :=
  if t.tty then [.writeTty packet] else if t.ph then [.pcapInject packet] else []

/-- The loop over the bytes of a read. -/
def Slipterm.uartByte (t : Slipterm) (slip : Slip) (c : Byte) :
    Except Halt (Slip × List SliptermEvent) := do
  let (slip, len) ← slipRecv c slip
  return (slip,
    if len = 0 then if slip.mode then [] else [.putchar c]
    else t.forward (slip.buf.take len))

/-- What `select` reports, with what is read then. -/
structure Ready where
  uart : Option (List Byte)
  stdin : Option (List Byte)
  /-- `none` if `pcap_next_ex` has no packet -/
  pcap : Option (Option (List Byte))
  pty : Option (List Byte)
  deriving DecidableEq, Repr

/-- The frame of the pty; nothing is sent if nothing was read. -/
def Slipterm.ptySends (t : Slipterm) (ready : Ready) : List Sent :=
  match ready.pty with
  | some (b :: bytes) => if t.tty then [.frame (b :: bytes)] else []
  | _ => []

/-- What goes to the device. Without a packet the turn ends before the pty. -/
def Slipterm.sends (t : Slipterm) (ready : Ready) : List Sent :=
  let typed := (ready.stdin.getD []).map .text
  if t.pcapFd then
    match ready.pcap with
    | some (some packet) => typed ++ .frame packet :: t.ptySends ready
    | some none => typed
    | none => typed ++ t.ptySends ready
  else typed ++ t.ptySends ready

/-- One turn of `while (s_signo == 0)`. -/
def Slipterm.turn (t : Slipterm) (slip : Slip) (ready : Ready) :
    Except Halt (Slip × List (Output SliptermEvent)) :=
  terminalTurn t.uartByte slip (ready.uart, t.sends ready)

/-- What `slipterm` makes of an event of the line. -/
def Slipterm.shows (t : Slipterm) : Event → List SliptermEvent
  | .putchar c => [.putchar c]
  | .packet packet => t.forward packet

/-! ## The loop of `monitor` -/

/-- What `monitor` does with what the device sends. -/
inductive MonitorEvent where
  | putchar (c : Byte)
  | sendto (bytes : List Byte)
  deriving DecidableEq, Repr

/-- What `iowait` reports, with what is read then; `udp` is a datagram. -/
structure MonitorReady where
  uart : Option (List Byte)
  stdin : Option (List Byte)
  udp : Option (List Byte)
  deriving DecidableEq, Repr

/-- What goes to the device. -/
def MonitorReady.sends (ready : MonitorReady) : List Sent :=
  (ready.stdin.getD []).map .text
    ++ match ready.udp with
      | some (b :: bytes) => [.frame (b :: bytes)]
      | _ => []

/-- What `monitor` makes of an event of the line. -/
def Event.printed : Event → List MonitorEvent
  | .putchar c => [.putchar c]
  | .packet _ => []

/-! ## The device's side of a turn -/

section Turns

variable {γ : Type} {uartByte : Slip → Byte → Except Halt (Slip × List γ)}
  {shows : Event → List γ}

/-- The loop over the bytes of a read follows the state machine. -/
def Follows (uartByte : Slip → Byte → Except Halt (Slip × List γ))
    (shows : Event → List γ) : Prop :=
  ∀ slip c slip' out, slip.WF → receiveByte slip c = .ok (slip', out) →
    slip'.WF ∧ uartByte slip c = .ok (slip', out.flatMap shows)

theorem Follows.run (h : Follows uartByte shows) {slip slip' : Slip} {bytes : List Byte}
    {events : List Event} (hwf : slip.WF) (hrun : receive slip bytes = .ok (slip', events)) :
    Emitter.run uartByte slip bytes = .ok (slip', events.flatMap shows) :=
  Emitter.run_sim rfl (fun _ _ => List.flatMap_append) h hwf hrun

theorem receiveByte_wf {slip slip' : Slip} {c : Byte} {out : List Event} (hwf : slip.WF)
    (h : receiveByte slip c = .ok (slip', out)) : slip'.WF := by
  obtain ⟨⟨u, len⟩, hrecv, h⟩ := EventRun.bind_ok_iff.mp h
  cases h
  exact (slipRecv_wf hwf hrecv).1

theorem receive_wf {slip slip' : Slip} {bytes : List Byte} {events : List Event}
    (hwf : slip.WF) (h : receive slip bytes = .ok (slip', events)) : slip'.WF := by
  induction bytes generalizing slip events with
  | nil =>
      cases h
      exact hwf
  | cons c bytes ih =>
      obtain ⟨m, out, more, hbyte, hbytes, -⟩ := Emitter.run_cons_ok.mp h
      exact ih (receiveByte_wf hwf hbyte) hbytes

theorem terminalTurn_of (h : Follows uartByte shows) {slip slip' : Slip}
    {turn : Option (List Byte) × List Sent} {events : List Event} (hwf : slip.WF)
    (hopen : turn.1 ≠ some [])
    (hrun : receive slip (turn.1.getD []) = .ok (slip', events)) :
    terminalTurn uartByte slip turn = .ok (slip', (events.flatMap shows).map .shown
      ++ (turn.2.flatMap Sent.wire).map .uartTx) := by
  obtain ⟨uart, sends⟩ := turn
  cases uart with
  | none =>
      cases hrun
      rfl
  | some bytes =>
      cases bytes with
      | nil => exact absurd rfl hopen
      | cons b bytes =>
          have hdevice : Emitter.run uartByte slip (b :: bytes)
              = .ok (slip', events.flatMap shows) := h.run hwf hrun
          rw [terminalTurn]
          show (Emitter.run uartByte slip (b :: bytes) >>= _) = _
          rw [hdevice]
          rfl

/-- **Any number of turns.** What the device has sent is cut into reads as it
may be, and the two directions do not disturb each other. -/
theorem terminal_turns (h : Follows uartByte shows) {slip slip' : Slip}
    {turns : List (Option (List Byte) × List Sent)} {events : List Event} (hwf : slip.WF)
    (hopen : ∀ turn ∈ turns, turn.1 ≠ some [])
    (hrun : receive slip (turns.flatMap fun turn => turn.1.getD []) = .ok (slip', events)) :
    ∃ out, Emitter.run (terminalTurn uartByte) slip turns = .ok (slip', out)
      ∧ out.filterMap Output.shown? = events.flatMap shows
      ∧ out.filterMap Output.uartTx? = (turns.flatMap Prod.snd).flatMap Sent.wire := by
  induction turns generalizing slip events with
  | nil =>
      cases hrun
      exact ⟨[], rfl, rfl, rfl⟩
  | cons turn turns ih =>
      rw [List.flatMap_cons] at hrun
      obtain ⟨m, first, rest, hfirst, hrest, rfl⟩ := Emitter.run_append_ok.mp hrun
      obtain ⟨out, hout, hshown, hsent⟩ :=
        ih (receive_wf hwf hfirst) (fun t ht => hopen t (by simp [ht])) hrest
      have hturn := terminalTurn_of h hwf (hopen turn (by simp)) hfirst
      refine ⟨_, Emitter.run_cons hturn hout, ?_, ?_⟩
      · rw [List.filterMap_append, Output.filterMap_shown, hshown, List.flatMap_append]
      · rw [List.filterMap_append, Output.filterMap_uartTx, hsent, List.flatMap_cons,
          List.flatMap_append]

end Turns

/-! ## The other end of the line -/

/-- What a receiver with a buffer of this size can get: a frame has to fit, and
text must not look like the end of a frame. -/
def Sent.Fits (size : Nat) : Sent → Prop
  | .text c => c ≠ endByte
  | .frame packet => 0 < packet.length ∧ packet.length < size

/-- **What was put on the line arrives.** -/
theorem receive_sent {far : Slip} (hidle : far.Idle) {sends : List Sent}
    (hfits : ∀ sent ∈ sends, sent.Fits far.size) :
    ∃ far', receive far (sends.flatMap Sent.wire) = .ok (far', sends.map Sent.event)
      ∧ far'.Idle := by
  induction sends generalizing far with
  | nil => exact ⟨far, rfl, hidle⟩
  | cons sent sends ih =>
      have hone : ∃ m, receive far sent.wire = .ok (m, [sent.event]) ∧ m.size = far.size
          ∧ m.Idle := by
        have hsent := hfits sent (by simp)
        cases sent with
        | text c =>
            have hc : endByte ∉ [c] := by simpa using Ne.symm hsent
            exact hidle.outside hc
        | frame packet =>
            obtain ⟨m, hm, hsize, hbehind⟩ := receive_stream hidle (slipSend packet)
            have hsession := @even_count_session [([], packet)] (by simp)
            have hevents : lineEvents far.size (slipSend packet) = [.packet packet] :=
              @send_events far.size [] packet (by simp) hsent.1 hsent.2
            rw [hevents] at hm
            exact ⟨m, hm, hsize, hbehind.idle (by simpa using hsession)⟩
      obtain ⟨m, hm, hsize, hmidle⟩ := hone
      obtain ⟨far', hfar', hidle'⟩ :=
        ih hmidle fun s hs => hsize ▸ hfits s (by simp [hs])
      exact ⟨far', Emitter.run_append hm hfar', hidle'⟩

/-- **Both directions**, for a loop that handles what is ready as `turn` says. -/
theorem terminal_relays {γ ι : Type} {uartByte : Slip → Byte → Except Halt (Slip × List γ)}
    {shows : Event → List γ} (h : Follows uartByte shows)
    (turn : ι → Option (List Byte) × List Sent) {slip : Slip} (hidle : slip.Idle)
    {turns : List ι} (hopen : ∀ ready ∈ turns, (turn ready).1 ≠ some []) :
    ∃ slip' out, Emitter.run (fun slip ready => terminalTurn uartByte slip (turn ready)) slip turns
        = .ok (slip', out)
      ∧ out.filterMap Output.shown?
        = (lineEvents slip.size (turns.flatMap fun ready => (turn ready).1.getD [])).flatMap shows
      ∧ ∀ far : Slip, far.Idle →
          (∀ ready ∈ turns, ∀ sent ∈ (turn ready).2, sent.Fits far.size) →
          ∃ far', receive far (out.filterMap Output.uartTx?)
              = .ok (far', (turns.flatMap fun ready => (turn ready).2).map Sent.event)
            ∧ far'.Idle := by
  obtain ⟨slip', hrun, -⟩ :=
    receive_stream hidle (turns.flatMap fun ready => (turn ready).1.getD [])
  have hrun' : receive slip ((turns.map turn).flatMap fun t => t.1.getD [])
      = .ok (slip', lineEvents slip.size (turns.flatMap fun ready => (turn ready).1.getD [])) := by
    rw [List.flatMap_map]
    exact hrun
  have hopen' : ∀ t ∈ turns.map turn, t.1 ≠ some [] := by
    intro t ht
    obtain ⟨ready, hready, rfl⟩ := List.mem_map.mp ht
    exact hopen ready hready
  obtain ⟨out, hout, hshown, hsent⟩ := terminal_turns h hidle.wf hopen' hrun'
  rw [Emitter.run_map] at hout
  rw [List.flatMap_map] at hsent
  refine ⟨slip', out, hout, hshown, fun far hfar hfits => ?_⟩
  rw [hsent]
  refine receive_sent hfar fun sent hin => ?_
  obtain ⟨ready, hready, hin⟩ := List.mem_flatMap.mp hin
  exact hfits ready hready sent hin

/-! ## `slipterm` -/

/-- A byte of `slipterm`. -/
theorem Slipterm.follows (t : Slipterm) : Follows t.uartByte t.shows := by
  intro slip c slip' out hwf h
  refine ⟨receiveByte_wf hwf h, ?_⟩
  obtain ⟨⟨u, len⟩, hrecv, h⟩ := EventRun.bind_ok_iff.mp h
  cases h
  rw [Slipterm.uartByte, hrecv]
  show Except.ok _ = _
  congr 2
  by_cases hlen : len = 0
  · rw [if_pos hlen, if_pos hlen]
    cases slip'.mode <;> rfl
  · rw [if_neg hlen, if_neg hlen]
    simp [Slipterm.shows]

/-- **`slipterm` relays.** As long as the device is there, whatever is ready in
each turn: the screen and the network get what the buffer keeps of what the
device has sent, and the device gets what was typed and what came from the
network, in order, if it fits. -/
theorem slipterm_relays (t : Slipterm) {slip : Slip} (hidle : slip.Idle) {turns : List Ready}
    (hopen : ∀ ready ∈ turns, ready.uart ≠ some []) :
    ∃ slip' out, Emitter.run t.turn slip turns = .ok (slip', out)
      ∧ out.filterMap Output.shown?
        = (lineEvents slip.size (turns.flatMap fun ready => ready.uart.getD [])).flatMap t.shows
      ∧ ∀ far : Slip, far.Idle → (∀ ready ∈ turns, ∀ sent ∈ t.sends ready, sent.Fits far.size) →
          ∃ far', receive far (out.filterMap Output.uartTx?)
              = .ok (far', (turns.flatMap t.sends).map Sent.event) ∧ far'.Idle :=
  terminal_relays t.follows (fun ready : Ready => (ready.uart, t.sends ready)) hidle hopen

/-- The device prints a letter and sends a packet in two reads; the user types
between them while a packet comes from the network. -/
theorem slipterm_relays_two :
    ∃ slip' out, Emitter.run (Slipterm.turn ⟨false, true, true⟩) (Slip.initial [0, 0])
        [⟨some [65, endByte, 1], none, none, none⟩,
          ⟨some [endByte], some [66], some (some [escByte]), none⟩] = .ok (slip', out)
      ∧ out.filterMap Output.shown?
        = (lineEvents 2 [65, endByte, 1, endByte]).flatMap (Slipterm.shows ⟨false, true, true⟩)
      ∧ ∀ far : Slip, far.Idle →
          (∀ ready ∈ [⟨some [65, endByte, 1], none, none, none⟩,
            ⟨some [endByte], some [66], some (some [escByte]), none⟩],
            ∀ sent ∈ Slipterm.sends ⟨false, true, true⟩ ready, sent.Fits far.size) →
          ∃ far', receive far (out.filterMap Output.uartTx?)
              = .ok (far', [.putchar 66, .packet [escByte]]) ∧ far'.Idle :=
  slipterm_relays ⟨false, true, true⟩ (Slip.initial_idle (by decide)) (by decide)

/-! ## `monitor` -/

end RiscvTe.Esputil
