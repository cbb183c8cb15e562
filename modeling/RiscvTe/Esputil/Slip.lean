import RiscvTe.Lib.Emitter
import RiscvTe.Lib.Memory
import RiscvTe.Lib.Stuffing

/-!
# SLIP (`esputil/esputil.c`, `tools/slip.h`)

The serial line carries text of the running program and packets in SLIP
frames. `slipSend` writes a frame, `slipRecv` is the state machine that reads
the line byte by byte into a buffer of fixed size. A frame that outgrows the
buffer starts over at its first cell, so what is handed on of a frame of `n`
bytes are the last `n % size` of them (`kept`).

`receive` is the loop in which `cmd`, `monitor` and `slipterm` feed the state
machine: a byte outside a frame is printed, a packet is looked at when its
frame is closed.
-/

namespace RiscvTe.Esputil

open Memory Stuffing

/-- Why a command stops: `fail` prints its text and exits, an access outside
an object has no meaning in C. -/
inductive Halt where
  | failed (text : String)
  | outOfBounds
  deriving DecidableEq, Repr

/-- `END`, `ESC`, `ESC_END`, `ESC_ESC` of the `enum`. -/
def endByte : Byte := 192
def escByte : Byte := 219
def escEnd : Byte := 220
def escEsc : Byte := 221

/-! ## Sending -/

/-- The bytes `slip_send` hands to `fn` in the turn for `p[i]`. -/
def slipSendByte (b : Byte) : List Byte :=
  if b = endByte then [escByte, escEnd]
  else if b = escByte then [escByte, escEsc]
  else [b]

/-- `slip_send`, as the bytes handed to `fn` in order. -/
def slipSend (buf : List Byte) : List Byte :=
  endByte :: buf.flatMap slipSendByte ++ [endByte]

/-- The code of RFC 1055. -/
def rfc1055 : Code Byte where
  delim := endByte
  esc := escByte
  subst b := if b = endByte then some escEnd else if b = escByte then some escEsc else none
  restore s := if s = escEnd then some endByte else if s = escEsc then some escByte else none
  delim_escaped := by decide
  esc_escaped := by decide
  restore_subst := by
    intro a s h
    split_ifs at h with hend hesc <;> cases h
    · rw [hend, if_pos rfl]
    · rw [hesc, if_neg (by decide), if_pos rfl]
  subst_ne_delim := by
    intro a s h
    split_ifs at h <;> cases h <;> decide
  subst_ne_esc := by
    intro a s h
    split_ifs at h <;> cases h <;> decide
  esc_ne_delim := by decide

theorem slipSendByte_eq (b : Byte) : slipSendByte b = rfc1055.encodeSymbol b := by
  unfold slipSendByte Code.encodeSymbol rfc1055
  by_cases hend : b = endByte
  · simp [hend]
  · by_cases hesc : b = escByte
    · simp [hesc, show escByte ≠ endByte by decide]
    · simp [hend, hesc]

/-- `slip_send` writes frames of RFC 1055. -/
theorem slipSend_eq (buf : List Byte) : slipSend buf = rfc1055.send buf := by
  unfold slipSend Code.send Code.encode
  rw [funext slipSendByte_eq]
  rfl

/-! ## The state machine -/

/-- `struct slip`; `mode` is `true` in network mode. -/
structure Slip where
  buf : List Byte
  size : Nat
  len : Nat
  mode : Bool
  prev : Byte
  deriving DecidableEq, Repr

/-- `slip->buf[slip->len++] = b` -/
def Slip.store (slip : Slip) (b : Byte) : Except Halt Slip :=
  if slip.len < slip.buf.length then
    .ok { slip with buf := slip.buf.set slip.len b, len := slip.len + 1 }
  else .error .outOfBounds

/-- `slip_recv`: the state after the byte `c`, and the size of the packet that
`c` completes, or 0. -/
def slipRecv (c : Byte) (slip : Slip) : Except Halt (Slip × Nat) := do
  let (slip, res) ←
    if slip.mode then do
      let (slip, res) ←
        if slip.prev = escByte ∧ c = escEnd then do
          let slip ← slip.store endByte
          pure (slip, 0)
        else if slip.prev = escByte ∧ c = escEsc then do
          let slip ← slip.store escByte
          pure (slip, 0)
        else if c = endByte then pure (slip, slip.len)
        else if c ≠ escByte then do
          let slip ← slip.store c
          pure (slip, 0)
        else pure (slip, 0)
      -- silent overflow
      pure (if slip.size ≤ slip.len then { slip with len := 0 } else slip, res)
    else pure (slip, 0)
  let slip := { slip with prev := c }
  return (if c = endByte then { slip with len := 0, mode := !slip.mode } else slip, res)

/-- What the loops around `slip_recv` do with a byte. -/
inductive Event where
  | putchar (c : Byte)
  | packet (bytes : List Byte)
  deriving DecidableEq, Repr

/-- One turn of these loops. -/
def receiveByte (slip : Slip) (c : Byte) : Except Halt (Slip × List Event) := do
  let (slip, len) ← slipRecv c slip
  return (slip,
    if len = 0 then if slip.mode then [] else [.putchar c]
    else [.packet (slip.buf.take len)])

/-- The bytes of a read, or of several. -/
def receive (slip : Slip) (bytes : List Byte) : Except Halt (Slip × List Event) :=
  Emitter.run receiveByte slip bytes

/-! ## The state between bytes -/

/-- The buffer has the size given and room for one byte. -/
structure Slip.WF (slip : Slip) : Prop where
  size : slip.buf.length = slip.size
  room : slip.len < slip.size

/-- Between two packets. -/
structure Slip.Idle (slip : Slip) : Prop where
  wf : slip.WF
  serial : slip.mode = false
  empty : slip.len = 0

/-- The state machine `main` starts with: all zero but the buffer. -/
def Slip.initial (buf : List Byte) : Slip :=
  { buf := buf, size := buf.length, len := 0, mode := false, prev := 0 }

theorem Slip.initial_idle {buf : List Byte} (h : buf ≠ []) : (Slip.initial buf).Idle :=
  ⟨⟨rfl, List.length_pos_iff.mpr h⟩, rfl, rfl⟩

/-- What is left of a content in a buffer that starts over when it is full. -/
def kept (size : Nat) (content : List Byte) : List Byte :=
  content.drop (content.length / size * size)

theorem kept_length (size : Nat) (content : List Byte) :
    (kept size content).length = content.length % size := by
  rw [kept, List.length_drop, Nat.mod_eq_sub_div_mul]

theorem kept_of_lt {size : Nat} {content : List Byte} (h : content.length < size) :
    kept size content = content := by
  rw [kept, Nat.div_eq_of_lt h, Nat.zero_mul, List.drop_zero]

/-- One byte more: the last free cell is taken and the buffer starts over, or
there is still room. -/
theorem kept_snoc {size : Nat} (hsize : 0 < size) (content : List Byte) (b : Byte) :
    kept size (content ++ [b])
      = if (kept size content).length + 1 = size then [] else kept size content ++ [b] := by
  have hlen := kept_length size content
  have hmod := Nat.mod_lt content.length hsize
  have hdiv := Nat.div_add_mod content.length size
  split
  · rename_i hfull
    rw [← List.length_eq_zero_iff, kept_length, List.length_append, List.length_singleton]
    have hmul : content.length + 1 = size * (content.length / size + 1) := by
      rw [Nat.mul_add_one]
      omega
    rw [hmul, Nat.mul_mod_right]
  · rename_i hroom
    have hquot : (content.length + 1) / size = content.length / size := by
      rw [Nat.div_eq_iff hsize, Nat.mul_comm]
      omega
    rw [kept, kept, List.length_append, List.length_singleton, hquot,
      List.drop_append_of_le_length]
    exact Nat.div_mul_le_self _ _

/-- Inside a frame: `content` has been read, and `escaped` says that the last
byte was `ESC`. -/
structure Slip.Holds (slip : Slip) (content : List Byte) (escaped : Bool) : Prop where
  wf : slip.WF
  network : slip.mode = true
  bytes : slip.buf.take slip.len = kept slip.size content
  prev : (slip.prev = escByte) = (escaped = true)

theorem Slip.Holds.len {slip : Slip} {content : List Byte} {escaped : Bool}
    (h : slip.Holds content escaped) : slip.len = (kept slip.size content).length := by
  have hsize := h.wf.size
  have hroom := h.wf.room
  rw [← h.bytes, List.length_take]
  omega

/-! ## One byte -/

section OneByte

variable {slip : Slip} {c : Byte}

theorem slipRecv_plain (hmode : slip.mode = false) (hc : c ≠ endByte) :
    slipRecv c slip = .ok ({ slip with prev := c }, 0) := by
  unfold slipRecv
  simp [hmode, hc, bind, Except.bind, pure, Except.pure]

theorem slipRecv_opening (hmode : slip.mode = false) :
    slipRecv endByte slip
      = .ok ({ slip with prev := endByte, len := 0, mode := true }, 0) := by
  unfold slipRecv
  simp [hmode, bind, Except.bind, pure, Except.pure]

theorem slipRecv_closing (hwf : slip.WF) (hmode : slip.mode = true) :
    slipRecv endByte slip
      = .ok ({ slip with prev := endByte, len := 0, mode := false }, slip.len) := by
  have hroom : ¬ slip.size ≤ slip.len := Nat.not_le.mpr hwf.room
  unfold slipRecv
  simp [hmode, hroom, show endByte ≠ escEnd by decide, show endByte ≠ escEsc by decide,
    bind, Except.bind, pure, Except.pure]

/-- The byte `b` goes into the buffer, which starts over when it is full. -/
def Slip.keep (slip : Slip) (b : Byte) : Slip :=
  { slip with
    buf := slip.buf.set slip.len b
    len := if slip.size ≤ slip.len + 1 then 0 else slip.len + 1 }

theorem store_ok (hwf : slip.WF) (b : Byte) :
    slip.store b = .ok { slip with buf := slip.buf.set slip.len b, len := slip.len + 1 } := by
  have hroom := hwf.room
  rw [Slip.store, if_pos (by rw [hwf.size]; exact hroom)]

/-- The substitutes behind `ESC`, `ESC` itself, and any other byte. -/
theorem decodeSymbol_cases (escaped : Bool) (c : Byte) :
    rfc1055.decodeSymbol escaped c
      = if escaped = true ∧ c = escEnd then [endByte]
        else if escaped = true ∧ c = escEsc then [escByte]
        else if c = escByte then [] else [c] := by
  unfold Code.decodeSymbol rfc1055
  cases escaped with
  | false => simp
  | true =>
      by_cases hend : c = escEnd
      · simp [hend]
      · by_cases hesc : c = escEsc
        · simp [hesc, show escEsc ≠ escEnd by decide]
        · simp [hend, hesc]

/-- Inside a frame a byte adds what it decodes to. -/
theorem slipRecv_inside (hwf : slip.WF) (hmode : slip.mode = true) (hc : c ≠ endByte) :
    slipRecv c slip
      = .ok ({ (rfc1055.decodeSymbol (slip.prev = escByte) c).foldl Slip.keep slip with
          prev := c }, 0) := by
  have hroom : ¬ slip.size ≤ slip.len := Nat.not_le.mpr hwf.room
  have hkeep : ∀ b : Byte, (if slip.size ≤ slip.len + 1
      then { slip with buf := slip.buf.set slip.len b, len := 0 }
      else { slip with buf := slip.buf.set slip.len b, len := slip.len + 1 }) = slip.keep b := by
    intro b
    unfold Slip.keep
    split <;> rfl
  rw [decodeSymbol_cases]
  unfold slipRecv
  by_cases hend : slip.prev = escByte ∧ c = escEnd
  · simp [hmode, hend, store_ok hwf, ← hkeep, show escEnd ≠ endByte by decide,
      bind, Except.bind, pure, Except.pure]
  · by_cases hesc : slip.prev = escByte ∧ c = escEsc
    · simp [hmode, hesc, store_ok hwf, ← hkeep, show escEsc ≠ escEnd by decide,
        show escEsc ≠ endByte by decide, bind, Except.bind, pure, Except.pure]
    · by_cases hc' : c = escByte
      · simp [hmode, hc', hroom, show escByte ≠ endByte by decide, show escByte ≠ escEnd by decide,
          show escByte ≠ escEsc by decide, bind, Except.bind, pure, Except.pure]
      · simp [hmode, hend, hesc, hc, hc', store_ok hwf, ← hkeep,
          bind, Except.bind, pure, Except.pure]

theorem keep_wf (hwf : slip.WF) (b : Byte) : (slip.keep b).WF := by
  have hsize := hwf.size
  have hroom := hwf.room
  refine ⟨by simpa [Slip.keep] using hsize, ?_⟩
  unfold Slip.keep
  dsimp only
  split <;> omega

theorem keep_bytes {content : List Byte} (hwf : slip.WF)
    (hbytes : slip.buf.take slip.len = kept slip.size content) (b : Byte) :
    (slip.keep b).buf.take (slip.keep b).len = kept slip.size (content ++ [b]) := by
  have hsize := hwf.size
  have hroom := hwf.room
  have hlen : (kept slip.size content).length = slip.len := by
    rw [← hbytes, List.length_take]
    omega
  rw [kept_snoc (by omega), hlen]
  unfold Slip.keep
  by_cases hfull : slip.len + 1 = slip.size
  · rw [if_pos (by omega), if_pos hfull]
    exact List.take_zero
  · rw [if_neg (by omega), if_neg hfull]
    show (slip.buf.set slip.len b).take (slip.len + 1) = _
    rw [List.take_succ_eq_append_getElem (by simpa [hsize] using hroom),
      List.take_set_of_le (Nat.le_refl _), List.getElem_set_self, hbytes]

/-- The step inside a frame: nothing is handed on, the content grows by what
the byte decodes to. -/
theorem Slip.Holds.step {content : List Byte} {escaped : Bool} (h : slip.Holds content escaped)
    (hc : c ≠ endByte) :
    ∃ slip', receiveByte slip c = .ok (slip', []) ∧ slip'.size = slip.size
      ∧ slip'.Holds (content ++ rfc1055.decodeSymbol escaped c) (c = escByte) := by
  have hescaped : decide (slip.prev = escByte) = escaped := by
    rw [Bool.eq_iff_iff, decide_eq_true_iff, h.prev]
  have hrecv := slipRecv_inside h.wf h.network hc
  rw [hescaped] at hrecv
  -- no byte or one byte is kept
  have hkept : ∃ kept', (rfc1055.decodeSymbol escaped c).foldl Slip.keep slip = kept'
      ∧ kept'.WF ∧ kept'.size = slip.size ∧ kept'.mode = true
      ∧ kept'.buf.take kept'.len
          = kept slip.size (content ++ rfc1055.decodeSymbol escaped c) := by
    refine ⟨_, rfl, ?_⟩
    have hone : ∀ b : Byte, (List.foldl Slip.keep slip [b]).WF
        ∧ (List.foldl Slip.keep slip [b]).size = slip.size
        ∧ (List.foldl Slip.keep slip [b]).mode = true
        ∧ (List.foldl Slip.keep slip [b]).buf.take (List.foldl Slip.keep slip [b]).len
            = kept slip.size (content ++ [b]) := by
      intro b
      exact ⟨keep_wf h.wf b, rfl, h.network, keep_bytes h.wf h.bytes b⟩
    rw [decodeSymbol_cases]
    split_ifs
    · exact hone endByte
    · exact hone escByte
    · exact ⟨h.wf, rfl, h.network, by rw [List.append_nil]; exact h.bytes⟩
    · exact hone c
  obtain ⟨kept', hfold, hwf, hsize, hmode, hbytes⟩ := hkept
  rw [hfold] at hrecv
  refine ⟨{ kept' with prev := c }, ?_, hsize, ⟨hwf.size, hwf.room⟩, hmode, ?_, by simp⟩
  · rw [receiveByte, hrecv]
    show Except.ok (_, if kept'.mode then [] else [Event.putchar c]) = _
    rw [if_pos hmode]
  · rw [show ({ kept' with prev := c } : Slip).size = slip.size from hsize]
    exact hbytes

/-- What is handed on when a frame with this content is closed. -/
def frameEvents (size : Nat) (content : List Byte) : List Event :=
  if kept size content = [] then [.putchar endByte] else [.packet (kept size content)]

theorem Slip.Holds.closing {content : List Byte} {escaped : Bool}
    (h : slip.Holds content escaped) :
    ∃ slip', receiveByte slip endByte = .ok (slip', frameEvents slip.size content)
      ∧ slip'.size = slip.size ∧ slip'.Idle := by
  refine ⟨{ slip with prev := endByte, len := 0, mode := false }, ?_, rfl,
    ⟨h.wf.size, Nat.zero_lt_of_lt h.wf.room⟩, rfl, rfl⟩
  rw [receiveByte, slipRecv_closing h.wf h.network, frameEvents]
  have hlen := h.len
  have hbytes := h.bytes
  by_cases hempty : kept slip.size content = []
  · rw [hempty] at hlen
    rw [if_pos hempty, hlen]
    rfl
  · have hne : slip.len ≠ 0 := by
      rw [hlen]
      simpa using hempty
    rw [if_neg hempty, ← hbytes]
    show Except.ok (_, if slip.len = 0 then _ else _) = _
    rw [if_neg hne]

theorem Slip.Idle.opening (h : slip.Idle) :
    ∃ slip', receiveByte slip endByte = .ok (slip', []) ∧ slip'.size = slip.size
      ∧ slip'.Holds [] false := by
  refine ⟨{ slip with prev := endByte, len := 0, mode := true }, ?_, rfl,
    ⟨h.wf.size, Nat.zero_lt_of_lt h.wf.room⟩, rfl, ?_, ?_⟩
  · rw [receiveByte, slipRecv_opening h.serial]
    rfl
  · simp [kept]
  · simp [show endByte ≠ escByte by decide]

/-- Outside a frame a byte is printed. -/
theorem Slip.Idle.plain (h : slip.Idle) (hc : c ≠ endByte) :
    ∃ slip', receiveByte slip c = .ok (slip', [.putchar c]) ∧ slip'.size = slip.size
      ∧ slip'.Idle := by
  refine ⟨{ slip with prev := c }, ?_, rfl, ⟨h.wf.size, h.wf.room⟩, h.serial, h.empty⟩
  rw [receiveByte, slipRecv_plain h.serial hc]
  show Except.ok (_, if slip.mode then [] else [Event.putchar c]) = _
  rw [h.serial]
  rfl

end OneByte

/-! ## Pieces and streams -/

theorem Slip.Holds.inside {slip : Slip} {content bytes : List Byte} {escaped : Bool}
    (h : slip.Holds content escaped) (hbytes : endByte ∉ bytes) :
    ∃ slip' escaped', receive slip bytes = .ok (slip', []) ∧ slip'.size = slip.size
      ∧ slip'.Holds (content ++ rfc1055.decodeFrom escaped bytes) escaped' := by
  induction bytes generalizing slip content escaped with
  | nil =>
      refine ⟨slip, escaped, rfl, rfl, ?_⟩
      simpa using h
  | cons c bytes ih =>
      have hc : c ≠ endByte := fun heq => hbytes (heq ▸ List.mem_cons_self)
      obtain ⟨m, hstep, hsize, hm⟩ := h.step hc
      obtain ⟨slip', escaped', hrun, hsize', hslip'⟩ :=
        ih hm fun hin => hbytes (List.mem_cons_of_mem c hin)
      refine ⟨slip', escaped', Emitter.run_cons hstep hrun, hsize'.trans hsize, ?_⟩
      rwa [List.append_assoc] at hslip'

theorem Slip.Idle.outside {slip : Slip} {bytes : List Byte} (h : slip.Idle)
    (hbytes : endByte ∉ bytes) :
    ∃ slip', receive slip bytes = .ok (slip', bytes.map .putchar) ∧ slip'.size = slip.size
      ∧ slip'.Idle := by
  induction bytes generalizing slip with
  | nil => exact ⟨slip, rfl, rfl, h⟩
  | cons c bytes ih =>
      have hc : c ≠ endByte := fun heq => hbytes (heq ▸ List.mem_cons_self)
      obtain ⟨m, hstep, hsize, hm⟩ := h.plain hc
      obtain ⟨slip', hrun, hsize', hslip'⟩ :=
        ih hm fun hin => hbytes (List.mem_cons_of_mem c hin)
      exact ⟨slip', Emitter.run_cons hstep hrun, hsize'.trans hsize, hslip'⟩

/-- What the loops do with an item of the line. -/
def itemEvents (size : Nat) : Item Byte → List Event
  | .plain c => [.putchar c]
  | .frame content => frameEvents size content

/-- The events of a stream that begins between packets. -/
def lineEvents (size : Nat) (stream : List Byte) : List Event :=
  (rfc1055.items stream).flatMap (itemEvents size)

/-- Where the state machine stands: between packets behind an even number of
`END` bytes, in a frame behind an odd number. -/
structure Slip.Behind (slip : Slip) (stream : List Byte) : Prop where
  wf : slip.WF
  idle : Even (stream.count endByte) → slip.Idle
  network : Odd (stream.count endByte) → slip.mode = true

theorem Slip.Idle.behind_of_even {slip : Slip} {stream : List Byte} (h : slip.Idle)
    (heven : Even (stream.count endByte)) : slip.Behind stream :=
  ⟨h.wf, fun _ => h, fun hodd => absurd heven (Nat.not_even_iff_odd.mpr hodd)⟩

theorem count_frame {outside inside : List Byte} (houtside : endByte ∉ outside)
    (hinside : endByte ∉ inside) (rest : List Byte) :
    (outside ++ endByte :: (inside ++ endByte :: rest)).count endByte
      = rest.count endByte + 2 := by
  simp [List.count_eq_zero.mpr houtside, List.count_eq_zero.mpr hinside]

/-- The stream rule, for the `END` byte. -/
theorem line_induction {P : List Byte → Prop}
    (text : ∀ outside, endByte ∉ outside → P outside)
    (openFrame : ∀ outside inside, endByte ∉ outside → endByte ∉ inside →
      P (outside ++ endByte :: inside))
    (frame : ∀ outside inside rest, endByte ∉ outside → endByte ∉ inside → P rest →
      P (outside ++ endByte :: (inside ++ endByte :: rest)))
    (stream : List Byte) : P stream :=
  rfc1055.stream_induction text openFrame frame stream

theorem text_events (size : Nat) (text : List Byte) :
    (text.map Item.plain).flatMap (itemEvents size) = text.map .putchar := by
  induction text with
  | nil => rfl
  | cons c text ih => simp [itemEvents, ih]

/-- **A stream** that begins between packets. -/
theorem receive_stream {slip : Slip} (h : slip.Idle) (stream : List Byte) :
    ∃ slip', receive slip stream
        = .ok (slip', lineEvents slip.size stream)
      ∧ slip'.size = slip.size ∧ slip'.Behind stream := by
  induction stream using line_induction generalizing slip with
  | text outside houtside =>
      obtain ⟨slip', hrun, hsize, hidle⟩ := h.outside houtside
      refine ⟨slip', ?_, hsize, hidle.behind_of_even ?_⟩
      · rw [hrun, lineEvents, rfc1055.items_plain houtside, text_events]
      · rw [List.count_eq_zero.mpr houtside]
        exact Even.zero
  | openFrame outside inside houtside hinside =>
      obtain ⟨m, hout, hm, hidle⟩ := h.outside houtside
      obtain ⟨n, hopen, hn, hholds⟩ := hidle.opening
      obtain ⟨slip', escaped, hin, hslip', hholds'⟩ := hholds.inside hinside
      have hrun := Emitter.run_append hout (Emitter.run_cons hopen hin)
      have hitems : rfc1055.items (outside ++ endByte :: inside) = outside.map .plain :=
        rfc1055.items_open houtside hinside
      have hcount : (outside ++ endByte :: inside).count endByte = 1 := by
        simp [List.count_eq_zero.mpr houtside, List.count_eq_zero.mpr hinside]
      refine ⟨slip', ?_, hslip'.trans (hn.trans hm), hholds'.wf, ?_,
        fun _ => hholds'.network⟩
      · rw [receive, hrun, lineEvents, hitems, text_events]
        simp
      · intro heven
        rw [hcount] at heven
        exact absurd heven (by decide)
  | frame outside inside rest houtside hinside ih =>
      obtain ⟨m, hout, hm, hidle⟩ := h.outside houtside
      obtain ⟨n, hopen, hn, hholds⟩ := hidle.opening
      obtain ⟨p, escaped, hin, hp, hholds'⟩ := hholds.inside hinside
      obtain ⟨q, hclose, hq, hidle'⟩ := hholds'.closing
      obtain ⟨slip', hrest, hslip', hbehind⟩ := ih hidle'
      have hpsize : p.size = slip.size := hp.trans (hn.trans hm)
      have hqsize : q.size = slip.size := hq.trans hpsize
      have hrun := Emitter.run_append hout
        (Emitter.run_cons hopen (Emitter.run_append hin (Emitter.run_cons hclose hrest)))
      have hitems : rfc1055.items (outside ++ endByte :: (inside ++ endByte :: rest))
          = outside.map .plain ++ .frame (rfc1055.decode inside) :: rfc1055.items rest :=
        rfc1055.items_frame houtside hinside rest
      have hcount := count_frame houtside hinside rest
      refine ⟨slip', ?_, hslip'.trans hqsize, hbehind.wf, ?_, ?_⟩
      · rw [receive, hrun, hpsize, hqsize]
        unfold lineEvents
        rw [hitems, List.flatMap_append, text_events, List.flatMap_cons]
        simp [itemEvents, Code.decode]
      · intro heven
        rw [hcount] at heven
        exact hbehind.idle ((Nat.even_add.mp heven).mpr (by decide))
      · intro hodd
        rw [hcount] at hodd
        exact hbehind.network ((Nat.odd_add.mp hodd).mpr (by decide))

/-- **What is received** from the start, for every stream of bytes and every
buffer: the text between the frames byte by byte, and of each frame what the
buffer keeps of its decoded content, or its `END` if nothing is kept. No byte is
written outside the buffer, and the state machine is between packets behind every
second `END`. -/
theorem slip_stream {buf : List Byte} (hbuf : buf ≠ []) (stream : List Byte) :
    ∃ slip', receive (Slip.initial buf) stream = .ok (slip', lineEvents buf.length stream)
      ∧ (slip'.Idle ↔ Even (stream.count endByte)) := by
  obtain ⟨slip', hrun, -, hbehind⟩ := receive_stream (Slip.initial_idle hbuf) stream
  refine ⟨slip', hrun, fun hidle => ?_, hbehind.idle⟩
  by_contra hodd
  have hmode := hbehind.network (Nat.not_even_iff_odd.mp hodd)
  rw [hidle.serial] at hmode
  cases hmode

/-- Three bytes in a frame, for a buffer of two: the last one is handed on. -/
theorem slip_stream_overflow :
    ∃ slip', receive (Slip.initial [0, 0]) [endByte, 1, 2, 3, endByte]
        = .ok (slip', lineEvents 2 [endByte, 1, 2, 3, endByte])
      ∧ (slip'.Idle ↔ Even ([endByte, 1, 2, 3, endByte].count endByte)) :=
  slip_stream (by decide) _

/-- A session leaves the line between packets. -/
theorem even_count_session {session : List (List Byte × List Byte)}
    (htexts : ∀ turn ∈ session, endByte ∉ turn.1) :
    Even ((session.flatMap fun turn => turn.1 ++ slipSend turn.2).count endByte) := by
  induction session with
  | nil => exact Even.zero
  | cons turn session ih =>
      have htext : endByte ∉ turn.1 := htexts turn (by simp)
      have hframe : endByte ∉ rfc1055.encode turn.2 := rfc1055.delim_not_mem_encode turn.2
      have hturn : (turn.1 ++ slipSend turn.2).count endByte = 2 := by
        rw [slipSend_eq, Code.send, show rfc1055.delim = endByte from rfl]
        simp [List.count_eq_zero.mpr htext, List.count_eq_zero.mpr hframe]
      rw [List.flatMap_cons, List.count_append, hturn]
      exact (Nat.even_add.mpr (iff_of_true (by decide) (ih fun t ht => htexts t (by simp [ht]))))

theorem frame_fits {size : Nat} {packet : List Byte} (hpos : 0 < packet.length)
    (hlt : packet.length < size) : frameEvents size packet = [.packet packet] := by
  rw [frameEvents, kept_of_lt hlt, if_neg (List.length_pos_iff.mp hpos)]

/-- A frame that fits, behind some text. -/
theorem send_events {size : Nat} {text packet : List Byte} (htext : endByte ∉ text)
    (hpos : 0 < packet.length) (hlt : packet.length < size) :
    lineEvents size (text ++ slipSend packet) = text.map .putchar ++ [.packet packet] := by
  have hitems : rfc1055.items (text ++ slipSend packet)
      = text.map .plain ++ [.frame packet] := by
    have hsend := rfc1055.items_send htext packet []
    rw [slipSend_eq]
    simpa [rfc1055.items_plain] using hsend
  rw [lineEvents, hitems, List.flatMap_append, text_events]
  simp [itemEvents, frame_fits hpos hlt]

theorem session_events {size : Nat} {session : List (List Byte × List Byte)}
    (hframes : ∀ turn ∈ session, 0 < turn.2.length ∧ turn.2.length < size) :
    (session.flatMap fun turn => turn.1.map Item.plain ++ [.frame turn.2]).flatMap
        (itemEvents size)
      = session.flatMap fun turn => turn.1.map .putchar ++ [.packet turn.2] := by
  induction session with
  | nil => rfl
  | cons turn session ih =>
      obtain ⟨hpos, hlt⟩ := hframes turn (by simp)
      rw [List.flatMap_cons, List.flatMap_append, List.flatMap_append, text_events,
        ih fun t ht => hframes t (by simp [ht]), List.flatMap_cons]
      simp [itemEvents, frame_fits hpos hlt]

/-- **The round trip**: frames that fit the buffer arrive as they were sent, in
order, and the text between them as it is. -/
theorem slip_round_trip {slip : Slip} (h : slip.Idle)
    (session : List (List Byte × List Byte))
    (hsession : ∀ turn ∈ session,
      endByte ∉ turn.1 ∧ 0 < turn.2.length ∧ turn.2.length < slip.size) :
    ∃ slip', receive slip (session.flatMap fun turn => turn.1 ++ slipSend turn.2)
        = .ok (slip', session.flatMap fun turn => turn.1.map .putchar ++ [.packet turn.2])
      ∧ slip'.Idle := by
  have hstream : (session.flatMap fun turn => turn.1 ++ slipSend turn.2)
      = (session.flatMap fun turn => turn.1 ++ rfc1055.send turn.2) ++ [] := by
    rw [List.append_nil]
    simp only [slipSend_eq]
  have htexts : ∀ turn ∈ session, endByte ∉ turn.1 := fun turn hturn => (hsession turn hturn).1
  obtain ⟨slip', hrun, hsize, hbehind⟩ :=
    receive_stream h (session.flatMap fun turn => turn.1 ++ slipSend turn.2)
  refine ⟨slip', ?_, hbehind.idle (even_count_session htexts)⟩
  rw [hrun, lineEvents, hstream, rfc1055.items_session session htexts, List.flatMap_append,
    session_events fun turn hturn => (hsession turn hturn).2]
  simp [rfc1055.items_plain]

/-- Text, then a frame with both bytes that are escaped. -/
theorem slip_round_trip_escapes :
    ∃ slip', receive (Slip.initial [0, 0, 0])
        ([([65], [endByte, escByte])].flatMap fun turn => turn.1 ++ slipSend turn.2)
        = .ok (slip', [([65], [endByte, escByte])].flatMap fun turn =>
            turn.1.map .putchar ++ [.packet turn.2])
      ∧ slip'.Idle :=
  slip_round_trip (Slip.initial_idle (by decide)) _ (by decide)

/-! ## Packets and bounds -/

/-- A packet is reported by the byte that ends network mode. -/
theorem slipRecv_idle {slip slip' : Slip} {c : Byte} {len : Nat} (hwf : slip.WF)
    (h : slipRecv c slip = .ok (slip', len)) (hlen : len ≠ 0) : slip'.Idle := by
  cases hmode : slip.mode with
  | false =>
      by_cases hc : c = endByte
      · rw [hc, slipRecv_opening hmode] at h
        cases h
        exact absurd rfl hlen
      · rw [slipRecv_plain hmode hc] at h
        cases h
        exact absurd rfl hlen
  | true =>
      by_cases hc : c = endByte
      · rw [hc, slipRecv_closing hwf hmode] at h
        cases h
        exact ⟨⟨hwf.size, Nat.zero_lt_of_lt hwf.room⟩, rfl, rfl⟩
      · rw [slipRecv_inside hwf hmode hc] at h
        cases h
        exact absurd rfl hlen

theorem slipRecv_wf {slip slip' : Slip} {c : Byte} {len : Nat} (hwf : slip.WF)
    (h : slipRecv c slip = .ok (slip', len)) : slip'.WF ∧ slip'.size = slip.size := by
  have hpos : 0 < slip.size := Nat.zero_lt_of_lt hwf.room
  cases hmode : slip.mode with
  | false =>
      by_cases hc : c = endByte
      · rw [hc, slipRecv_opening hmode] at h
        cases h
        exact ⟨⟨hwf.size, hpos⟩, rfl⟩
      · rw [slipRecv_plain hmode hc] at h
        cases h
        exact ⟨⟨hwf.size, hwf.room⟩, rfl⟩
  | true =>
      by_cases hc : c = endByte
      · rw [hc, slipRecv_closing hwf hmode] at h
        cases h
        exact ⟨⟨hwf.size, hpos⟩, rfl⟩
      · rw [slipRecv_inside hwf hmode hc] at h
        cases h
        have hkept : ((rfc1055.decodeSymbol (slip.prev = escByte) c).foldl Slip.keep slip).WF
            ∧ ((rfc1055.decodeSymbol (slip.prev = escByte) c).foldl Slip.keep slip).size
              = slip.size := by
          rw [decodeSymbol_cases]
          split_ifs
          · exact ⟨keep_wf hwf endByte, rfl⟩
          · exact ⟨keep_wf hwf escByte, rfl⟩
          · exact ⟨hwf, rfl⟩
          · exact ⟨keep_wf hwf c, rfl⟩
        exact ⟨⟨hkept.1.size, hkept.1.room⟩, hkept.2⟩

end RiscvTe.Esputil
