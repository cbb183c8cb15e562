import RiscvTe.Isa
import RiscvTe.Monitor

/-!
# The trap path on the hart

`synchronous_exception_handler` as it runs: on the user's stack pointer,
with the compiler's prologue, the C body, the hand-written epilogue and
`mret`. The shadow stack is the object the linker places at the start of
`iram`; the C body reads and writes it there.

The code the compiler generates is not in the sources. `CCode` stands for
it: what it writes into the stack frames below the handler's and which
registers it leaves behind, with the ABI's promises as fields.
-/

namespace RiscvTe

open Memory

/-! ## The object in memory -/

/-- `ORIGIN(iram)`: `.shadow_stack` is the first section there. -/
def shadowStackAddr : Word := 0x40380400

/-- 63 words, a `short` and two bytes of padding. -/
def shadowStackSize : Nat := 256

theorem word_index {off : Nat} (h : off < 252) : off / 4 < maxSize := by
  rw [maxSize]
  omega

/-- Byte `off` of the object, `none` for the padding. -/
def SStack.byteAt (stack : SStack) (off : Nat) : Option Byte :=
  if h : off < 252 then some (byteOf (stack.addresses.get ⟨off / 4, word_index h⟩) (off % 4))
  else if off < 254 then some (byteOf (BitVec.ofInt 16 stack.top) (off - 252))
  else none

def readSStack (m : Mem) (base : Word) : SStack :=
  { addresses := Vector.ofFn fun i => loadWord m (base + BitVec.ofNat 32 (4 * i.val))
    top := (loadHalf m (base + 252)).toInt }

def writeSStack (m : Mem) (base : Word) (stack : SStack) : Mem :=
  fun x => (stack.byteAt (x - base).toNat).getD (m x)

theorem writeSStack_outside {m : Mem} {base x : Word} {stack : SStack}
    (h : ¬ InRegion base shadowStackSize x) : writeSStack m base stack x = m x := by
  have hoff : ¬ (x - base).toNat < 256 := h
  rw [writeSStack, SStack.byteAt, dif_neg (by omega), if_neg (by omega)]
  rfl

theorem writeSStack_congr {m m' : Mem} {base x : Word} {stack : SStack}
    (h : m x = m' x) : writeSStack m base stack x = writeSStack m' base stack x := by
  rw [writeSStack, writeSStack, h]

/-- Equal bytes hold equal objects. -/
theorem readSStack_congr {m m' : Mem} {base : Word}
    (h : ∀ x, InRegion base shadowStackSize x → m x = m' x) :
    readSStack m base = readSStack m' base := by
  have hat : ∀ k : Nat, k < 256 →
      m (base + BitVec.ofNat 32 k) = m' (base + BitVec.ofNat 32 k) := by
    intro k hk
    apply h
    rwa [InRegion, offset_toNat (by omega)]
  have haddresses : (fun i : Fin 63 => loadWord m (base + BitVec.ofNat 32 (4 * i.val)))
      = fun i : Fin 63 => loadWord m' (base + BitVec.ofNat 32 (4 * i.val)) := by
    funext i
    have hi := i.isLt
    rw [loadWord_at, loadWord_at, hat _ (by omega), hat _ (by omega), hat _ (by omega),
      hat _ (by omega)]
  have htop : loadHalf m (base + 252) = loadHalf m' (base + 252) := by
    rw [show (252 : Word) = BitVec.ofNat 32 252 from rfl, loadHalf_at, loadHalf_at,
      hat _ (by omega), hat _ (by omega)]
  simp only [readSStack, maxSize, haddresses, htop]

theorem writeSStack_word {m : Mem} {base : Word} {stack : SStack} {k : Nat} (hk : k < 252) :
    writeSStack m base stack (base + BitVec.ofNat 32 k)
      = byteOf (stack.addresses.get ⟨k / 4, word_index hk⟩) (k % 4) := by
  rw [writeSStack, offset_toNat (by omega), SStack.byteAt, dif_pos hk]
  rfl

theorem writeSStack_top {m : Mem} {base : Word} {stack : SStack} {k : Nat} (hk : k < 2) :
    writeSStack m base stack (base + BitVec.ofNat 32 (252 + k))
      = byteOf (BitVec.ofInt 16 stack.top) k := by
  rw [writeSStack, offset_toNat (by omega), SStack.byteAt, dif_neg (by omega),
    if_pos (by omega), Nat.add_sub_cancel_left]
  rfl

/-- The object reads back as it was written. -/
theorem readSStack_writeSStack {m : Mem} {base : Word} {stack : SStack} (h : stack.WF) :
    readSStack (writeSStack m base stack) base = stack := by
  have hlo := h.lower
  have hup := h.upper
  rw [maxSize] at hup
  have haddresses : (Vector.ofFn fun i : Fin 63 =>
      loadWord (writeSStack m base stack) (base + BitVec.ofNat 32 (4 * i.val)))
        = stack.addresses := by
    apply Vector.ext
    intro i hi
    rw [Vector.getElem_ofFn, loadWord_at, writeSStack_word (by omega),
      writeSStack_word (by omega), writeSStack_word (by omega), writeSStack_word (by omega)]
    simp only [show (4 * i + 3) / 4 = i from by omega, show (4 * i + 3) % 4 = 3 from by omega,
      show (4 * i + 2) / 4 = i from by omega, show (4 * i + 2) % 4 = 2 from by omega,
      show (4 * i + 1) / 4 = i from by omega, show (4 * i + 1) % 4 = 1 from by omega,
      show 4 * i / 4 = i from by omega, show 4 * i % 4 = 0 from by omega, word_of_bytes]
    rfl
  have htop : (loadHalf (writeSStack m base stack) (base + 252)).toInt = stack.top := by
    rw [show (252 : Word) = BitVec.ofNat 32 252 from rfl, loadHalf_at,
      writeSStack_top (k := 1) (by omega), writeSStack_top (k := 0) (by omega), half_of_bytes,
      BitVec.toInt_ofInt]
    exact Int.bmod_eq_of_le_mul_two (by omega) (by omega)
  exact congrArg₂ SStack.mk haddresses htop

/-- Putting back what was read changes nothing. -/
theorem writeSStack_readSStack (m : Mem) (base x : Word) :
    writeSStack m base (readSStack m base) x = m x := by
  obtain ⟨off, hoff32, rfl⟩ : ∃ off, off < 2 ^ 32 ∧ x = base + BitVec.ofNat 32 off :=
    ⟨_, (x - base).isLt, (add_ofNat_sub base x).symm⟩
  by_cases hwords : off < 252
  · have hoff : 4 * (off / 4) + off % 4 = off := by omega
    rw [writeSStack_word hwords, readSStack]
    simp only [Vector.get_ofFn]
    rw [byteOf_loadWord _ _ (by omega), BitVec.add_assoc, ← BitVec.ofNat_add, hoff]
  by_cases htop : off < 254
  · have hoff : 252 + (off - 252) = off := by omega
    rw [← hoff, writeSStack_top (by omega), readSStack]
    simp only [BitVec.ofInt_toInt]
    rw [byteOf_loadHalf _ _ (by omega), BitVec.add_assoc, BitVec.ofNat_add]
    rfl
  · rw [writeSStack, offset_toNat hoff32, SStack.byteAt, dif_neg hwords, if_neg htop]
    rfl

/-! ## The compiled C code -/

/-- Byte stores into stack frames, in order. -/
def spill (m : Mem) (stores : List (Word × Byte)) : Mem :=
  stores.foldl (fun m w => Function.update m w.1 w.2) m

/-- What the compiler makes of the C body of the handler and of the functions
it calls: the bytes they write into their frames before and after the access
to `shadow_stack`, within `depth` bytes below the stack pointer they get, and
the registers they leave. Under the ABI these agree with the registers before
on the callee-saved ones. -/
structure CCode where
  depth : Nat
  before : Hart → List (Word × Byte)
  after : Hart → List (Word × Byte)
  regs : Hart → RegFile
  depthFits : 16 + depth ≤ 2 ^ 32
  beforeInFrames : ∀ h, ∀ w ∈ before h,
    InRegion (h.regs Reg.sp - BitVec.ofNat 32 depth) depth w.1
  afterInFrames : ∀ h, ∀ w ∈ after h,
    InRegion (h.regs Reg.sp - BitVec.ofNat 32 depth) depth w.1
  keepsSaved : ∀ h x, Reg.calleeSaved x = true → regs h x = h.regs x

/-- Compiled code that needs no stack of its own and preserves every register. -/
def frugalCode : CCode :=
  { depth := 0, before := fun _ => [], after := fun _ => [], regs := Hart.regs,
    depthFits := by decide, beforeInFrames := by simp, afterInFrames := by simp,
    keepsSaved := fun _ _ _ => rfl }

def zeroHart : Hart :=
  { regs := zeroRegs, mem := fun _ => 0, csr := fun _ => 0, mode := .machine, pc := 0 }

/-- The compiler's prologue: open a 16-byte frame, save `ra` at `12(sp)`. -/
def prologue : List Instr :=
  [.reg (.addi Reg.sp Reg.sp (-16)), .sw Reg.ra 12 Reg.sp]

/-- The epilogue written by hand at the end of the handler, without `mret`. -/
def epilogue : List Instr :=
  [.lw Reg.ra 12 Reg.sp, .reg (.addi Reg.sp Reg.sp 16),
    .csrr Reg.t0 .mepc, .reg (.addi Reg.t0 Reg.t0 4), .csrw .mepc Reg.t0]

/-- The memory the C body finds at its access to `shadow_stack`. -/
def CCode.entryMem (c : CCode) (h : Hart) : Mem :=
  spill (h.line prologue).mem (c.before (h.line prologue))

/-- The memory the C body leaves, with `shadowStack` written back. -/
def CCode.exitMem (c : CCode) (h : Hart) (shadowStack : SStack) : Mem :=
  spill (writeSStack (c.entryMem h) shadowStackAddr shadowStack) (c.after (h.line prologue))

/-- The hart after the epilogue and `mret`. -/
def CCode.resumed (c : CCode) (h : Hart) (shadowStack : SStack) : Hart :=
  (({ h.line prologue with
        mem := c.exitMem h shadowStack, regs := c.regs (h.line prologue) } : Hart).line
    epilogue).mret

/-- `synchronous_exception_handler`, from its first instruction to the hart
that `mret` leaves, or the reason why there is none. -/
def synchronousExceptionHandler (c : CCode) (h : Hart) : Except Stop Hart := do
  -- the captures come behind the prologue, which has moved `sp` alone
  let mcause := h.csr .mcause
  let mepc := h.csr .mepc
  let a7 := (h.line prologue).regs Reg.a7
  let a6 := (h.line prologue).regs Reg.a6
  let shadowStack ← runHandler (selectHandler mcause) a7 a6 mepc
    (readSStack (c.entryMem h) shadowStackAddr)
  return c.resumed h shadowStack

/-- What the monitor decides in this trap. -/
def CCode.decision (c : CCode) (h : Hart) : Except Stop SStack :=
  runHandler (selectHandler (h.csr .mcause)) (h.regs Reg.a7) (h.regs Reg.a6) (h.csr .mepc)
    (readSStack (c.entryMem h) shadowStackAddr)

theorem handler_eq (c : CCode) (h : Hart) :
    synchronousExceptionHandler c h = (c.decision h).map (c.resumed h) := by
  have ha7 : (h.line prologue).regs Reg.a7 = h.regs Reg.a7 :=
    RegFile.set_other (by decide)
  have ha6 : (h.line prologue).regs Reg.a6 = h.regs Reg.a6 :=
    RegFile.set_other (by decide)
  rw [synchronousExceptionHandler, ha7, ha6, CCode.decision]
  cases runHandler (selectHandler (h.csr .mcause)) (h.regs Reg.a7) (h.regs Reg.a6)
    (h.csr .mepc) (readSStack (c.entryMem h) shadowStackAddr) <;> rfl

theorem handler_ok_iff {c : CCode} {h h' : Hart} :
    synchronousExceptionHandler c h = .ok h'
      ↔ ∃ s, c.decision h = .ok s ∧ h' = c.resumed h s := by
  rw [handler_eq]
  cases c.decision h with
  | error e => simp [Except.map]
  | ok s => simp [Except.map, eq_comm]

theorem handler_error_iff {c : CCode} {h : Hart} {e : Stop} :
    synchronousExceptionHandler c h = .error e ↔ c.decision h = .error e := by
  rw [handler_eq]
  cases c.decision h with
  | error e' => simp [Except.map]
  | ok s => simp [Except.map]

/-! ## The resumed hart, field by field -/

section Resumed

variable (c : CCode) (h : Hart) (s : SStack)

/-- Where the prologue saves `ra`: `12(sp)` of the 16-byte frame. -/
def raSlot (h : Hart) : Word := h.regs Reg.sp + (-16) + 12

theorem prologue_sp : (h.line prologue).regs Reg.sp = h.regs Reg.sp + (-16) :=
  RegFile.set_self (by decide)

theorem prologue_other {x : Reg} (hx : x ≠ Reg.sp) :
    (h.line prologue).regs x = h.regs x :=
  RegFile.set_other hx

theorem prologue_mem :
    (h.line prologue).mem = storeWord h.mem (raSlot h) (h.regs Reg.ra) := by
  simp only [prologue, Hart.line_cons, Hart.line_nil, Instr.exec, RegInstr.exec, raSlot]
  rw [RegFile.set_self (by decide), RegFile.set_other (by decide)]

/-- The registers after the epilogue, for a hart with registers `r`. -/
theorem epilogue_regs (g : Hart) :
    (g.line epilogue).regs
      = (((g.regs.set Reg.ra (loadWord g.mem (g.regs Reg.sp + 12))).set Reg.sp
          (g.regs Reg.sp + 16)).set Reg.t0 (g.csr .mepc)).set Reg.t0 (g.csr .mepc + 4) := by
  simp only [epilogue, Hart.line_cons, Hart.line_nil, Instr.exec, RegInstr.exec]
  rw [RegFile.set_self (by decide : Reg.t0 ≠ 0), RegFile.set_other (by decide : Reg.sp ≠ Reg.ra)]
  rfl

theorem epilogue_csr (g : Hart) :
    (g.line epilogue).csr
      = fun x => if x = .mepc then g.csr .mepc + 4 else g.csr x := by
  simp only [epilogue, Hart.line_cons, Hart.line_nil, Instr.exec, RegInstr.exec,
    Hart.setCsr]
  have ht0 : Reg.t0 ≠ 0 := by decide
  rw [RegFile.set_self ht0, RegFile.set_self ht0]

/-- The stack pointer the C body hands to the epilogue. -/
theorem body_sp : c.regs (h.line prologue) Reg.sp = h.regs Reg.sp + (-16) := by
  rw [c.keepsSaved _ _ (by decide), prologue_sp]

@[simp] theorem resumed_mode : (c.resumed h s).mode = mpp (h.csr .mstatus) := by
  simp only [CCode.resumed, Hart.mret, epilogue_csr]
  rfl

@[simp] theorem resumed_pc : (c.resumed h s).pc = h.csr .mepc + 4 := by
  simp only [CCode.resumed, Hart.mret, epilogue_csr]
  rfl

theorem resumed_csr {x : Csr} (hepc : x ≠ .mepc) (hstatus : x ≠ .mstatus) :
    (c.resumed h s).csr x = h.csr x := by
  simp only [CCode.resumed, Hart.mret, Hart.setCsr, epilogue_csr, if_neg hepc, if_neg hstatus]
  rfl

theorem resumed_t0 : (c.resumed h s).regs Reg.t0 = h.csr .mepc + 4 := by
  simp only [CCode.resumed, Hart.mret, Hart.setCsr, epilogue_regs]
  exact RegFile.set_self (by decide)

theorem resumed_sp : (c.resumed h s).regs Reg.sp = h.regs Reg.sp := by
  simp only [CCode.resumed, Hart.mret, Hart.setCsr, epilogue_regs]
  rw [RegFile.set_other (by decide), RegFile.set_other (by decide),
    RegFile.set_self (by decide), body_sp, BitVec.add_assoc]
  simp

/-- `ra` comes back from its slot in the frame. -/
theorem resumed_ra :
    (c.resumed h s).regs Reg.ra = loadWord (c.exitMem h s) (raSlot h) := by
  simp only [CCode.resumed, Hart.mret, Hart.setCsr, epilogue_regs]
  rw [RegFile.set_other (by decide), RegFile.set_other (by decide),
    RegFile.set_other (by decide), RegFile.set_self (by decide), body_sp, raSlot]

/-- Every other register is what the C body left in it. -/
theorem resumed_other {x : Reg} (hra : x ≠ Reg.ra) (hsp : x ≠ Reg.sp) (ht0 : x ≠ Reg.t0) :
    (c.resumed h s).regs x = c.regs (h.line prologue) x := by
  simp only [CCode.resumed, Hart.mret, Hart.setCsr, epilogue_regs]
  rw [RegFile.set_other ht0, RegFile.set_other ht0, RegFile.set_other hsp,
    RegFile.set_other hra]

end Resumed

/-! ## What lies outside the frames -/

theorem spill_other {m : Mem} {stores : List (Word × Byte)} {x : Word}
    (h : ∀ w ∈ stores, w.1 ≠ x) : spill m stores x = m x := by
  induction stores generalizing m with
  | nil => rfl
  | cons w stores ih =>
      rw [spill, List.foldl_cons]
      refine (ih (fun w' hw' => h w' (by simp [hw']))).trans ?_
      rw [Function.update_of_ne (h w (by simp)).symm]

/-- The stack the trap uses: the handler's 16 bytes and `depth` below. -/
def InFrames (c : CCode) (h : Hart) (x : Word) : Prop :=
  InRegion (h.regs Reg.sp - BitVec.ofNat 32 (16 + c.depth)) (16 + c.depth) x

theorem raSlot_inFrames {c : CCode} {h : Hart} {x : Word} (hx : InRegion (raSlot h) 4 x) :
    InFrames c h x := by
  have hslot : raSlot h = h.regs Reg.sp - BitVec.ofNat 32 (16 + c.depth)
      + BitVec.ofNat 32 (12 + c.depth) := by
    rw [raSlot, BitVec.ofNat_add, BitVec.ofNat_add]
    generalize BitVec.ofNat 32 c.depth = d
    generalize h.regs Reg.sp = sp
    bv_omega
  rw [hslot] at hx
  exact hx.of_sub (by omega) c.depthFits

theorem callee_inFrames {c : CCode} {h : Hart} {x : Word}
    (hx : InRegion ((h.line prologue).regs Reg.sp - BitVec.ofNat 32 c.depth) c.depth x) :
    InFrames c h x := by
  have hbase : (h.line prologue).regs Reg.sp - BitVec.ofNat 32 c.depth
      = h.regs Reg.sp - BitVec.ofNat 32 (16 + c.depth) + BitVec.ofNat 32 0 := by
    rw [prologue_sp, BitVec.ofNat_add]
    generalize BitVec.ofNat 32 c.depth = d
    generalize h.regs Reg.sp = sp
    bv_omega
  rw [hbase] at hx
  exact hx.of_sub (by omega) c.depthFits

/-- On entry to the C body only frame bytes have changed. -/
theorem entryMem_other {c : CCode} {h : Hart} {x : Word} (hx : ¬ InFrames c h x) :
    c.entryMem h x = h.mem x := by
  rw [CCode.entryMem, spill_other, prologue_mem, storeWord]
  · exact storeBytes_outside (by simp [wordBytes])
      (fun hin => hx (raSlot_inFrames hin))
  · rintro w hw rfl
    exact hx (callee_inFrames (c.beforeInFrames _ w hw))

/-- The C body's exit changes the object and frame bytes. -/
theorem exitMem_other {c : CCode} {h : Hart} {s : SStack} {x : Word}
    (hx : ¬ InFrames c h x) : c.exitMem h s x = writeSStack h.mem shadowStackAddr s x := by
  rw [CCode.exitMem, spill_other]
  · exact writeSStack_congr (entryMem_other hx)
  · rintro w hw rfl
    exact hx (callee_inFrames (c.afterInFrames _ w hw))

end RiscvTe
