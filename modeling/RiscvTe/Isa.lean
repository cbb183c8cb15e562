import RiscvTe.Lib.Memory

/-!
# The part of the RISC-V hart the sources rely on

Registers, the assembly lines that occur in the C sources and in the
instrumenter's templates, trap entry and `mret`. Register lines act on the
register file alone (`RegInstr`); the lines that also touch memory or a CSR
act on a `Hart`. Blocks of lines are folds, so that what a block does is a
function of the state before it.
-/

namespace RiscvTe

open Memory

abbrev Reg := Fin 32

instance Reg.neZero : NeZero 32 := ⟨by decide⟩

namespace Reg

def ra : Reg := 1
def sp : Reg := 2
def gp : Reg := 3
def tp : Reg := 4
def t0 : Reg := 5
def t1 : Reg := 6
def a6 : Reg := 16
def a7 : Reg := 17

/-- The registers a C function has to hand back unchanged under the ILP32
ABI: `sp`, `s0`..`s11`, and `gp` and `tp`, which no function allocates. -/
def calleeSaved (r : Reg) : Bool :=
  r == sp || r == gp || r == tp || r == 8 || r == 9 || (18 ≤ r && r ≤ 27)

end Reg

/-- The general-purpose registers; `x0` reads as zero. -/
@[ext]
structure RegFile where
  val : Reg → Word
  zero : val 0 = 0

instance : CoeFun RegFile (fun _ => Reg → Word) := ⟨RegFile.val⟩

def zeroRegs : RegFile := { val := fun _ => 0, zero := rfl }

/-- Writing `x0` has no effect. -/
def RegFile.set (r : RegFile) (rd : Reg) (v : Word) : RegFile :=
  { val := fun x => if x = rd ∧ x ≠ 0 then v else r x
    zero := by simp [r.zero] }

theorem RegFile.set_self {r : RegFile} {rd : Reg} {v : Word} (h : rd ≠ 0) :
    (r.set rd v) rd = v := by
  simp [RegFile.set, h]

theorem RegFile.set_other {r : RegFile} {rd x : Reg} {v : Word} (h : x ≠ rd) :
    (r.set rd v) x = r x := by
  simp [RegFile.set, h]

/-- Lines that read and write registers only. `la` and `li` both load a
constant. -/
inductive RegInstr where
  | li (rd : Reg) (imm : Word)
  | mv (rd rs : Reg)
  | addi (rd rs : Reg) (imm : Word)
  | and (rd rs1 rs2 : Reg)
  | ori (rd rs : Reg) (imm : Word)
  | srli (rd rs : Reg) (shamt : Nat)
  deriving DecidableEq, Repr

def RegInstr.exec (i : RegInstr) (r : RegFile) : RegFile :=
  match i with
  | .li rd imm => r.set rd imm
  | .mv rd rs => r.set rd (r rs)
  | .addi rd rs imm => r.set rd (r rs + imm)
  | .and rd rs1 rs2 => r.set rd (r rs1 &&& r rs2)
  | .ori rd rs imm => r.set rd (r rs ||| imm)
  | .srli rd rs shamt => r.set rd (r rs >>> shamt)

/-- A straight line of register instructions. -/
def RegFile.line (r : RegFile) (block : List RegInstr) : RegFile :=
  block.foldl (fun r i => i.exec r) r

@[simp] theorem RegFile.line_nil (r : RegFile) : r.line [] = r := rfl

@[simp] theorem RegFile.line_cons (r : RegFile) (i : RegInstr) (block : List RegInstr) :
    r.line (i :: block) = (i.exec r).line block := rfl

/-- The destination of a `jalr`/`jr` through `target`: bit 0 is cleared. -/
def jumpTarget (target : Word) : Word := target &&& ~~~1

theorem even_iff {a : Word} : a % 2 = 0 ↔ a.toNat % 2 = 0 := by
  rw [← BitVec.toNat_inj]
  rfl

theorem bit_zero_of_even {a : Word} (h : a % 2 = 0) : a[0] = false := by
  rw [← BitVec.getLsbD_eq_getElem, BitVec.getLsbD, Nat.testBit_zero, even_iff.mp h]
  rfl

theorem one_high {i : Nat} (hi : i < 32) (h : 1 ≤ i) : (1 : Word)[i] = false := by
  rw [show (1 : Word) = 1#32 from rfl, BitVec.getElem_one, decide_eq_false_iff_not]
  omega

theorem jumpTarget_even {a : Word} (h : a % 2 = 0) : jumpTarget a = a := by
  ext i hi
  rw [jumpTarget, BitVec.getElem_and, BitVec.getElem_not]
  rcases Nat.eq_zero_or_pos i with rfl | hpos
  · rw [bit_zero_of_even h, Bool.false_and]
  · rw [one_high hi hpos, Bool.not_false, Bool.and_true]

/-! ## The hart: memory, CSRs and privilege -/

/-- The two privilege modes of the ESP32-C3. -/
inductive Mode where
  | user
  | machine
  deriving DecidableEq, Repr

inductive Csr where
  | mtvec
  | mstatus
  | mepc
  | mcause
  | pmpaddr0
  | pmpaddr1
  | pmpaddr2
  | pmpcfg0
  deriving DecidableEq, Repr

structure Hart where
  regs : RegFile
  mem : Mem
  csr : Csr → Word
  mode : Mode
  pc : Word

/-- The assembly lines of the C sources, the prologue included. -/
inductive Instr where
  | reg (i : RegInstr)
  | lw (rd : Reg) (offset : Word) (rs : Reg)
  | sw (rs2 : Reg) (offset : Word) (rs1 : Reg)
  | csrr (rd : Reg) (csr : Csr)
  | csrw (csr : Csr) (rs : Reg)
  deriving DecidableEq, Repr

def Hart.setCsr (h : Hart) (c : Csr) (v : Word) : Hart :=
  { h with csr := fun x => if x = c then v else h.csr x }

def Instr.exec (i : Instr) (h : Hart) : Hart :=
  match i with
  | .reg i => { h with regs := i.exec h.regs }
  | .lw rd offset rs => { h with regs := h.regs.set rd (loadWord h.mem (h.regs rs + offset)) }
  | .sw rs2 offset rs1 => { h with mem := storeWord h.mem (h.regs rs1 + offset) (h.regs rs2) }
  | .csrr rd csr => { h with regs := h.regs.set rd (h.csr csr) }
  | .csrw csr rs => h.setCsr csr (h.regs rs)

/-- A straight line of instructions. -/
def Hart.line (h : Hart) (block : List Instr) : Hart :=
  block.foldl (fun h i => i.exec h) h

@[simp] theorem Hart.line_nil (h : Hart) : h.line [] = h := rfl

@[simp] theorem Hart.line_cons (h : Hart) (i : Instr) (block : List Instr) :
    h.line (i :: block) = (i.exec h).line block := rfl

/-! ## `mstatus`, trap entry and `mret` -/

/-- The `MPP` encoding of a mode. -/
def Mode.bits : Mode → Word
  | .user => 0
  | .machine => 3

/-- The mode held in `mstatus.MPP` (bits 12:11). -/
def mpp (mstatus : Word) : Mode :=
  if (mstatus >>> 11) &&& 3 = 3 then .machine else .user

def setMpp (mstatus : Word) (mode : Mode) : Word :=
  (mstatus &&& 0xFFFFE7FF) ||| (mode.bits <<< 11)

/-- Trap entry: `MPIE := MIE`, `MIE := 0`, `MPP := mode`. -/
def trapMstatus (mstatus : Word) (mode : Mode) : Word :=
  let mie := (mstatus >>> 3) &&& 1
  setMpp ((mstatus &&& ~~~(0x88 : Word)) ||| (mie <<< 7)) mode

/-- `mret`: `MIE := MPIE`, `MPIE := 1`, `MPP := U`. -/
def mretMstatus (mstatus : Word) : Word :=
  let mpie := (mstatus >>> 7) &&& 1
  setMpp ((mstatus &&& ~~~(0x88 : Word)) ||| (mpie <<< 3) ||| 0x80) .user

/-- What a trap sets: the return address, the cause, the status and the
mode. Where it continues is the business of `mtvec`. -/
def Hart.takeTrap (h : Hart) (mcause : Word) : Hart :=
  { ((h.setCsr .mepc h.pc).setCsr .mcause mcause).setCsr .mstatus
      (trapMstatus (h.csr .mstatus) h.mode) with mode := .machine }

/-- Vectored mode: an interrupt with exception code `c` enters at
`base + 4 * c`, a synchronous exception at `base`. -/
def vectorTarget (mtvec mcause : Word) : Word :=
  let base := mtvec &&& ~~~(3 : Word)
  if mcause &&& 0x80000000 ≠ 0 ∧ mtvec &&& 1 = 1 then base + 4 * (mcause &&& 0x7FFFFFFF)
  else base

def Hart.mret (h : Hart) : Hart :=
  { h.setCsr .mstatus (mretMstatus (h.csr .mstatus)) with
      mode := mpp (h.csr .mstatus), pc := h.csr .mepc }

theorem three_high {i : Nat} (hi : i < 32) (h : 2 ≤ i) : (3 : Word)[i] = false := by
  have hlt : 3 < 2 ^ i := Nat.lt_of_lt_of_le (by decide : 3 < 2 ^ 2)
    (Nat.pow_le_pow_right (by decide) h)
  rw [← BitVec.getLsbD_eq_getElem, show (3 : Word) = BitVec.ofNat 32 3 from rfl,
    BitVec.getLsbD_ofNat, Nat.testBit_lt_two_pow hlt, Bool.and_false]

theorem mpp_setMpp (mstatus : Word) (mode : Mode) : mpp (setMpp mstatus mode) = mode := by
  have hbits : (setMpp mstatus mode >>> 11) &&& 3 = mode.bits := by
    ext i hi
    have h2 : i = 0 ∨ i = 1 ∨ 2 ≤ i := by omega
    rcases h2 with rfl | rfl | h2
    · cases mode <;> simp [setMpp, Mode.bits]
    · cases mode <;> simp [setMpp, Mode.bits]
    · rw [BitVec.getElem_and, three_high hi h2, Bool.and_false]
      cases mode
      · simp [Mode.bits]
      · exact (three_high hi h2).symm
  rw [mpp, hbits]
  cases mode <;> decide

end RiscvTe
