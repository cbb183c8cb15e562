import RiscvTe.Lib.EventRun
import RiscvTe.Lib.Pmp
import RiscvTe.TrapImage

/-!
# Isolation of the shadow stack

`main` programs three PMP entries around `shadow_stack`; user code stores
wherever they let it, and traps into the monitor with any registers. The
object should change through the monitor's `push` and `pop` alone.

It does in every run that keeps to `Harmless` steps. The ways to leave them
are defects: the entries leave the object writable from byte 24 on, and the
handlers' code and data with it; and the handler saves `ra` (and its callees
their frames) on whatever stack pointer the user left.
-/

namespace RiscvTe

open Memory EventRun

/-! ## The PMP set-up of `main` -/

/-- The PMP lines of `main`, for `shadow_stack` at `base`. -/
def pmpSetup (base : Word) : List Instr :=
  [.reg (.li Reg.t0 base), .reg (.srli Reg.t0 Reg.t0 2), .csrw .pmpaddr0 Reg.t0,
    -- meant as a NAPOT block of 256 bytes
    .reg (.ori Reg.t0 Reg.t0 6), .csrw .pmpaddr1 Reg.t0,
    .reg (.li Reg.t0 0x90000000), .reg (.srli Reg.t0 Reg.t0 2), .csrw .pmpaddr2 Reg.t0,
    .reg (.li Reg.t0 0x070F1B0F), .csrw .pmpcfg0 Reg.t0]

/-- The entries the hardware reads from the CSRs; the fourth, `pmp3cfg`, is
off, and so are those of the other configuration registers after reset. -/
def pmpEntries (csr : Csr → Word) : List Pmp.Entry :=
  [⟨byteOf (csr .pmpcfg0) 0, csr .pmpaddr0⟩, ⟨byteOf (csr .pmpcfg0) 1, csr .pmpaddr1⟩,
    ⟨byteOf (csr .pmpcfg0) 2, csr .pmpaddr2⟩]

/-- The entries `main` leaves. -/
def mainEntries (base : Word) : List Pmp.Entry :=
  [⟨0x0F, base >>> 2⟩, ⟨0x1B, (base >>> 2) ||| 6⟩, ⟨0x0F, (0x90000000 : Word) >>> 2⟩]

theorem pmpSetup_csr (h : Hart) (base : Word) (x : Csr) :
    (h.line (pmpSetup base)).csr x
      = match x with
        | .pmpaddr0 => base >>> 2
        | .pmpaddr1 => (base >>> 2) ||| 6
        | .pmpaddr2 => (0x90000000 : Word) >>> 2
        | .pmpcfg0 => 0x070F1B0F
        | x => h.csr x := by
  cases x <;> rfl

theorem pmpSetup_entries (h : Hart) (base : Word) :
    pmpEntries (h.line (pmpSetup base)).csr = mainEntries base := by
  simp only [pmpEntries, pmpSetup_csr]
  rfl

/-- Where the entries leave `shadow_stack` writable: `|6` on the shifted
address encodes a NAPOT block of 8 bytes at offset 24, and the TOR entry
behind it starts there, too. -/
def writableFrom : Nat := 24

/-- A store that the entries let through meets the object only from offset
`writableFrom` on. -/
theorem allowed_store_byte {a : Word} {n i : Nat}
    (h : Pmp.allows .write 0 (mainEntries shadowStackAddr) a.toNat n = true) (hi : i < n)
    (hin : InRegion shadowStackAddr shadowStackSize (a + BitVec.ofNat 32 i)) :
    n ≤ 2 ^ 32 ∧ writableFrom ≤ (a + BitVec.ofNat 32 i - shadowStackAddr).toNat := by
  rw [InRegion, BitVec.toNat_sub, BitVec.toNat_add, BitVec.toNat_ofNat] at hin
  rw [BitVec.toNat_sub, BitVec.toNat_add, BitVec.toNat_ofNat]
  have hbase : shadowStackAddr.toNat = 0x40380400 := rfl
  rw [hbase] at hin ⊢
  rw [shadowStackSize] at hin
  rw [writableFrom]
  -- the first entry ends where the object starts
  rcases Pmp.allows_covered h with ⟨_, hhi, _⟩ | ⟨_, h⟩
  · have hhi : a.toNat + n ≤ 0x40380400 := hhi
    omega
  -- the second is the block of 8 bytes, the third everything from it on
  rcases Pmp.allows_covered h with ⟨hlo, hhi, _⟩ | ⟨_, h⟩
  · have hlo : 0x40380418 ≤ a.toNat := hlo
    have hhi : a.toNat + n ≤ 0x40380420 := hhi
    omega
  rcases Pmp.allows_covered h with ⟨hlo, hhi, _⟩ | ⟨_, h⟩
  · have hlo : 0x40380418 ≤ a.toNat := hlo
    have hhi : a.toNat + n ≤ 0x90000000 := hhi
    omega
  · cases h

/-- And there every single byte can be written. -/
theorem byte_allowed {a : Word} (hin : InRegion shadowStackAddr shadowStackSize a)
    (hfrom : writableFrom ≤ (a - shadowStackAddr).toNat) :
    Pmp.allows .write 0 (mainEntries shadowStackAddr) a.toNat 1 = true := by
  have hbase : shadowStackAddr.toNat = 0x40380400 := rfl
  rw [InRegion, BitVec.toNat_sub, hbase, shadowStackSize] at hin
  rw [BitVec.toNat_sub, hbase, writableFrom] at hfrom
  rw [mainEntries, Pmp.allows_skip]
  · by_cases h1 : a.toNat < 0x40380420
    · refine (Pmp.allows_here (by decide) ?_ ?_).trans (by decide)
      · show 0x40380418 ≤ a.toNat
        omega
      · show a.toNat + 1 ≤ 0x40380420
        omega
    · rw [Pmp.allows_skip]
      · refine (Pmp.allows_here (by decide) ?_ ?_).trans (by decide)
        · show 0x40380418 ≤ a.toNat
          omega
        · show a.toNat + 1 ≤ 0x90000000
          omega
      · rintro j hj ⟨_, hhi⟩
        have hhi : a.toNat + j < 0x40380420 := hhi
        omega
  · rintro j hj ⟨_, hhi⟩
    have hhi : a.toNat + j < 0x40380400 := hhi
    omega

/-! ## Runs of user stores and traps -/

/-- The exceptions in the table of causes but the environment call from user
mode. -/
def Fault : Type := { code : Fin 16 // code ≠ 8 }

def Fault.cause (fault : Fault) : Word := BitVec.ofNat 32 fault.val

/-- What user mode does: a store of some bytes, an `ecall` at `pc`, or a fault
there, such as the one a refused store raises. Addresses and registers are
arbitrary, and so is the hart that overwritten handlers would leave. -/
inductive UserEvent where
  | store (a : Word) (bytes : List Byte)
  | ecall (regs : RegFile) (pc : Word) (patched : Hart)
  | fault (exc : Fault) (regs : RegFile) (pc : Word) (patched : Hart)

/-- The memory image with `shadow_stack` as the sources initialise it, after
`main` has run its PMP lines. -/
def boot (h : Hart) : Hart :=
  ({ h with mem := writeSStack h.mem shadowStackAddr initialShadowStack } : Hart).line
    (pmpSetup shadowStackAddr)

/-- The hart at the handler's first instruction after an exception at `pc` in
user mode. -/
def Hart.userTrap (h : Hart) (mcause : Word) (regs : RegFile) (pc : Word) : Hart :=
  ({ h with regs := regs, pc := pc, mode := .user } : Hart).takeTrap mcause

/-- An `ecall` from user mode has exception code 8. -/
def Hart.ecallTrap (h : Hart) (regs : RegFile) (pc : Word) : Hart := h.userTrap 8 regs pc

def userStep (img : TrapImage) (h : Hart) : UserEvent → Except Stop Hart
  | .store a bytes =>
      if Pmp.allows .write 0 (pmpEntries h.csr) a.toNat bytes.length then
        .ok { h with mem := storeBytes h.mem a bytes }
      else .ok h
  | .ecall regs pc patched => img.handle (h.ecallTrap regs pc) patched
  | .fault exc regs pc patched => img.handle (h.userTrap exc.cause regs pc) patched

/-- Isolation of one step: an ecall changes the bytes of the object as the
handler's push or pop does and not otherwise, a store or a fault leaves every
one of them alone. -/
def Isolated (img : TrapImage) (h : Hart) (e : UserEvent) : Prop :=
  ∀ h', userStep img h e = .ok h' →
    match e with
    | .ecall regs pc _ =>
        ∃ s, esrHandlerUModeEcall (regs Reg.a7) (regs Reg.a6) pc
            (readSStack h.mem shadowStackAddr) = .ok s
          ∧ ∀ x, InRegion shadowStackAddr shadowStackSize x →
              h'.mem x = writeSStack h.mem shadowStackAddr s x
    | _ => ∀ x, InRegion shadowStackAddr shadowStackSize x → h'.mem x = h.mem x

/-- A store puts nothing new into the object behind its first 24 bytes. -/
def ObjectKept (h : Hart) (a : Word) (bytes : List Byte) : Prop :=
  ∀ i, (hi : i < bytes.length) →
    InRegion shadowStackAddr shadowStackSize (a + BitVec.ofNat 32 i) →
    writableFrom ≤ (a + BitVec.ofNat 32 i - shadowStackAddr).toNat →
    h.mem (a + BitVec.ofNat 32 i) = bytes[i]

/-- A store puts nothing new into the handlers' code and data. -/
def ImageKept (img : TrapImage) (a : Word) (bytes : List Byte) : Prop :=
  ∀ p ∈ img.bytes, ∀ i, (hi : i < bytes.length) → p.1 = a + BitVec.ofNat 32 i → p.2 = bytes[i]

/-- The steps the defects do not show in: stores that leave the object, the
code and the data as they are, and traps with the stack pointer such that the
handler's frames meet none of them. -/
def Harmless (img : TrapImage) (h : Hart) : UserEvent → Prop
  | .store a bytes => ObjectKept h a bytes ∧ ImageKept img a bytes
  | .ecall regs pc _ => img.StackApart (h.ecallTrap regs pc)
  | .fault exc regs pc _ => img.StackApart (h.userTrap exc.cause regs pc)

/-! ## One step -/

/-- The entries of `main` are in force, and the handlers as they were loaded. -/
structure Guarded (img : TrapImage) (h : Hart) : Prop where
  entries : pmpEntries h.csr = mainEntries shadowStackAddr
  intact : img.intact h.mem = true

theorem boot_guarded {img : TrapImage} {h : Hart} (hloaded : img.intact h.mem = true) :
    Guarded img (boot h) where
  entries := pmpSetup_entries _ _
  intact := TrapImage.intact_of_same (fun p hp => writeSStack_outside (img.apart p hp)) hloaded

theorem boot_stack (h : Hart) :
    readSStack (boot h).mem shadowStackAddr = initialShadowStack :=
  readSStack_writeSStack initialShadowStack_wf

section OneStep

variable {img : TrapImage} {h h' : Hart} {regs : RegFile} {mcause pc : Word}

/-- Frames off the object do not change what the monitor reads. -/
theorem userTrap_decision (hoff : img.handler.framesOff (h.userTrap mcause regs pc) = true) :
    img.handler.decision (h.userTrap mcause regs pc)
      = runHandler (selectHandler mcause) (regs Reg.a7) (regs Reg.a6) pc
          (readSStack h.mem shadowStackAddr) := by
  have hread : readSStack (img.handler.entryMem (h.userTrap mcause regs pc)) shadowStackAddr
      = readSStack h.mem shadowStackAddr := by
    apply readSStack_congr
    intro x hx
    exact entryMem_other (framesOff_iff.mp hoff x hx)
  rw [CCode.decision, hread]
  rfl

/-- Nor do they change what the monitor has written. -/
theorem userTrap_object (hoff : img.handler.framesOff (h.userTrap mcause regs pc) = true)
    (s : SStack) {x : Word} (hx : InRegion shadowStackAddr shadowStackSize x) :
    (img.handler.resumed (h.userTrap mcause regs pc) s).mem x
      = writeSStack h.mem shadowStackAddr s x :=
  exitMem_other (framesOff_iff.mp hoff x hx)

/-- The trap path writes no PMP CSR and leaves the handlers alone. -/
theorem resumed_guarded (hg : Guarded img h)
    (hstack : img.StackApart (h.userTrap mcause regs pc)) (s : SStack) :
    Guarded img (img.handler.resumed (h.userTrap mcause regs pc) s) := by
  constructor
  · rw [← hg.entries]
    simp only [pmpEntries]
    rw [resumed_csr _ _ _ (by decide) (by decide), resumed_csr _ _ _ (by decide) (by decide),
      resumed_csr _ _ _ (by decide) (by decide), resumed_csr _ _ _ (by decide) (by decide)]
    rfl
  · exact TrapImage.resumed_intact s hg.intact hstack.apart

/-- What a trap with its stack apart does. -/
theorem userTrap_handle (hg : Guarded img h)
    (hstack : img.StackApart (h.userTrap mcause regs pc)) {patched : Hart} :
    img.handle (h.userTrap mcause regs pc) patched = .ok h'
      ↔ ∃ s, runHandler (selectHandler mcause) (regs Reg.a7) (regs Reg.a6) pc
            (readSStack h.mem shadowStackAddr) = .ok s
          ∧ h' = img.handler.resumed (h.userTrap mcause regs pc) s := by
  have hintact : img.intact (h.userTrap mcause regs pc).mem = true := hg.intact
  rw [hstack.handle_eq hintact, handler_ok_iff, userTrap_decision hstack.off]

theorem userTrap_guarded (hg : Guarded img h)
    (hstack : img.StackApart (h.userTrap mcause regs pc)) {patched : Hart}
    (hstep : img.handle (h.userTrap mcause regs pc) patched = .ok h') : Guarded img h' := by
  obtain ⟨s, _, rfl⟩ := (userTrap_handle hg hstack).mp hstep
  exact resumed_guarded hg hstack s

/-- No fault is answered by the ecall handler. -/
theorem fault_run (fault : Fault) (a7 a6 mepc : Word) (s : SStack) :
    runHandler (selectHandler fault.cause) a7 a6 mepc s = .ok s := by
  have hselect : ∀ code : Fin 16, code ≠ 8 →
      selectHandler (BitVec.ofNat 32 code.val) ≠ .esrHandlerUModeEcall := by decide
  have hne : selectHandler fault.cause ≠ .esrHandlerUModeEcall :=
    hselect fault.val fault.property
  cases hcause : selectHandler fault.cause with
  | esrHandlerUModeEcall => exact absurd hcause hne
  | _ => rfl

/-- The bytes of a store that land somewhere, or else what was there. -/
theorem storeBytes_cases (m : Mem) (a : Word) {bytes : List Byte}
    (hlen : bytes.length ≤ 2 ^ 32) (x : Word) :
    (∃ i, ∃ hi : i < bytes.length, x = a + BitVec.ofNat 32 i
        ∧ storeBytes m a bytes x = bytes[i])
      ∨ storeBytes m a bytes x = m x := by
  by_cases hhit : ∃ i, i < bytes.length ∧ x = a + BitVec.ofNat 32 i
  · obtain ⟨i, hi, rfl⟩ := hhit
    exact .inl ⟨i, hi, rfl, storeBytes_at hlen hi⟩
  · refine .inr (storeBytes_other ?_)
    intro i hi heq
    exact hhit ⟨i, hi, heq⟩

/-- The entries let no store through that goes around the address space. -/
theorem allowed_length {a : Word} {n : Nat}
    (h : Pmp.allows .write 0 (mainEntries shadowStackAddr) a.toNat n = true) : n ≤ 2 ^ 32 := by
  rcases Pmp.allows_covered h with ⟨_, hhi, _⟩ | ⟨_, h⟩
  · have hhi : a.toNat + n ≤ 0x40380400 := hhi
    omega
  rcases Pmp.allows_covered h with ⟨_, hhi, _⟩ | ⟨_, h⟩
  · have hhi : a.toNat + n ≤ 0x40380420 := hhi
    omega
  rcases Pmp.allows_covered h with ⟨_, hhi, _⟩ | ⟨_, h⟩
  · have hhi : a.toNat + n ≤ 0x90000000 := hhi
    omega
  · cases h

theorem store_isolated {a : Word} {bytes : List Byte}
    (hpmp : pmpEntries h.csr = mainEntries shadowStackAddr) (hkept : ObjectKept h a bytes) :
    Isolated img h (.store a bytes) := by
  intro h' hstep x hx
  rw [userStep, hpmp] at hstep
  split at hstep
  · rename_i hallowed
    cases hstep
    show storeBytes h.mem a bytes x = h.mem x
    rcases storeBytes_cases h.mem a (allowed_length hallowed) x with
      ⟨i, hi, rfl, hstored⟩ | hother
    · obtain ⟨_, hfrom⟩ := allowed_store_byte hallowed hi hx
      rw [hstored, hkept i hi hx hfrom]
    · exact hother
  · cases hstep
    rfl

theorem store_guarded {a : Word} {bytes : List Byte} (hg : Guarded img h)
    (hkept : ImageKept img a bytes) (hstep : userStep img h (.store a bytes) = .ok h') :
    Guarded img h' := by
  rw [userStep, hg.entries] at hstep
  split at hstep
  · rename_i hallowed
    cases hstep
    refine ⟨hg.entries, TrapImage.intact_of_same ?_ hg.intact⟩
    intro p hp
    show storeBytes h.mem a bytes p.1 = h.mem p.1
    rcases storeBytes_cases h.mem a (allowed_length hallowed) p.1 with
      ⟨i, hi, hat, hstored⟩ | hother
    · have hloaded : h.mem p.1 = p.2 := by
        simpa using List.all_eq_true.mp hg.intact p hp
      rw [hstored, hloaded, hkept p hp i hi hat]
    · exact hother
  · cases hstep
    exact hg

theorem ecall_isolated {patched : Hart} (hg : Guarded img h)
    (hharmless : Harmless img h (.ecall regs pc patched)) :
    Isolated img h (.ecall regs pc patched) := by
  intro h' hstep
  have hstack : img.StackApart (h.userTrap 8 regs pc) := hharmless
  obtain ⟨s, hrun, rfl⟩ := (userTrap_handle hg hstack).mp hstep
  have hselect : selectHandler 8 = .esrHandlerUModeEcall := by decide
  rw [hselect] at hrun
  exact ⟨s, hrun, fun x hx => userTrap_object hstack.off s hx⟩

theorem fault_isolated {exc : Fault} {patched : Hart} (hg : Guarded img h)
    (hharmless : Harmless img h (.fault exc regs pc patched)) :
    Isolated img h (.fault exc regs pc patched) := by
  intro h' hstep x hx
  have hstack : img.StackApart (h.userTrap exc.cause regs pc) := hharmless
  obtain ⟨s, hrun, rfl⟩ := (userTrap_handle hg hstack).mp hstep
  obtain rfl := Except.ok.inj ((fault_run exc _ _ _ _).symm.trans hrun)
  exact (userTrap_object hstack.off _ hx).trans (writeSStack_readSStack _ _ x)

theorem harmless_isolated {e : UserEvent} (hg : Guarded img h) (he : Harmless img h e) :
    Isolated img h e := by
  cases e with
  | store a bytes => exact store_isolated hg.entries he.1
  | ecall regs pc patched => exact ecall_isolated hg he
  | fault exc regs pc patched => exact fault_isolated hg he

theorem harmless_guarded {e : UserEvent} (hg : Guarded img h) (he : Harmless img h e)
    (hstep : userStep img h e = .ok h') : Guarded img h' := by
  cases e with
  | store a bytes => exact store_guarded hg he.2 hstep
  | ecall regs pc patched => exact userTrap_guarded hg he hstep
  | fault exc regs pc patched => exact userTrap_guarded hg he hstep

/-- For stores of single bytes the condition on the object is exact. -/
theorem byte_store_kept {a : Word} {v : Byte}
    (hpmp : pmpEntries h.csr = mainEntries shadowStackAddr)
    (hisolated : Isolated img h (.store a [v])) : ObjectKept h a [v] := by
  intro i hi hin hfrom
  have hi0 : i = 0 := by simpa using hi
  subst hi0
  rw [show a + BitVec.ofNat 32 0 = a from by simp] at hin hfrom ⊢
  have hstep : userStep img h (.store a [v]) = .ok { h with mem := storeBytes h.mem a [v] } := by
    rw [userStep, hpmp]
    exact if_pos (byte_allowed hin hfrom)
  have hsame := hisolated _ hstep a hin
  rw [← hsame]
  simp [storeBytes]

end OneStep

/-! ## Whole runs -/

/-- **Isolation, as far as the steps are harmless.** For every linked image
and every run of user stores, ecalls and faults: if all its steps are
harmless, the bytes of `shadow_stack` change only through the handler's push
and pop; and in every state such a run reaches, a store of a byte changes
them exactly if it puts something new behind the first 24. -/
theorem shadow_stack_isolation (img : TrapImage) (h : Hart) (t : List UserEvent)
    (hloaded : img.intact h.mem = true)
    (hharmless : Along (userStep img) (boot h) (Harmless img) t) :
    Along (userStep img) (boot h) (Isolated img) t
      ∧ ∀ g, run (userStep img) (boot h) t = .ok g →
          ∀ a v, Isolated img g (.store a [v]) ↔ ObjectKept g a [v] := by
  have hstep : ∀ g e g', Guarded img g → Harmless img g e → userStep img g e = .ok g' →
      Guarded img g' := fun _ _ _ hg he hrun => harmless_guarded hg he hrun
  constructor
  · exact Along.imp (boot_guarded hloaded) hstep (fun g e hg he => harmless_isolated hg he)
      hharmless
  · intro g hrun a v
    have hg : Guarded img g := Along.invariant hstep (boot_guarded hloaded) hharmless hrun
    exact ⟨byte_store_kept hg.entries, store_isolated hg.entries⟩

/-- Registers with the stack in `dram`, and `v` in `ra`. -/
def dramRegs (v : Word) : RegFile :=
  { val := fun x => if x = Reg.sp then 0x3fc9fff0 else if x = Reg.ra then v else 0
    zero := by rw [if_neg (by decide), if_neg (by decide)] }

theorem dram_apart {h : Hart} (hsp : h.regs Reg.sp = 0x3fc9fff0) : smallImage.StackApart h := by
  constructor
  · rw [CCode.framesOff, CCode.frameBytes, hsp]
    decide
  · rw [TrapImage.framesApart, CCode.frameBytes]
    simp only [InFrames, hsp]
    decide

/-- A jump check and a store to `dram`. -/
theorem shadow_stack_isolation_dram :
    let t := [UserEvent.ecall (dramRegs 0) 0x40380800 zeroHart, .store 0x3fc90000 [7]]
    Along (userStep smallImage) (boot zeroHart) (Isolated smallImage) t
      ∧ ∀ g, run (userStep smallImage) (boot zeroHart) t = .ok g →
          ∀ a v, Isolated smallImage g (.store a [v]) ↔ ObjectKept g a [v] := by
  apply shadow_stack_isolation
  · decide
  · refine Along.cons (dram_apart rfl) fun g _ => Along.singleton ⟨?_, ?_⟩
    · intro i hi hin
      have hi0 : i = 0 := by simpa using hi
      subst hi0
      exact absurd hin (by decide)
    · intro p hp i hi hat
      have hi0 : i = 0 := by simpa using hi
      subst hi0
      have hfree : (smallImage.bytes.all fun p => p.1 != 0x3fc90000) = true := by decide
      have hne := List.all_eq_true.mp hfree p hp
      rw [hat] at hne
      exact absurd hne (by decide)

/-! ## The defects at work -/

/-- `sp` 240 bytes into the object: `ra` is saved over `addresses[59]`. -/
def stackedRegs : RegFile :=
  { val := fun x => if x = Reg.sp then shadowStackAddr + 240
      else if x = Reg.ra then 0x40380a01 else 0
    zero := by rw [if_neg (by decide), if_neg (by decide)] }

/-- The jump check with `sp` in the object goes through, with the low byte of
`ra` left in `addresses[59]`. -/
theorem frame_hits_object :
    ∃ h', userStep smallImage (boot zeroHart) (.ecall stackedRegs 0x40380800 zeroHart) = .ok h'
      ∧ h'.mem (shadowStackAddr + 236) = 1 := by
  have hguarded : Guarded smallImage (boot zeroHart) := boot_guarded (by decide)
  have hintact : smallImage.intact ((boot zeroHart).ecallTrap stackedRegs 0x40380800).mem = true :=
    hguarded.intact
  have hkept : frugalCode.framesKept ((boot zeroHart).ecallTrap stackedRegs 0x40380800) = true := by
    decide +kernel
  have hrun : ∃ h', synchronousExceptionHandler frugalCode
      ((boot zeroHart).ecallTrap stackedRegs 0x40380800) = .ok h'
        ∧ h'.mem (shadowStackAddr + 236) = 1 := ⟨_, rfl, by decide⟩
  obtain ⟨h', hresumed, hbyte⟩ := hrun
  exact ⟨h', (TrapImage.handle_eq hintact (by decide) hkept zeroHart).trans hresumed, hbyte⟩

/-- One byte stored over `top`; and one jump check with `sp` in the object. -/
theorem shadow_stack_not_isolated :
    ¬ Along (userStep smallImage) (boot zeroHart) (Isolated smallImage)
        [.store (shadowStackAddr + 252) [5]]
      ∧ ¬ Along (userStep smallImage) (boot zeroHart) (Isolated smallImage)
          [.ecall stackedRegs 0x40380800 zeroHart] := by
  constructor
  · intro h
    have hbyte := byte_store_kept (pmpSetup_entries _ _) h.head 0 (by decide) (by decide)
      (by decide)
    revert hbyte
    decide
  · intro h
    obtain ⟨h', hstep, hbyte⟩ := frame_hits_object
    obtain ⟨s, hs, hsame⟩ := h.head h' hstep
    rw [boot_stack] at hs
    have hobject := hsame (shadowStackAddr + 236) (by decide)
    cases hs
    rw [hbyte] at hobject
    revert hobject
    decide

end RiscvTe
