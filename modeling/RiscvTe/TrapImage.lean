import RiscvTe.Trap

/-!
# What a trap relies on

The code of the trap handlers lies in `iram` right behind `shadow_stack`;
the texts they print and the pointers `printf` goes through lie in `dram`.
User mode may write all of it, and leaves `sp` where it likes. `TrapImage`
lists these bytes. A trap runs as it was compiled if it finds them as loaded,
if its stack is memory and apart from them, and if the monitor's push or pop
does not overwrite what is on the stack at that moment (`handle`).

Memory is plain memory here: what a device does on its own after a store to
one of its registers is not in the sources.
-/

namespace RiscvTe

open Memory

/-! ## The stack of a trap -/

instance (c : CCode) (h : Hart) (x : Word) : Decidable (InFrames c h x) :=
  inferInstanceAs (Decidable (InRegion _ _ _))

namespace CCode

variable (c : CCode) (h : Hart)

/-- The addresses of the handler's frame and the frames below it. -/
def frameBytes : List Word :=
  (List.range (16 + c.depth)).map fun k =>
    h.regs Reg.sp - BitVec.ofNat 32 (16 + c.depth) + BitVec.ofNat 32 k

/-- The frames do not meet `shadow_stack`. -/
def framesOff : Bool :=
  (c.frameBytes h).all fun x => !decide (InRegion shadowStackAddr shadowStackSize x)

/-- The C body comes back to its callers: what the monitor writes to the
object leaves the frames alone. A body that stops in `code_termination` has
changed `top` on the way. -/
def framesKept : Bool :=
  match c.decision h with
  | .ok s =>
      (c.frameBytes h).all fun x =>
        writeSStack (c.entryMem h) shadowStackAddr s x == c.entryMem h x
  | .error _ => c.framesOff h

end CCode

section Frames

variable {c : CCode} {h : Hart}

theorem mem_frameBytes {x : Word} : x ∈ c.frameBytes h ↔ InFrames c h x := by
  have hfits := c.depthFits
  rw [CCode.frameBytes, List.mem_map, InFrames]
  constructor
  · rintro ⟨k, hk, rfl⟩
    rw [List.mem_range] at hk
    rw [InRegion, offset_toNat (by omega)]
    exact hk
  · intro hin
    exact ⟨_, List.mem_range.mpr hin, add_ofNat_sub _ x⟩

theorem framesOff_iff :
    c.framesOff h = true
      ↔ ∀ x, InRegion shadowStackAddr shadowStackSize x → ¬ InFrames c h x := by
  simp only [CCode.framesOff, List.all_eq_true, mem_frameBytes, Bool.not_eq_true',
    decide_eq_false_iff_not]
  exact ⟨fun hoff x hobject hframe => hoff x hframe hobject,
    fun hoff x hframe hobject => hoff x hobject hframe⟩

theorem framesKept_of_off (hoff : c.framesOff h = true) : c.framesKept h = true := by
  rw [CCode.framesKept]
  split
  · simp only [CCode.framesOff, List.all_eq_true, Bool.not_eq_true',
      decide_eq_false_iff_not] at hoff
    rw [List.all_eq_true]
    intro x hx
    rw [beq_iff_eq]
    exact writeSStack_outside (hoff x hx)
  · exact hoff

/-- The handlers that only print write nothing to the object. -/
theorem framesKept_of_print
    (hdecision : c.decision h = .ok (readSStack (c.entryMem h) shadowStackAddr)) :
    c.framesKept h = true := by
  rw [CCode.framesKept, hdecision]
  simp only [List.all_eq_true, beq_iff_eq]
  intro x _
  exact writeSStack_readSStack _ _ x

end Frames

/-! ## The image -/

/-- What is linked for a trap: the compiled handler, the bytes of the code
that runs in it, and the other bytes it relies on. The linker puts none of
these into the object `shadow_stack`. `ram` says where the hart has memory. -/
structure TrapImage where
  handler : CCode
  code : List (Word × Byte)
  data : List (Word × Byte)
  ram : Word → Bool
  apart : ∀ p ∈ code ++ data, ¬ InRegion shadowStackAddr shadowStackSize p.1

namespace TrapImage

variable (img : TrapImage)

def bytes : List (Word × Byte) := img.code ++ img.data

/-- Code and data are in memory as they were loaded. -/
def intact (m : Mem) : Bool := img.bytes.all fun p => m p.1 == p.2

/-- The stack a trap uses is memory, and none of it code or data. -/
def framesApart (c : CCode) (h : Hart) : Bool :=
  (c.frameBytes h).all img.ram && img.bytes.all fun p => !decide (InFrames c h p.1)

/-- A trap into `synchronous_exception_handler`. Code that has been
overwritten, or that loses what it has on the stack, does what it likes:
`patched`. -/
def handle (h : Hart) (patched : Hart) : Except Stop Hart :=
  if img.intact h.mem && img.framesApart img.handler h && img.handler.framesKept h then
    synchronousExceptionHandler img.handler h
  else .ok patched

/-- The stack of a trap meets neither the object nor code or data. -/
structure StackApart (h : Hart) : Prop where
  off : img.handler.framesOff h = true
  apart : img.framesApart img.handler h = true

variable {img} {h : Hart}

theorem handle_eq (hintact : img.intact h.mem = true)
    (hapart : img.framesApart img.handler h = true) (hkept : img.handler.framesKept h = true)
    (patched : Hart) : img.handle h patched = synchronousExceptionHandler img.handler h := by
  rw [handle, hintact, hapart, hkept]
  rfl

theorem StackApart.handle_eq (hintact : img.intact h.mem = true) (hstack : img.StackApart h)
    (patched : Hart) : img.handle h patched = synchronousExceptionHandler img.handler h :=
  TrapImage.handle_eq hintact hstack.apart (framesKept_of_off hstack.off) patched

theorem intact_of_same {m m' : Mem} (hsame : ∀ p ∈ img.bytes, m' p.1 = m p.1)
    (hintact : img.intact m = true) : img.intact m' = true := by
  rw [intact, List.all_eq_true] at hintact ⊢
  intro p hp
  rw [hsame p hp]
  exact hintact p hp

/-- A trap leaves the image intact. -/
theorem resumed_intact (s : SStack) (hintact : img.intact h.mem = true)
    (hapart : img.framesApart img.handler h = true) :
    img.intact (img.handler.resumed h s).mem = true := by
  refine intact_of_same ?_ hintact
  intro p hp
  rw [framesApart, Bool.and_eq_true, List.all_eq_true, List.all_eq_true] at hapart
  have hframes : ¬ InFrames img.handler h p.1 := by simpa using hapart.2 p hp
  show img.handler.exitMem h s p.1 = h.mem p.1
  rw [exitMem_other hframes, writeSStack_outside (img.apart p hp)]

end TrapImage

/-- An image with the vector table alone, behind `shadow_stack`, with zeroes
for its bytes, a text of one byte at the start of `dram`, and C code that
changes nothing; the memory is that of the linker script. -/
def smallImage : TrapImage :=
  { handler := frugalCode
    code := (List.range 52).map fun i => (0x40380500 + BitVec.ofNat 32 i, 0)
    data := [(0x3fc88000, 0)]
    ram := fun x => decide (InRegion 0x40380400 0x8000 x) || decide (InRegion 0x3fc88000 0x20000 x)
    apart := by
      intro p hp hin
      have hin : (p.1 - 0x40380400).toNat < 256 := hin
      rw [List.mem_append, List.mem_map, List.mem_singleton] at hp
      rcases hp with ⟨i, hi, rfl⟩ | rfl
      · rw [List.mem_range] at hi
        bv_omega
      · revert hin
        decide }

end RiscvTe
