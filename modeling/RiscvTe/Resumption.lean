import RiscvTe.Privilege

/-!
# Where the exception handler resumes

`synchronous_exception_handler` leaves with `mepc + 4`, whatever trapped. A
program for rv32imc is a sequence of instructions of two and of four bytes,
so this is the next instruction behind one of four bytes and nothing in
particular behind one of two. Code that stays on instruction boundaries by
itself therefore stays there in all runs that trap at four-byte instructions
only, as `ecall` is.
-/

namespace RiscvTe

open Memory EventRun

/-! ## Layouts -/

inductive Width where
  | compressed
  | full
  deriving DecidableEq, Repr

def Width.bytes : Width → Nat
  | .compressed => 2
  | .full => 4

def size (widths : List Width) : Nat := (widths.map Width.bytes).sum

/-- User code: its instructions one behind the other from `base`. -/
structure Layout where
  base : Word
  widths : List Width
  fits : base.toNat + size widths < 2 ^ 32

/-- The address of instruction `i`, and behind the last one that of the end. -/
def Layout.addr (l : Layout) (i : Nat) : Word :=
  l.base + BitVec.ofNat 32 (size (l.widths.take i))

end RiscvTe
