import Mathlib

/-!
# RISC-V physical memory protection

The privileged specification's rules for an access from user mode, over a
list of `(cfg, addr)` entries in priority order. The lowest-numbered entry
that matches any byte of the access decides; it must match all of them and
grant the access kind. An access no entry matches is denied. Addresses are
physical byte addresses, `pmpaddr` holds bits 33:2 of one.
-/

namespace Pmp

inductive Access where
  | read
  | write
  | execute
  deriving DecidableEq, Repr

/-- The `A` field of a configuration byte. -/
inductive AddressMode where
  | off
  | tor
  | na4
  | napot
  deriving DecidableEq, Repr

structure Entry where
  cfg : BitVec 8
  addr : BitVec 32
  deriving DecidableEq, Repr

def Entry.mode (e : Entry) : AddressMode :=
  match ((e.cfg >>> 3) &&& 3).toNat with
  | 0 => .off
  | 1 => .tor
  | 2 => .na4
  | _ => .napot

def Entry.permits (e : Entry) : Access → Bool
  | .read => e.cfg.getLsbD 0
  | .write => e.cfg.getLsbD 1
  | .execute => e.cfg.getLsbD 2

/-- Number of trailing ones, up to `fuel` of them. -/
def trailingOnes : Nat → Nat → Nat
  | 0, _ => 0
  | fuel + 1, n => if n % 2 = 1 then trailingOnes fuel (n / 2) + 1 else 0

/-- The half-open address range of an entry; `prev` is the `pmpaddr` of the
entry below it, 0 for the first. A NAPOT entry with `k` trailing ones is an
aligned block of `2 ^ (k + 3)` bytes. -/
def Entry.range (prev : Nat) (e : Entry) : Nat × Nat :=
  match e.mode with
  | .off => (0, 0)
  | .tor => (4 * prev, 4 * e.addr.toNat)
  | .na4 => (4 * e.addr.toNat, 4 * e.addr.toNat + 4)
  | .napot =>
      let block := 2 ^ (trailingOnes 32 e.addr.toNat + 1)
      let base := 4 * (e.addr.toNat / block * block)
      (base, base + 4 * block)

/-- Whether the `n` bytes from `a` meet the range. -/
def touches (range : Nat × Nat) (a n : Nat) : Bool :=
  decide (max range.1 a < min range.2 (a + n))

/-- Whether the range has all of the `n` bytes from `a`. -/
def covers (range : Nat × Nat) (a n : Nat) : Bool :=
  decide (range.1 ≤ a ∧ a + n ≤ range.2)

/-- The outcome of a user-mode access to the `n` bytes from `a`. -/
def allows (access : Access) (prev : Nat) : List Entry → Nat → Nat → Bool
  | [], _, _ => false
  | e :: es, a, n =>
      if touches (e.range prev) a n then covers (e.range prev) a n && e.permits access
      else allows access e.addr.toNat es a n

theorem touches_iff {range : Nat × Nat} {a n : Nat} :
    touches range a n = true ↔ ∃ i < n, range.1 ≤ a + i ∧ a + i < range.2 := by
  rw [touches, decide_eq_true_eq]
  constructor
  · intro h
    exact ⟨max range.1 a - a, by omega, by omega, by omega⟩
  · rintro ⟨i, hi, hlo, hhi⟩
    omega

/-- An entry that does not meet the access leaves the decision to the next. -/
theorem allows_skip {access : Access} {prev : Nat} {e : Entry} {es : List Entry} {a n : Nat}
    (h : ∀ i < n, ¬ ((e.range prev).1 ≤ a + i ∧ a + i < (e.range prev).2)) :
    allows access prev (e :: es) a n = allows access e.addr.toNat es a n := by
  rw [allows, if_neg]
  rw [touches_iff]
  rintro ⟨i, hi, hin⟩
  exact h i hi hin

/-- The first entry that meets the access decides it. -/
theorem allows_here {access : Access} {prev : Nat} {e : Entry} {es : List Entry} {a n : Nat}
    (hn : 0 < n) (hlo : (e.range prev).1 ≤ a) (hhi : a + n ≤ (e.range prev).2) :
    allows access prev (e :: es) a n = e.permits access := by
  rw [allows, if_pos (touches_iff.mpr ⟨0, hn, by omega, by omega⟩), covers,
    decide_eq_true ⟨hlo, hhi⟩, Bool.true_and]

/-- An allowed access lies within a single entry, the first that any of its
bytes meets. -/
theorem allows_covered {access : Access} {prev : Nat} {e : Entry} {es : List Entry} {a n : Nat}
    (h : allows access prev (e :: es) a n = true) :
    ((e.range prev).1 ≤ a ∧ a + n ≤ (e.range prev).2 ∧ e.permits access = true)
      ∨ ((∀ i < n, ¬ ((e.range prev).1 ≤ a + i ∧ a + i < (e.range prev).2))
          ∧ allows access e.addr.toNat es a n = true) := by
  rw [allows] at h
  split at h
  · rw [Bool.and_eq_true, covers, decide_eq_true_eq] at h
    exact .inl ⟨h.1.1, h.1.2, h.2⟩
  · rename_i hskip
    refine .inr ⟨fun i hi hin => hskip ?_, h⟩
    exact touches_iff.mpr ⟨i, hi, hin⟩

/-! ## Single bytes -/

/-- The entry that decides about the byte at `a`. -/
def deciding (prev : Nat) : List Entry → Nat → Option Entry
  | [], _ => none
  | e :: es, a =>
      if (e.range prev).1 ≤ a ∧ a < (e.range prev).2 then some e
      else deciding e.addr.toNat es a

/-- A byte is accessed as the deciding entry permits, and not at all without
one. -/
theorem allows_byte {access : Access} {prev : Nat} {es : List Entry} {a : Nat} :
    allows access prev es a 1 = (deciding prev es a).any (·.permits access) := by
  induction es generalizing prev with
  | nil => rfl
  | cons e es ih =>
      rw [deciding]
      by_cases hin : (e.range prev).1 ≤ a ∧ a < (e.range prev).2
      · rw [if_pos hin, allows_here (by decide) hin.1 hin.2]
        rfl
      · rw [if_neg hin, allows_skip, ih]
        intro i hi
        obtain rfl : i = 0 := by omega
        exact hin

/-! ## Ranges -/

theorem range_tor {prev : Nat} {e : Entry} (h : e.mode = .tor) :
    e.range prev = (4 * prev, 4 * e.addr.toNat) := by
  rw [Entry.range, h]

theorem trailingOnes_even {n : Nat} (h : n % 2 = 0) (fuel : Nat) : trailingOnes fuel n = 0 := by
  cases fuel with
  | zero => rfl
  | succ fuel => rw [trailingOnes, if_neg (by omega)]

/-- Without a trailing one a NAPOT entry is a block of 8 bytes. -/
theorem range_napot_even {prev : Nat} {e : Entry} (h : e.mode = .napot)
    (heven : e.addr.toNat % 2 = 0) :
    e.range prev = (4 * e.addr.toNat, 4 * e.addr.toNat + 8) := by
  have hbase : e.addr.toNat / 2 * 2 = e.addr.toNat := by omega
  rw [Entry.range, h]
  simp only [trailingOnes_even heven]
  rw [show 2 ^ (0 + 1) = 2 from rfl, hbase]

end Pmp
