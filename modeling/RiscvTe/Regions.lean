import RiscvTe.Isolation

/-!
# The regions of the PMP set-up

The comments of `main` divide the address space into three: everything
below `shadow_stack`, its 256 bytes, everything behind them up to
`0x90000000`. What the CSRs encode differs between the object's start and
the byte 32 of it, since the middle region is 8 bytes long and the third
region starts where the middle one does.
-/

namespace RiscvTe

open Memory

/-- The value "big enough to cover rest of memory". -/
def restEnd : Nat := 0x90000000

/-- The permissions the comments give, for `shadow_stack` at `base`. -/
def commented (base : Nat) (access : Pmp.Access) (a : Nat) : Bool :=
  if a < base then true
  else if a < base + shadowStackSize then access != .execute
  else decide (a < restEnd)

/-- An access to the byte at `a` is granted as the comments say, and a region
covers the byte if it is below the end of the third. -/
structure AsCommented (es : List Pmp.Entry) (base : Nat) (access : Pmp.Access) (a : Nat) :
    Prop where
  granted : Pmp.allows access 0 es a 1 = commented base access a
  covered : a < restEnd → (Pmp.deciding 0 es a).isSome = true

/-! ## The configuration bytes -/

section Cfg

variable {e : Pmp.Entry}

/-- `0x0F`: TOR, XWR. -/
theorem torCfg_mode (h : e.cfg = 0x0F) : e.mode = .tor := by
  rw [Pmp.Entry.mode, h]
  rfl

theorem torCfg_permits (h : e.cfg = 0x0F) (access : Pmp.Access) : e.permits access = true := by
  cases access <;> (rw [Pmp.Entry.permits, h]; rfl)

/-- `0x1B`: NAPOT, RW. -/
theorem napotCfg_mode (h : e.cfg = 0x1B) : e.mode = .napot := by
  rw [Pmp.Entry.mode, h]
  rfl

theorem napotCfg_permits (h : e.cfg = 0x1B) (access : Pmp.Access) :
    e.permits access = (access != .execute) := by
  cases access <;> (rw [Pmp.Entry.permits, h]; rfl)

end Cfg

/-! ## The addresses in the CSRs -/

section Base

variable {base : Word}

theorem shifted_toNat : (base >>> 2).toNat = base.toNat / 4 := by
  rw [BitVec.toNat_ushiftRight, Nat.shiftRight_eq_div_pow]

/-- The `or` with 6 adds six words to an aligned address. -/
theorem orSix_toNat (haligned : base.toNat % 256 = 0) :
    ((base >>> 2) ||| 6).toNat = base.toNat / 4 + 6 := by
  have hlow : base.toNat / 4 = 2 ^ 6 * (base.toNat / 256) := by omega
  have hsix : (6 : Word).toNat = 6 := rfl
  rw [BitVec.toNat_or, shifted_toNat, hsix, hlow, Nat.two_pow_add_eq_or_of_lt (by decide)]

/-- **The regions the CSRs encode**, for every aligned place of the object. -/
theorem mainEntries_deciding (haligned : base.toNat % 256 = 0) (a : Nat) :
    Pmp.deciding 0 (mainEntries base) a
      = if a < base.toNat then some ⟨0x0F, base >>> 2⟩
        else if a < base.toNat + 24 then none
        else if a < base.toNat + 32 then some ⟨0x1B, (base >>> 2) ||| 6⟩
        else if a < restEnd then some ⟨0x0F, (0x90000000 : Word) >>> 2⟩
        else none := by
  have hfirst : Pmp.Entry.range 0 ⟨0x0F, base >>> 2⟩ = (0, base.toNat) := by
    rw [Pmp.range_tor (torCfg_mode rfl), shifted_toNat, Prod.mk.injEq]
    omega
  have hsecond : Pmp.Entry.range (base >>> 2).toNat ⟨0x1B, (base >>> 2) ||| 6⟩
      = (base.toNat + 24, base.toNat + 32) := by
    rw [Pmp.range_napot_even (napotCfg_mode rfl), orSix_toNat haligned, Prod.mk.injEq]
    · omega
    · rw [orSix_toNat haligned]
      omega
  have hthird : Pmp.Entry.range ((base >>> 2) ||| 6).toNat ⟨0x0F, (0x90000000 : Word) >>> 2⟩
      = (base.toNat + 24, restEnd) := by
    rw [Pmp.range_tor (torCfg_mode rfl), orSix_toNat haligned, Prod.mk.injEq]
    refine ⟨by omega, rfl⟩
  rw [mainEntries, Pmp.deciding, Pmp.deciding, Pmp.deciding, Pmp.deciding, hfirst, hsecond,
    hthird]
  split_ifs <;> first | rfl | omega

end Base

/-- **Where the set-up means what the comments say**: everywhere but in the
first 24 bytes of the object, which no region covers, and for fetches from
its byte 32 on. -/
theorem pmp_regions_iff (h : Hart) (base : Word) (haligned : base.toNat % 256 = 0)
    (hfits : base.toNat < restEnd - 256) (access : Pmp.Access) (a : Nat) :
    AsCommented (pmpEntries (h.line (pmpSetup base)).csr) base.toNat access a
      ↔ ¬ (base.toNat ≤ a ∧ a < base.toNat + 24)
        ∧ ¬ (access = .execute ∧ base.toNat + 32 ≤ a ∧ a < base.toNat + 256) := by
  rw [pmpSetup_entries]
  constructor
  · intro h
    obtain ⟨hgranted, hcovered⟩ := h
    rw [mainEntries_deciding haligned] at hcovered
    rw [Pmp.allows_byte, mainEntries_deciding haligned, commented] at hgranted
    constructor
    · intro hin
      obtain ⟨hlo, hhi⟩ := hin
      rw [if_neg (by omega), if_pos hhi] at hcovered
      exact absurd (hcovered (by omega)) (by decide)
    · intro hin
      obtain ⟨rfl, hlo, hhi⟩ := hin
      -- the third region grants the fetch
      rw [if_neg (by omega), if_neg (by omega), if_neg (by omega), if_pos (by omega),
        if_neg (by omega), if_pos (by rw [shadowStackSize]; omega), Option.any_some,
        torCfg_permits rfl] at hgranted
      exact absurd hgranted (by decide)
  · intro h
    obtain ⟨hfirst, hfetch⟩ := h
    constructor
    · rw [Pmp.allows_byte, mainEntries_deciding haligned, commented, shadowStackSize]
      by_cases hbelow : a < base.toNat
      · rw [if_pos hbelow, if_pos hbelow, Option.any_some, torCfg_permits rfl]
      rw [if_neg hbelow, if_neg hbelow, if_neg (by omega)]
      by_cases hblock : a < base.toNat + 32
      · rw [if_pos hblock, if_pos (by omega), Option.any_some, napotCfg_permits rfl]
      rw [if_neg hblock]
      by_cases hobject : a < base.toNat + 256
      · have haccess : access ≠ .execute := fun heq => hfetch ⟨heq, by omega, hobject⟩
        rw [if_pos hobject, if_pos (by omega), Option.any_some, torCfg_permits rfl,
          bne_iff_ne.mpr haccess]
      rw [if_neg hobject]
      by_cases hrest : a < restEnd
      · rw [if_pos hrest, Option.any_some, torCfg_permits rfl, decide_eq_true hrest]
      · rw [if_neg hrest, Option.any_none, decide_eq_false hrest]
    · intro hrest
      rw [mainEntries_deciding haligned]
      split_ifs <;> first | rfl | omega

/-- A store to the last byte of the object, where the linker places it. -/
theorem pmp_regions_iff_last :
    AsCommented (pmpEntries (zeroHart.line (pmpSetup shadowStackAddr)).csr)
      shadowStackAddr.toNat .write (shadowStackAddr.toNat + 255) :=
  (pmp_regions_iff zeroHart shadowStackAddr (by decide) (by decide) _ _).mpr
    (by decide)

/-- The last byte of the object can be executed. -/
theorem pmp_regions_differ :
    ¬ ∀ (h : Hart) (base : Word), base.toNat % 256 = 0 → base.toNat < restEnd - 256 →
      ∀ access a, AsCommented (pmpEntries (h.line (pmpSetup base)).csr) base.toNat access a := by
  intro hall
  have hfetch := (hall zeroHart shadowStackAddr (by decide) (by decide) .execute
    (shadowStackAddr.toNat + 255)).granted
  revert hfetch
  decide

end RiscvTe
