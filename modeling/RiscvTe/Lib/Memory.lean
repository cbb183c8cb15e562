import Mathlib

/-!
# A byte-addressed 32-bit memory, little endian

A memory is a total function from 32-bit addresses to bytes; address
arithmetic wraps around. Regions are given by a base and a size, so that a
region may cross the end of the address space. The lemmas say what a store
leaves alone (`storeBytes_other`) and that a word or half word reads back
as it was stored.
-/

namespace Memory

abbrev Word := BitVec 32
abbrev Byte := BitVec 8
abbrev Mem := Word → Byte

/-- `a` is one of the `size` addresses from `base` upwards. -/
def InRegion (base : Word) (size : Nat) (a : Word) : Prop :=
  (a - base).toNat < size

instance (base : Word) (size : Nat) (a : Word) : Decidable (InRegion base size a) :=
  inferInstanceAs (Decidable (_ < _))

theorem add_sub_base (a k : Word) : a + k - a = k := by
  rw [BitVec.add_comm, BitVec.add_sub_cancel]

theorem offset_toNat {base : Word} {k : Nat} (hk : k < 2 ^ 32) :
    (base + BitVec.ofNat 32 k - base).toNat = k := by
  rw [add_sub_base, BitVec.toNat_ofNat, Nat.mod_eq_of_lt hk]

/-- A region inside a region. -/
theorem InRegion.of_sub {base x : Word} {k n size : Nat}
    (h : InRegion (base + BitVec.ofNat 32 k) n x) (hle : k + n ≤ size)
    (hsize : size ≤ 2 ^ 32) : InRegion base size x := by
  have hx : x - base = BitVec.ofNat 32 k + (x - (base + BitVec.ofNat 32 k)) := by
    rw [← add_sub_base base (BitVec.ofNat 32 k + _), ← BitVec.add_assoc,
      BitVec.add_comm (base + _), BitVec.sub_add_cancel]
  rw [InRegion] at h ⊢
  rw [hx, BitVec.toNat_add, BitVec.toNat_ofNat]
  omega

/-- Byte `i` of a value, least significant first. -/
def byteOf {n : Nat} (v : BitVec n) (i : Nat) : Byte := v.extractLsb' (8 * i) 8

/-- Store the bytes `bs` at `a`, `a + 1`, ... -/
def storeBytes (m : Mem) (a : Word) : List Byte → Mem
  | [] => m
  | b :: bs => storeBytes (Function.update m a b) (a + 1) bs

def wordBytes (w : Word) : List Byte :=
  [byteOf w 0, byteOf w 1, byteOf w 2, byteOf w 3]

def storeWord (m : Mem) (a w : Word) : Mem := storeBytes m a (wordBytes w)

def loadHalf (m : Mem) (a : Word) : BitVec 16 := m (a + 1) ++ m a

def loadWord (m : Mem) (a : Word) : Word := m (a + 3) ++ m (a + 2) ++ m (a + 1) ++ m a

theorem half_of_bytes (v : BitVec 16) : byteOf v 1 ++ byteOf v 0 = v := by
  apply BitVec.eq_of_getLsbD_eq
  intro i hi
  simp only [byteOf, BitVec.getLsbD_append, BitVec.getLsbD_extractLsb']
  by_cases h : i < 8
  · simp [h]
  · have h' : i - 8 < 8 := by omega
    simp [h, h', show 8 + (i - 8) = i from by omega]

theorem word_of_bytes (w : Word) :
    byteOf w 3 ++ byteOf w 2 ++ byteOf w 1 ++ byteOf w 0 = w := by
  apply BitVec.eq_of_getLsbD_eq
  intro i hi
  simp only [byteOf, BitVec.getLsbD_append, BitVec.getLsbD_extractLsb']
  by_cases h0 : i < 8
  · simp [h0]
  · by_cases h1 : i - 8 < 8
    · simp [h0, h1, show 8 + (i - 8) = i from by omega]
    · by_cases h2 : i - 8 - 8 < 8
      · simp [h0, h1, h2, show 16 + (i - 8 - 8) = i from by omega]
      · have h3 : i - 8 - 8 - 8 < 8 := by omega
        simp [h0, h1, h2, h3, show 24 + (i - 8 - 8 - 8) = i from by omega]

/-- Only the bytes stored to change. -/
theorem storeBytes_other {m : Mem} {a x : Word} {bs : List Byte}
    (h : ∀ i < bs.length, x ≠ a + BitVec.ofNat 32 i) : storeBytes m a bs x = m x := by
  induction bs generalizing m a with
  | nil => rfl
  | cons b bs ih =>
      have h0 : x ≠ a := by simpa using h 0 (by simp)
      rw [storeBytes, ih]
      · rw [Function.update_of_ne h0]
      · intro i hi
        have := h (i + 1) (by simpa using hi)
        rwa [BitVec.ofNat_add, BitVec.add_comm (BitVec.ofNat 32 i), ← BitVec.add_assoc] at this

theorem ofNat_ne {i j : Nat} (hi : i < 2 ^ 32) (hj : j < 2 ^ 32) (h : i ≠ j) (a : Word) :
    a + BitVec.ofNat 32 i ≠ a + BitVec.ofNat 32 j := by
  intro heq
  rw [BitVec.add_right_inj] at heq
  have := congrArg BitVec.toNat heq
  rw [BitVec.toNat_ofNat, BitVec.toNat_ofNat, Nat.mod_eq_of_lt hi, Nat.mod_eq_of_lt hj] at this
  exact h this

/-- The bytes stored are there afterwards. -/
theorem storeBytes_at {m : Mem} {a : Word} {bs : List Byte} (hlen : bs.length ≤ 2 ^ 32)
    {i : Nat} (hi : i < bs.length) : storeBytes m a bs (a + BitVec.ofNat 32 i) = bs[i] := by
  induction bs generalizing m a i with
  | nil => cases hi
  | cons b bs ih =>
      simp only [List.length_cons] at hlen hi
      cases i with
      | zero =>
          rw [storeBytes, storeBytes_other]
          · simp
          · intro j hj
            have := ofNat_ne (i := 0) (j := j + 1) (by omega) (by omega) (by omega) a
            rwa [BitVec.ofNat_add, BitVec.add_comm (BitVec.ofNat 32 j), ← BitVec.add_assoc] at this
      | succ i =>
          have := ih (m := Function.update m a b) (a := a + 1) (by omega) (i := i) (by omega)
          rw [storeBytes, BitVec.ofNat_add, BitVec.add_comm (BitVec.ofNat 32 i), ← BitVec.add_assoc]
          exact this

theorem loadWord_storeWord (m : Mem) (a w : Word) : loadWord (storeWord m a w) a = w := by
  simp only [loadWord, storeWord, wordBytes, storeBytes, Function.update_apply,
    BitVec.add_assoc]
  simp [word_of_bytes]

theorem loadWord_at (m : Mem) (base : Word) (k : Nat) :
    loadWord m (base + BitVec.ofNat 32 k)
      = m (base + BitVec.ofNat 32 (k + 3)) ++ m (base + BitVec.ofNat 32 (k + 2))
        ++ m (base + BitVec.ofNat 32 (k + 1)) ++ m (base + BitVec.ofNat 32 k) := by
  simp only [loadWord, BitVec.ofNat_add, ← BitVec.add_assoc]
  rfl

theorem loadHalf_at (m : Mem) (base : Word) (k : Nat) :
    loadHalf m (base + BitVec.ofNat 32 k)
      = m (base + BitVec.ofNat 32 (k + 1)) ++ m (base + BitVec.ofNat 32 k) := by
  simp only [loadHalf, BitVec.ofNat_add, ← BitVec.add_assoc]
  rfl

theorem byteOf_loadHalf (m : Mem) (a : Word) {k : Nat} (hk : k < 2) :
    byteOf (loadHalf m a) k = m (a + BitVec.ofNat 32 k) := by
  apply BitVec.eq_of_getLsbD_eq
  intro i hi
  simp only [byteOf, loadHalf, BitVec.getLsbD_append, BitVec.getLsbD_extractLsb', hi]
  have hcases : k = 0 ∨ k = 1 := by omega
  rcases hcases with rfl | rfl
  · simp [hi]
  · simp

theorem byteOf_loadWord (m : Mem) (a : Word) {k : Nat} (hk : k < 4) :
    byteOf (loadWord m a) k = m (a + BitVec.ofNat 32 k) := by
  apply BitVec.eq_of_getLsbD_eq
  intro i hi
  simp only [byteOf, loadWord, BitVec.getLsbD_append, BitVec.getLsbD_extractLsb', hi]
  have hcases : k = 0 ∨ k = 1 ∨ k = 2 ∨ k = 3 := by omega
  rcases hcases with rfl | rfl | rfl | rfl
  · simp [hi]
  · simp [hi]
  · have h8 : ¬ 16 + i < 8 := by omega
    have h16 : ¬ 16 + i - 8 < 8 := by omega
    simp [hi, h8, h16, show 16 + i - 8 - 8 = i from by omega]
  · have h8 : ¬ 24 + i < 8 := by omega
    have h16 : ¬ 24 + i - 8 < 8 := by omega
    have h24 : ¬ 24 + i - 8 - 8 < 8 := by omega
    simp [hi, h8, h16, h24, show 24 + i - 8 - 8 - 8 = i from by omega]

/-- Every address lies at some offset from a base. -/
theorem add_ofNat_sub (base x : Word) : base + BitVec.ofNat 32 (x - base).toNat = x := by
  rw [BitVec.ofNat_toNat, BitVec.setWidth_eq, BitVec.add_comm, BitVec.sub_add_cancel]

/-- A store of `n` bytes leaves everything outside its region alone. -/
theorem storeBytes_outside {m : Mem} {a x : Word} {bs : List Byte}
    (hlen : bs.length ≤ 2 ^ 32) (h : ¬ InRegion a bs.length x) :
    storeBytes m a bs x = m x := by
  apply storeBytes_other
  intro i hi hx
  apply h
  rw [InRegion, hx, add_sub_base, BitVec.toNat_ofNat,
    Nat.mod_eq_of_lt (by omega)]
  exact hi

/-- The word at `a`, from its four bytes. -/
theorem loadWord_congr {m m' : Mem} {a : Word}
    (h : ∀ k < 4, m (a + BitVec.ofNat 32 k) = m' (a + BitVec.ofNat 32 k)) :
    loadWord m a = loadWord m' a := by
  have ha : a = a + BitVec.ofNat 32 0 := by simp
  rw [ha, loadWord_at, loadWord_at, h 0 (by decide), h 1 (by decide), h 2 (by decide),
    h 3 (by decide)]

/-- A store next to a word. -/
theorem loadWord_storeBytes {m : Mem} {a b : Word} {bs : List Byte}
    (h : ∀ i < bs.length, ∀ k < 4, b + BitVec.ofNat 32 k ≠ a + BitVec.ofNat 32 i) :
    loadWord (storeBytes m a bs) b = loadWord m b :=
  loadWord_congr fun k hk => storeBytes_other fun i hi => h i hi k hk

end Memory
