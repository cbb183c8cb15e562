import RiscvTe.Lib.Memory

/-!
# Formats

A `Format` writes values as lists of symbols and reads them back from the front
of a list. Its law says both that a value is read back as it was written,
whatever comes behind, and that nothing is accepted but what a valid value is
written as.

Formats are put together from fixed texts (`literal`), single symbols, parts of
a known length and words: one behind the other, where the second may depend on
what was read in the first (`bind`), and a number of times (`count`). `asType`
turns a format of tuples into one of a structure.
-/

namespace Codec

open Memory

structure Format (β α : Type) where
  Valid : α → Prop
  put : α → List β
  get : List β → Option (α × List β)
  get_eq_some : ∀ {bytes : List β} {a : α} {rest : List β},
    get bytes = some (a, rest) ↔ Valid a ∧ bytes = put a ++ rest

variable {β α γ : Type}

/-! ## Single parts -/

/-- A fixed text. -/
def literal [DecidableEq β] (text : List β) : Format β Unit where
  Valid _ := True
  put _ := text
  get bytes := if text <+: bytes then some ((), bytes.drop text.length) else none
  get_eq_some {bytes a rest} := by
    rw [Option.ite_none_right_eq_some, true_and]
    constructor
    · intro h
      obtain ⟨⟨back, rfl⟩, heq⟩ := h
      rw [List.drop_left] at heq
      cases heq
      rfl
    · intro h
      subst h
      exact ⟨List.prefix_append _ _, by rw [List.drop_left]⟩

@[simp] theorem literal_valid [DecidableEq β] (text : List β) (u : Unit) :
    (literal text).Valid u := trivial

def symbol (β : Type) : Format β β where
  Valid _ := True
  put b := [b]
  get
    | b :: rest => some (b, rest)
    | [] => none
  get_eq_some {bytes a rest} := by
    cases bytes with
    | nil => simp
    | cons b bytes => simp

@[simp] theorem symbol_valid (b : β) : (symbol β).Valid b := trivial

/-- A part of known length. -/
def fixed (β : Type) (n : Nat) : Format β (List β) where
  Valid bs := bs.length = n
  put bs := bs
  get bytes := if n ≤ bytes.length then some (bytes.take n, bytes.drop n) else none
  get_eq_some {bytes bs rest} := by
    rw [Option.ite_none_right_eq_some]
    constructor
    · intro h
      obtain ⟨hle, heq⟩ := h
      cases heq
      exact ⟨List.length_take_of_le hle, (List.take_append_drop _ _).symm⟩
    · intro h
      obtain ⟨rfl, rfl⟩ := h
      exact ⟨by simp, by rw [List.take_left, List.drop_left]⟩

@[simp] theorem fixed_valid {n : Nat} {bs : List β} :
    (fixed β n).Valid bs ↔ bs.length = n := Iff.rfl

/-- The bytes of four bytes. -/
theorem wordBytes_append (b0 b1 b2 b3 : Byte) :
    wordBytes (b3 ++ b2 ++ b1 ++ b0) = [b0, b1, b2, b3] := by
  have hbyte (i : Nat) (b : Byte) : (∀ j < 8,
      (b3 ++ b2 ++ b1 ++ b0).getLsbD (8 * i + j) = b.getLsbD j) →
      byteOf (b3 ++ b2 ++ b1 ++ b0) i = b := by
    intro h
    apply BitVec.eq_of_getLsbD_eq
    intro j hj
    rw [byteOf, BitVec.getLsbD_extractLsb', decide_eq_true hj, Bool.true_and, h j hj]
  rw [wordBytes, hbyte 0 b0, hbyte 1 b1, hbyte 2 b2, hbyte 3 b3]
  all_goals
    intro j hj
    simp only [BitVec.getLsbD_append]
    grind

/-- A 32-bit word, least significant byte first. -/
def word32 : Format Byte Word where
  Valid _ := True
  put := wordBytes
  get
    | b0 :: b1 :: b2 :: b3 :: rest => some (b3 ++ b2 ++ b1 ++ b0, rest)
    | _ => none
  get_eq_some {bytes w rest} := by
    rw [true_and]
    constructor
    · intro h
      match bytes, h with
      | b0 :: b1 :: b2 :: b3 :: back, h =>
          cases h
          rw [wordBytes_append]
          rfl
    · intro h
      subst h
      show some (byteOf w 3 ++ byteOf w 2 ++ byteOf w 1 ++ byteOf w 0, rest) = _
      rw [word_of_bytes]

@[simp] theorem word32_valid (w : Word) : word32.Valid w := trivial

namespace Format

/-! ## Putting formats together -/

variable (f : Format β α)

theorem get_put {a : α} (h : f.Valid a) (rest : List β) :
    f.get (f.put a ++ rest) = some (a, rest) := f.get_eq_some.mpr ⟨h, rfl⟩

/-- One behind the other. -/
def bind (g : α → Format β γ) : Format β (α × γ) where
  Valid p := f.Valid p.1 ∧ (g p.1).Valid p.2
  put p := f.put p.1 ++ (g p.1).put p.2
  get bytes := do
    let (a, bytes) ← f.get bytes
    let (c, bytes) ← (g a).get bytes
    return ((a, c), bytes)
  get_eq_some {bytes p rest} := by
    constructor
    · intro h
      obtain ⟨⟨a, middle⟩, ha, h⟩ := Option.bind_eq_some_iff.mp h
      obtain ⟨⟨c, back⟩, hc, h⟩ := Option.bind_eq_some_iff.mp h
      cases h
      obtain ⟨hvalid, rfl⟩ := f.get_eq_some.mp ha
      obtain ⟨hvalid', rfl⟩ := (g a).get_eq_some.mp hc
      exact ⟨⟨hvalid, hvalid'⟩, (List.append_assoc _ _ _).symm⟩
    · intro h
      obtain ⟨⟨hvalid, hvalid'⟩, rfl⟩ := h
      rw [List.append_assoc, f.get_put hvalid]
      show ((g p.1).get _ >>= _) = _
      rw [(g p.1).get_put hvalid']
      rfl

/-- One behind the other, independently. -/
def seq (g : Format β γ) : Format β (α × γ) := f.bind fun _ => g

@[simp] theorem bind_valid {g : α → Format β γ} {p : α × γ} :
    (f.bind g).Valid p ↔ f.Valid p.1 ∧ (g p.1).Valid p.2 := Iff.rfl

@[simp] theorem seq_valid {g : Format β γ} {p : α × γ} :
    (f.seq g).Valid p ↔ f.Valid p.1 ∧ g.Valid p.2 := Iff.rfl

/-- Only the values that meet a condition. -/
def filter (p : α → Prop) [DecidablePred p] : Format β α where
  Valid a := f.Valid a ∧ p a
  put := f.put
  get bytes := (f.get bytes).filter fun x => p x.1
  get_eq_some {bytes a rest} := by
    rw [Option.filter_eq_some_iff, f.get_eq_some, decide_eq_true_eq]
    tauto

@[simp] theorem filter_valid {p : α → Prop} [DecidablePred p] {a : α} :
    (f.filter p).Valid a ↔ f.Valid a ∧ p a := Iff.rfl

def putAll (as : List α) : List β := as.flatMap f.put

def getAll : Nat → List β → Option (List α × List β)
  | 0, bytes => some ([], bytes)
  | n + 1, bytes => do
      let (a, bytes) ← f.get bytes
      let (as, bytes) ← getAll n bytes
      return (a :: as, bytes)

/-- A number of values, one after the other. -/
theorem getAll_eq_some {n : Nat} {bytes : List β} {as : List α} {rest : List β} :
    f.getAll n bytes = some (as, rest)
      ↔ (as.length = n ∧ ∀ a ∈ as, f.Valid a) ∧ bytes = f.putAll as ++ rest := by
  induction n generalizing bytes as with
  | zero =>
      rw [getAll]
      constructor
      · intro h
        cases h
        exact ⟨⟨rfl, by simp⟩, rfl⟩
      · intro h
        obtain ⟨⟨hlen, -⟩, rfl⟩ := h
        rw [List.length_eq_zero_iff.mp hlen]
        rfl
  | succ n ih =>
      rw [getAll]
      constructor
      · intro h
        obtain ⟨⟨a, middle⟩, ha, h⟩ := Option.bind_eq_some_iff.mp h
        obtain ⟨⟨as', back⟩, has, h⟩ := Option.bind_eq_some_iff.mp h
        cases h
        obtain ⟨hvalid, rfl⟩ := f.get_eq_some.mp ha
        obtain ⟨⟨hlen, hall⟩, rfl⟩ := ih.mp has
        refine ⟨⟨by rw [List.length_cons, hlen], ?_⟩, ?_⟩
        · simpa using ⟨hvalid, hall⟩
        · rw [putAll, putAll, List.flatMap_cons, List.append_assoc]
      · intro h
        obtain ⟨⟨hlen, hall⟩, rfl⟩ := h
        cases as with
        | nil => cases hlen
        | cons a as =>
            have htail := ih.mpr ⟨⟨Nat.succ_inj.mp hlen,
              fun b hb => hall b (List.mem_cons_of_mem _ hb)⟩, rfl⟩
            rw [putAll, List.flatMap_cons, List.append_assoc, f.get_put (hall a (by simp))]
            show (f.getAll n (f.putAll as ++ rest) >>= _) = _
            rw [htail]
            rfl

def count (n : Nat) : Format β (List α) where
  Valid as := as.length = n ∧ ∀ a ∈ as, f.Valid a
  put := f.putAll
  get := f.getAll n
  get_eq_some := f.getAll_eq_some

@[simp] theorem count_valid {n : Nat} {as : List α} :
    (f.count n).Valid as ↔ as.length = n ∧ ∀ a ∈ as, f.Valid a := Iff.rfl

/-- The valid values under another type. -/
def asType (e : { a // f.Valid a } ≃ γ) : Format β γ where
  Valid _ := True
  put c := f.put (e.symm c)
  get bytes :=
    match h : f.get bytes with
    | some (a, rest) => some (e ⟨a, (f.get_eq_some.mp h).1⟩, rest)
    | none => none
  get_eq_some {bytes c rest} := by
    rw [true_and]
    constructor
    · intro h
      split at h
      · rename_i a back hget
        cases h
        rw [Equiv.symm_apply_apply]
        exact (f.get_eq_some.mp hget).2
      · cases h
    · intro h
      have hget : f.get bytes = some ((e.symm c).1, rest) :=
        f.get_eq_some.mpr ⟨(e.symm c).2, h⟩
      split
      · rename_i a back hget'
        rw [hget] at hget'
        cases hget'
        exact congrArg some (Prod.ext (e.apply_symm_apply c) rfl)
      · rename_i hnone
        rw [hget] at hnone
        cases hnone

@[simp] theorem asType_valid (e : { a // f.Valid a } ≃ γ) (c : γ) : (f.asType e).Valid c :=
  trivial

/-! ## Whole texts -/

/-- A text that is one value and nothing else. -/
def decode (bytes : List β) : Option α :=
  match f.get bytes with
  | some (a, []) => some a
  | _ => none

theorem decode_eq_some {bytes : List β} {a : α} :
    f.decode bytes = some a ↔ f.Valid a ∧ bytes = f.put a := by
  have hget : f.get bytes = some (a, []) ↔ f.Valid a ∧ bytes = f.put a := by
    rw [f.get_eq_some, List.append_nil]
  rw [← hget, decode]
  split
  · rename_i a' heq
    rw [heq]
    simp
  · rename_i hne
    constructor
    · intro h
      cases h
    · intro h
      exact absurd h (hne a)

end Format

end Codec
