import RiscvTe.Lib.EventRun
import RiscvTe.Lib.Memory

/-!
# Intel HEX files (`mkhex` and `unhex` in `esputil/esputil.c`)

`mkhex` prints files, each at an address, as lines of at most 16 bytes. The upper
half of an address is a line of its own, printed in front of each file and
wherever a line begins at a multiple of 64K. `unhex` puts the bytes back into
files, and begins a new one wherever the addresses do not go on.

Both are related by their records: what `unhex` does with a printed line is
`Unpacked.record` (`unhex_line`), so that the round trip is about records.
-/

namespace RiscvTe.Esputil

open Memory EventRun

/-- `unsigned long` -/
abbrev Ulong := BitVec 64

/-! ## Printing -/

/-- A value below 16, as `%x` prints it. -/
def hexDigit (v : Nat) : Byte := if v < 10 then BitVec.ofNat 8 (48 + v) else BitVec.ofNat 8 (87 + v)

/-- `%02x` -/
def hex2 (b : Byte) : List Byte := [hexDigit (b.toNat / 16), hexDigit (b.toNat % 16)]

/-- `%04x` -/
def hex4 (h : BitVec 16) : List Byte := hex2 (byteOf h 1) ++ hex2 (byteOf h 0)

def colon : Byte := 58
def newline : Byte := 10

/-- `cs`, in unsigned arithmetic. -/
def hexSum (type : Byte) (addr : BitVec 16) (buf : List Byte) : Word :=
  buf.foldl (fun cs b => cs + b.setWidth 32)
    (type.setWidth 32 + BitVec.ofNat 32 buf.length
      + (byteOf addr 1).setWidth 32 + (byteOf addr 0).setWidth 32)

/-- A line without its end. -/
def hexLine (type : Byte) (addr : BitVec 16) (buf : List Byte) : List Byte :=
  colon :: (hex2 (BitVec.ofNat 8 buf.length) ++ (hex4 addr ++ (hex2 type ++ (buf.flatMap hex2
    ++ hex2 ((~~~ hexSum type addr buf + 1).setWidth 8)))))

def printhexline (type : Byte) (addr : BitVec 16) (buf : List Byte) : List Byte :=
  hexLine type addr buf ++ [newline]

def printhexhiaddrline (addr : Ulong) : List Byte :=
  printhexline 4 0 [byteOf addr 3, byteOf addr 2]

/-- The loop over one file: the address of `buf`, and what has been printed. -/
structure Mkhex where
  addr : Ulong
  buf : List Byte
  out : List Byte
  deriving DecidableEq, Repr

/-- `buf` is full, or the file is at its end. -/
def Mkhex.flush (st : Mkhex) : Mkhex :=
  let hiaddr :=
    if 0xffff ≤ st.addr.toNat ∧ st.addr.setWidth 16 = (0 : BitVec 16) then
      printhexhiaddrline st.addr
    else []
  let line := if 0 < st.buf.length then printhexline 0 (st.addr.setWidth 16) st.buf else []
  { addr := st.addr + BitVec.ofNat 64 st.buf.length, buf := [], out := st.out ++ hiaddr ++ line }

def Mkhex.byte (st : Mkhex) (b : Byte) : Mkhex :=
  let st := { st with buf := st.buf ++ [b] }
  if 16 ≤ st.buf.length then st.flush else st

def mkhexFile (addr : Ulong) (file : List Byte) : List Byte :=
  (file.foldl Mkhex.byte { addr, buf := [], out := printhexhiaddrline addr }).flush.out

/-- `mkhex`, for the addresses and the contents of the files. -/
def mkhex (args : List (Ulong × List Byte)) : List Byte :=
  args.flatMap (fun arg => mkhexFile arg.1 arg.2) ++ printhexline 1 0 []

/-! ## Unpacking -/

inductive HexStop where
  | noColon
  | badLength (n len : Int)
  | outOfBounds
  deriving DecidableEq, Repr

/-- One digit, or what is made of another character. A `char` is signed. -/
def digitValue (c : Byte) : Ulong :=
  let c := c.signExtend 64
  if 48 ≤ c.toInt ∧ c.toInt ≤ 57 then c - 48
  else if 65 ≤ c.toInt ∧ c.toInt ≤ 70 then c - 55
  else c - 87

/-- `hex_to_ul`, on the characters it reads; `v` is 0 where it is not shifted. -/
def hexToUl (s : List Byte) : Ulong := s.foldl (fun v c => v <<< 4 ||| digitValue c) 0

def sizeofTmp : Nat := 600

/-- `hex_to_ul(tmp + offset, len)` -/
def hexAt (tmp : Vector Byte sizeofTmp) (offset len : Nat) : Except HexStop Ulong :=
  if offset + len ≤ sizeofTmp then .ok (hexToUl ((tmp.toList.drop offset).take len))
  else .error .outOfBounds

/-- The loop over the bytes of a line. -/
def bytesAt (tmp : Vector Byte sizeofTmp) (offset : Nat) : Nat → Except HexStop (List Byte)
  | 0 => .ok []
  | count + 1 => do
      let byte ← hexAt tmp offset 2
      let bytes ← bytesAt tmp (offset + 2) count
      return byte.setWidth 8 :: bytes

/-- The files by the addresses that are their names, which of them is open, and
the names in the order in which `buf` lists them. -/
structure Unpacked where
  upper : Ulong
  next : Ulong
  out : Option Ulong
  files : AList fun _ : Ulong => List Byte
  created : List Ulong

/-- Nothing has been unpacked. -/
def Unpacked.start : Unpacked :=
  { upper := 0, next := 0, out := none, files := ∅, created := [] }

structure Unhex where
  tmp : Vector Byte sizeofTmp
  n : Nat
  dest : Unpacked

/-- `fopen(path, "wb")`, unless the file that is open goes on at `addr`. -/
def Unpacked.open (d : Unpacked) (addr : Ulong) : Unpacked :=
  if d.out = none ∨ d.next ≠ addr then
    { d with
      out := some addr
      files := d.files.insert addr []
      created := d.created ++ [addr] }
  else d

/-- Bytes written to the file that is open. -/
def Unpacked.write (d : Unpacked) (bytes : List Byte) : Unpacked :=
  match d.out with
  | some name =>
      { d with files := d.files.insert name ((d.files.lookup name).getD [] ++ bytes) }
  | none => d

/-- What is done at the end of a line. -/
def Unhex.line (st : Unhex) : Except HexStop Unhex := do
  let len := ((← hexAt st.tmp 1 2).setWidth 32).toInt
  let lower ← hexAt st.tmp 3 4
  let type := ((← hexAt st.tmp 7 2).setWidth 32).toInt
  let addr := st.dest.upper ||| lower
  if st.tmp[0] ≠ colon then .error .noColon
  else if (st.n : Int) ≠ 1 + 2 + 4 + 2 + len * 2 + 2 then .error (.badLength st.n len)
  else if type = 0 then
    let bytes ← bytesAt st.tmp 9 len.toNat
    let dest := (st.dest.open addr).write bytes
    return { st with n := 0, dest := { dest with next := addr + BitVec.ofInt 64 len } }
  else if type = 1 then
    return { st with n := 0, dest := { st.dest with out := none } }
  else if type = 4 then
    let upper ← hexAt st.tmp 9 4
    return { st with n := 0, dest := { st.dest with upper := upper <<< 16 } }
  else return { st with n := 0 }

/-- `isspace` -/
def isSpace (c : Byte) : Bool := c == 32 || (9 ≤ c && c ≤ 13)

def Unhex.char (st : Unhex) (c : Byte) : Except HexStop Unhex := do
  let st ←
    if isSpace c then .ok st
    else if h : st.n < sizeofTmp then .ok { st with tmp := st.tmp.set st.n c, n := st.n + 1 }
    else .error .outOfBounds
  if sizeofTmp ≤ st.n ∨ c = newline then st.line else return st

/-- `unhex`: the files that are written. `tmp` is not initialised. -/
def unhex (tmp : Vector Byte sizeofTmp) (hexfile : List Byte) : Except HexStop Unpacked := do
  let st ← run Unhex.char { tmp, n := 0, dest := Unpacked.start } hexfile
  return st.dest

/-! ## Inside the buffer -/

theorem hexAt_ok {tmp : Vector Byte sizeofTmp} {offset len : Nat} (h : offset + len ≤ sizeofTmp) :
    hexAt tmp offset len = .ok (hexToUl ((tmp.toList.drop offset).take len)) := if_pos h

theorem bytesAt_ok {tmp : Vector Byte sizeofTmp} {offset count : Nat}
    (h : offset + 2 * count ≤ sizeofTmp) : ∃ bytes, bytesAt tmp offset count = .ok bytes := by
  induction count generalizing offset with
  | zero => exact ⟨[], rfl⟩
  | succ count ih =>
      obtain ⟨bytes, hbytes⟩ := ih (by omega : offset + 2 + 2 * count ≤ sizeofTmp)
      exact ⟨_, bind_ok_iff.mpr ⟨_, hexAt_ok (by omega), bind_ok_iff.mpr ⟨bytes, hbytes, rfl⟩⟩⟩

/-- A line once its head has been read. -/
theorem line_eq (st : Unhex) :
    st.line =
      let len := ((hexToUl ((st.tmp.toList.drop 1).take 2)).setWidth 32).toInt
      let lower := hexToUl ((st.tmp.toList.drop 3).take 4)
      let type := ((hexToUl ((st.tmp.toList.drop 7).take 2)).setWidth 32).toInt
      let addr := st.dest.upper ||| lower
      if st.tmp[0] ≠ colon then .error .noColon
      else if (st.n : Int) ≠ 1 + 2 + 4 + 2 + len * 2 + 2 then .error (.badLength st.n len)
      else if type = 0 then do
        let bytes ← bytesAt st.tmp 9 len.toNat
        let dest := (st.dest.open addr).write bytes
        return { st with n := 0, dest := { dest with next := addr + BitVec.ofInt 64 len } }
      else if type = 1 then
        .ok { st with n := 0, dest := { st.dest with out := none } }
      else if type = 4 then
        .ok { st with
          n := 0
          dest := { st.dest with upper := hexToUl ((st.tmp.toList.drop 9).take 4) <<< 16 } }
      else .ok { st with n := 0 } := by
  rfl

/-- A line that fits into the buffer is read inside it, and is used up. -/
theorem line_inside {st : Unhex} (hn : st.n ≤ sizeofTmp) :
    st.line ≠ .error .outOfBounds ∧ ∀ st', st.line = .ok st' → st'.n = 0 := by
  rw [line_eq]
  dsimp only
  split_ifs with hcolon hlen htype
  · simp
  · simp
  · have hsize : sizeofTmp = 600 := rfl
    obtain ⟨bytes, hbytes⟩ := @bytesAt_ok st.tmp 9
      ((hexToUl ((st.tmp.toList.drop 1).take 2)).setWidth 32).toInt.toNat (by omega)
    rw [hbytes]
    simp [bind, Except.bind, pure, Except.pure]
  all_goals simp

theorem char_inside {st : Unhex} (hn : st.n < sizeofTmp) (c : Byte) :
    st.char c ≠ .error .outOfBounds ∧ ∀ st', st.char c = .ok st' → st'.n < sizeofTmp := by
  obtain ⟨st₁, hst₁, hle⟩ : ∃ st₁ : Unhex, st₁.n ≤ sizeofTmp
      ∧ st.char c = if sizeofTmp ≤ st₁.n ∨ c = newline then st₁.line else .ok st₁ := by
    cases hspace : isSpace c with
    | true => exact ⟨st, by omega, by rw [Unhex.char, if_pos hspace]; rfl⟩
    | false =>
        refine ⟨{ st with tmp := st.tmp.set st.n c, n := st.n + 1 }, hn, ?_⟩
        rw [Unhex.char, if_neg (by simp [hspace]), dif_pos hn]
        rfl
  rw [hle]
  have hline := line_inside hst₁
  split
  · refine ⟨hline.1, fun st' h => ?_⟩
    rw [hline.2 st' h]
    decide
  · rename_i hmore
    refine ⟨by simp, fun st' h => ?_⟩
    cases h
    omega

/-- **`unhex` stays inside its buffer**, whatever the file is and whatever the
buffer holds at first: a line may be too long, too short or end anywhere. -/
theorem unhex_in_bounds (tmp : Vector Byte sizeofTmp) (hexfile : List Byte) :
    unhex tmp hexfile ≠ .error .outOfBounds := by
  intro h
  rw [unhex, bind_pure_error_iff] at h
  exact run_error (P := fun st => st.n < sizeofTmp) (Q := fun e => e ≠ .outOfBounds)
    (fun st c st' hn hstep => (char_inside hn c).2 st' hstep)
    (fun st c e hn hstep he => (char_inside hn c).1 (he ▸ hstep)) (Nat.zero_lt_succ _) h rfl

/-! ## What is printed, read again -/

theorem digitValue_hexDigit {v : Nat} (h : v < 16) :
    digitValue (hexDigit v) = BitVec.ofNat 64 v := by
  have hall : ∀ v < 16, digitValue (hexDigit v) = BitVec.ofNat 64 v := by decide +kernel
  exact hall v h

theorem isSpace_hexDigit {v : Nat} (h : v < 16) : isSpace (hexDigit v) = false := by
  have hall : ∀ v < 16, isSpace (hexDigit v) = false := by decide +kernel
  exact hall v h

/-- One more digit. -/
theorem or_digit {a v : Nat} (ha : a < 2 ^ 16) (hv : v < 16) :
    BitVec.ofNat 64 a <<< 4 ||| digitValue (hexDigit v) = BitVec.ofNat 64 (16 * a + v) := by
  rw [digitValue_hexDigit hv]
  apply BitVec.eq_of_toNat_eq
  rw [BitVec.toNat_or, BitVec.toNat_shiftLeft, BitVec.toNat_ofNat, BitVec.toNat_ofNat,
    BitVec.toNat_ofNat, Nat.mod_eq_of_lt (by omega : a < 2 ^ 64),
    Nat.mod_eq_of_lt (by omega : v < 2 ^ 64), Nat.shiftLeft_eq,
    Nat.mod_eq_of_lt (by omega : a * 2 ^ 4 < 2 ^ 64),
    Nat.mod_eq_of_lt (by omega : 16 * a + v < 2 ^ 64), Nat.mul_comm a,
    ← Nat.two_pow_add_eq_or_of_lt (by omega : v < 2 ^ 4)]

/-- Two more digits. -/
theorem foldl_hex2 {a : Nat} (ha : a < 256) (b : Byte) :
    (hex2 b).foldl (fun (v : Ulong) c => v <<< 4 ||| digitValue c) (BitVec.ofNat 64 a)
      = BitVec.ofNat 64 (256 * a + b.toNat) := by
  have hb : b.toNat < 256 := b.isLt
  rw [hex2, List.foldl_cons, List.foldl_cons, List.foldl_nil, or_digit (by omega) (by omega),
    or_digit (by omega) (by omega)]
  congr 1
  omega

theorem hexToUl_hex2 (b : Byte) : hexToUl (hex2 b) = b.setWidth 64 := by
  have hfold := foldl_hex2 (by omega : 0 < 256) b
  rw [Nat.mul_zero, Nat.zero_add, BitVec.ofNat_toNat] at hfold
  exact hfold

/-- Two bytes, the upper one first. -/
theorem hexToUl_pair (x y : Byte) :
    hexToUl (hex2 x ++ hex2 y) = BitVec.ofNat 64 (256 * x.toNat + y.toNat) := by
  have hfold := foldl_hex2 (by omega : 0 < 256) x
  rw [Nat.mul_zero, Nat.zero_add] at hfold
  rw [hexToUl, List.foldl_append]
  show List.foldl _ (List.foldl _ (BitVec.ofNat 64 0) _) _ = _
  rw [hfold, foldl_hex2 x.isLt]

theorem hexToUl_hex4 (h : BitVec 16) : hexToUl (hex4 h) = h.setWidth 64 := by
  have hbytes : 256 * (byteOf h 1).toNat + (byteOf h 0).toNat = h.toNat := by
    simp only [byteOf, BitVec.extractLsb'_toNat]
    omega
  rw [hex4, hexToUl_pair, hbytes, BitVec.ofNat_toNat]

theorem hex2_length (b : Byte) : (hex2 b).length = 2 := rfl

theorem hex4_length (h : BitVec 16) : (hex4 h).length = 4 := rfl

theorem flatMap_hex2_length (buf : List Byte) : (buf.flatMap hex2).length = 2 * buf.length := by
  induction buf with
  | nil => rfl
  | cons b buf ih =>
      rw [List.flatMap_cons, List.length_append, ih, hex2_length, List.length_cons]
      omega

theorem hexLine_length (type : Byte) (addr : BitVec 16) (buf : List Byte) :
    (hexLine type addr buf).length = 11 + 2 * buf.length := by
  simp only [hexLine, List.length_cons, List.length_append, hex2_length, hex4_length,
    flatMap_hex2_length]
  omega

theorem isSpace_hex2 {b c : Byte} (h : c ∈ hex2 b) : isSpace c = false := by
  have hb : b.toNat < 256 := b.isLt
  simp only [hex2, List.mem_cons, List.not_mem_nil, or_false] at h
  rcases h with rfl | rfl
  · exact isSpace_hexDigit (by omega)
  · exact isSpace_hexDigit (by omega)

/-- No line has white space in it. -/
theorem isSpace_hexLine {type : Byte} {addr : BitVec 16} {buf : List Byte} {c : Byte}
    (h : c ∈ hexLine type addr buf) : isSpace c = false := by
  simp only [hexLine, hex4, List.mem_cons, List.mem_append, List.mem_flatMap] at h
  rcases h with rfl | h | (h | h) | h | ⟨b, -, h⟩ | h
  · decide
  all_goals exact isSpace_hex2 h

/-! ## One line -/

/-- The buffer after some characters have been put to its front. -/
def filled (tmp : Vector Byte sizeofTmp) (text : List Byte) : Vector Byte sizeofTmp :=
  Vector.ofFn fun i => text[i.val]?.getD tmp[i]

theorem filled_getElem {tmp : Vector Byte sizeofTmp} {text : List Byte} {i : Nat}
    (hi : i < sizeofTmp) : (filled tmp text)[i] = text[i]?.getD tmp[i] := by
  rw [filled, Vector.getElem_ofFn]
  rfl

theorem filled_snoc {tmp : Vector Byte sizeofTmp} {text : List Byte} {c : Byte}
    (h : text.length < sizeofTmp) :
    (filled tmp text).set text.length c = filled tmp (text ++ [c]) := by
  apply Vector.ext
  intro i hi
  rw [Vector.getElem_set, filled_getElem hi, filled_getElem hi]
  split
  · rename_i heq
    subst heq
    rw [List.getElem?_append_right (Nat.le_refl _), Nat.sub_self]
    rfl
  · by_cases hlt : i < text.length
    · rw [List.getElem?_append_left hlt]
    · rw [List.getElem?_eq_none (by omega), List.getElem?_eq_none (by simp; omega)]

/-- What is read from the front of the buffer is what has been put there. -/
theorem filled_drop_take {tmp : Vector Byte sizeofTmp} {text : List Byte} {offset len : Nat}
    (h : offset + len ≤ text.length) (htext : text.length ≤ sizeofTmp) :
    ((filled tmp text).toList.drop offset).take len = (text.drop offset).take len := by
  apply List.ext_getElem
  · rw [List.length_take, List.length_take, List.length_drop, List.length_drop,
      Vector.length_toList]
    omega
  · intro i hi hi'
    rw [List.length_take, List.length_drop] at hi'
    rw [List.getElem_take, List.getElem_take, List.getElem_drop, List.getElem_drop,
      Vector.getElem_toList, filled_getElem (by omega), List.getElem?_eq_getElem (by omega)]
    rfl

/-- The characters of a line, from an empty buffer. -/
theorem run_text {text : List Byte} (hspace : ∀ c ∈ text, isSpace c = false)
    (hlen : text.length < sizeofTmp) {st : Unhex} (hn : st.n = 0) :
    run Unhex.char st text
      = .ok { st with tmp := filled st.tmp text, n := text.length } := by
  induction text using List.reverseRecOn with
  | nil =>
      have htmp : filled st.tmp [] = st.tmp := by
        apply Vector.ext
        intro i hi
        rw [filled_getElem hi]
        rfl
      rw [htmp, List.length_nil, ← hn]
      rfl
  | append_singleton text c ih =>
      rw [List.length_append, List.length_singleton] at hlen
      have hc : isSpace c = false := hspace c (by simp)
      have hnewline : c ≠ newline := by
        rintro rfl
        exact absurd hc (by decide)
      refine run_snoc_ok.mpr
        ⟨_, ih (fun d hd => hspace d (List.mem_append_left _ hd)) (by omega), ?_⟩
      rw [Unhex.char, if_neg (by simp [hc]), dif_pos (by omega : text.length < sizeofTmp)]
      dsimp only
      rw [filled_snoc (by omega)]
      change (if sizeofTmp ≤ text.length + 1 ∨ c = newline then _ else _) = _
      rw [if_neg (by simp [hnewline]; omega), List.length_append]
      rfl

/-- What `unhex` does with a record, by its type. -/
def Unpacked.record (d : Unpacked) (type : Byte) (addr : BitVec 16) (buf : List Byte) :
    Unpacked :=
  if type = 0 then
    let addr := d.upper ||| addr.setWidth 64
    { (d.open addr).write buf with next := addr + BitVec.ofNat 64 buf.length }
  else if type = 1 then { d with out := none }
  else if type = 4 then { d with upper := hexToUl ((buf.flatMap hex2).take 4) <<< 16 }
  else d

theorem hexLine_head (type : Byte) (addr : BitVec 16) (buf : List Byte) :
    ((hexLine type addr buf).drop 1).take 2 = hex2 (BitVec.ofNat 8 buf.length)
      ∧ ((hexLine type addr buf).drop 3).take 4 = hex4 addr
      ∧ ((hexLine type addr buf).drop 7).take 2 = hex2 type :=
  ⟨rfl, rfl, rfl⟩

/-- The bytes of a record, from where they begin in the buffer. -/
theorem bytesAt_filled {tmp : Vector Byte sizeofTmp} {text : List Byte} {offset : Nat}
    {buf back : List Byte} (htext : text.drop offset = buf.flatMap hex2 ++ back)
    (hlen : text.length ≤ sizeofTmp) :
    bytesAt (filled tmp text) offset buf.length = .ok buf := by
  induction buf generalizing offset with
  | nil => rfl
  | cons b buf ih =>
      have hfit : offset + (2 + 2 * buf.length + back.length) = text.length := by
        have hlength := congrArg List.length htext
        rw [List.length_drop, List.length_append, flatMap_hex2_length, List.length_cons] at hlength
        omega
      rw [List.flatMap_cons, List.append_assoc] at htext
      have htake : (text.drop offset).take 2 = hex2 b := by
        rw [htext]
        rfl
      have hrest : text.drop (offset + 2) = buf.flatMap hex2 ++ back := by
        rw [← List.drop_drop, htext]
        rfl
      refine bind_ok_iff.mpr ⟨b.setWidth 64, ?_, bind_ok_iff.mpr ⟨buf, ih hrest, ?_⟩⟩
      · rw [hexAt_ok (by omega), filled_drop_take (by omega) hlen, htake, hexToUl_hex2]
      · rw [BitVec.setWidth_setWidth_of_le _ (by omega), BitVec.setWidth_eq]
        rfl

theorem toInt_byte (b : Byte) : (((b.setWidth 64).setWidth 32 : Word)).toInt = b.toNat := by
  have hb : b.toNat < 256 := b.isLt
  have hnat : ((b.setWidth 64).setWidth 32 : Word).toNat = b.toNat := by
    simp only [BitVec.toNat_setWidth]
    omega
  rw [BitVec.toInt_eq_toNat_of_lt (by omega), hnat]

/-- **One line** is its record. -/
theorem unhex_line {type : Byte} {addr : BitVec 16} {buf : List Byte} (hshort : buf.length < 256)
    (hupper : type = 4 → 2 ≤ buf.length) {st : Unhex} (hn : st.n = 0) :
    ∃ tmp, run Unhex.char st (printhexline type addr buf)
      = .ok { tmp := tmp, n := 0, dest := st.dest.record type addr buf } := by
  have hlength := hexLine_length type addr buf
  have hsize : sizeofTmp = 600 := rfl
  have hfit : (hexLine type addr buf).length ≤ sizeofTmp := by omega
  obtain ⟨hhead, haddr, htype⟩ := hexLine_head type addr buf
  refine ⟨filled st.tmp (hexLine type addr buf), run_snoc_ok.mpr
    ⟨_, run_text (fun c hc => isSpace_hexLine hc) (by omega) hn, ?_⟩⟩
  rw [Unhex.char, if_pos (by decide)]
  change (if sizeofTmp ≤ (hexLine type addr buf).length ∨ newline = newline then _ else _) = _
  rw [if_pos (.inr rfl), line_eq]
  dsimp only
  have hcolon : (filled st.tmp (hexLine type addr buf))[0] = colon := by
    rw [filled_getElem (by omega)]
    rfl
  have hlen : (BitVec.ofNat 8 buf.length).toNat = buf.length := Nat.mod_eq_of_lt hshort
  have hdata : (hexLine type addr buf).drop 9 = buf.flatMap hex2
      ++ hex2 ((~~~ hexSum type addr buf + 1).setWidth 8) := rfl
  rw [filled_drop_take (by omega) hfit, filled_drop_take (by omega) hfit,
    filled_drop_take (by omega) hfit, hhead, haddr, htype, hexToUl_hex2, hexToUl_hex4,
    hexToUl_hex2, toInt_byte, toInt_byte, hlen, if_neg (not_not.mpr hcolon),
    if_neg (by omega), Int.toNat_natCast]
  have hbyte (v : Nat) (hv : v < 256) : ((type.toNat : Int) = v) ↔ type = BitVec.ofNat 8 v := by
    rw [Int.ofNat_inj, BitVec.toNat_eq, BitVec.toNat_ofNat, Nat.mod_eq_of_lt hv]
  have hzero : (type.toNat : Int) = 0 ↔ type = 0 := hbyte 0 (by omega)
  have hone : (type.toNat : Int) = 1 ↔ type = 1 := hbyte 1 (by omega)
  have hfour : (type.toNat : Int) = 4 ↔ type = 4 := hbyte 4 (by omega)
  simp only [hzero, hone, hfour]
  unfold Unpacked.record
  by_cases htype0 : type = 0
  · rw [if_pos htype0, if_pos htype0, bytesAt_filled hdata hfit, BitVec.ofInt_natCast]
    rfl
  · rw [if_neg htype0, if_neg htype0]
    by_cases htype1 : type = 1
    · rw [if_pos htype1, if_pos htype1]
    · rw [if_neg htype1, if_neg htype1]
      by_cases htype4 : type = 4
      · have htwo := hupper htype4
        rw [if_pos htype4, if_pos htype4, filled_drop_take (by omega) hfit, hdata,
          List.take_append_of_le_length (by rw [flatMap_hex2_length]; omega)]
      · rw [if_neg htype4, if_neg htype4]

end RiscvTe.Esputil
