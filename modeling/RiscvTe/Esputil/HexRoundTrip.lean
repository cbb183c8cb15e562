import RiscvTe.Esputil.Hex

/-!
# From `mkhex` to `unhex`

`mkhex` prints a file as the records of its lines. `unhex` gets the file back
under its address, unless a line begins 1 to 15 bytes behind a multiple of 64K:
then the upper half of the address is printed too early or not at all, and the
rest of the file ends up 64K below (`hex_round_trip_iff`).

Several files come back each under its own address, if none begins where the
one before it ends (`hex_round_trip`).
-/

namespace RiscvTe.Esputil

open Memory EventRun

/-! ## Records -/

structure HexRecord where
  type : Byte
  addr : BitVec 16
  buf : List Byte
  deriving DecidableEq, Repr

def HexRecord.text (r : HexRecord) : List Byte := printhexline r.type r.addr r.buf

/-- The records that `unhex_line` is about. -/
def HexRecord.Printable (r : HexRecord) : Prop :=
  r.buf.length < 256 ∧ (r.type = 4 → 2 ≤ r.buf.length)

def Unpacked.apply (d : Unpacked) (r : HexRecord) : Unpacked := d.record r.type r.addr r.buf

theorem unhex_records {rs : List HexRecord} (hrs : ∀ r ∈ rs, r.Printable) {st : Unhex}
    (hn : st.n = 0) :
    ∃ tmp, run Unhex.char st (rs.flatMap HexRecord.text)
      = .ok { tmp := tmp, n := 0, dest := rs.foldl Unpacked.apply st.dest } := by
  induction rs generalizing st with
  | nil => exact ⟨st.tmp, by rw [List.flatMap_nil, List.foldl_nil, ← hn]; rfl⟩
  | cons r rs ih =>
      obtain ⟨hshort, hupper⟩ := hrs r (by simp)
      obtain ⟨tmp, hline⟩ := @unhex_line r.type r.addr r.buf hshort hupper st hn
      obtain ⟨tmp', hrest⟩ := @ih (fun r' hr' => hrs r' (List.mem_cons_of_mem _ hr'))
        { tmp := tmp, n := 0, dest := st.dest.apply r } rfl
      exact ⟨tmp', by rw [List.flatMap_cons]; exact run_append_ok.mpr ⟨_, hline, hrest⟩⟩

def upperRecord (addr : Ulong) : HexRecord :=
  { type := 4, addr := 0, buf := [byteOf addr 3, byteOf addr 2] }

def eofRecord : HexRecord := { type := 1, addr := 0, buf := [] }

/-- What is printed when the bytes at an address are flushed. -/
def flushRecords (addr : Ulong) (buf : List Byte) : List HexRecord :=
  (if 0xffff ≤ addr.toNat ∧ addr.setWidth 16 = (0 : BitVec 16) then [upperRecord addr] else [])
    ++ if 0 < buf.length then [{ type := 0, addr := addr.setWidth 16, buf }] else []

/-- The lines of a file; the last one may be empty. -/
def lineRecords (addr : Ulong) (file : List Byte) : List HexRecord :=
  if 16 ≤ file.length then
    flushRecords addr (file.take 16) ++ lineRecords (addr + 16) (file.drop 16)
  else flushRecords addr file
termination_by file.length
decreasing_by
  rw [List.length_drop]
  omega

def fileRecords (addr : Ulong) (file : List Byte) : List HexRecord :=
  upperRecord addr :: lineRecords addr file

theorem flush_eq (st : Mkhex) :
    st.flush = {
      addr := st.addr + BitVec.ofNat 64 st.buf.length
      buf := []
      out := st.out ++ (flushRecords st.addr st.buf).flatMap HexRecord.text } := by
  rw [Mkhex.flush, flushRecords]
  split_ifs <;> simp [HexRecord.text, upperRecord, printhexhiaddrline]

theorem foldl_byte_short {st : Mkhex} {bs : List Byte} (h : st.buf.length + bs.length < 16) :
    bs.foldl Mkhex.byte st = { st with buf := st.buf ++ bs } := by
  induction bs generalizing st with
  | nil => simp
  | cons b bs ih =>
      rw [List.length_cons] at h
      have hmore : ¬ 16 ≤ (st.buf ++ [b]).length := by
        rw [List.length_append, List.length_singleton]
        omega
      have hbyte : st.byte b = { st with buf := st.buf ++ [b] } := if_neg hmore
      rw [List.foldl_cons, hbyte, ih (by simp; omega)]
      simp

/-- Sixteen bytes make a line. -/
theorem foldl_byte_full {addr : Ulong} {out bs : List Byte} (h : bs.length = 16) :
    bs.foldl Mkhex.byte { addr, buf := [], out }
      = Mkhex.flush { addr, buf := bs, out } := by
  obtain ⟨front, b, rfl⟩ : ∃ front b, bs = front ++ [b] :=
    ⟨_, _, (List.dropLast_append_getLast (by rintro rfl; simp at h)).symm⟩
  rw [List.length_append, List.length_singleton] at h
  have hfront : front.foldl Mkhex.byte { addr, buf := [], out } = { addr, buf := front, out } :=
    foldl_byte_short (by rw [List.length_nil]; omega)
  have hfull : 16 ≤ (front ++ [b]).length := by
    rw [List.length_append, List.length_singleton]
    omega
  rw [List.foldl_append, hfront, List.foldl_cons, List.foldl_nil, Mkhex.byte]
  exact if_pos hfull

theorem mkhexFile_lines (addr : Ulong) (file out : List Byte) :
    (file.foldl Mkhex.byte { addr, buf := [], out }).flush.out
      = out ++ (lineRecords addr file).flatMap HexRecord.text := by
  induction h : file.length using Nat.strong_induction_on generalizing addr file out with
  | _ len ih =>
      rw [lineRecords]
      split
      · rename_i hfull
        have htake : (file.take 16).length = 16 := List.length_take_of_le hfull
        conv_lhs => rw [← List.take_append_drop 16 file]
        have hfirst := flush_eq { addr, buf := file.take 16, out }
        rw [List.foldl_append, foldl_byte_full htake, hfirst, htake,
          ih (file.drop 16).length (by rw [List.length_drop]; omega) _ _ _ rfl,
          List.flatMap_append, List.append_assoc]
        rfl
      · rename_i hshort
        rw [foldl_byte_short (by simp; omega), flush_eq]
        rfl

theorem mkhex_eq (args : List (Ulong × List Byte)) :
    mkhex args = (args.flatMap (fun arg => fileRecords arg.1 arg.2) ++ [eofRecord]).flatMap
      HexRecord.text := by
  have hfile (arg : Ulong × List Byte) :
      mkhexFile arg.1 arg.2 = (fileRecords arg.1 arg.2).flatMap HexRecord.text := by
    rw [mkhexFile, mkhexFile_lines, fileRecords, List.flatMap_cons]
    rfl
  rw [mkhex, List.flatMap_append, List.flatMap_assoc, funext hfile]
  rfl

theorem flushRecords_printable {addr : Ulong} {buf : List Byte} (h : buf.length ≤ 16) :
    ∀ r ∈ flushRecords addr buf, r.Printable := by
  intro r hr
  rcases List.mem_append.mp hr with hr | hr
  · split at hr
    · rw [List.mem_singleton.mp hr]
      exact ⟨by simp [upperRecord], fun _ => by simp [upperRecord]⟩
    · cases hr
  · split at hr
    · rw [List.mem_singleton.mp hr]
      exact ⟨by dsimp only; omega, fun h4 => by cases h4⟩
    · cases hr

theorem lineRecords_printable (addr : Ulong) (file : List Byte) :
    ∀ r ∈ lineRecords addr file, r.Printable := by
  induction h : file.length using Nat.strong_induction_on generalizing addr file with
  | _ len ih =>
      rw [lineRecords]
      split
      · intro r hr
        rcases List.mem_append.mp hr with hr | hr
        · exact flushRecords_printable (by simp) r hr
        · exact ih _ (by rw [List.length_drop]; omega) _ _ rfl r hr
      · exact flushRecords_printable (by omega)

theorem mkhexRecords_printable (args : List (Ulong × List Byte)) :
    ∀ r ∈ args.flatMap (fun arg => fileRecords arg.1 arg.2) ++ [eofRecord], r.Printable := by
  intro r hr
  rcases List.mem_append.mp hr with hr | hr
  · obtain ⟨arg, -, hr⟩ := List.mem_flatMap.mp hr
    rcases List.mem_cons.mp hr with rfl | hr
    · exact ⟨by simp [upperRecord], fun _ => by simp [upperRecord]⟩
    · exact lineRecords_printable _ _ r hr
  · rw [List.mem_singleton.mp hr]
    exact ⟨by simp [eofRecord], fun h4 => by cases h4⟩

/-- What `unhex` makes of what `mkhex` has printed. -/
theorem unhex_mkhex (tmp : Vector Byte sizeofTmp) (args : List (Ulong × List Byte)) :
    unhex tmp (mkhex args)
      = .ok ((args.flatMap (fun arg => fileRecords arg.1 arg.2) ++ [eofRecord]).foldl
          Unpacked.apply Unpacked.start) := by
  obtain ⟨tmp', hrun⟩ := @unhex_records _ (mkhexRecords_printable args)
    { tmp, n := 0, dest := Unpacked.start } rfl
  rw [unhex, mkhex_eq, hrun]
  rfl

/-! ## Valid lines -/

/-- The bytes of an Intel HEX line: the number of data bytes, the address, the
type, the data, and the byte that makes the sum zero. -/
def HexBytes (bytes : List Byte) : Prop :=
  ∃ len a1 a0 type data cs, bytes = [len, a1, a0, type] ++ data ++ [cs]
    ∧ data.length = len.toNat ∧ bytes.sum = 0

/-- The sum, of which the last two digits count. -/
theorem hexSum_setWidth (type : Byte) (addr : BitVec 16) (buf : List Byte) :
    (hexSum type addr buf).setWidth 8
      = type + BitVec.ofNat 8 buf.length + byteOf addr 1 + byteOf addr 0 + buf.sum := by
  have hfold (start : Word) : (buf.foldl (fun cs b => cs + b.setWidth 32) start).setWidth 8
      = start.setWidth 8 + buf.sum := by
    induction buf generalizing start with
    | nil => simp
    | cons b buf ih =>
        have hb : (b.setWidth 32).setWidth 8 = b := by
          rw [BitVec.setWidth_setWidth_of_le _ (by omega), BitVec.setWidth_eq]
        rw [List.foldl_cons, ih, List.sum_cons, BitVec.setWidth_add _ _ (by omega), hb, add_assoc]
  have hlen : (BitVec.ofNat 32 buf.length).setWidth 8 = BitVec.ofNat 8 buf.length :=
    BitVec.setWidth_ofNat_of_le (by omega) _
  have hbyte (b : Byte) : (b.setWidth 32).setWidth 8 = b := by
    rw [BitVec.setWidth_setWidth_of_le _ (by omega), BitVec.setWidth_eq]
  rw [hexSum, hfold, BitVec.setWidth_add _ _ (by omega), BitVec.setWidth_add _ _ (by omega),
    BitVec.setWidth_add _ _ (by omega), hbyte, hbyte, hbyte, hlen]

theorem text_valid (r : HexRecord) (hshort : r.buf.length < 256) :
    ∃ bytes, HexBytes bytes
      ∧ r.text = colon :: (bytes.flatMap hex2 ++ [newline]) := by
  have hsum := hexSum_setWidth r.type r.addr r.buf
  have hneg : (~~~ hexSum r.type r.addr r.buf + 1).setWidth 8
      = - (hexSum r.type r.addr r.buf).setWidth 8 := by
    generalize hexSum r.type r.addr r.buf = cs
    have hone : (1 : Word).toNat = 1 := rfl
    apply BitVec.eq_of_toNat_eq
    simp only [BitVec.toNat_setWidth, BitVec.toNat_add, BitVec.toNat_not, BitVec.toNat_neg, hone]
    omega
  refine ⟨[BitVec.ofNat 8 r.buf.length, byteOf r.addr 1, byteOf r.addr 0, r.type] ++ r.buf
    ++ [(~~~ hexSum r.type r.addr r.buf + 1).setWidth 8],
    ⟨_, _, _, _, _, _, rfl, (Nat.mod_eq_of_lt hshort).symm, ?_⟩, ?_⟩
  · rw [hneg, hsum]
    simp only [List.sum_append, List.sum_cons, List.sum_nil]
    ring
  · simp [HexRecord.text, printhexline, hexLine, hex4]

/-- **What `mkhex` prints** are Intel HEX lines. -/
theorem mkhex_valid (args : List (Ulong × List Byte)) :
    ∃ lines : List (List Byte), (∀ bytes ∈ lines, HexBytes bytes)
      ∧ mkhex args = lines.flatMap fun bytes => colon :: (bytes.flatMap hex2 ++ [newline]) := by
  rw [mkhex_eq]
  have hprintable := mkhexRecords_printable args
  generalize args.flatMap (fun arg => fileRecords arg.1 arg.2) ++ [eofRecord] = rs at hprintable ⊢
  induction rs with
  | nil => exact ⟨[], by simp, rfl⟩
  | cons r rs ih =>
      obtain ⟨bytes, hbytes, htext⟩ := text_valid r (hprintable r (by simp)).1
      obtain ⟨lines, hlines, hrest⟩ := ih fun r' hr' => hprintable r' (List.mem_cons_of_mem _ hr')
      refine ⟨bytes :: lines, ?_, ?_⟩
      · exact List.forall_mem_cons.mpr ⟨hbytes, hlines⟩
      · rw [List.flatMap_cons, htext, hrest, List.flatMap_cons]

/-! ## Addresses -/

/-- The address of the 64K that an address is in. -/
def pageOf (a : Ulong) : Ulong := BitVec.ofNat 64 (a.toNat / 65536 * 65536)

/-- An upper half and a lower half. -/
theorem pageOf_or (a b : Ulong) :
    (pageOf a ||| (b.setWidth 16).setWidth 64).toNat
      = a.toNat / 65536 * 65536 + b.toNat % 65536 := by
  have ha : a.toNat < 2 ^ 64 := a.isLt
  have hsum := Nat.two_pow_add_eq_or_of_lt (Nat.mod_lt b.toNat (by omega : 0 < 2 ^ 16))
    (a.toNat / 65536)
  rw [BitVec.toNat_or, pageOf, BitVec.toNat_ofNat, BitVec.toNat_setWidth, BitVec.toNat_setWidth,
    Nat.mod_eq_of_lt (by omega : a.toNat / 65536 * 65536 < 2 ^ 64),
    Nat.mod_eq_of_lt (by omega : b.toNat % 2 ^ 16 < 2 ^ 64), Nat.mul_comm]
  exact hsum.symm

theorem pageOf_or_self (a : Ulong) : pageOf a ||| (a.setWidth 16).setWidth 64 = a := by
  apply BitVec.eq_of_toNat_eq
  rw [pageOf_or]
  omega

theorem apply_upper (d : Unpacked) {a : Ulong} (ha : a.toNat < 2 ^ 32) :
    d.apply (upperRecord a) = { d with upper := pageOf a } := by
  have hpage : hexToUl (hex2 (byteOf a 3) ++ hex2 (byteOf a 2)) <<< 16 = pageOf a := by
    rw [hexToUl_pair]
    apply BitVec.eq_of_toNat_eq
    simp only [pageOf, byteOf, BitVec.toNat_shiftLeft, BitVec.toNat_ofNat,
      BitVec.extractLsb'_toNat, Nat.shiftLeft_eq, Nat.shiftRight_eq_div_pow]
    omega
  have htype : (upperRecord a).type = 4 := rfl
  rw [Unpacked.apply, Unpacked.record, htype, if_neg (by decide), if_neg (by decide), if_pos rfl,
    ← hpage]
  rfl

theorem apply_data (d : Unpacked) (low : BitVec 16) (buf : List Byte) :
    d.apply { type := 0, addr := low, buf }
      = { (d.open (d.upper ||| low.setWidth 64)).write buf with
          next := (d.upper ||| low.setWidth 64) + BitVec.ofNat 64 buf.length } := by
  rw [Unpacked.apply, Unpacked.record, if_pos rfl]

theorem low_eq_zero {a : Ulong} : a.setWidth 16 = (0 : BitVec 16) ↔ a.toNat % 65536 = 0 := by
  rw [← BitVec.toNat_inj, BitVec.toNat_setWidth]
  rfl

/-- In front of the lines, and between them: the upper half of the address has
been printed, or will be printed next. -/
def Announced (d : Unpacked) (a : Ulong) : Prop :=
  d.upper = pageOf a ∨ (0xffff ≤ a.toNat ∧ a.toNat % 65536 = 0)

/-- A line that is announced is put at its address. -/
theorem flush_apply {d : Unpacked} {a : Ulong} {buf : List Byte} (ha : a.toNat < 2 ^ 32)
    (hbuf : buf ≠ []) (hupper : Announced d a) :
    (flushRecords a buf).foldl Unpacked.apply d
      = { (Unpacked.open { d with upper := pageOf a } a).write buf with
          next := a + BitVec.ofNat 64 buf.length } := by
  have hlen : 0 < buf.length := List.length_pos_iff.mpr hbuf
  rw [flushRecords, if_pos hlen, List.foldl_append, List.foldl_cons, List.foldl_nil]
  by_cases hpage : 0xffff ≤ a.toNat ∧ a.setWidth 16 = (0 : BitVec 16)
  · rw [if_pos hpage, List.foldl_cons, List.foldl_nil, apply_upper d ha, apply_data,
      pageOf_or_self]
  · have hsame : d.upper = pageOf a := by
      rcases hupper with h | h
      · exact h
      · exact absurd ⟨h.1, low_eq_zero.mpr h.2⟩ hpage
    rw [if_neg hpage, List.foldl_nil, apply_data, hsame, pageOf_or_self]
    rw [← hsame]

/-- An empty line at the end changes no file. -/
theorem flush_apply_nil (d : Unpacked) (a : Ulong) :
    ∃ upper, (flushRecords a []).foldl Unpacked.apply d = { d with upper } := by
  have htype : (upperRecord a).type = 4 := rfl
  rw [flushRecords, if_neg (by simp : ¬ 0 < ([] : List Byte).length), List.append_nil]
  split
  · rw [List.foldl_cons, List.foldl_nil, Unpacked.apply, Unpacked.record, htype,
      if_neg (by decide), if_neg (by decide), if_pos rfl]
    exact ⟨_, rfl⟩
  · exact ⟨d.upper, rfl⟩

/-! ## The file that is open goes on -/

/-- `name` is open, has `done` in it, and goes on at `a`. -/
structure GoesOn (d : Unpacked) (name a : Ulong) (done : List Byte) : Prop where
  out : d.out = some name
  next : d.next = a
  file : d.files.lookup name = some done

/-- The other files are as they were; these have been created. -/
structure SameElse (d d' : Unpacked) (name : Ulong) (opened : List Ulong) : Prop where
  files : ∀ b, b ≠ name → d'.files.lookup b = d.files.lookup b
  created : d'.created = d.created ++ opened

theorem SameElse.trans {d d₁ d' : Unpacked} {name : Ulong} {xs ys : List Ulong}
    (h : SameElse d d₁ name xs) (h' : SameElse d₁ d' name ys) : SameElse d d' name (xs ++ ys) :=
  ⟨fun b hb => (h'.files b hb).trans (h.files b hb),
    by rw [h'.created, h.created, List.append_assoc]⟩

/-- No line but the first begins 1 to 15 bytes behind a multiple of 64K. -/
def Paged (a len : Nat) : Prop :=
  ∀ k, 0 < k → k % 16 = 0 → k < len → 16 ≤ (a + k) % 65536 ∨ (a + k) % 65536 = 0

theorem GoesOn.flush {d : Unpacked} {name a : Ulong} {done buf : List Byte}
    (h : GoesOn d name a done) (ha : a.toNat < 2 ^ 32) (hbuf : buf ≠ []) (hann : Announced d a) :
    ∃ d', (flushRecords a buf).foldl Unpacked.apply d = d'
      ∧ GoesOn d' name (a + BitVec.ofNat 64 buf.length) (done ++ buf)
      ∧ SameElse d d' name [] ∧ d'.upper = pageOf a := by
  have hopen : Unpacked.open { d with upper := pageOf a } a = { d with upper := pageOf a } :=
    if_neg (by simp [h.out, h.next])
  refine ⟨_, flush_apply ha hbuf hann, ?_⟩
  rw [hopen, Unpacked.write, h.out]
  dsimp only
  rw [h.file, Option.getD_some]
  refine ⟨⟨rfl, rfl, AList.lookup_insert _⟩, ⟨fun b hb => ?_, (List.append_nil _).symm⟩, rfl⟩
  exact AList.lookup_insert_ne hb

/-- Behind a line, the next one is announced. -/
theorem announced_next {d : Unpacked} {a : Ulong} (hupper : d.upper = pageOf a)
    (hnext : (a + 16).toNat = a.toNat + 16)
    (hpage : 16 ≤ (a.toNat + 16) % 65536 ∨ (a.toNat + 16) % 65536 = 0) :
    Announced d (a + 16) := by
  rcases hpage with h | h
  · refine .inl ?_
    have hsame : (a.toNat + 16) / 65536 = a.toNat / 65536 := by omega
    rw [hupper, pageOf, pageOf, hnext, hsame]
  · exact .inr ⟨by omega, by omega⟩

theorem Paged.tail {a len : Nat} (h : Paged a len) : Paged (a + 16) (len - 16) := by
  intro k hk hmod hlt
  have hk' := h (16 + k) (by omega) (by omega) (by omega)
  rwa [← Nat.add_assoc] at hk'

theorem Paged.cons {a len : Nat} (h : Paged (a + 16) (len - 16))
    (hpage : 16 ≤ (a + 16) % 65536 ∨ (a + 16) % 65536 = 0) : Paged a len := by
  intro k hk hmod hlt
  by_cases hfirst : k = 16
  · exact hfirst ▸ hpage
  · have hk' := h (k - 16) (by omega) (by omega) (by omega)
    rwa [Nat.add_assoc, Nat.add_sub_cancel' (by omega)] at hk'

/-- **The lines of a file** go on with the file that is open. -/
theorem GoesOn.lines {d : Unpacked} {name a : Ulong} {done file : List Byte}
    (h : GoesOn d name a done) (hfit : a.toNat + file.length ≤ 2 ^ 32)
    (hpaged : Paged a.toNat file.length) (hann : file ≠ [] → Announced d a) :
    ∃ d', (lineRecords a file).foldl Unpacked.apply d = d'
      ∧ GoesOn d' name (a + BitVec.ofNat 64 file.length) (done ++ file)
      ∧ SameElse d d' name [] := by
  induction hlen : file.length using Nat.strong_induction_on generalizing d a done file with
  | _ len ih =>
      subst hlen
      rw [lineRecords]
      split
      · rename_i hfull
        have htake : (file.take 16).length = 16 := List.length_take_of_le hfull
        have hdrop : (file.drop 16).length = file.length - 16 := List.length_drop
        have hnext : (a + 16).toNat = a.toNat + 16 := by bv_omega
        obtain ⟨d₁, hflush, hgo, hsame, hupper⟩ := h.flush (by omega)
          (List.ne_nil_of_length_pos (by omega : 0 < (file.take 16).length))
          (hann (List.ne_nil_of_length_pos (by omega)))
        rw [htake] at hgo
        have hann' : file.drop 16 ≠ [] → Announced d₁ (a + 16) := by
          intro hne
          have hmore := List.length_pos_iff.mpr hne
          exact announced_next hupper hnext (hpaged 16 (by omega) (by omega) (by omega))
        obtain ⟨d', hrest, hgo', hsame'⟩ := ih (file.drop 16).length (by omega) hgo
          (by rw [hdrop]; exact hnext ▸ (by omega : a.toNat + 16 + (file.length - 16) ≤ 2 ^ 32))
          (by rw [hdrop]; exact hnext ▸ hpaged.tail) hann' rfl
        refine ⟨d', ?_, ?_, hsame.trans hsame'⟩
        · rw [List.foldl_append, hflush]
          exact hrest
        · have hend : a + 16 + BitVec.ofNat 64 (file.length - 16)
              = a + BitVec.ofNat 64 file.length := by bv_omega
          rw [hdrop, List.append_assoc, List.take_append_drop] at hgo'
          rwa [← hend]
      · by_cases hfile : file = []
        · subst hfile
          obtain ⟨upper, hflush⟩ := flush_apply_nil d a
          refine ⟨_, hflush, ⟨h.out, ?_, ?_⟩, fun b hb => rfl, (List.append_nil _).symm⟩
          · rw [h.next]
            simp
          · rw [List.append_nil]
            exact h.file
        · have hpos := List.length_pos_iff.mpr hfile
          obtain ⟨d', hflush, hgo, hsame, -⟩ := h.flush (by omega) hfile (hann hfile)
          exact ⟨d', hflush, hgo, hsame⟩

/-- With an empty file that begins at `a`. -/
def Unpacked.started (d : Unpacked) (a : Ulong) : Unpacked :=
  { upper := pageOf a
    next := a
    out := some a
    files := d.files.insert a []
    created := d.created ++ [a] }

/-- A file that is not the one that is open begins with an empty one. -/
theorem open_flush {d : Unpacked} {a : Ulong} (hnew : d.out = none ∨ d.next ≠ a)
    (hann : Announced d a) {buf : List Byte} (ha : a.toNat < 2 ^ 32) (hbuf : buf ≠ []) :
    (flushRecords a buf).foldl Unpacked.apply d
      = (flushRecords a buf).foldl Unpacked.apply (d.started a) := by
  have hfirst : Unpacked.open { d with upper := pageOf a } a
      = { d with
          upper := pageOf a
          out := some a
          files := d.files.insert a []
          created := d.created ++ [a] } := if_pos hnew
  have hsecond : Unpacked.open { d.started a with upper := pageOf a } a = d.started a :=
    if_neg (by simp [Unpacked.started])
  rw [flush_apply ha hbuf hann, flush_apply ha hbuf (.inl rfl), hfirst, hsecond]
  rfl

theorem lineRecords_head (a : Ulong) {file : List Byte} (hfile : file ≠ []) :
    ∃ buf rest, buf ≠ [] ∧ lineRecords a file = flushRecords a buf ++ rest := by
  rw [lineRecords]
  split
  · rename_i hfull
    exact ⟨_, _, List.ne_nil_of_length_pos (by rw [List.length_take]; omega), rfl⟩
  · exact ⟨file, [], hfile, (List.append_nil _).symm⟩

/-- What `unhex` has when the lines of a file begin. -/
theorem file_begins {d : Unpacked} {a : Ulong} {file : List Byte} (hfile : file ≠ [])
    (ha : a.toNat < 2 ^ 32) (hnew : d.out = none ∨ d.next ≠ a) :
    ∃ d₁, (fileRecords a file).foldl Unpacked.apply d
        = (lineRecords a file).foldl Unpacked.apply d₁
      ∧ GoesOn d₁ a a [] ∧ SameElse d d₁ a [a] ∧ d₁.upper = pageOf a := by
  refine ⟨d.started a, ?_, ⟨rfl, rfl, AList.lookup_insert _⟩, ⟨?_, rfl⟩, rfl⟩
  · obtain ⟨buf, rest, hbuf, hlines⟩ := lineRecords_head a hfile
    have hopen : (flushRecords a buf).foldl Unpacked.apply { d with upper := pageOf a }
        = (flushRecords a buf).foldl Unpacked.apply (d.started a) :=
      @open_flush { d with upper := pageOf a } a hnew (.inl rfl) buf ha hbuf
    rw [fileRecords, List.foldl_cons, apply_upper d ha, hlines, List.foldl_append,
      List.foldl_append, hopen]
  · exact fun b hb => AList.lookup_insert_ne hb

/-- **One file**, whatever has been unpacked before. -/
theorem file_unpacked {d : Unpacked} {a : Ulong} {file : List Byte} (hfile : file ≠ [])
    (hfit : a.toNat + file.length ≤ 2 ^ 32) (hpaged : Paged a.toNat file.length)
    (hnew : d.out = none ∨ d.next ≠ a) :
    ∃ d', (fileRecords a file).foldl Unpacked.apply d = d'
      ∧ GoesOn d' a (a + BitVec.ofNat 64 file.length) file ∧ SameElse d d' a [a] := by
  have hpos := List.length_pos_iff.mpr hfile
  obtain ⟨d₁, hbegin, hgo, hsame, hupper⟩ := file_begins hfile (by omega) hnew
  obtain ⟨d', hlines, hgo', hsame'⟩ := hgo.lines hfit hpaged fun _ => .inl hupper
  rw [List.nil_append] at hgo'
  exact ⟨d', hbegin.trans hlines, hgo', hsame.trans hsame'⟩

/-! ## Several files -/

/-- The addresses at which a file comes back. -/
def Aligned (a len : Nat) : Prop := a % 16 = 0 ∨ a % 65536 + (len - 1) / 16 * 16 < 65536

instance (a len : Nat) : Decidable (Aligned a len) := inferInstanceAs (Decidable (_ ∨ _))

theorem paged_iff {a len : Nat} (hlen : 0 < len) : Paged a len ↔ Aligned a len := by
  constructor
  · intro h
    by_contra hnot
    rw [Aligned, not_or] at hnot
    -- the first line that begins in the next 64K
    have hk := h ((65536 - a % 65536 + 15) / 16 * 16) (by omega) (by omega) (by omega)
    omega
  · intro h k hk hmod hlt
    rcases h with h | h
    · omega
    · omega

/-- A file that `mkhex` can be given. -/
def Unpackable (arg : Ulong × List Byte) : Prop :=
  arg.2 ≠ [] ∧ arg.1.toNat + arg.2.length ≤ 2 ^ 32 ∧ Aligned arg.1.toNat arg.2.length

/-- Each of the files is there and has been created; what was there before is,
unless it has been replaced. -/
theorem files_unpacked {args : List (Ulong × List Byte)} {d : Unpacked}
    (hgood : ∀ arg ∈ args, Unpackable arg) (hdistinct : (args.map Prod.fst).Nodup)
    (hapart : args.IsChain fun x y => x.1.toNat + x.2.length ≠ y.1.toNat)
    (hnew : ∀ arg ∈ args.head?, d.out = none ∨ d.next ≠ arg.1) :
    ∃ d', (args.flatMap fun arg => fileRecords arg.1 arg.2).foldl Unpacked.apply d = d'
      ∧ (∀ b, d'.files.lookup b = (args.lookup b).or (d.files.lookup b))
      ∧ d'.created = d.created ++ args.map Prod.fst := by
  induction args generalizing d with
  | nil => exact ⟨d, rfl, fun _ => rfl, (List.append_nil _).symm⟩
  | cons arg args ih =>
      obtain ⟨a, file⟩ := arg
      obtain ⟨hfile, hfit, haligned⟩ := hgood (a, file) (by simp)
      have hpos := List.length_pos_iff.mpr hfile
      obtain ⟨d₁, hd₁, hgo, hsame⟩ :=
        file_unpacked hfile hfit ((paged_iff hpos).mpr haligned) (hnew (a, file) (by simp))
      rw [List.map_cons, List.nodup_cons] at hdistinct
      have hnew' : ∀ arg ∈ args.head?, d₁.out = none ∨ d₁.next ≠ arg.1 := by
        intro arg harg
        obtain ⟨rest, rfl⟩ := List.head?_eq_some_iff.mp harg
        have hne := (List.isChain_cons_cons.mp hapart).1
        refine .inr fun heq => hne ?_
        rw [hgo.next] at heq
        rw [← heq]
        bv_omega
      obtain ⟨d', hd', hfiles, hcreated⟩ :=
        ih (fun x hx => hgood x (by simp [hx])) hdistinct.2 hapart.of_cons hnew'
      refine ⟨d', ?_, fun b => ?_, ?_⟩
      · rw [List.flatMap_cons, List.foldl_append, hd₁, hd']
      · rw [hfiles, List.lookup_cons]
        by_cases hb : b = a
        · subst hb
          have hnone : args.lookup b = none := by
            rw [List.lookup_eq_none_iff]
            intro x hx
            rw [bne_iff_ne]
            rintro rfl
            exact hdistinct.1 (List.mem_map.mpr ⟨x, hx, rfl⟩)
          rw [hnone, beq_self_eq_true, hgo.file]
          rfl
        · have hne : (b == a) = false := by simpa using hb
          rw [hne, hsame.files b hb]
      · rw [hcreated, hsame.created, List.append_assoc]
        rfl

/-! ## A line too far -/

/-- There is another file than `name`, or it has too few bytes. -/
def Broken (d : Unpacked) (name : Ulong) (len : Nat) : Prop :=
  (∃ b, b ≠ name ∧ b ∈ d.files) ∨ ∃ c, d.files.lookup name = some c ∧ c.length < len

/-- What data does to the files: one of them is written, from its start or where
it ends. -/
theorem data_files (d : Unpacked) (low : BitVec 16) (buf : List Byte) :
    ∃ name front, (d.apply { type := 0, addr := low, buf }).files
        = d.files.insert name (front ++ buf)
      ∧ (front = [] ∨ front = (d.files.lookup name).getD []) := by
  rw [apply_data]
  generalize d.upper ||| low.setWidth 64 = addr
  unfold Unpacked.open
  split
  · refine ⟨addr, [], ?_, .inl rfl⟩
    simp only [Unpacked.write, AList.lookup_insert, Option.getD_some, AList.insert_insert]
  · rename_i hgo
    rw [not_or, ← ne_eq, Option.ne_none_iff_exists'] at hgo
    obtain ⟨name, hout⟩ := hgo.1
    refine ⟨name, _, ?_, .inr rfl⟩
    rw [Unpacked.write, hout]

theorem Broken.apply {d : Unpacked} {name : Ulong} {len : Nat} (h : Broken d name len)
    (low : BitVec 16) (buf : List Byte) :
    Broken (d.apply { type := 0, addr := low, buf }) name (len + buf.length) := by
  obtain ⟨file, front, hfiles, hfront⟩ := data_files d low buf
  rw [Broken, hfiles]
  by_cases hname : file = name
  · subst hname
    rcases h with ⟨b, hb, hin⟩ | ⟨c, hc, hshort⟩
    · exact .inl ⟨b, hb, (AList.mem_insert _).mpr (.inr hin)⟩
    · refine .inr ⟨_, AList.lookup_insert _, ?_⟩
      rcases hfront with rfl | rfl
      · rw [List.nil_append]
        omega
      · rw [hc, Option.getD_some, List.length_append]
        omega
  · exact .inl ⟨file, hname, (AList.mem_insert _).mpr (.inl rfl)⟩

theorem Broken.flush {d : Unpacked} {name : Ulong} {len : Nat} (h : Broken d name len)
    (a : Ulong) (buf : List Byte) :
    Broken ((flushRecords a buf).foldl Unpacked.apply d) name (len + buf.length) := by
  have hupper : ∃ d', (if 0xffff ≤ a.toNat ∧ a.setWidth 16 = (0 : BitVec 16) then
      [upperRecord a] else []).foldl Unpacked.apply d = d' ∧ Broken d' name len := by
    obtain ⟨upper, hflush⟩ := flush_apply_nil d a
    rw [flushRecords, if_neg (by simp : ¬ 0 < ([] : List Byte).length), List.append_nil] at hflush
    exact ⟨_, hflush, h⟩
  obtain ⟨d', hd', hbroken⟩ := hupper
  rw [flushRecords, List.foldl_append, hd']
  split
  · exact hbroken.apply _ buf
  · have hnil : buf.length = 0 := by omega
    rw [hnil]
    exact hbroken

theorem Broken.lines {d : Unpacked} {name : Ulong} {len : Nat} (h : Broken d name len)
    (a : Ulong) (file : List Byte) :
    Broken ((lineRecords a file).foldl Unpacked.apply d) name (len + file.length) := by
  induction hlen : file.length using Nat.strong_induction_on generalizing d a len file with
  | _ n ih =>
      subst hlen
      rw [lineRecords]
      split
      · rename_i hfull
        have hdrop : (file.drop 16).length = file.length - 16 := List.length_drop
        have hrest := ih _ (by omega) (h.flush a (file.take 16)) (a + 16) (file.drop 16) rfl
        rw [List.length_take_of_le hfull, hdrop] at hrest
        rw [List.foldl_append]
        have hsum : len + 16 + (file.length - 16) = len + file.length := by omega
        rwa [hsum] at hrest
      · exact h.flush a file

/-- A line that begins 1 to 15 bytes behind a multiple of 64K goes 64K below. -/
theorem GoesOn.breaks {d : Unpacked} {name a : Ulong} {done buf : List Byte}
    (h : GoesOn d name (a + 16) done) (hdone : done ≠ []) (hbuf : buf ≠ [])
    (hupper : d.upper = pageOf a) (hfit : a.toNat + 16 < 2 ^ 32)
    (hpage : 0 < (a.toNat + 16) % 65536 ∧ (a.toNat + 16) % 65536 < 16) :
    Broken ((flushRecords (a + 16) buf).foldl Unpacked.apply d) name
      (done.length + buf.length) := by
  have hnext : (a + 16).toNat = a.toNat + 16 := by bv_omega
  have hnopage : ¬ (0xffff ≤ (a + 16).toNat ∧ (a + 16).setWidth 16 = (0 : BitVec 16)) := by
    rw [low_eq_zero, hnext]
    omega
  rw [flushRecords, if_neg hnopage, if_pos (List.length_pos_iff.mpr hbuf), List.nil_append,
    List.foldl_cons, List.foldl_nil, apply_data, hupper]
  have haddr := pageOf_or a (a + 16)
  generalize pageOf a ||| ((a + 16).setWidth 16).setWidth 64 = addr at haddr
  have hnew : d.out = none ∨ d.next ≠ addr := by
    refine .inr fun heq => ?_
    rw [h.next] at heq
    rw [← heq, hnext] at haddr
    omega
  have hopen : d.open addr = { d with
      out := some addr
      files := d.files.insert addr []
      created := d.created ++ [addr] } := if_pos hnew
  rw [hopen]
  simp only [Unpacked.write, AList.lookup_insert, Option.getD_some, List.nil_append,
    AList.insert_insert]
  by_cases hname : addr = name
  · subst hname
    refine .inr ⟨buf, AList.lookup_insert _, ?_⟩
    have hpos := List.length_pos_iff.mpr hdone
    omega
  · exact .inl ⟨addr, hname, (AList.mem_insert _).mpr (.inl rfl)⟩

theorem GoesOn.breaks_lines {d : Unpacked} {name a : Ulong} {done file : List Byte}
    (h : GoesOn d name (a + 16) done) (hdone : done ≠ []) (hfile : file ≠ [])
    (hupper : d.upper = pageOf a) (hfit : a.toNat + 16 < 2 ^ 32)
    (hpage : 0 < (a.toNat + 16) % 65536 ∧ (a.toNat + 16) % 65536 < 16) :
    Broken ((lineRecords (a + 16) file).foldl Unpacked.apply d) name
      (done.length + file.length) := by
  rw [lineRecords]
  split
  · rename_i hfull
    have htake : (file.take 16).length = 16 := List.length_take_of_le hfull
    have hdrop : (file.drop 16).length = file.length - 16 := List.length_drop
    have hfirst := h.breaks hdone (List.ne_nil_of_length_pos (by omega : 0 < (file.take 16).length))
      hupper hfit hpage
    have hrest := hfirst.lines (a + 16 + 16) (file.drop 16)
    rw [htake, hdrop] at hrest
    have hsum : done.length + 16 + (file.length - 16) = done.length + file.length := by omega
    rw [hsum] at hrest
    rwa [List.foldl_append]
  · exact h.breaks hdone hfile hupper hfit hpage

/-- The first line that begins too far breaks the file. -/
theorem GoesOn.lines_broken {d : Unpacked} {name a : Ulong} {done file : List Byte}
    (h : GoesOn d name a done) (hfit : a.toNat + file.length ≤ 2 ^ 32)
    (hnot : ¬ Paged a.toNat file.length) (hann : Announced d a) :
    Broken ((lineRecords a file).foldl Unpacked.apply d) name (done.length + file.length) := by
  induction hlen : file.length using Nat.strong_induction_on generalizing d a done file with
  | _ len ih =>
      subst hlen
      have hmore : 16 < file.length := by
        by_contra hshort
        exact hnot fun k hk hmod hlt => by omega
      have htake : (file.take 16).length = 16 := List.length_take_of_le (by omega)
      have hdrop : (file.drop 16).length = file.length - 16 := List.length_drop
      have hnext : (a + 16).toNat = a.toNat + 16 := by bv_omega
      have hne : file.drop 16 ≠ [] := List.ne_nil_of_length_pos (by omega)
      obtain ⟨d₁, hflush, hgo, -, hupper⟩ := h.flush (by omega)
        (List.ne_nil_of_length_pos (by omega : 0 < (file.take 16).length)) hann
      rw [htake] at hgo
      have hsum : (done ++ file.take 16).length + (file.drop 16).length
          = done.length + file.length := by
        rw [List.length_append]
        omega
      rw [lineRecords, if_pos (by omega), List.foldl_append, hflush, ← hsum]
      by_cases hpage : 16 ≤ (a.toNat + 16) % 65536 ∨ (a.toNat + 16) % 65536 = 0
      · refine ih _ (by omega) hgo ?_ ?_ (announced_next hupper hnext hpage) rfl
        · omega
        · intro htail
          rw [hnext, hdrop] at htail
          exact hnot (htail.cons hpage)
      · exact GoesOn.breaks_lines hgo (List.ne_nil_of_length_pos (by
          rw [List.length_append]
          omega)) hne hupper (by omega) (by omega)

/-- What is unpacked of several files. -/
theorem unpacked_args {args : List (Ulong × List Byte)}
    (hgood : ∀ arg ∈ args, Unpackable arg) (hdistinct : (args.map Prod.fst).Nodup)
    (hapart : args.IsChain fun x y => x.1.toNat + x.2.length ≠ y.1.toNat)
    (tmp : Vector Byte sizeofTmp) :
    ∃ d, unhex tmp (mkhex args) = .ok d ∧ (∀ b, d.files.lookup b = args.lookup b)
      ∧ d.created = args.map Prod.fst := by
  obtain ⟨d, hd, hfiles, hcreated⟩ := @files_unpacked args Unpacked.start hgood hdistinct hapart
    (fun _ _ => .inl rfl)
  refine ⟨d.apply eofRecord, ?_, fun b => ?_, hcreated⟩
  · rw [unhex_mkhex, List.foldl_append, hd]
    rfl
  · have hfile := hfiles b
    rw [Unpacked.start, AList.lookup_empty, Option.or_none] at hfile
    exact hfile

/-- **Several files round-trip**: each of them comes back under its address. -/
theorem hex_round_trip {args : List (Ulong × List Byte)}
    (hgood : ∀ arg ∈ args, Unpackable arg) (hdistinct : (args.map Prod.fst).Nodup)
    (hapart : args.IsChain fun x y => x.1.toNat + x.2.length ≠ y.1.toNat)
    (tmp : Vector Byte sizeofTmp) :
    ∃ d, unhex tmp (mkhex args) = .ok d ∧ ∀ b, d.files.lookup b = args.lookup b := by
  obtain ⟨d, hd, hfiles, -⟩ := @unpacked_args args hgood hdistinct hapart tmp
  exact ⟨d, hd, hfiles⟩

theorem hex_round_trip_two :
    ∃ d, unhex (Vector.replicate sizeofTmp 0) (mkhex [(0xfffa, [1, 2]), (0x20000, [3])]) = .ok d
      ∧ ∀ b, d.files.lookup b = [((0xfffa : Ulong), ([1, 2] : List Byte)), (0x20000, [3])].lookup b :=
  hex_round_trip (by
    intro arg harg
    simp only [List.mem_cons, List.not_mem_nil, or_false] at harg
    rcases harg with rfl | rfl
    · exact ⟨by decide, by decide, by decide⟩
    · exact ⟨by decide, by decide, by decide⟩) (by decide) (by decide) _

/-- **Where a file round-trips**: exactly at the addresses where no line begins 1
to 15 bytes behind a multiple of 64K. -/
theorem hex_round_trip_iff {a : Ulong} {file : List Byte} (hfile : file ≠ [])
    (hfit : a.toNat + file.length ≤ 2 ^ 32) (tmp : Vector Byte sizeofTmp) :
    (∃ d, unhex tmp (mkhex [(a, file)]) = .ok d
      ∧ ∀ b, d.files.lookup b = if b = a then some file else none)
      ↔ Aligned a.toNat file.length := by
  have hpos := List.length_pos_iff.mpr hfile
  have hbegin := @file_begins Unpacked.start a file hfile (by omega) (.inl rfl)
  obtain ⟨d₁, hlines, hgo, hsame, hupper⟩ := hbegin
  -- the last record leaves the files alone
  have hunhex : unhex tmp (mkhex [(a, file)])
      = .ok (((lineRecords a file).foldl Unpacked.apply d₁).apply eofRecord) := by
    rw [unhex_mkhex, List.flatMap_cons, List.flatMap_nil, List.append_nil, List.foldl_append,
      hlines]
    rfl
  rw [← paged_iff hpos, hunhex]
  constructor
  · intro h
    obtain ⟨d, hd, hlookup⟩ := h
    cases hd
    by_contra hnot
    rcases hgo.lines_broken hfit hnot (.inl hupper) with ⟨b, hb, hin⟩ | ⟨c, hc, hshort⟩
    · have hnone := hlookup b
      rw [if_neg hb] at hnone
      exact AList.lookup_eq_none.mp hnone hin
    · have hall := hlookup a
      rw [if_pos rfl] at hall
      have hsome : some c = some file := hc.symm.trans hall
      cases hsome
      rw [List.length_nil] at hshort
      omega
  · intro hpaged
    obtain ⟨d', hd', hgo', hsame'⟩ := hgo.lines hfit hpaged fun _ => .inl hupper
    refine ⟨_, rfl, fun b => ?_⟩
    rw [hd']
    change d'.files.lookup b = _
    by_cases hb : b = a
    · rw [hb, if_pos rfl, hgo'.file, List.nil_append]
    · rw [if_neg hb, hsame'.files b hb, hsame.files b hb]
      rfl

/-- 24 bytes from `0xfffa` on do not come back. -/
theorem hex_round_trip_iff_far :
    ¬ ∃ d, unhex (Vector.replicate sizeofTmp 0) (mkhex [(0xfffa, List.replicate 24 7)]) = .ok d
      ∧ ∀ b, d.files.lookup b = if b = 0xfffa then some (List.replicate 24 7) else none := by
  intro h
  have haligned := (hex_round_trip_iff (by decide) (by decide) _).mp h
  revert haligned
  decide

end RiscvTe.Esputil
