import RiscvTe.Esputil.Hex

/-!
# Names of files (`has_suffix`, `unhex` and `flash` in `esputil/esputil.c`)

`flash` learns from `unhex` which files it has unpacked by a list of paths in a
buffer, and takes the address of each file out of its name again. The paths are
cut off where a buffer ends, and a blank in the name of the hex file is taken
for the end of a path; without either, all paths and addresses come back
(`listedNames_fileList`, `offsetOf_tmpPath`).
-/

namespace RiscvTe.Esputil

open Memory

abbrev CString := List Byte

def blank : Byte := 32
def slash : Byte := 47

def toLower (c : Byte) : Byte := if 65 ≤ c ∧ c ≤ 90 then c + 32 else c

/-- The end of the word is compared by `strcasecmp`. -/
def hasSuffix (word suffix : CString) : Bool :=
  suffix.length < word.length
    && (word.drop (word.length - suffix.length)).map toLower == suffix.map toLower

/-- `.hex` -/
def dotHex : CString := [46, 104, 101, 120]

/-- `.tmp` -/
def dotTmp : CString := [46, 116, 109, 112]

/-- `.bin` -/
def dotBin : CString := [46, 98, 105, 110]

/-! ## Numbers -/

/-- The value of a digit in a base of up to 16. -/
def digitOf (base : Nat) (c : Byte) : Option Nat :=
  let v := if 48 ≤ c ∧ c ≤ 57 then c.toNat - 48
    else if 97 ≤ c ∧ c ≤ 102 then c.toNat - 87
    else if 65 ≤ c ∧ c ≤ 70 then c.toNat - 55
    else 16
  if v < base then some v else none

/-- The digits at the beginning; `ULONG_MAX` if there are too many. -/
def readDigits (base : Nat) (negative : Bool) (s : CString) : Ulong :=
  let v := ((s.takeWhile fun c => (digitOf base c).isSome).filterMap (digitOf base)).foldl
    (fun v digit => v * base + digit) 0
  if 2 ^ 64 ≤ v then BitVec.allOnes 64
  else if negative then -BitVec.ofNat 64 v else BitVec.ofNat 64 v

/-- `strtoul(s, NULL, 0)` -/
def strtoul (s : CString) : Ulong :=
  let s := s.dropWhile isSpace
  let (negative, s) := match s with
    | 45 :: rest => (true, rest)
    | 43 :: rest => (false, rest)
    | _ => (false, s)
  match s with
  | 48 :: x :: d :: rest =>
      if (x = 120 ∨ x = 88) ∧ (digitOf 16 d).isSome then readDigits 16 negative (d :: rest)
      else readDigits 8 negative s
  | 48 :: _ => readDigits 8 negative s
  | _ => readDigits 10 negative s

def hexDigits (v : Nat) : CString := ((Nat.digits 16 v).map hexDigit).reverse

/-- `%#lx` -/
def printHash (v : Ulong) : CString := if v = 0 then [48] else 48 :: 120 :: hexDigits v.toNat

theorem digitOf_hexDigit {v : Nat} (h : v < 16) : digitOf 16 (hexDigit v) = some v := by
  have hall : ∀ v : Fin 16, digitOf 16 (hexDigit v) = some v.val := by decide
  exact hall ⟨v, h⟩

theorem hexDigits_digit {v : Nat} {c : Byte} (h : c ∈ hexDigits v) : (digitOf 16 c).isSome := by
  rw [hexDigits, List.mem_reverse, List.mem_map] at h
  obtain ⟨d, hd, rfl⟩ := h
  rw [digitOf_hexDigit (Nat.digits_lt_base (by decide) hd)]
  rfl

theorem readDigits_hexDigits {v : Nat} (hv : v < 2 ^ 64) :
    readDigits 16 false (hexDigits v ++ dotBin) = BitVec.ofNat 64 v := by
  have htake : (hexDigits v ++ dotBin).takeWhile (fun c => (digitOf 16 c).isSome)
      = hexDigits v := by
    rw [List.takeWhile_append_of_pos fun c hc => hexDigits_digit hc]
    exact List.append_nil _
  have hdigits : (hexDigits v).filterMap (digitOf 16) = (Nat.digits 16 v).reverse := by
    rw [hexDigits, ← List.map_reverse, List.filterMap_map]
    have hsome : ∀ d ∈ (Nat.digits 16 v).reverse, (digitOf 16 ∘ hexDigit) d = some d :=
      fun d hd => digitOf_hexDigit (Nat.digits_lt_base (by decide) (List.mem_reverse.mp hd))
    rw [List.filterMap_congr hsome, List.filterMap_some]
  have hvalue : (Nat.digits 16 v).reverse.foldl (fun v digit => v * 16 + digit) 0 = v := by
    rw [List.foldl_reverse]
    calc (Nat.digits 16 v).foldr (fun digit v => v * 16 + digit) 0
        = (Nat.digits 16 v).foldr (fun digit v => digit + 16 * v) 0 := by
          congr 1
          funext digit v
          omega
      _ = Nat.ofDigits 16 (Nat.digits 16 v) := (Nat.ofDigits_eq_foldr 16 _).symm
      _ = v := Nat.ofDigits_digits 16 v
  rw [readDigits, htake, hdigits, hvalue, if_neg (by omega)]
  rfl

theorem strtoul_printHash (v : Ulong) : strtoul (printHash v ++ dotBin) = v := by
  unfold printHash
  split
  · rename_i hzero
    rw [hzero]
    decide
  · rename_i hzero
    cases hdigits : hexDigits v.toNat with
    | nil =>
        rw [hexDigits, List.reverse_eq_nil_iff, List.map_eq_nil_iff,
          Nat.digits_eq_nil_iff_eq_zero] at hdigits
        exact absurd (BitVec.eq_of_toNat_eq hdigits) hzero
    | cons d rest =>
        have hd : (digitOf 16 d).isSome := hexDigits_digit (v := v.toNat) (by rw [hdigits]; simp)
        have hread := readDigits_hexDigits v.isLt
        rw [hdigits, BitVec.ofNat_toNat, BitVec.setWidth_eq] at hread
        unfold strtoul
        rw [List.cons_append, List.cons_append, List.cons_append,
          List.dropWhile_cons_of_neg (by decide)]
        simpa [hd] using hread

theorem printHash_char {v : Ulong} {c : Byte} (h : c ∈ printHash v) :
    c = 120 ∨ (digitOf 16 c).isSome := by
  unfold printHash at h
  split at h
  · rw [List.mem_singleton.mp h]
    exact .inr (by decide)
  · rcases List.mem_cons.mp h with rfl | h
    · exact .inr (by decide)
    · rcases List.mem_cons.mp h with rfl | h
      · exact .inl rfl
      · exact .inr (hexDigits_digit h)

/-! ## Paths -/

/-- What fits into a buffer, with the 0 behind it. -/
def snprintf (size : Nat) (text : CString) : CString := text.take (size - 1)

/-- The directory that a hex file is unpacked into. -/
def tmpdir (hexfile : CString) : CString := snprintf 1024 (hexfile ++ dotTmp)

/-- The path of the file for an address. -/
def binPath (dir : CString) (addr : Ulong) : CString :=
  snprintf 200 (dir ++ slash :: (printHash addr ++ dotBin))

/-- A path is appended to the list, behind a blank if it is not the first one. -/
def appendName (buf path : CString) : CString :=
  buf ++ snprintf (8192 - buf.length) ((if buf = [] then [] else [blank]) ++ path)

/-- `file_list` -/
def fileList (dir : CString) (created : List Ulong) : CString :=
  (created.map (binPath dir)).foldl appendName []

/-- The loop over `file_list`: it ends where nothing is in front of a blank. -/
def listedNames (s : CString) : List CString :=
  if s.takeWhile (· ≠ blank) = [] then []
  else s.takeWhile (· ≠ blank)
    :: listedNames ((s.dropWhile (· ≠ blank)).dropWhile (· = blank))
termination_by s.length
decreasing_by
  rename_i hname
  have hsplit : (s.takeWhile (· ≠ blank)).length + (s.dropWhile (· ≠ blank)).length = s.length := by
    rw [← List.length_append, List.takeWhile_append_dropWhile]
  have hpos := List.length_pos_of_ne_nil hname
  have hdrop := ((s.dropWhile (· ≠ blank)).dropWhile_suffix (· = blank)).length_le
  omega

/-- The address that a file is flashed at, by its name. -/
def offsetOf (path : CString) : Ulong := strtoul (path.reverse.takeWhile (· ≠ slash)).reverse

/-- The path of the file for an address, if it is not cut off. -/
def tmpPath (hexfile : CString) (addr : Ulong) : CString :=
  hexfile ++ dotTmp ++ slash :: (printHash addr ++ dotBin)

/-- No path is cut off, and none is taken for two. -/
structure Listable (hexfile : CString) (created : List Ulong) : Prop where
  noBlank : blank ∉ hexfile
  short : ∀ addr ∈ created, (tmpPath hexfile addr).length < 200
  fits : (created.map fun addr => (tmpPath hexfile addr).length + 1).sum ≤ 8192

theorem snprintf_eq {size : Nat} {text : CString} (h : text.length < size) :
    snprintf size text = text :=
  List.take_of_length_le (by omega)

theorem binPath_eq {hexfile : CString} {addr : Ulong} (h : (tmpPath hexfile addr).length < 200) :
    binPath (tmpdir hexfile) addr = tmpPath hexfile addr := by
  have hdir : tmpdir hexfile = hexfile ++ dotTmp := by
    refine snprintf_eq ?_
    rw [tmpPath, List.length_append] at h
    omega
  rw [binPath, hdir]
  exact snprintf_eq h

theorem offsetOf_tmpPath (hexfile : CString) (addr : Ulong) :
    offsetOf (tmpPath hexfile addr) = addr := by
  have hname : ∀ c ∈ (printHash addr ++ dotBin).reverse, decide (c ≠ slash) = true := by
    intro c hc
    rw [List.mem_reverse, List.mem_append] at hc
    rw [decide_eq_true_iff]
    rintro rfl
    rcases hc with hc | hc
    · exact absurd (printHash_char hc) (by decide)
    · exact absurd hc (by decide)
  have htake : (tmpPath hexfile addr).reverse.takeWhile (· ≠ slash)
      = (printHash addr ++ dotBin).reverse := by
    rw [tmpPath, List.reverse_append, List.reverse_cons, List.append_assoc,
      List.takeWhile_append_of_pos hname]
    exact List.append_nil _
  rw [offsetOf, htake, List.reverse_reverse]
  exact strtoul_printHash addr

theorem tmpPath_noBlank {hexfile : CString} (h : blank ∉ hexfile) (addr : Ulong) :
    blank ∉ tmpPath hexfile addr := by
  intro hmem
  simp only [tmpPath, List.mem_append, List.mem_cons] at hmem
  rcases hmem with (hmem | hmem) | hmem | hmem | hmem
  · exact h hmem
  · exact absurd hmem (by decide)
  · exact absurd hmem (by decide)
  · exact absurd (printHash_char hmem) (by decide)
  · exact absurd hmem (by decide)

/-! ## The list of paths -/

theorem foldl_appendName {paths : List CString} {buf : CString} (hbuf : buf ≠ [])
    (hfits : buf.length + (paths.map fun path => path.length + 1).sum < 8192) :
    paths.foldl appendName buf = buf ++ paths.flatMap (blank :: ·) := by
  induction paths generalizing buf with
  | nil => exact (List.append_nil buf).symm
  | cons path paths ih =>
      rw [List.map_cons, List.sum_cons] at hfits
      have happend : appendName buf path = buf ++ blank :: path := by
        rw [appendName, if_neg hbuf, List.singleton_append, snprintf_eq]
        rw [List.length_cons]
        omega
      have hlength : (buf ++ blank :: path).length = buf.length + (path.length + 1) := by
        rw [List.length_append, List.length_cons]
      rw [List.foldl_cons, happend, ih (by simp) (by omega), List.flatMap_cons, List.append_assoc]

theorem listedNames_word {path : CString} (hpath : path ≠ []) (hblank : blank ∉ path)
    {rest : CString} (hrest : rest.takeWhile (· ≠ blank) = []) :
    listedNames (path ++ rest) = path :: listedNames (rest.dropWhile (· = blank)) := by
  have hword : ∀ c ∈ path, decide (c ≠ blank) = true := by
    intro c hc
    rw [decide_eq_true_iff]
    rintro rfl
    exact hblank hc
  have hdrop : (path ++ rest).dropWhile (· ≠ blank) = rest := by
    rw [List.dropWhile_append_of_pos hword]
    have hsplit := List.takeWhile_append_dropWhile (p := (· ≠ blank)) (l := rest)
    rwa [hrest, List.nil_append] at hsplit
  have htake : (path ++ rest).takeWhile (· ≠ blank) = path := by
    rw [List.takeWhile_append_of_pos hword, hrest, List.append_nil]
  rw [listedNames, htake, if_neg hpath, hdrop]

theorem listedNames_words {path : CString} {paths : List CString}
    (hne : ∀ p ∈ path :: paths, p ≠ []) (hblank : ∀ p ∈ path :: paths, blank ∉ p) :
    listedNames (path ++ paths.flatMap (blank :: ·)) = path :: paths := by
  induction paths generalizing path with
  | nil =>
      rw [List.flatMap_nil, listedNames_word (hne path (by simp)) (hblank path (by simp)) rfl,
        listedNames]
      rfl
  | cons next paths ih =>
      have hnext : next ≠ [] := hne next (by simp)
      have hdrop : ((next :: paths).flatMap (blank :: ·)).dropWhile (· = blank)
          = next ++ paths.flatMap (blank :: ·) := by
        obtain ⟨c, cs, rfl⟩ := List.exists_cons_of_ne_nil hnext
        have hc : c ≠ blank := by
          rintro rfl
          exact hblank (blank :: cs) (by simp) List.mem_cons_self
        rw [List.flatMap_cons, List.cons_append, List.dropWhile_cons_of_pos (by simp),
          List.cons_append, List.dropWhile_cons_of_neg (by simpa using hc)]
      rw [listedNames_word (hne path (by simp)) (hblank path (by simp)) (by simp [blank]), hdrop,
        ih (fun p hp => hne p (List.mem_cons_of_mem _ hp))
          (fun p hp => hblank p (List.mem_cons_of_mem _ hp))]

/-- The paths in the list are those of the files created. -/
theorem listedNames_fileList {hexfile : CString} {created : List Ulong}
    (h : Listable hexfile created) :
    listedNames (fileList (tmpdir hexfile) created) = created.map (tmpPath hexfile) := by
  have hpaths : created.map (binPath (tmpdir hexfile)) = created.map (tmpPath hexfile) :=
    List.map_congr_left fun addr haddr => binPath_eq (h.short addr haddr)
  rw [fileList, hpaths]
  cases created with
  | nil =>
      rw [List.map_nil, List.foldl_nil, listedNames]
      rfl
  | cons addr created =>
      have hfits := h.fits
      rw [List.map_cons, List.sum_cons] at hfits
      have hne : ∀ a, tmpPath hexfile a ≠ [] := fun a => by simp [tmpPath]
      have hfirst : appendName [] (tmpPath hexfile addr) = tmpPath hexfile addr := by
        rw [appendName, if_pos rfl, List.nil_append, List.nil_append, snprintf_eq]
        rw [List.length_nil]
        omega
      rw [List.map_cons, List.foldl_cons, hfirst, foldl_appendName (hne addr) (by
        rw [List.map_map]
        simp only [Function.comp_def]
        omega)]
      refine listedNames_words ?_ ?_
      · intro p hp
        obtain ⟨a, -, rfl⟩ := List.mem_map.mp (List.map_cons (f := tmpPath hexfile) ▸ hp)
        exact hne a
      · intro p hp
        obtain ⟨a, -, rfl⟩ := List.mem_map.mp (List.map_cons (f := tmpPath hexfile) ▸ hp)
        exact tmpPath_noBlank h.noBlank a

end RiscvTe.Esputil
