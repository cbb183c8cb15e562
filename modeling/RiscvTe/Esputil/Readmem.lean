import RiscvTe.Esputil.Readback

/-!
# Reading memory (`readmem` in `esputil/esputil.c`)

Memory is read word by word, and whole words are printed, up to three bytes more
than were asked for (`readmem_reads`). The counter of the loop is a multiple of
four with 32 bits: it never reaches a size above 2^32 - 4 (`readmem_wraps`).
-/

namespace RiscvTe.Esputil

open Memory EventRun

/-! ## The loop -/

/-- `for (i = 0; i < size; i += 4)`, if that many turns are enough, with the
address in the message on `stderr` when a word could not be read. -/
def readmemLoop (chipId base size : Word) :
    Nat → Word → Line → Option (Except Halt (Line × Option Word))
  | 0, i, line => if i < size then none else some (.ok (line, none))
  | turns + 1, i, line =>
      if i < size then
        match read32 chipId (base + i) line with
        | .ok (line, some value) =>
            readmemLoop chipId base size turns (i + 4) (line.print (wordBytes value))
        | .ok (line, none) => some (.ok (line, some (base + i)))
        | .error e => some (.error e)
      else some (.ok (line, none))

def readmem (base size : Word) (turns : Nat) (line : Line) :
    Option (Except Halt (Line × Option Word)) :=
  match chipConnect unknownChip line with
  | .ok (line, some chip) => readmemLoop chip.id base size turns 0 line
  | .ok (_, none) => some (.error (.failed "Error connecting\n"))
  | .error e => some (.error e)

/-! ## What is read -/

/-- The commands that read words one behind the other. -/
def wordRequests (addr : Word) : List Word → List Command
  | [] => []
  | _ :: words => read32Command addr :: wordRequests (addr + 4) words

theorem readmemLoop_end {chipId base size i : Word} (h : ¬ i < size) (turns : Nat) (line : Line) :
    readmemLoop chipId base size turns i line = some (.ok (line, none)) := by
  cases turns with
  | zero => exact if_neg h
  | succ turns => exact if_neg h

theorem readmemLoop_reads {chipId base size i : Word} {words : List Word}
    (hend : size.toNat ≤ i.toNat + 4 * words.length)
    (hneeded : words ≠ [] → i.toNat + 4 * words.length < size.toNat + 4)
    (hsize : size.toNat ≤ 2 ^ 32 - 4) {line : Line} (hidle : line.link.slip.Idle)
    {replies : List (List (List Byte))} {rest : List Read}
    (hreads : line.link.reads = replies.flatMap (List.map .data) ++ rest)
    (hreplies : List.Forall₂
      (fun w chunks => Carries chipId 10 line.link.slip.size 4 (wordBytes w) chunks) words replies)
    {turns : Nat} (hturns : words.length ≤ turns) :
    ∃ line', readmemLoop chipId base size turns i line = some (.ok (line', none))
      ∧ line'.link.slip.Idle ∧ line'.link.reads = rest
      ∧ line'.link.sent
        = line.link.sent ++ (wordRequests (base + i) words).flatMap Command.wire
      ∧ line'.link.printed = line.link.printed
        ++ dumped chipId 10 line.link.slip.size replies (words.map wordBytes) := by
  induction words generalizing i line replies turns with
  | nil =>
      cases hreplies
      have hdone : ¬ i < size := by
        rw [List.length_nil] at hend
        bv_omega
      exact ⟨line, readmemLoop_end hdone turns line, hidle, hreads, by simp [wordRequests],
        by simp [dumped]⟩
  | cons w words ih =>
      cases hreplies with
      | cons hcarries hreplies =>
          have hneeded := hneeded (List.cons_ne_nil _ _)
          rw [List.length_cons] at hend hneeded hturns
          obtain ⟨turns, rfl⟩ := Nat.exists_eq_add_one_of_ne_zero (Nat.ne_zero_of_lt hturns)
          rw [List.flatMap_cons, List.append_assoc] at hreads
          obtain ⟨m, hread, hm, hmsize, hmreads, hmsent, hmprinted, -⟩ :=
            read32_reply (base + i) hidle hreads hcarries
          have hmore : i < size := by bv_omega
          have hnext : (i + 4).toNat = i.toNat + 4 := by bv_omega
          rw [← hmsize] at hreplies
          obtain ⟨line', hloop, hidle', hreads', hsent, hprinted⟩ :=
            @ih (i + 4) (by omega) (fun _ => by omega) (m.print (wordBytes w)) hm _ hmreads
              hreplies turns (by omega)
          have hsame : (m.print (wordBytes w)).link.sent = m.link.sent := rfl
          have hword : (m.print (wordBytes w)).link.printed = m.link.printed ++ wordBytes w := rfl
          have hsize' : (m.print (wordBytes w)).link.slip.size = line.link.slip.size := hmsize
          refine ⟨line', ?_, hidle', hreads', ?_, ?_⟩
          · rw [readmemLoop, if_pos hmore, hread]
            exact hloop
          · rw [hsent, hsame, hmsent, wordRequests, List.flatMap_cons, List.append_assoc,
              BitVec.add_assoc]
          · rw [hprinted, hword, hmprinted, hsize', List.map_cons, dumped_cons]
            simp only [List.append_assoc]

/-- **What is read from memory.** If the chip is found and its answers carry as
many words as it takes to cover the size asked for, at most 2^32 - 4 bytes,
`readmem` has written to `stdout`, behind what finding the chip has printed, these
words, each behind the text that has come before its answer: so the words, if
there is no such text. It has asked for them from `base` on. -/
theorem readmem_reads {base size id : Word} {words : List Word}
    (hcover : words.length = (size.toNat + 3) / 4) (hsize : size.toNat ≤ 2 ^ 32 - 4) {line : Line}
    {replies : List (List (List Byte))} {rest : List Read} {later : List (List Read)}
    (hfound : Found unknownChip line id (replies.flatMap (List.map .data) ++ rest) later)
    (hreplies : List.Forall₂
      (fun w chunks => Carries id 10 line.link.slip.size 4 (wordBytes w) chunks) words replies)
    {turns : Nat} (hturns : words.length ≤ turns) :
    ∃ chip m line', chipConnect unknownChip line = .ok (m, some chip)
      ∧ readmem base size turns line = some (.ok (line', none))
      ∧ line'.link.printed = m.link.printed
        ++ dumped id 10 line.link.slip.size replies (words.map wordBytes)
      ∧ ((∀ chunks ∈ replies, replyText id 10 line.link.slip.size chunks 0 = []) →
          line'.link.printed = m.link.printed ++ words.flatMap wordBytes)
      ∧ line'.link.sent = m.link.sent ++ (wordRequests base words).flatMap Command.wire
      ∧ line'.link.slip.Idle ∧ line'.link.reads = rest := by
  obtain ⟨m, hconnect, hm, hmsize, hmreads, -⟩ := hfound.connected
  obtain ⟨chip, hchip⟩ : ∃ chip, lookUp { unknownChip with id := id } = chip := ⟨_, rfl⟩
  obtain rfl : chip.id = id := hchip ▸ lookUp_id _
  rw [hchip] at hconnect
  rw [← hmsize] at hreplies ⊢
  obtain ⟨line', hloop, hidle', hreads', hsent, hprinted⟩ :=
    @readmemLoop_reads chip.id base size 0 words (by simp; omega)
      (fun hne => by
        have hpos := List.length_pos_of_ne_nil hne
        simp
        omega)
      hsize m hm replies rest hmreads hreplies turns hturns
  have hbase : base + 0 = base := BitVec.add_zero base
  rw [hbase] at hsent
  refine ⟨chip, m, line', hconnect, ?_, hprinted, fun hquiet => ?_, hsent, hidle', hreads'⟩
  · rw [readmem, hconnect]
    exact hloop
  · rw [hprinted, dumped_quiet hreplies hquiet]

/-- The answers with two words, the second behind a character of text. -/
def wordReplies : List (List (List Byte)) :=
  [[slipSend (wordPacket chipIdEsp32)], [65 :: slipSend (wordPacket 7)]]

/-- Six bytes are asked for; both words are printed. -/
theorem readmem_reads_words :
    ∃ (chip : Chip) (m line' : Line),
      let line := findingLine (wordReplies.flatMap (List.map .data) ++ [])
      chipConnect unknownChip line = .ok (m, some chip)
      ∧ readmem 0x40001000 6 2 line = some (.ok (line', none))
      ∧ line'.link.printed = m.link.printed
        ++ dumped chipIdEsp32 10 line.link.slip.size wordReplies ([chipIdEsp32, 7].map wordBytes)
      ∧ ((∀ chunks ∈ wordReplies, replyText chipIdEsp32 10 line.link.slip.size chunks 0 = []) →
          line'.link.printed = m.link.printed ++ [chipIdEsp32, 7].flatMap wordBytes)
      ∧ line'.link.sent
        = m.link.sent ++ (wordRequests 0x40001000 [chipIdEsp32, 7]).flatMap Command.wire
      ∧ line'.link.slip.Idle ∧ line'.link.reads = [] := by
  have hreplies : List.Forall₂ (fun w chunks => Carries chipIdEsp32 10 96 4 (wordBytes w) chunks)
      [chipIdEsp32, 7] wordReplies :=
    .cons (word_carries [] (by simp) (by decide) (by decide))
      (.cons (word_carries [65] (by decide) (by decide) (by decide)) .nil)
  exact readmem_reads (by decide) (by decide) (findingLine_found _) hreplies (by decide)

/-! ## Sizes that are not reached -/

theorem readmemLoop_wraps {chipId base size i : Word} (hsize : 2 ^ 32 - 4 < size.toNat)
    (hword : i.toNat % 4 = 0) {turns : Nat} {line line' : Line} :
    readmemLoop chipId base size turns i line ≠ some (.ok (line', none)) := by
  have hmore : i < size := by bv_omega
  induction turns generalizing i line with
  | zero =>
      rw [readmemLoop, if_pos hmore]
      simp
  | succ turns ih =>
      have hnext : (i + 4).toNat % 4 = 0 := by bv_omega
      rw [readmemLoop, if_pos hmore]
      split
      · exact ih hnext (by bv_omega)
      · simp
      · simp

/-- **A size above 2^32 - 4 is never reached**: `readmem` goes on until a word
cannot be read. -/
theorem readmem_wraps {base size : Word} (hsize : 2 ^ 32 - 4 < size.toNat) (turns : Nat)
    (line line' : Line) : readmem base size turns line ≠ some (.ok (line', none)) := by
  unfold readmem
  split
  · exact readmemLoop_wraps hsize (by decide)
  · simp
  · simp

end RiscvTe.Esputil
