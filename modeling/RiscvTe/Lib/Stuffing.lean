import Mathlib

/-!
# Byte stuffing

A stream carries plain symbols and frames. A delimiter opens and closes a
frame; inside, the delimiter and the escape symbol are written as the escape
symbol and a substitute. The reader remembers only whether the last symbol
was the escape symbol, and takes what is no substitute as it comes.

`Code.items` says what a whole stream carries, from its pieces between the
delimiters: the first piece is plain, the second is in a frame, and so on. A
frame that is never closed does not count. `items_send` is the round trip.
-/

namespace Stuffing

variable {α : Type}

/-- The delimiter, the escape symbol and the substitutes. -/
structure Code (α : Type) where
  delim : α
  esc : α
  subst : α → Option α
  restore : α → Option α
  delim_escaped : (subst delim).isSome
  esc_escaped : (subst esc).isSome
  restore_subst : ∀ {a s}, subst a = some s → restore s = some a
  subst_ne_delim : ∀ {a s}, subst a = some s → s ≠ delim
  subst_ne_esc : ∀ {a s}, subst a = some s → s ≠ esc
  esc_ne_delim : esc ≠ delim

namespace Code

variable (c : Code α)

/-! ## Writing -/

def encodeSymbol (a : α) : List α :=
  match c.subst a with
  | some s => [c.esc, s]
  | none => [a]

def encode (as : List α) : List α := as.flatMap c.encodeSymbol

/-- A frame as it is sent. -/
def send (as : List α) : List α := c.delim :: c.encode as ++ [c.delim]

@[simp] theorem encode_nil : c.encode [] = [] := rfl

@[simp] theorem encode_cons (a : α) (as : List α) :
    c.encode (a :: as) = c.encodeSymbol a ++ c.encode as := rfl

theorem delim_not_mem_encodeSymbol (a : α) : c.delim ∉ c.encodeSymbol a := by
  unfold encodeSymbol
  cases hsubst : c.subst a with
  | none =>
      have hne : c.delim ≠ a := by
        rintro rfl
        simpa [hsubst] using c.delim_escaped
      simpa using hne
  | some s => simp [c.esc_ne_delim.symm, (c.subst_ne_delim hsubst).symm]

/-- No delimiter inside a frame. -/
theorem delim_not_mem_encode (as : List α) : c.delim ∉ c.encode as := by
  induction as with
  | nil => simp
  | cons a as ih => simp [c.delim_not_mem_encodeSymbol a, ih]

/-! ## Reading -/

variable [DecidableEq α]

/-- What a symbol adds to the frame; `escaped` says that it comes behind the
escape symbol. -/
def decodeSymbol (escaped : Bool) (a : α) : List α :=
  match if escaped then c.restore a else none with
  | some b => [b]
  | none => if a = c.esc then [] else [a]

def decodeFrom : Bool → List α → List α
  | _, [] => []
  | escaped, a :: as => c.decodeSymbol escaped a ++ decodeFrom (a = c.esc) as

/-- The content of a frame, from the symbols between its delimiters. -/
def decode (as : List α) : List α := c.decodeFrom false as

@[simp] theorem decodeFrom_nil (escaped : Bool) : c.decodeFrom escaped [] = [] := rfl

@[simp] theorem decodeFrom_cons (escaped : Bool) (a : α) (as : List α) :
    c.decodeFrom escaped (a :: as)
      = c.decodeSymbol escaped a ++ c.decodeFrom (a = c.esc) as := rfl

/-- Decoding does not lengthen a frame. -/
theorem decodeFrom_length_le (escaped : Bool) (as : List α) :
    (c.decodeFrom escaped as).length ≤ as.length := by
  induction as generalizing escaped with
  | nil => simp
  | cons a as ih =>
      have hone : (c.decodeSymbol escaped a).length ≤ 1 := by
        unfold decodeSymbol
        split
        · simp
        · split <;> simp
      have hrest := ih (a = c.esc)
      rw [decodeFrom_cons, List.length_append, List.length_cons]
      omega

theorem decodeFrom_encodeSymbol (a : α) (as : List α) :
    c.decodeFrom false (c.encodeSymbol a ++ as) = a :: c.decodeFrom false as := by
  unfold encodeSymbol
  cases hsubst : c.subst a with
  | none =>
      have hne : a ≠ c.esc := by
        rintro rfl
        simpa [hsubst] using c.esc_escaped
      simp [decodeSymbol, hne]
  | some s => simp [decodeSymbol, c.restore_subst hsubst, c.subst_ne_esc hsubst]

/-- **What was written is read back.** -/
theorem decode_encode (as : List α) : c.decode (c.encode as) = as := by
  unfold decode
  induction as with
  | nil => rfl
  | cons a as ih => rw [encode_cons, decodeFrom_encodeSymbol, ih]

/-! ## Streams -/

end Code

/-- What a stream carries. -/
inductive Item (α : Type) where
  | plain (a : α)
  | frame (content : List α)
  deriving DecidableEq, Repr

namespace Code

variable (c : Code α) [DecidableEq α]

/-- The pieces of a stream are outside and inside a frame by turns. -/
def itemsOf : List (List α) → List (Item α)
  | [] => []
  | [outside] => outside.map .plain
  | [outside, _] => outside.map .plain
  | outside :: inside :: next :: rest =>
      outside.map .plain ++ .frame (c.decode inside) :: itemsOf (next :: rest)

def items (s : List α) : List (Item α) := c.itemsOf (s.splitOn c.delim)

theorem items_plain {outside : List α} (h : c.delim ∉ outside) :
    c.items outside = outside.map .plain := by
  rw [items, List.splitOn_eq_singleton h, itemsOf]

/-- A frame that is not closed yet carries nothing. -/
theorem items_open {outside inside : List α} (houtside : c.delim ∉ outside)
    (hinside : c.delim ∉ inside) :
    c.items (outside ++ c.delim :: inside) = outside.map .plain := by
  rw [items, List.splitOn_append_cons_self_of_not_mem houtside,
    List.splitOn_eq_singleton hinside, itemsOf]

theorem items_frame {outside inside : List α} (houtside : c.delim ∉ outside)
    (hinside : c.delim ∉ inside) (rest : List α) :
    c.items (outside ++ c.delim :: (inside ++ c.delim :: rest))
      = outside.map .plain ++ .frame (c.decode inside) :: c.items rest := by
  rw [items, List.splitOn_append_cons_self_of_not_mem houtside,
    List.splitOn_append_cons_self_of_not_mem hinside, items]
  obtain ⟨next, pieces, hsplit⟩ := List.exists_cons_of_ne_nil (List.splitOn_ne_nil c.delim rest)
  rw [hsplit, itemsOf]

/-- **The induction rule for streams**: a stream is plain, or still in its
first frame, or goes on behind it. -/
theorem stream_induction {P : List α → Prop}
    (plain : ∀ outside, c.delim ∉ outside → P outside)
    (openFrame : ∀ outside inside, c.delim ∉ outside → c.delim ∉ inside →
      P (outside ++ c.delim :: inside))
    (frame : ∀ outside inside rest, c.delim ∉ outside → c.delim ∉ inside → P rest →
      P (outside ++ c.delim :: (inside ++ c.delim :: rest)))
    (s : List α) : P s := by
  by_cases hs : c.delim ∈ s
  · obtain ⟨outside, s', rfl, houtside⟩ := List.eq_append_cons_of_mem hs
    by_cases hs' : c.delim ∈ s'
    · obtain ⟨inside, rest, rfl, hinside⟩ := List.eq_append_cons_of_mem hs'
      exact frame outside inside rest houtside hinside
        (stream_induction plain openFrame frame rest)
    · exact openFrame outside s' houtside hs'
  · exact plain s hs
termination_by s.length
decreasing_by
  subst_vars
  simp only [List.length_append, List.length_cons]
  omega

/-! ## What was sent -/

/-- A frame behind plain text is received as it was sent. -/
theorem items_send {text : List α} (htext : c.delim ∉ text) (as rest : List α) :
    c.items (text ++ c.send as ++ rest)
      = text.map .plain ++ .frame as :: c.items rest := by
  have hsplit : text ++ c.send as ++ rest
      = text ++ c.delim :: (c.encode as ++ c.delim :: rest) := by
    simp [send]
  rw [hsplit, c.items_frame htext (c.delim_not_mem_encode as), c.decode_encode]

/-- **The round trip of a whole session**: frames with plain text in front of
each are received in order, and the text between them as it is. -/
theorem items_session (session : List (List α × List α))
    (htexts : ∀ turn ∈ session, c.delim ∉ turn.1) (rest : List α) :
    c.items (session.flatMap (fun turn => turn.1 ++ c.send turn.2) ++ rest)
      = session.flatMap (fun turn => turn.1.map .plain ++ [.frame turn.2])
        ++ c.items rest := by
  induction session with
  | nil => rfl
  | cons turn session ih =>
      have htext : c.delim ∉ turn.1 := htexts turn (by simp)
      have ih' := ih fun t ht => htexts t (by simp [ht])
      rw [List.flatMap_cons, List.append_assoc, c.items_send htext, ih', List.flatMap_cons]
      simp

end Code

end Stuffing
