import PowerFormulas.Cursor

/-!
# Reading with checks

A reader on a machine keeps a whole region and a position in it. Positions and sizes are numbers of
64 bits, and bytes are taken by their indices. `Checked` says where this would not do: a computation
is stuck as soon as a number does not fit or an index leaves its region, which is not the same as a
fault that it reports. The reads of a `Window` are never stuck, and do what the reads of a cursor do
(`agrees_takeBytes` and so on).
-/

namespace PowerFormulas

/-- A result, a fault, or neither: then the computation is stuck. -/
abbrev Checked (α : Type) := ExceptT Error Option α

namespace Checked

variable {α β γ δ : Type}

def stuck : Checked α := .mk none

/-- A size or a position: a number of 64 bits. -/
def fit (n : Nat) : Checked Nat := if n < addressSpace then pure n else stuck

/-- A number of 32 bits. -/
def fitWord (n : Nat) : Checked UInt32 := if n < UInt32.size then pure (.ofNat n) else stuck

/-- What is left of the first number. -/
def minus (a b : Nat) : Checked Nat := if b ≤ a then pure (a - b) else stuck

def byteAt (bytes : List UInt8) (i : Nat) : Checked UInt8 :=
  match bytes[i]? with
  | some byte => pure byte
  | none => stuck

/-- The bytes from one index up to another. -/
def slice (bytes : List UInt8) (start stop : Nat) : Checked (List UInt8) :=
  if start ≤ stop ∧ stop ≤ bytes.length then pure ((bytes.drop start).take (stop - start))
  else stuck

/-- What takes no index and computes no number is never stuck. -/
def ofExcept : Except Malformed α → Checked α
  | .ok a => pure a
  | .error fault => throw (.malformed fault)

theorem fit_of_lt {n : Nat} (h : n < addressSpace) : fit n = pure n := if_pos h

theorem fitWord_of_lt {n : Nat} (h : n < UInt32.size) : fitWord n = pure (.ofNat n) := if_pos h

theorem minus_of_le {a b : Nat} (h : b ≤ a) : minus a b = pure (a - b) := if_pos h

theorem slice_of_le {bytes : List UInt8} {start stop : Nat} (hstart : start ≤ stop)
    (hstop : stop ≤ bytes.length) :
    slice bytes start stop = pure ((bytes.drop start).take (stop - start)) :=
  if_pos ⟨hstart, hstop⟩

/-! ### Computations that end alike -/

/-- The first computation is not stuck: it ends in the fault of the second one, or in a result that
is related to its result. -/
inductive Agrees (R : α → β → Prop) : Checked α → Except Malformed β → Prop where
  | ok {a : α} {b : β} : R a b → Agrees R (pure a) (.ok b)
  | error (fault : Malformed) : Agrees R (throw (.malformed fault)) (.error fault)

namespace Agrees

variable {R : α → β → Prop} {S : γ → δ → Prop} {x : Checked α} {y : Except Malformed β}
  {f : α → Checked γ}

theorem bind {g : β → Except Malformed δ} (h : Agrees R x y)
    (hf : ∀ a b, R a b → Agrees S (f a) (g b)) : Agrees S (x >>= f) (y >>= g) := by
  cases h with
  | ok hab => exact hf _ _ hab
  | error fault => exact .error fault

theorem map {g : β → δ} (h : Agrees R x y)
    (hf : ∀ a b, R a b → Agrees S (f a) (.ok (g b))) : Agrees S (x >>= f) (g <$> y) := by
  cases h with
  | ok hab => exact hf _ _ hab
  | error fault => exact .error fault

end Agrees

/-- Computations that end in the same result are the same, but that one could be stuck. -/
theorem eq_ofExcept_of_agrees {x : Checked α} {y : Except Malformed α} (h : Agrees (· = ·) x y) :
    x = ofExcept y := by
  cases h with
  | ok hab => rw [hab]; rfl
  | error fault => rfl

/-! ### Words -/

/-- The whole words needed to hold `length` bytes. -/
def wordsFor (length : UInt32) : Checked Nat :=
  if length.toNat % wordBytes = 0 then pure (length.toNat / wordBytes)
  else fit (length.toNat / wordBytes + 1)

def wordOf (bytes : List UInt8) : Checked UInt32 := do
  let a ← byteAt bytes 0
  let b ← byteAt bytes 1
  let c ← byteAt bytes 2
  let d ← byteAt bytes 3
  return Bytes.word a b c d

/-- Consecutive groups of four bytes; a rest of fewer than four is left out. -/
def groups : List UInt8 → List (List UInt8)
  | a :: b :: c :: d :: rest => [a, b, c, d] :: groups rest
  | _ => []

theorem wordsFor_eq (length : UInt32) : wordsFor length = pure (PowerFormulas.wordsFor length) := by
  have hlt : length.toNat < UInt32.size := length.toNat_lt
  have hword : length.toNat / wordBytes + 1 < addressSpace := by
    have hdiv : length.toNat / wordBytes ≤ length.toNat := Nat.div_le_self _ _
    have hsize : 1 ≤ UInt32.size := by decide
    exact lt_addressSpace (by omega)
  unfold wordsFor
  split
  · rw [PowerFormulas.wordsFor]
    congr 1
    simp only [wordBytes] at *
    omega
  · rw [fit_of_lt hword, PowerFormulas.wordsFor]
    congr 1
    simp only [wordBytes] at *
    omega

theorem wordOf_of_length {bytes : List UInt8} (h : bytes.length = wordBytes) :
    wordOf bytes = pure ((Bytes.words bytes).headD 0) := by
  match bytes, h with
  | [_, _, _, _], _ => rfl

theorem mapM_wordOf_groups (bytes : List UInt8) :
    (groups bytes).mapM wordOf = pure (Bytes.words bytes) := by
  fun_induction groups bytes with
  | case1 a b c d rest ih =>
    rw [List.mapM_cons, ih]
    rfl
  | case2 bytes hshort =>
    rw [Bytes.words.eq_2 bytes hshort]
    rfl

end Checked

/-! ### Windows -/

/-- A region and the position of the next read. -/
structure Window where
  bytes : List UInt8
  position : Nat

namespace Window

open Checked

def start (bytes : List UInt8) : Window := ⟨bytes, 0⟩

def takeBytes (length : Nat) (w : Window) : Checked (List UInt8 × Window) := do
  let size ← fit w.bytes.length
  let left ← minus size w.position
  if left < length then throw (.malformed (.readPastEnd length w.position size))
  else do
    let stop ← fit (w.position + length)
    let bytes ← slice w.bytes w.position stop
    return (bytes, { w with position := stop })

def take (count : Nat) (w : Window) : Checked (List UInt8 × Window) :=
  if count * wordBytes < addressSpace then w.takeBytes (count * wordBytes)
  else throw (.malformed (.countOverflow count))

def skip (count : Nat) (w : Window) : Checked Window := do
  let (_, w) ← w.take count
  return w

def words (count : Nat) (w : Window) : Checked (List UInt32 × Window) := do
  let (bytes, w) ← w.take count
  let words ← (groups bytes).mapM wordOf
  return (words, w)

def word (w : Window) : Checked (UInt32 × Window) := do
  let (bytes, w) ← w.takeBytes wordBytes
  let word ← wordOf bytes
  return (word, w)

def int (w : Window) : Checked (Int32 × Window) := do
  let (word, w) ← w.word
  return (word.toInt32, w)

/-- The cursor stands where the window's position is, which is within its region. -/
structure Shows (w : Window) (c : Cursor) : Prop where
  rest : c.rest = w.bytes.drop w.position
  position : c.position = w.position
  within : w.position ≤ w.bytes.length
  size_lt : w.bytes.length < addressSpace

/-- The same has been read, and the cursor stands where the window's position is. -/
def Read {α : Type} (a : α × Window) (b : α × Cursor) : Prop := a.1 = b.1 ∧ a.2.Shows b.2

variable {w : Window} {c : Cursor}

theorem shows_start {bytes : List UInt8} (h : bytes.length < addressSpace) :
    (start bytes).Shows (Cursor.start bytes) := ⟨rfl, rfl, Nat.zero_le _, h⟩

/-- No number computed for a read is too great, and the bytes that are taken lie in the region. -/
theorem agrees_takeBytes (h : w.Shows c) (length : Nat) :
    Agrees (fun a b => Read a b ∧ a.1.length = length) (w.takeBytes length)
      (c.takeBytes length) := by
  obtain ⟨bytes, position⟩ := w
  obtain ⟨position', rest⟩ := c
  obtain ⟨hrest, hposition, hwithin, hsize⟩ := h
  simp only at hrest hposition hwithin hsize
  subst hrest hposition
  have hremaining : (Cursor.mk position' (bytes.drop position')).remaining =
      bytes.length - position' := List.length_drop
  have hregion : (Cursor.mk position' (bytes.drop position')).size = bytes.length := by
    rw [Cursor.size, hremaining]
    exact Nat.add_sub_cancel' hwithin
  unfold takeBytes Cursor.takeBytes
  simp only [fit_of_lt hsize, minus_of_le hwithin, pure_bind, hremaining, hregion]
  by_cases hlength : bytes.length - position' < length
  · rw [if_pos hlength, if_neg (Nat.not_le_of_lt hlength)]
    exact .error _
  · have hstop : position' + length ≤ bytes.length := by omega
    rw [if_neg hlength, if_pos (Nat.le_of_not_lt hlength), fit_of_lt (by omega), pure_bind,
      slice_of_le (Nat.le_add_right _ _) hstop, pure_bind, Nat.add_sub_cancel_left]
    refine .ok ⟨⟨rfl, ?_⟩, ?_⟩
    · exact ⟨List.drop_drop, rfl, hstop, hsize⟩
    · rw [List.length_take, List.length_drop]
      omega

theorem agrees_take (h : w.Shows c) (count : Nat) :
    Agrees (fun a b => Read a b ∧ a.1.length = count * wordBytes) (w.take count)
      (c.take count) := by
  unfold take Cursor.take
  split
  · exact agrees_takeBytes h _
  · exact .error _

theorem agrees_skip (h : w.Shows c) (count : Nat) : Agrees Shows (w.skip count) (c.skip count) :=
  (agrees_take h count).map fun _ _ hread => .ok hread.1.2

theorem agrees_words (h : w.Shows c) (count : Nat) :
    Agrees Read (w.words count) (c.words count) := by
  refine (agrees_take h count).map ?_
  rintro ⟨bytes, w'⟩ ⟨bytes', c'⟩ ⟨⟨heq, hshows⟩, -⟩
  obtain rfl : bytes = bytes' := heq
  simp only [mapM_wordOf_groups, pure_bind]
  exact .ok ⟨rfl, hshows⟩

theorem agrees_word (h : w.Shows c) : Agrees Read w.word c.word := by
  refine (agrees_takeBytes h wordBytes).map ?_
  rintro ⟨bytes, w'⟩ ⟨bytes', c'⟩ ⟨⟨heq, hshows⟩, hlength⟩
  obtain rfl : bytes = bytes' := heq
  simp only [wordOf_of_length hlength, pure_bind]
  exact .ok ⟨rfl, hshows⟩

theorem agrees_int (h : w.Shows c) : Agrees Read w.int c.int := by
  refine (agrees_word h).map ?_
  rintro ⟨word, w'⟩ ⟨word', c'⟩ ⟨heq, hshows⟩
  obtain rfl : word = word' := heq
  exact .ok ⟨rfl, hshows⟩

end Window

end PowerFormulas
