import PowerFormulas.Bytes

/-!
# Reading words in order

A cursor stands in a region between what has been read and what is left. Reads take whole words, so
the position stays a multiple of four; a read that asks for more than is left fails, and its caller
goes on with the cursor it had.
-/

namespace PowerFormulas

/-- A place in a region: the bytes before it are counted, those after it are kept. -/
structure Cursor where
  position : Nat
  rest : List UInt8
  deriving DecidableEq, Repr

namespace Cursor

def start (bytes : List UInt8) : Cursor := ⟨0, bytes⟩

/-- Whole words read so far. -/
def wordsRead (c : Cursor) : Nat := c.position / wordBytes

/-- Bytes left. -/
def remaining (c : Cursor) : Nat := c.rest.length

/-- The size of the region, read and unread. -/
def size (c : Cursor) : Nat := c.position + c.remaining

/-- Takes the next `length` bytes. -/
def takeBytes (length : Nat) (c : Cursor) : Except Malformed (List UInt8 × Cursor) :=
  if length ≤ c.remaining then
    .ok (c.rest.take length, ⟨c.position + length, c.rest.drop length⟩)
  else .error (.readPastEnd length c.position c.size)

/-- Takes the next `count` words as bytes. -/
def take (count : Nat) (c : Cursor) : Except Malformed (List UInt8 × Cursor) :=
  if count * wordBytes < addressSpace then c.takeBytes (count * wordBytes)
  else .error (.countOverflow count)

/-- Moves past the next `count` words. -/
def skip (count : Nat) (c : Cursor) : Except Malformed Cursor :=
  Prod.snd <$> c.take count

/-- Reads the next `count` words. -/
def words (count : Nat) (c : Cursor) : Except Malformed (List UInt32 × Cursor) :=
  (fun (bytes, c) => (Bytes.words bytes, c)) <$> c.take count

/-- Reads one word. -/
def word (c : Cursor) : Except Malformed (UInt32 × Cursor) :=
  (fun (bytes, c) => ((Bytes.words bytes).headD 0, c)) <$> c.takeBytes wordBytes

/-- Reads one word as a number in two's complement. -/
def int (c : Cursor) : Except Malformed (Int32 × Cursor) :=
  (fun (w, c) => (w.toInt32, c)) <$> c.word

theorem takeBytes_eq_ok_iff {length : Nat} {c : Cursor} {bytes : List UInt8} {c' : Cursor} :
    c.takeBytes length = .ok (bytes, c') ↔
      length ≤ c.remaining ∧ bytes = c.rest.take length ∧
        c' = ⟨c.position + length, c.rest.drop length⟩ := by
  by_cases h : length ≤ c.remaining <;> simp [takeBytes, h, eq_comm]

/-- What is taken and what is left make up what was there. -/
theorem append_rest_of_takeBytes {length : Nat} {c c' : Cursor} {bytes : List UInt8}
    (h : c.takeBytes length = .ok (bytes, c')) :
    bytes ++ c'.rest = c.rest ∧ bytes.length = length ∧ c'.position = c.position + length := by
  obtain ⟨hle, rfl, rfl⟩ := takeBytes_eq_ok_iff.1 h
  exact ⟨List.take_append_drop _ _, List.length_take_of_le hle, rfl⟩

theorem takeBytes_append (bytes rest : List UInt8) (position : Nat) :
    takeBytes bytes.length ⟨position, bytes ++ rest⟩ =
      .ok (bytes, ⟨position + bytes.length, rest⟩) := by
  rw [takeBytes_eq_ok_iff]
  simp [remaining]

theorem take_eq_ok_iff {count : Nat} {c : Cursor} {bytes : List UInt8} {c' : Cursor} :
    c.take count = .ok (bytes, c') ↔
      count * wordBytes < addressSpace ∧ c.takeBytes (count * wordBytes) = .ok (bytes, c') := by
  by_cases h : count * wordBytes < addressSpace <;> simp [take, h]

end Cursor

end PowerFormulas
