import PowerFormulas.Error
import PowerFormulas.Text.Blank

/-!
# Programs in text form

A program is written as its words in hexadecimal, eight lowercase digits each, with commas between
them; the empty program is the empty text. Reading is more lenient: digits of either case and any
number of them, a plus sign in front, blanks around.
-/

namespace PowerFormulas.HexWords

/-- The eight digits of a word. -/
def writeWord (w : UInt32) : List Char := Text.padDigits 16 8 w.toNat

def write (words : List UInt32) : String :=
  String.ofList ([','].intercalate (words.map writeWord))

/-- Reads one word, blanks around it aside. -/
def readWord (piece : List Char) : Except Unreadable UInt32 :=
  (Text.readWord 16 (Text.trim piece)).mapError (.bytecodeWord (String.ofList piece))

/-- Reads the words between commas; of faults, the first counts. -/
def read (text : String) : Except Unreadable (List UInt32) :=
  if text.isEmpty then .ok [] else (text.toList.splitOn ',').mapM readWord

/-! ### Words are read back from their text -/

/-- No digit is a blank or a comma. -/
theorem not_blank_of_lower {c : Char} (h : ∃ d < 16, c = Nat.digitChar d) :
    Text.isBlank c = false ∧ c ≠ ',' := by
  obtain ⟨d, hd, rfl⟩ := h
  exact (by decide : ∀ d : Fin 16,
    Text.isBlank (Nat.digitChar d) = false ∧ Nat.digitChar d ≠ ',') ⟨d, hd⟩

theorem lower_of_mem_writeWord {w : UInt32} {c : Char} (h : c ∈ writeWord w) :
    ∃ d < 16, c = Nat.digitChar d :=
  Text.exists_digitChar_of_mem_padDigits (by decide) h

theorem readWord_writeWord (w : UInt32) : readWord (writeWord w) = .ok w := by
  have htrim : Text.trim (writeWord w) = writeWord w :=
    Text.trim_eq_self
      (fun _ h => (not_blank_of_lower (lower_of_mem_writeWord (List.mem_of_mem_head? h))).1)
      (fun _ h => (not_blank_of_lower (lower_of_mem_writeWord (List.mem_of_mem_getLast? h))).1)
  rw [readWord, htrim, writeWord, Text.readWord_padDigits (by decide) (by decide)]
  rfl

theorem mapM_readWord_map_writeWord (words : List UInt32) :
    (words.map writeWord).mapM readWord = .ok words := by
  induction words with
  | nil => rfl
  | cons w words ih =>
    rw [List.map_cons, List.mapM_cons, readWord_writeWord, ih]
    rfl

theorem isEmpty_write_cons (w : UInt32) (words : List UInt32) :
    (write (w :: words)).isEmpty = false := by
  have hw : writeWord w ≠ [] := Text.padDigits_ne_nil _ _ _
  cases words <;> simp [write, hw]

/-- A program is read back from its text. -/
theorem read_write (words : List UInt32) : read (write words) = .ok words := by
  cases words with
  | nil => rfl
  | cons w words =>
    have hcomma : ∀ piece ∈ (w :: words).map writeWord, ',' ∉ piece := by
      intro piece hpiece hmem
      obtain ⟨v, -, rfl⟩ := List.mem_map.1 hpiece
      exact (not_blank_of_lower (lower_of_mem_writeWord hmem)).2 rfl
    rw [read, isEmpty_write_cons, write, String.toList_ofList,
      List.splitOn_intercalate _ hcomma (by simp), mapM_readWord_map_writeWord]
    rfl

end PowerFormulas.HexWords
