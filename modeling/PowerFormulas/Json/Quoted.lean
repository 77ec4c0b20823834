import PowerFormulas.Text.Numeral

/-!
# Strings in JSON text

Between its quotes a string holds plain characters from U+0020 on, and escapes. An escape `\u` gives
a UTF-16 code unit, so a character outside the basic plane takes two of them, and a string may hold
a unit that is half of no pair. Such a string is well formed and has no text.
-/

namespace PowerFormulas.Json.Quoted

/-- What one character or escape of a string contributes. -/
inductive Piece where
  | char (c : Char)
  /-- A UTF-16 code unit, written in hexadecimal. -/
  | unit (value : Nat)
  deriving DecidableEq, Repr

/-- The character of an escape other than `\u`. -/
def escaped? : Char → Option Char
  | '"' => some '"'
  | '\\' => some '\\'
  | '/' => some '/'
  | 'b' => some '\x08'
  | 'f' => some '\x0c'
  | 'n' => some '\n'
  | 'r' => some '\r'
  | 't' => some '\t'
  | _ => none

/-- The code unit of four hexadecimal digits. -/
def unit? (a b c d : Char) : Option Nat := do
  let a ← Text.digit? 16 a
  let b ← Text.digit? 16 b
  let c ← Text.digit? 16 c
  let d ← Text.digit? 16 d
  return ((a * 16 + b) * 16 + c) * 16 + d

/-- Reads a string after its opening quote: its pieces, and what follows the closing quote. -/
def read : List Char → Option (List Piece × List Char)
  | [] => none
  | '"' :: rest => some ([], rest)
  | '\\' :: 'u' :: a :: b :: c :: d :: rest => do
    let value ← unit? a b c d
    let (pieces, rest) ← read rest
    return (.unit value :: pieces, rest)
  | '\\' :: e :: rest => do
    let c ← escaped? e
    let (pieces, rest) ← read rest
    return (.char c :: pieces, rest)
  | c :: rest =>
    if c < ' ' then none
    else do
      let (pieces, rest) ← read rest
      return (.char c :: pieces, rest)

/-- A unit that starts a pair. -/
def isHigh (value : Nat) : Bool := 0xD800 ≤ value && value < 0xDC00

/-- A unit that ends a pair. -/
def isLow (value : Nat) : Bool := 0xDC00 ≤ value && value < 0xE000

/-- The text that pieces make up, if no unit is left alone. -/
def text? : List Piece → Option (List Char)
  | [] => some []
  | .char c :: rest => (c :: ·) <$> text? rest
  | .unit high :: .unit low :: rest =>
    if isHigh high && isLow low then
      (Char.ofNat (0x10000 + (high - 0xD800) * 0x400 + (low - 0xDC00)) :: ·) <$> text? rest
    else if isHigh high || isLow high then none
    else (Char.ofNat high :: ·) <$> text? (.unit low :: rest)
  | .unit value :: rest =>
    if isHigh value || isLow value then none else (Char.ofNat value :: ·) <$> text? rest

/-- The letter of the escape that a character has to be written with, if it has one of its own. -/
def escapeLetter? : Char → Option Char
  | '"' => some '"'
  | '\\' => some '\\'
  | '\x08' => some 'b'
  | '\x0c' => some 'f'
  | '\n' => some 'n'
  | '\r' => some 'r'
  | '\t' => some 't'
  | _ => none

/-- A character as strings are written here: escaped only where it has to be. -/
def escape (c : Char) : List Char :=
  match escapeLetter? c with
  | some e => ['\\', e]
  | none => if c < ' ' then '\\' :: 'u' :: Text.padDigits 16 4 c.toNat else [c]

/-- The string of a text, with its quotes. -/
def write (text : List Char) : List Char := '"' :: (text.flatMap escape ++ ['"'])

/-- What a character contributes as it is written here. -/
def Piece.ofChar (c : Char) : Piece :=
  if escapeLetter? c = none ∧ c < ' ' then .unit c.toNat else .char c

/-- The letters of escapes are read as what they are written for. -/
theorem escaped?_of_escapeLetter? {c e : Char} (h : escapeLetter? c = some e) :
    escaped? e = some c ∧ e ≠ 'u' := by
  unfold escapeLetter? at h
  split at h <;> cases h <;> simp [escaped?]

theorem padDigits_of_lt {n : Nat} (h : n < 32) : Text.padDigits 16 4 n =
    ['0', '0', Nat.digitChar (n / 16), Nat.digitChar (n % 16)] :=
  (by decide : ∀ n : Fin 32, Text.padDigits 16 4 n =
    ['0', '0', Nat.digitChar (n / 16), Nat.digitChar (n % 16)]) ⟨n, h⟩

theorem unit?_of_lt {n : Nat} (h : n < 32) :
    unit? '0' '0' (Nat.digitChar (n / 16)) (Nat.digitChar (n % 16)) = some n :=
  (by decide : ∀ n : Fin 32,
    unit? '0' '0' (Nat.digitChar (n / 16)) (Nat.digitChar (n % 16)) = some n.val) ⟨n, h⟩

theorem read_escape_append (c : Char) (more : List Char) :
    read (escape c ++ more) =
      (read more).map fun (pieces, rest) => (.ofChar c :: pieces, rest) := by
  cases he : escapeLetter? c with
  | some e =>
    obtain ⟨h, hu⟩ := escaped?_of_escapeLetter? he
    have hread : read ('\\' :: e :: more) =
        (read more).map fun (pieces, rest) => (.char c :: pieces, rest) := by
      rw [read.eq_4 _ _ (by simp [hu])]
      cases read more <;> simp [h]
    simpa [escape, he, Piece.ofChar] using hread
  | none =>
    by_cases hc : c < ' '
    · have hlt : c.toNat < 32 := hc
      cases hmore : read more <;>
        simp [escape, he, hc, Piece.ofChar, padDigits_of_lt hlt, read, unit?_of_lt hlt, hmore]
    · have hquote : c ≠ '"' := by rintro rfl; simp [escapeLetter?] at he
      have hslash : c ≠ '\\' := by rintro rfl; simp [escapeLetter?] at he
      have hread : read (c :: more) =
          (read more).map fun (pieces, rest) => (.char c :: pieces, rest) := by
        rw [read.eq_5 _ _ (by simp [hquote]) (by simp [hslash]) (by simp [hslash])]
        cases read more <;> simp [hc]
      simpa [escape, he, hc, Piece.ofChar] using hread

/-- A written string is read as its characters, whatever follows it. -/
theorem read_flatMap_escape (text rest : List Char) :
    read (text.flatMap escape ++ '"' :: rest) = some (text.map .ofChar, rest) := by
  induction text with
  | nil => rw [List.flatMap_nil, List.nil_append, read, List.map_nil]
  | cons c text ih => rw [List.flatMap_cons, List.append_assoc, read_escape_append, ih]; rfl

theorem text?_ofChar_cons (c : Char) (pieces : List Piece) :
    text? (.ofChar c :: pieces) = (c :: ·) <$> text? pieces := by
  unfold Piece.ofChar
  split
  · have hlt : c.toNat < 32 := (‹_ ∧ c < ' '›).2
    have hhigh : isHigh c.toNat = false := by simp only [isHigh]; grind
    have hlow : isLow c.toNat = false := by simp only [isLow]; grind
    cases pieces with
    | nil => simp [text?, hhigh, hlow]
    | cons piece pieces =>
      cases piece <;> simp [text?, hhigh, hlow]
  · rw [text?]

/-- The pieces of a text make up the text. -/
theorem text?_map_ofChar (text : List Char) : text? (text.map .ofChar) = some text := by
  induction text with
  | nil => rfl
  | cons c text ih => rw [List.map_cons, text?_ofChar_cons, ih]; rfl

end PowerFormulas.Json.Quoted
