import PowerFormulas.Cursor
import PowerFormulas.Entry
import PowerFormulas.Text.Utf8

/-!
# Tag maps in binary form

A tag map starts with a count word, and that many entries follow. The first two words of an entry
are its kind and its tag id. Kind 4 is a script: five reserved words, the length of the text, one
reserved word, the length of the program, then the text and the program, each filled up to whole
words. Any other kind is a constant: one word, its value. Lengths are in bytes.

What follows the last entry is not looked at.
-/

namespace PowerFormulas.TagMap

/-- The kind word of a script. -/
def scriptKind : UInt32 := 4

/-- The text up to the first NUL. -/
def sourceText (bytes : List UInt8) : String :=
  String.ofList (Text.Utf8.decode (bytes.takeWhile (· ≠ 0)))

/-- Reads what follows kind and id of a script. -/
def readScript (c : Cursor) : Except Malformed (Entry × Cursor) := do
  let c ← c.skip 5
  let (textLength, c) ← c.word
  let c ← c.skip 1
  let (codeLength, c) ← c.word
  let (text, c) ← c.take (wordsFor textLength)
  let (code, c) ← c.words (wordsFor codeLength)
  return (.ofScript ⟨code, sourceText (text.take textLength.toNat)⟩, c)

/-- Reads what follows kind and id of a constant. -/
def readConstant (c : Cursor) : Except Malformed (Entry × Cursor) := do
  let (value, c) ← c.int
  return (.constant value, c)

/-- Reads one entry with its tag id. -/
def readEntry (c : Cursor) : Except Malformed ((UInt32 × Entry) × Cursor) := do
  let (kind, c) ← c.word
  let (id, c) ← c.word
  let (entry, c) ← if kind = scriptKind then readScript c else readConstant c
  return ((id, entry), c)

/-- Reads up to `count` entries: those that are complete, and the cursor after the last one or the
fault that ended the reading. -/
def readEntries : Nat → Cursor → List (UInt32 × Entry) × Except Malformed Cursor
  | 0, c => ([], .ok c)
  | count + 1, c =>
    match readEntry c with
    | .error fault => ([], .error fault)
    | .ok (entry, c) =>
      let (entries, last) := readEntries count c
      (entry :: entries, last)

/-- What a tag map yields: its complete entries in order, and the words read or the fault that
ended the reading. -/
structure Reading where
  entries : List (UInt32 × Entry)
  outcome : Except Malformed Nat

def read (bytes : List UInt8) : Reading :=
  match (Cursor.start bytes).word with
  | .error fault => ⟨[], .error fault⟩
  | .ok (count, c) =>
    let (entries, last) := readEntries count.toNat c
    ⟨entries, last.map Cursor.wordsRead⟩

/-- Adds what was read to the entries of other maps; the last entry of a tag id stays. -/
def Reading.addTo (r : Reading) (entries : Entries) : Entries := entries.insertMany r.entries

end PowerFormulas.TagMap
