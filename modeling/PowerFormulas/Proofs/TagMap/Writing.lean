import PowerFormulas.Proofs.TagMap.Grammar

/-!
# Writing tag maps

Entries as they are put into a tag map: constants of any kind but that of scripts, and scripts whose
text holds no NUL, with anything in the reserved words. The text is stored as UTF-8 with a NUL
behind it, filled up to whole words; its length counts the NUL. What is written so is a tag map of
just these entries (`isTagMap_mapBytes`).
-/

namespace PowerFormulas.TagMap

open Bytes (ofWord)

/-- A text without NUL, which would end it where it stands. -/
abbrev PlainText := { text : String // '\x00' ∉ text.toList }

/-- An entry to be written, with the words that no reader looks at. -/
inductive Line where
  | constant (kind : { kind : UInt32 // kind ≠ scriptKind }) (id : UInt32) (value : Int32)
  | script (id : UInt32) (head : Vector UInt32 5) (mid : UInt32) (text : PlainText)
      (code : List UInt32)

/-- The encoded text and its NUL. -/
def PlainText.stored (text : PlainText) : List UInt8 :=
  text.val.toList.flatMap String.utf8EncodeChar ++ [0]

/-- Fills up to whole words. -/
def padded (bytes : List UInt8) : List UInt8 :=
  bytes ++ List.replicate ((4 - bytes.length % 4) % 4) 0

namespace Line

def bytes : Line → List UInt8
  | .constant kind id value => ofWord kind ++ ofWord id ++ ofWord value.toUInt32
  | .script id head mid text code =>
    ofWord scriptKind ++ ofWord id ++ (head.toList.flatMap ofWord ++
      ofWord (.ofNat text.stored.length) ++ ofWord mid ++ ofWord (.ofNat (4 * code.length)) ++
      padded text.stored ++ code.flatMap ofWord)

def entry : Line → UInt32 × Entry
  | .constant _ id value => (id, .constant value)
  | .script id _ _ text code => (id, .ofScript ⟨code, text.val⟩)

end Line

def mapBytes (lines : List Line) : List UInt8 :=
  ofWord (.ofNat lines.length) ++ lines.flatMap Line.bytes

/-! ### Texts -/

theorem wordsFor_ofNat {n : Nat} (h : n < UInt32.size) : wordsFor (.ofNat n) = (n + 3) / 4 := by
  rw [wordsFor, UInt32.toNat_ofNat_of_lt' h]

theorem length_padded (bytes : List UInt8) :
    (padded bytes).length = 4 * ((bytes.length + 3) / 4) := by
  rw [padded, List.length_append, List.length_replicate]
  omega

theorem take_padded (bytes : List UInt8) : (padded bytes).take bytes.length = bytes :=
  List.take_left

theorem sourceText_stored (text : PlainText) : sourceText text.stored = text.val := by
  have hne : ∀ b ∈ text.val.toList.flatMap String.utf8EncodeChar, decide (b ≠ 0) = true := by
    intro b hb
    obtain ⟨c, hc, hmem⟩ := List.mem_flatMap.1 hb
    have hnul : c ≠ '\x00' := fun h => text.property (h ▸ hc)
    exact decide_eq_true (Text.Utf8.ne_zero_of_mem_encodeChar hnul hmem)
  have htake : text.stored.takeWhile (· ≠ 0) = text.val.toList.flatMap String.utf8EncodeChar := by
    rw [PlainText.stored, List.takeWhile_append_of_pos hne]
    simp
  rw [sourceText, htake, Text.Utf8.decode_encode, String.ofList_toList]

/-! ### Maps -/

namespace Line

theorem writtenEntry_bytes {line : Line} (h : line.bytes.length < UInt32.size) :
    WrittenEntry line.bytes line.entry := by
  cases line with
  | constant kind id value => exact .constant kind.property id value
  | script id head mid text code =>
    simp only [bytes, List.length_append, Bytes.length_ofWord, Bytes.length_flatMap_ofWord,
      length_padded] at h
    have htext : text.stored.length < UInt32.size := by omega
    have hcode : 4 * code.length < UInt32.size := by omega
    have hhead : (head.toList.flatMap ofWord).length = 4 * 5 := by
      rw [Bytes.length_flatMap_ofWord, Vector.length_toList]
    have hpadded : (padded text.stored).length = 4 * wordsFor (.ofNat text.stored.length) := by
      rw [length_padded, wordsFor_ofNat htext]
    have hwords : code.length = wordsFor (.ofNat (4 * code.length)) := by
      rw [wordsFor_ofNat hcode]
      omega
    have hwritten :=
      WrittenEntry.script id _ _ hhead (Bytes.length_ofWord mid) hpadded hwords
    rw [UInt32.toNat_ofNat_of_lt' htext, take_padded, sourceText_stored] at hwritten
    exact hwritten

theorem one_le_length_bytes (line : Line) : 1 ≤ line.bytes.length := by
  cases line <;> simp only [bytes, List.length_append, Bytes.length_ofWord] <;> omega

end Line

theorem writtenEntries_flatMap {lines : List Line}
    (h : (lines.flatMap Line.bytes).length < UInt32.size) :
    WrittenEntries (lines.flatMap Line.bytes) (lines.map Line.entry) := by
  induction lines with
  | nil => exact .nil
  | cons line lines ih =>
    rw [List.flatMap_cons, List.length_append] at h
    exact .cons (Line.writtenEntry_bytes (by omega)) (ih (by omega))

theorem length_le_length_flatMap_bytes (lines : List Line) :
    lines.length ≤ (lines.flatMap Line.bytes).length := by
  induction lines with
  | nil => exact Nat.le_refl _
  | cons line lines ih =>
    have := line.one_le_length_bytes
    rw [List.flatMap_cons, List.length_append, List.length_cons]
    omega

theorem length_mapBytes (lines : List Line) :
    (mapBytes lines).length = 4 + (lines.flatMap Line.bytes).length := by
  rw [mapBytes, List.length_append, Bytes.length_ofWord]

theorem isTagMap_mapBytes {lines : List Line} (h : (mapBytes lines).length < UInt32.size) :
    IsTagMap (mapBytes lines) (lines.map Line.entry) := by
  rw [length_mapBytes] at h
  have hcount := length_le_length_flatMap_bytes lines
  refine ⟨.ofNat lines.length, _, rfl, writtenEntries_flatMap (by omega), ?_⟩
  rw [UInt32.toNat_ofNat_of_lt' (by omega), List.length_map]

end PowerFormulas.TagMap
