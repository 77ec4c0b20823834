import PowerFormulas.Text.Numeral

/-!
# What can go wrong

Faults are kept as causes; `Malformed.message` and `Error.message` put them into words.
-/

namespace PowerFormulas

/-- Why a record cannot be read: a length, a count or an offset leaves its bounds. -/
inductive Malformed where
  /-- `length` bytes are wanted at `position` of a region of `size` bytes. -/
  | readPastEnd (length position size : Nat)
  /-- The bytes of `count` words cannot be counted in 64 bits. -/
  | countOverflow (count : Nat)
  /-- The end of a region cannot be written in 64 bits. -/
  | regionOverflow (offset length : Nat)
  /-- The region from `offset` up to `stop` leaves a record of `size` bytes. -/
  | regionOutside (offset stop size : Nat)
  /-- The address of a descriptor cannot be written in 64 bits. -/
  | baseOverflow
  /-- The tag map described at `offset` of the record's definition is malformed. -/
  | inTagMap (record : String) (offset : Nat) (cause : Malformed)
  /-- A formula reports the fault itself. -/
  | raised
  /-- A fault in the caller's words. -/
  | note (text : String)
  deriving DecidableEq, Repr

def Malformed.message : Malformed → String
  | .readPastEnd length position size =>
    s!"read of {length} bytes at offset {position} exceeds region of {size} bytes"
  | .countOverflow count => s!"word count {count} overflows the address space"
  | .regionOverflow offset length => s!"region {offset}+{length} overflows the address space"
  | .regionOutside offset stop size =>
    s!"region {offset}..{stop} exceeds record of {size} bytes"
  | .baseOverflow => "definition base overflows"
  | .inTagMap record offset cause =>
    let digits := String.ofList (Text.padDigits 16 3 offset)
    s!"{record}: tag map +0x{digits}: {cause.message}"
  | .raised => "raised by executor"
  | .note text => text

/-- Why a document or a list of words in text form cannot be read. -/
inductive Unreadable where
  /-- `word` is the offending piece, blanks included. -/
  | bytecodeWord (word : String) (fault : Text.NumeralFault)
  | tagDefinitions
  | tagDump
  /-- A fault in the caller's words. -/
  | note (text : String)
  deriving DecidableEq, Repr

def Unreadable.message : Unreadable → String
  | .bytecodeWord word fault =>
    let reason := fault.message
    s!"bytecode word '{word}': {reason}"
  | .tagDefinitions => "tag definitions: not a document of tag definitions"
  | .tagDump => "tag dump: not a document of dumped tags"
  | .note text => text

inductive Error where
  | malformed (cause : Malformed)
  /-- The key of a tag definition denotes no tag id. -/
  | unparsableId (key : String)
  /-- Two definitions give one human name to two ids. -/
  | duplicateName (name : String) (first second : UInt32)
  /-- A formula needs its own value. -/
  | recursiveFormula (power tag : String)
  | unreadable (cause : Unreadable)
  /-- A formula holds a word that starts no instruction. -/
  | badOpcode (word : UInt32)
  /-- An instruction refers to a name past the end of the name table. -/
  | badNameIndex (index : UInt32)
  /-- A fault in the caller's words. -/
  | note (text : String)
  deriving DecidableEq, Repr

def Error.message : Error → String
  | .malformed cause => s!"malformed record: {cause.message}"
  | .unparsableId key => s!"unparsable tag id '{key}'"
  | .duplicateName name first second =>
    s!"duplicate tag name '{name}' (ids {first} and {second})"
  | .recursiveFormula power tag => s!"recursive formula in PowerTag.{power}.\"{tag}\""
  | .unreadable cause => s!"serialization error: {cause.message}"
  | .badOpcode word => s!"bad opcode {word}"
  | .badNameIndex index => s!"bad name index {index}"
  | .note text => text

end PowerFormulas
