import PowerFormulas.TagMap

/-!
# Power records

A record holds a power in binary form. At fixed offsets from its definition stand eleven
descriptors, each the offset and the size of a tag map; offsets of maps count from the start of the
record. The maps are read in the order of their descriptors and the last entry of a tag id stays.

A record also comes with the texts of its script slots. Each slot stands for one tag id, and its
text becomes the comment of the script under that id, if there is one.
-/

namespace PowerFormulas

structure Record where
  name : String
  id : UInt32
  data : List UInt8
  /-- Where the definition starts in `data`. -/
  base : Nat
  /-- The texts of the script slots, in slot order. -/
  details : List String
  deriving DecidableEq, Repr

namespace Record

/-- Where the descriptors of the tag maps stand, counted from the definition. -/
def tagMapOffsets : List Nat :=
  [0x008, 0x018, 0x028, 0x050, 0x058, 0x060, 0x068, 0x090, 0x098, 0x0A0, 0x0A8]

/-- The tag id of a script slot: ten slots to a row, rows 0x1000 apart, slots 0x100 apart. -/
def slotId (slot : Nat) : UInt32 :=
  0x41100 + UInt32.ofNat (slot / 10) * 0x1000 + UInt32.ofNat (slot % 10) * 0x100

/-- Gives the script of each slot the slot's text as its comment. -/
def annotate (details : List String) (entries : Entries) : Entries :=
  details.zipIdx.foldl (fun es (text, slot) => es.modify (slotId slot) (Entry.annotate text))
    entries

/-- The bytes of the tag map described at `offset` of the definition; a map of size zero is absent,
wherever it is said to be. -/
def tagMapRegion (r : Record) (offset : Nat) : Except Malformed (Option (List UInt8)) :=
  if r.base + offset < addressSpace then do
    let descriptor ← Bytes.region r.data (r.base + offset) (2 * wordBytes)
    let (start, c) ← (Cursor.start descriptor).word
    let (size, _) ← c.word
    if size = 0 then return none
    else some <$> Bytes.region r.data start.toNat size.toNat
  else .error .baseOverflow

/-- The entries of the tag map described at `offset` of the definition. -/
def tagMap (r : Record) (offset : Nat) : Except Malformed (List (UInt32 × Entry)) := do
  match ← r.tagMapRegion offset with
  | none => return []
  | some bytes =>
    let reading := TagMap.read bytes
    let _ ← reading.outcome
    return reading.entries

/-- Decodes every tag map and attaches the comments. A fault names the record and the map. -/
def decode (r : Record) : Except Malformed Entries := do
  let maps ← tagMapOffsets.mapM fun offset =>
    (r.tagMap offset).mapError (.inTagMap r.name offset)
  return annotate r.details (.ofList maps.flatten)

end Record

end PowerFormulas
