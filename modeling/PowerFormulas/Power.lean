import PowerFormulas.Catalog
import PowerFormulas.Record

/-!
# Powers

A power is a named set of tag entries. Tags are asked for by their human names, which the catalog
translates into ids; what is not there counts as zero or empty.
-/

namespace PowerFormulas

structure Power where
  name : String
  id : UInt32
  entries : Entries
  deriving DecidableEq, Repr

namespace Power

/-- The power that a record holds. -/
def decode (r : Record) : Except Malformed Power := do
  let entries ← r.decode
  return ⟨r.name, r.id, entries⟩

/-- The entry of a tag, by its human name. -/
def entry? (c : Catalog) (tag : String) (p : Power) : Option Entry := do
  let id ← c.idFor tag
  p.entries[id]?

/-- The value that a tag has already, or 0; nothing is evaluated. -/
def constantValue (c : Catalog) (tag : String) (p : Power) : Int32 :=
  ((p.entry? c tag).bind Entry.value?).getD 0

def comment (c : Catalog) (tag : String) (p : Power) : String :=
  ((p.entry? c tag).map Entry.comment).getD ""

def code (c : Catalog) (tag : String) (p : Power) : List UInt32 :=
  ((p.entry? c tag).map Entry.code).getD []

/-- A formula as people read it: its value when there is one, else its source text. -/
def formulaText (e : Entry) : String :=
  match e.value? with
  | some value => toString value
  | none => e.source

/-- Every formula by its label; of tags that share a label the one with the greatest id stays. -/
def formulas (c : Catalog) (p : Power) : Std.ExtTreeMap String String :=
  .ofList (p.entries.toList.map fun (id, e) => (c.label id, formulaText e))

end Power

end PowerFormulas
