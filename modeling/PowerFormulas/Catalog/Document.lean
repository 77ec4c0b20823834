import PowerFormulas.Catalog
import PowerFormulas.Json.Document

/-!
# Documents of tag definitions

In JSON text, tag definitions are a table by id, and each one is a pair of fields: `name`, the human
name, and `tag`, the raw name.
-/

namespace PowerFormulas

def TagDef.toJson (tag : TagDef) : Json.Value :=
  .ofMembers [("name", .text tag.name), ("tag", .text tag.raw)]

def TagDef.ofJson? (v : Json.Value) : Option TagDef := do
  let (name, raw) ← v.fields? "name" "tag"
  let name ← name.text?
  let raw ← raw.text?
  return ⟨name, raw⟩

def TagDefinitions.toJson (definitions : TagDefinitions) : Json.Value :=
  .ofTable TagDef.toJson definitions

def TagDefinitions.ofJson? (v : Json.Value) : Option TagDefinitions := v.table? TagDef.ofJson?

/-- Reads the text of tag definitions. -/
def TagDefinitions.parse (text : String) : Except Error TagDefinitions :=
  match Json.Value.read? text >>= TagDefinitions.ofJson? with
  | some definitions => .ok definitions
  | none => .error (.unreadable .tagDefinitions)

/-- The catalog of a document of definitions and of the balance rows. -/
def Catalog.parse (policy : BadIdPolicy) (text : String) (balance : List BalanceRow) :
    Except Error Catalog := do
  let definitions ← TagDefinitions.parse text
  load policy definitions balance

end PowerFormulas
