import Std.Data.ExtTreeMap
import PowerFormulas.Error
import PowerFormulas.Text.Blank

/-!
# The tag catalog

Tag definitions carry a numeric id in text form, a human name and a raw name. The catalog built
from them translates between the three. Human names and ids correspond one to one: a second id for
a name is refused, and a second name for an id replaces the first. The catalog also holds the
default parameters of the formula families.
-/

namespace PowerFormulas

/-- The names of a tag: one for people, one for dumped output. -/
structure TagDef where
  name : String
  raw : String
  deriving DecidableEq, Repr

/-- Tag definitions by id in text form, in the order of these texts. -/
abbrev TagDefinitions := Std.ExtTreeMap String TagDef

/-- Parameter slots of a formula family. -/
def parameterCount : Nat := 76

/-- Default parameters as the bit patterns of their single-precision values. -/
abbrev Parameters := Vector UInt32 parameterCount

/-- The default parameters of one formula family. -/
structure BalanceRow where
  family : String
  parameters : Parameters
  deriving DecidableEq, Repr

/-- What to do with a definition whose id is no number. -/
inductive BadIdPolicy where
  | abort
  | skip
  deriving DecidableEq, Repr

structure Catalog where
  ids : Std.ExtTreeMap String UInt32
  tags : Std.ExtTreeMap UInt32 TagDef
  defaults : Std.ExtTreeMap String Parameters
  deriving DecidableEq, Repr

namespace Catalog

def empty : Catalog := ⟨∅, ∅, ∅⟩

/-- The id that a definition's key denotes: a decimal numeral, blanks around it aside. -/
def keyId? (key : String) : Option UInt32 :=
  (Text.readWord 10 (Text.trim key.toList)).toOption

def idFor (c : Catalog) (name : String) : Option UInt32 := c.ids[name]?

def nameFor (c : Catalog) (id : UInt32) : Option String := c.tags[id]?.map (·.name)

def rawNameFor (c : Catalog) (id : UInt32) : Option String := c.tags[id]?.map (·.raw)

def parametersFor (c : Catalog) (family : String) : Option Parameters := c.defaults[family]?

/-- One default parameter, as a bit pattern. -/
def parameterFor (c : Catalog) (family : String) (slot : Nat) : Option UInt32 := do
  let parameters ← c.parametersFor family
  parameters[slot]?

/-- The number of tags. -/
def size (c : Catalog) : Nat := c.tags.size

/-- A tag as people see it: its human name, or its id where it has none. -/
def label (c : Catalog) (id : UInt32) : String := (c.nameFor id).getD (toString id)

/-- A tag as the key of dumped output: its raw name, or its id where it has none. -/
def rawLabel (c : Catalog) (id : UInt32) : String := (c.rawNameFor id).getD (toString id)

/-- Gives the id these names, in place of those it had. -/
def rename (c : Catalog) (id : UInt32) (tag : TagDef) : Catalog :=
  let ids := match c.nameFor id with
    | some old => c.ids.erase old
    | none => c.ids
  { c with ids := ids.insert tag.name id, tags := c.tags.insert id tag }

/-- Takes in a definition; a human name that belongs to another id is refused. -/
def define (c : Catalog) (id : UInt32) (tag : TagDef) : Except Error Catalog :=
  match c.idFor tag.name with
  | some first =>
    if first = id then .ok (c.rename id tag) else .error (.duplicateName tag.name first id)
  | none => .ok (c.rename id tag)

/-- Takes in definitions one after another, their keys being read first. -/
def defineAll (policy : BadIdPolicy) :
    Catalog → List (String × TagDef) → Except Error Catalog
  | c, [] => .ok c
  | c, (key, tag) :: rest =>
    match keyId? key, policy with
    | some id, _ => c.define id tag >>= (defineAll policy · rest)
    | none, .skip => defineAll policy c rest
    | none, .abort => .error (.unparsableId key)

/-- The catalog of the definitions, in the order of their keys, and of the balance rows, of which
the last one of a family stays. -/
def load (policy : BadIdPolicy) (definitions : TagDefinitions) (balance : List BalanceRow) :
    Except Error Catalog := do
  let c ← empty.defineAll policy definitions.toList
  return { c with
    defaults := .ofList (balance.map fun row => (row.family, row.parameters)) }

end Catalog

end PowerFormulas
