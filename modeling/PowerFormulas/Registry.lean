import PowerFormulas.Dump
import PowerFormulas.Power.Evaluation
import PowerFormulas.Source

/-!
# The registry of powers

A registry keeps the powers that have been asked for. A power is decoded when it is first needed,
under the name that its record bears; a name that leads to a record of another name is remembered as
an alias. Later requests, by name, alias or id, are answered by the power that is kept, with the
progress that evaluations have made on it.
-/

namespace PowerFormulas

/-- What a registry draws on; it stays the same throughout. -/
structure Library where
  source : Source
  catalog : Catalog
  /-- The names that formulas refer to by their places. -/
  names : List String

def Library.scope (l : Library) (attributes : Attributes) : Scope :=
  ⟨l.catalog, l.names, attributes⟩

/-- Loads and decodes the record that goes with a name. -/
def Library.decode (l : Library) (name : String) : Option (Except Malformed Power) :=
  (l.source.load name).map Power.decode

structure Registry where
  powers : Std.ExtTreeMap String Power
  /-- The names of kept powers by id. -/
  nameById : Std.ExtTreeMap UInt32 String
  /-- The names of kept powers by the other names that led to them. -/
  aliases : Std.ExtTreeMap String String
  /-- How often the source has been asked for a record. -/
  loads : Nat
  /-- How many scripts have been run. -/
  runs : Nat
  deriving DecidableEq, Repr

namespace Registry

def empty : Registry := ⟨∅, ∅, ∅, 0, 0⟩

/-- The number of powers kept. -/
def size (r : Registry) : Nat := r.powers.size

/-- The name of the power that a name has led to, or the name itself. -/
def canonical (r : Registry) (name : String) : String := r.aliases.getD name name

/-- Whether a request by this name needs no loading. -/
def isCached (r : Registry) (name : String) : Bool := r.powers.contains (r.canonical name)

/-- Whether a power of this id is kept. -/
def isCachedId (r : Registry) (id : UInt32) : Bool := r.nameById.contains id

/-- Takes in a power that was decoded for the given name. A power that is kept already stays, with
its progress. -/
def adopt (r : Registry) (name : String) (p : Power) : Power × Registry :=
  let aliases := if p.name = name then r.aliases else r.aliases.insert name p.name
  match r.powers[p.name]? with
  | some live => (live, { r with aliases })
  | none =>
    (p, { r with
      aliases
      powers := r.powers.insert p.name p
      nameById := r.nameById.insert p.id p.name })

/-- The power of a name, decoded if need be; none where the source has no record. A record that
cannot be decoded leaves the registry as it was, the count of loads aside. -/
def get (l : Library) (name : String) (r : Registry) : Except Malformed (Option Power) × Registry :=
  match r.powers[r.canonical name]? with
  | some p => (.ok (some p), r)
  | none =>
    let r := { r with loads := r.loads + 1 }
    match l.decode name with
    | none => (.ok none, r)
    | some (.error fault) => (.error fault, r)
    | some (.ok p) =>
      let (p, r) := r.adopt name p
      (.ok (some p), r)

/-- The power of an id, by the name that is kept for it, or else by the source's. -/
def getById (l : Library) (id : UInt32) (r : Registry) :
    Except Malformed (Option Power) × Registry :=
  match r.nameById[id]?.or (l.source.nameOf id) with
  | some name => r.get l name
  | none => (.ok none, r)

/-- Dumps of the powers of these names, as far as there are such; the first one that cannot be
decoded ends it. -/
def dumpNames (l : Library) :
    List String → PowerDumps → Registry → Except Malformed PowerDumps × Registry
  | [], dumps, r => (.ok dumps, r)
  | name :: rest, dumps, r =>
    match r.get l name with
    | (.error fault, r) => (.error fault, r)
    | (.ok none, r) => dumpNames l rest dumps r
    | (.ok (some p), r) => dumpNames l rest (dumps.insert name (p.powerDump l.catalog)) r

/-- Dumps of all powers that the source lists, by the names under which it lists them. -/
def dumpAll (l : Library) (r : Registry) : Except Malformed PowerDumps × Registry :=
  r.dumpNames l l.source.names ∅

/-- Keeps what an evaluation has made of a power. -/
def keep {α : Type} (o : Outcome α) (r : Registry) : Registry :=
  { r with powers := r.powers.insert o.power.name o.power, runs := r.runs + o.runs }

/-- Evaluates a tag of the power that a request has found. -/
def evaluateFound (l : Library) (attributes : Attributes) (tag : String) :
    Except Malformed (Option Power) × Registry →
      Except Error (Option (Option Int32)) × Registry
  | (.error fault, r) => (.error (.malformed fault), r)
  | (.ok none, r) => (.ok none, r)
  | (.ok (some p), r) =>
    let o := p.evaluate? (l.scope attributes) tag
    (o.result.map some, r.keep o)

/-- Evaluates a tag of the power of a name; none where there is no such power, and none within where
the power has no such tag. -/
def evaluate (l : Library) (name : String) (attributes : Attributes) (tag : String)
    (r : Registry) : Except Error (Option (Option Int32)) × Registry :=
  evaluateFound l attributes tag (r.get l name)

/-- Evaluates a tag of the power of an id. -/
def evaluateById (l : Library) (id : UInt32) (attributes : Attributes) (tag : String)
    (r : Registry) : Except Error (Option (Option Int32)) × Registry :=
  evaluateFound l attributes tag (r.getById l id)

end Registry

end PowerFormulas
