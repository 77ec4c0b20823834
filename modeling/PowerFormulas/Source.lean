import Std.Data.ExtTreeMap
import PowerFormulas.Record

/-!
# Where records come from

A source answers three questions: which record goes with a name, which name goes with an id, and
which names there are. A store answers them from records held in memory.
-/

namespace PowerFormulas

structure Source where
  load : String → Option Record
  nameOf : UInt32 → Option String
  names : List String

/-- Records by name, and an index of their names by id. -/
structure RecordStore where
  records : Std.ExtTreeMap String Record
  nameById : Std.ExtTreeMap UInt32 String
  deriving DecidableEq, Repr

namespace RecordStore

def empty : RecordStore := ⟨∅, ∅⟩

/-- Adds a record, in place of one of the same name. The index entry under the id of the replaced
record is dropped, whichever record it leads to. -/
def insert (s : RecordStore) (r : Record) : RecordStore :=
  let index := match s.records[r.name]? with
    | some old => s.nameById.erase old.id
    | none => s.nameById
  ⟨s.records.insert r.name r, index.insert r.id r.name⟩

def ofList (records : List Record) : RecordStore := records.foldl insert empty

def load (s : RecordStore) (name : String) : Option Record := s.records[name]?

def nameOf (s : RecordStore) (id : UInt32) : Option String := s.nameById[id]?

/-- The names in ascending order. -/
def names (s : RecordStore) : List String := s.records.keys

def size (s : RecordStore) : Nat := s.records.size

def toSource (s : RecordStore) : Source := ⟨s.load, s.nameOf, s.names⟩

end RecordStore

namespace Source

/-- Loads another name in place of some. -/
def withAliases (aliases : Std.ExtTreeMap String String) (s : Source) : Source :=
  { s with load := fun name => s.load (aliases.getD name name) }

/-- Gives names to further ids; these come before the source's own. -/
def withIds (ids : Std.ExtTreeMap UInt32 String) (s : Source) : Source :=
  { s with nameOf := fun id => ids[id]?.or (s.nameOf id) }

/-- Lists further names after the source's own. -/
def withNames (names : List String) (s : Source) : Source :=
  { s with names := s.names ++ names }

end Source

end PowerFormulas
