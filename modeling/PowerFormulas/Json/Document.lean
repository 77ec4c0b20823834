import Std.Data.ExtTreeMap
import PowerFormulas.Json.Reading

/-!
# Shapes of JSON documents

Two shapes recur in the documents of this library. A *table* is an object whose names are keys; a
key may repeat, each of its values must be readable, and the last one counts. A *pair of fields* is
an object that has each of two names once, whatever else it has, or an array of just the two values.
-/

namespace PowerFormulas.Json

namespace Value

def text (s : String) : Value := .scalar (.text (some s))

def natural (n : Nat) : Value := .scalar (.natural n)

/-- An object of the members in the order given. -/
def ofMembers (members : List (String × Value)) : Value :=
  .object (members.map fun (name, v) => (some name, v))

/-- An object of a table's values, in the order of the keys. -/
def ofTable {α : Type} (write : α → Value) (table : Std.ExtTreeMap String α) : Value :=
  ofMembers (table.toList.map fun (key, a) => (key, write a))

def text? : Value → Option String
  | .scalar (.text content) => content
  | _ => none

/-- A number of 32 bits, written without sign, fraction and exponent. -/
def word? : Value → Option UInt32
  | .scalar (.natural n) => if n < UInt32.size then some (UInt32.ofNat n) else none
  | _ => none

/-- The members of an object whose names all are texts. -/
def members? : Value → Option (List (String × Value))
  | .object members => members.mapM fun (name, v) => name.map fun name => (name, v)
  | _ => none

/-- Reads a table. -/
def table? {α : Type} (read : Value → Option α) (v : Value) :
    Option (Std.ExtTreeMap String α) := do
  let members ← v.members?
  let pairs ← members.mapM fun (key, v) => (read v).map fun a => (key, a)
  return .ofList pairs

/-- The value of a name that occurs exactly once. -/
def field? (name : String) (members : List (String × Value)) : Option Value :=
  match members.filter (·.1 = name) with
  | [(_, v)] => some v
  | _ => none

/-- Reads a pair of fields. -/
def fields? (first second : String) : Value → Option (Value × Value)
  | .array [a, b] => some (a, b)
  | .object members => do
    let members ← (Value.object members).members?
    let a ← field? first members
    let b ← field? second members
    return (a, b)
  | _ => none

end Value

end PowerFormulas.Json
