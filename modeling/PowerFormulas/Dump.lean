import PowerFormulas.HexWords
import PowerFormulas.Json.Document
import PowerFormulas.Power

/-!
# Dumped powers

A dump shows each tag of a power under its raw name: the value where there is one, and otherwise the
script. In JSON text a value is its unsigned 32-bit pattern, and a script is an array of its source
text, its program as hexadecimal words and, unless it is empty, its comment.
-/

namespace PowerFormulas

/-- A script as it is dumped. -/
structure ScriptDump where
  source : String
  code : List UInt32
  comment : String
  deriving DecidableEq, Repr

/-- A tag as it is dumped. -/
inductive TagDump where
  /-- The bits of a value. -/
  | value (bits : UInt32)
  | script (s : ScriptDump)
  deriving DecidableEq, Repr

/-- Dumped tags by raw name. -/
abbrev TagDumps := Std.ExtTreeMap String TagDump

structure PowerDump where
  id : UInt32
  tags : TagDumps
  deriving DecidableEq, Repr

/-- Dumped powers by name. -/
abbrev PowerDumps := Std.ExtTreeMap String PowerDump

/-! ### Dumps of powers -/

def TagDump.ofEntry (e : Entry) : TagDump :=
  match e.value? with
  | some v => .value v.toUInt32
  | none => .script ⟨e.source, e.code, e.comment⟩

/-- The value that a dumped tag shows. -/
def TagDump.value? : TagDump → Option Int32
  | .value bits => some bits.toInt32
  | .script _ => none

/-- Every tag under its raw name; of tags that share one the one with the greatest id stays. -/
def Power.dump (c : Catalog) (p : Power) : TagDumps :=
  .ofList (p.entries.toList.map fun (id, e) => (c.rawLabel id, TagDump.ofEntry e))

def Power.powerDump (c : Catalog) (p : Power) : PowerDump := ⟨p.id, p.dump c⟩

/-! ### Writing -/

def ScriptDump.toJson (s : ScriptDump) : Json.Value :=
  .array (.text s.source :: .text (HexWords.write s.code) ::
    if s.comment.isEmpty then [] else [.text s.comment])

def TagDump.toJson : TagDump → Json.Value
  | .value bits => .natural bits.toNat
  | .script s => s.toJson

def TagDumps.toJson (tags : TagDumps) : Json.Value := .ofTable TagDump.toJson tags

def PowerDump.toJson (p : PowerDump) : Json.Value :=
  .ofMembers [("id", .natural p.id.toNat), ("tags", TagDumps.toJson p.tags)]

def PowerDumps.toJson (powers : PowerDumps) : Json.Value := .ofTable PowerDump.toJson powers

/-! ### Reading -/

def ScriptDump.ofJson? : Json.Value → Option ScriptDump
  | .array (source :: code :: comment) => do
    let source ← source.text?
    let code ← code.text?
    let comment ← match comment with
      | [] => some ""
      | [comment] => comment.text?
      | _ => none
    let code ← (HexWords.read code).toOption
    return ⟨source, code, comment⟩
  | _ => none

def TagDump.ofJson? (v : Json.Value) : Option TagDump :=
  match v.word? with
  | some bits => some (.value bits)
  | none => (ScriptDump.ofJson? v).map .script

def TagDumps.ofJson? (v : Json.Value) : Option TagDumps := v.table? TagDump.ofJson?

def PowerDump.ofJson? (v : Json.Value) : Option PowerDump := do
  let (id, tags) ← v.fields? "id" "tags"
  let id ← id.word?
  let tags ← TagDumps.ofJson? tags
  return ⟨id, tags⟩

def PowerDumps.ofJson? (v : Json.Value) : Option PowerDumps := v.table? PowerDump.ofJson?

/-- Reads the text of dumped tags. -/
def TagDumps.parse (text : String) : Except Error TagDumps :=
  match Json.Value.read? text >>= TagDumps.ofJson? with
  | some tags => .ok tags
  | none => .error (.unreadable .tagDump)

end PowerFormulas
