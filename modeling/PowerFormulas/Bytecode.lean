import Std.Data.ExtTreeMap
import PowerFormulas.Error

/-!
# Formula programs

A program is a list of words, read as instructions from left to right. The machine has a stack of
32-bit numbers. It can see attributes, and it can ask for the values of other tags of the same
power; tags and attributes are referred to by their places in a table of names.

An empty stack holds zeros for whoever takes from it, a missing operand is zero, and arithmetic
wraps.
-/

namespace PowerFormulas

/-- The attributes that formulas are evaluated against. -/
abbrev Attributes := Std.ExtTreeMap String Int32

namespace Bytecode

inductive Instruction where
  | push (value : Int32)
  /-- Pushes an attribute, or 0 where it is absent. -/
  | pushAttribute (index : UInt32)
  /-- Pushes the value of a tag. -/
  | pushTag (index : UInt32)
  | add
  | multiply
  /-- Pushes the value of a tag, or -1 where it has none. -/
  | pushTagOrMinusOne (index : UInt32)
  /-- Pushes the number of attributes. -/
  | pushAttributeCount
  /-- Reports a malformed record. -/
  | fail
  | unknown (word : UInt32)
  deriving DecidableEq, Repr

/-- Whether the word is followed by an operand. -/
def takesOperand (word : UInt32) : Bool :=
  word = 1 || word = 2 || word = 3 || word = 6

/-- The instruction of a word and the operand that follows it, if it takes one. -/
def Instruction.ofWords (word operand : UInt32) : Instruction :=
  match word with
  | 1 => .push operand.toInt32
  | 2 => .pushAttribute operand
  | 3 => .pushTag operand
  | 4 => .add
  | 5 => .multiply
  | 6 => .pushTagOrMinusOne operand
  | 7 => .pushAttributeCount
  | 8 => .fail
  | other => .unknown other

/-- The instructions of a program. -/
def decode : List UInt32 → List Instruction
  | [] => []
  | [word] => [.ofWords word 0]
  | word :: next :: rest =>
    if takesOperand word then .ofWords word next :: decode rest
    else .ofWords word 0 :: decode (next :: rest)

variable {m : Type → Type} [Monad m]

/-- The name at a place of the name table. -/
def nameAt (names : List String) (index : UInt32) : ExceptT Error m String :=
  match names[index.toNat]? with
  | some name => pure name
  | none => throw (.badNameIndex index)

/-- Carries out one instruction; `valueOf` gives the values of tags. -/
def step (names : List String) (attributes : Attributes)
    (valueOf : String → ExceptT Error m Int32) (stack : List Int32) :
    Instruction → ExceptT Error m (List Int32)
  | .push value => pure (value :: stack)
  | .pushAttribute index => do
    let name ← nameAt names index
    return attributes.getD name 0 :: stack
  | .pushTag index => do
    let name ← nameAt names index
    let value ← valueOf name
    return value :: stack
  | .add => pure ((stack.getD 1 0 + stack.getD 0 0) :: stack.drop 2)
  | .multiply => pure ((stack.getD 1 0 * stack.getD 0 0) :: stack.drop 2)
  | .pushTagOrMinusOne index => do
    let name ← nameAt names index
    let value ← tryCatch (valueOf name) fun _ => pure (-1)
    return value :: stack
  | .pushAttributeCount => pure (Int32.ofNat attributes.size :: stack)
  | .fail => throw (.malformed .raised)
  | .unknown word => throw (.badOpcode word)

/-- Carries out instructions from a stack on. -/
def runFrom (names : List String) (attributes : Attributes)
    (valueOf : String → ExceptT Error m Int32) :
    List Instruction → List Int32 → ExceptT Error m (List Int32)
  | [], stack => pure stack
  | i :: rest, stack => do
    let stack ← step names attributes valueOf stack i
    runFrom names attributes valueOf rest stack

/-- Runs a program from the empty stack. Its value is the top of the stack, or 0. -/
def run (names : List String) (attributes : Attributes)
    (valueOf : String → ExceptT Error m Int32) (code : List UInt32) : ExceptT Error m Int32 := do
  let stack ← runFrom names attributes valueOf (decode code) []
  return stack.headD 0

end Bytecode

end PowerFormulas
