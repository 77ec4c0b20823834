import PowerFormulas.Json.Quoted

/-!
# Tokens of JSON text

A JSON text is a row of tokens with blank characters between them. Tokens are the six marks of
arrays and objects and the scalars: `null`, the truth values, numbers and strings.
-/

namespace PowerFormulas.Json

inductive Scalar where
  | null
  | bool (value : Bool)
  /-- A number without sign, fraction and exponent. -/
  | natural (value : Nat)
  /-- Any other number, as it is written. -/
  | number (written : String)
  /-- A string; none where it holds half of a surrogate pair. -/
  | text (content : Option String)
  deriving DecidableEq, Repr

inductive Token where
  | openArray
  | closeArray
  | openObject
  | closeObject
  | comma
  | colon
  | scalar (s : Scalar)
  deriving DecidableEq, Repr

/-! ### Reading -/

/-- The characters that may stand between tokens. -/
def isSpace (c : Char) : Bool := c = ' ' || c = '\t' || c = '\n' || c = '\r'

/-- The characters that numbers are made of. -/
def isNumberChar (c : Char) : Bool :=
  c.isDigit || c = '-' || c = '+' || c = '.' || c = 'e' || c = 'E'

/-- At least one digit and nothing else. -/
def areDigits (cs : List Char) : Bool := !cs.isEmpty && cs.all Char.isDigit

/-- Nothing, or an exponent. -/
def isExponent : List Char → Bool
  | [] => true
  | [_] => false
  | e :: sign :: rest =>
    (e = 'e' || e = 'E') &&
      (if sign = '+' || sign = '-' then areDigits rest else areDigits (sign :: rest))

/-- Nothing, or a fraction and an exponent, each of which may be absent. -/
def isFraction : List Char → Bool
  | '.' :: rest =>
    !(rest.takeWhile Char.isDigit).isEmpty && isExponent (rest.dropWhile Char.isDigit)
  | rest => isExponent rest

/-- The digits of a whole number: a single zero, or no zero at the start. -/
def isWhole (cs : List Char) : Bool := cs = ['0'] || (!cs.isEmpty && cs.head? ≠ some '0')

/-- The number that is written as these characters. -/
def number? (cs : List Char) : Option Scalar :=
  let magnitude := if cs.head? = some '-' then cs.drop 1 else cs
  let whole := magnitude.takeWhile Char.isDigit
  let rest := magnitude.dropWhile Char.isDigit
  if isWhole whole && isFraction rest then
    some (if cs = whole then .natural (Nat.ofDigitChars 10 whole 0) else .number (String.ofList cs))
  else none

/-- The mark that a character is. -/
def mark? : Char → Option Token
  | '[' => some .openArray
  | ']' => some .closeArray
  | '{' => some .openObject
  | '}' => some .closeObject
  | ',' => some .comma
  | ':' => some .colon
  | _ => none

/-- Reads a word in small letters. -/
def word? : List Char → Option (Scalar × List Char)
  | 'n' :: 'u' :: 'l' :: 'l' :: rest => some (.null, rest)
  | 't' :: 'r' :: 'u' :: 'e' :: rest => some (.bool true, rest)
  | 'f' :: 'a' :: 'l' :: 's' :: 'e' :: rest => some (.bool false, rest)
  | _ => none

/-- Reads a scalar. No number goes on where it could have ended, since what may follow one is no
character of numbers. -/
def scalar? (cs : List Char) : Option (Scalar × List Char) :=
  if cs.head? = some '"' then do
    let (pieces, rest) ← Quoted.read (cs.drop 1)
    return (.text ((Quoted.text? pieces).map String.ofList), rest)
  else
    match word? cs with
    | some found => some found
    | none => do
      let s ← number? (cs.takeWhile isNumberChar)
      return (s, cs.dropWhile isNumberChar)

/-- Reads the token at the start of a text. -/
def token? : List Char → Option (Token × List Char)
  | [] => none
  | c :: rest =>
    match mark? c with
    | some mark => some (mark, rest)
    | none => do
      let (s, rest) ← scalar? (c :: rest)
      return (.scalar s, rest)

/-- Reads at most `count` tokens, which must be all that there are. -/
def tokensWithin (count : Nat) (cs : List Char) : Option (List Token) :=
  match cs.dropWhile isSpace, count with
  | [], _ => some []
  | _ :: _, 0 => none
  | c :: rest, count + 1 => do
    let (token, rest) ← token? (c :: rest)
    let tokens ← tokensWithin count rest
    return token :: tokens

/-- The tokens of a text. There are no more of them than characters. -/
def tokens? (cs : List Char) : Option (List Token) := tokensWithin cs.length cs

/-! ### Writing -/

def Scalar.write : Scalar → List Char
  | .null => "null".toList
  | .bool true => "true".toList
  | .bool false => "false".toList
  | .natural value => Nat.toDigits 10 value
  | .number written => written.toList
  | .text (some content) => Quoted.write content.toList
  | .text none => ['"', '\\', 'u', 'd', '8', '0', '0', '"']

def Token.write : Token → List Char
  | .openArray => ['[']
  | .closeArray => [']']
  | .openObject => ['{']
  | .closeObject => ['}']
  | .comma => [',']
  | .colon => [':']
  | .scalar s => s.write

end PowerFormulas.Json
