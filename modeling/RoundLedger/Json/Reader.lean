import RoundLedger.Json.Token

/-!
# Reading JSON

A value is read off the front of the tokens. `fuel` bounds the depth of the recursion; twice the
number of tokens is enough, since every second step takes one.
-/

namespace RoundLedger.Json

mutual

def readValue : Nat → List Token → Option (Json × List Token)
  | 0, _ => none
  | _ + 1, .null :: rest => some (null, rest)
  | _ + 1, .bool b :: rest => some (bool b, rest)
  | _ + 1, .number n :: rest => some (number n, rest)
  | _ + 1, .string s :: rest => some (string s, rest)
  | _ + 1, .leftBracket :: .rightBracket :: rest => some (array [], rest)
  | fuel + 1, .leftBracket :: rest => do
    let (items, rest) ← readItems fuel rest
    some (array items, rest)
  | _ + 1, .leftBrace :: .rightBrace :: rest => some (object [], rest)
  | fuel + 1, .leftBrace :: rest => do
    let (fields, rest) ← readFields fuel rest
    some (object fields, rest)
  | _ + 1, _ => none

/-- One item or more, up to the closing bracket. -/
def readItems : Nat → List Token → Option (List Json × List Token)
  | 0, _ => none
  | fuel + 1, tokens => do
    let (item, rest) ← readValue fuel tokens
    match rest with
    | .comma :: rest =>
      let (items, rest) ← readItems fuel rest
      some (item :: items, rest)
    | .rightBracket :: rest => some ([item], rest)
    | _ => none

/-- One field or more, up to the closing brace. -/
def readFields : Nat → List Token → Option (List (Option String × Json) × List Token)
  | 0, _ => none
  | fuel + 1, .string name :: .colon :: tokens => do
    let (value, rest) ← readValue fuel tokens
    match rest with
    | .comma :: rest =>
      let (fields, rest) ← readFields fuel rest
      some ((name, value) :: fields, rest)
    | .rightBrace :: rest => some ([(name, value)], rest)
    | _ => none
  | _ + 1, _ => none

end

def parse? (text : List Char) : Option Json := do
  let tokens ← tokens? text
  match ← readValue (2 * tokens.length + 2) tokens with
  | (value, []) => some value
  | _ => none

/-! ## Fields -/

/-- The value of a field that may be missing. There is none when the field is written twice. -/
def uniqueField (fields : List (Option String × Json)) (name : String) : Option (Option Json) :=
  match fields.filter fun field => field.1 = some name with
  | [] => some none
  | [(_, value)] => some (some value)
  | _ => none

def count? : Json → Option UInt64
  | number text =>
    let n := text.toList.foldl (fun n c => 10 * n + (c.toNat - 48)) 0
    if text.toList.all Char.isDigit ∧ n < UInt64.size then some (UInt64.ofNat n) else none
  | _ => none

def bool? : Json → Option Bool
  | bool b => some b
  | _ => none

end RoundLedger.Json
