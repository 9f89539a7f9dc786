/-!
# JSON values and their text
-/

namespace RoundLedger

/-- A JSON value. A number keeps its text. A string is `none` when an escape in it names half of a
surrogate pair, which no text holds. -/
inductive Json
  | null
  | bool (value : Bool)
  | number (text : String)
  | string (text : Option String)
  | array (items : List Json)
  | object (fields : List (Option String × Json))
  deriving Inhabited

namespace Json

def ofNat (n : Nat) : Json := number n.repr

def text (s : String) : Json := string (some s)

def record (fields : List (String × Json)) : Json :=
  object (fields.map fun (name, value) => (some name, value))

/-! ## Printing -/

def escape (c : Char) : List Char :=
  if c = '"' then ['\\', '"']
  else if c = '\\' then ['\\', '\\']
  else if c = '\n' then ['\\', 'n']
  else if c = '\r' then ['\\', 'r']
  else if c = '\t' then ['\\', 't']
  else if c.toNat = 8 then ['\\', 'b']
  else if c.toNat = 12 then ['\\', 'f']
  else if c.toNat < 32 then
    ['\\', 'u', '0', '0', if c.toNat < 16 then '0' else '1',
      (Nat.toDigits 16 (c.toNat % 16)).headD '0']
  else [c]

def quote (s : Option String) : List Char :=
  '"' :: (s.getD "").toList.flatMap escape ++ ['"']

mutual

def compact : Json → List Char
  | null => "null".toList
  | bool true => "true".toList
  | bool false => "false".toList
  | number n => n.toList
  | string s => quote s
  | array items => '[' :: compactItems items ++ [']']
  | object fields => '\x7b' :: compactFields fields ++ ['\x7d']

def compactItems : List Json → List Char
  | [] => []
  | [v] => compact v
  | v :: w :: rest => compact v ++ ',' :: compactItems (w :: rest)

def compactFields : List (Option String × Json) → List Char
  | [] => []
  | [(name, v)] => quote name ++ ':' :: compact v
  | (name, v) :: f :: rest => quote name ++ ':' :: compact v ++ ',' :: compactFields (f :: rest)

end

def indent (depth : Nat) : List Char := '\n' :: List.replicate (2 * depth) ' '

mutual

/-- The text with one item a line, two blanks deeper for each level. -/
def pretty (depth : Nat) : Json → List Char
  | array [] => "[]".toList
  | object [] => ['\x7b', '\x7d']
  | array items => '[' :: prettyItems (depth + 1) items ++ indent depth ++ [']']
  | object fields => '\x7b' :: prettyFields (depth + 1) fields ++ indent depth ++ ['\x7d']
  | null => "null".toList
  | bool true => "true".toList
  | bool false => "false".toList
  | number n => n.toList
  | string s => quote s

def prettyItems (depth : Nat) : List Json → List Char
  | [] => []
  | [v] => indent depth ++ pretty depth v
  | v :: w :: rest => indent depth ++ pretty depth v ++ ',' :: prettyItems depth (w :: rest)

def prettyFields (depth : Nat) : List (Option String × Json) → List Char
  | [] => []
  | [(name, v)] => indent depth ++ quote name ++ ':' :: ' ' :: pretty depth v
  | (name, v) :: f :: rest =>
    indent depth ++ quote name ++ ':' :: ' ' :: pretty depth v ++ ',' :: prettyFields depth (f :: rest)

end

end Json

end RoundLedger
