import RoundLedger.Bytes
import RoundLedger.Json

/-!
# JSON tokens

Cuts a text into tokens. Blanks between them are dropped. Each scanner takes its token off the
front of the text and leaves the rest.
-/

namespace RoundLedger.Json

inductive Token
  | leftBrace
  | rightBrace
  | leftBracket
  | rightBracket
  | colon
  | comma
  | null
  | bool (value : Bool)
  | number (text : String)
  | string (text : Option String)
  deriving DecidableEq, Repr

def isBlank (c : Char) : Bool := c = ' ' || c = '\t' || c = '\n' || c = '\r'

/-! ## Strings -/

def hexUnit? (a b c d : Char) : Option Nat := do
  some (((← Hex.value? a) * 16 + (← Hex.value? b)) * 256 + (← Hex.value? c) * 16 + (← Hex.value? d))

def escapedChar? : Char → Option Nat
  | '"' => some 34
  | '\\' => some 92
  | '/' => some 47
  | 'b' => some 8
  | 'f' => some 12
  | 'n' => some 10
  | 'r' => some 13
  | 't' => some 9
  | _ => none

/-- The code points up to the closing quote, halves of surrogate pairs left apart. -/
def scanString : List Char → Option (List Nat × List Char)
  | [] => none
  | '"' :: rest => some ([], rest)
  | '\\' :: 'u' :: a :: b :: c :: d :: rest => do
    let unit ← hexUnit? a b c d
    let (units, rest) ← scanString rest
    some (unit :: units, rest)
  | '\\' :: c :: rest => do
    let unit ← escapedChar? c
    let (units, rest) ← scanString rest
    some (unit :: units, rest)
  | c :: rest =>
    if c.toNat < 32 ∨ c = '\\' then none
    else do
      let (units, rest) ← scanString rest
      some (c.toNat :: units, rest)

/-- Joins surrogate pairs. There is no text when a half stands alone. -/
def joinUnits : List Nat → Option (List Char)
  | [] => some []
  | unit :: rest =>
    if 0xd800 ≤ unit ∧ unit < 0xdc00 then
      match rest with
      | low :: rest =>
        if 0xdc00 ≤ low ∧ low < 0xe000 then do
          let chars ← joinUnits rest
          some (Char.ofNat (0x10000 + (unit - 0xd800) * 0x400 + (low - 0xdc00)) :: chars)
        else none
      | [] => none
    else if 0xdc00 ≤ unit ∧ unit < 0xe000 then none
    else do
      let chars ← joinUnits rest
      some (Char.ofNat unit :: chars)

/-! ## Numbers -/

/-- One digit or more. -/
def scanDigits (cs : List Char) : Option (List Char × List Char) :=
  let digits := cs.takeWhile Char.isDigit
  if digits = [] then none else some (digits, cs.dropWhile Char.isDigit)

/-- The part before the point: no zero in front of other digits. -/
def scanWhole : List Char → Option (List Char × List Char)
  | '0' :: rest => some (['0'], rest)
  | cs => scanDigits cs

/-- The point and the digits behind it, if there is a point. -/
def scanFraction : List Char → Option (List Char × List Char)
  | '.' :: rest => do
    let (digits, rest) ← scanDigits rest
    some ('.' :: digits, rest)
  | cs => some ([], cs)

/-- The exponent with its sign, if there is one. -/
def scanExponent : List Char → Option (List Char × List Char)
  | c :: rest =>
    if c = 'e' ∨ c = 'E' then
      match rest with
      | s :: more =>
        if s = '+' ∨ s = '-' then do
          let (digits, rest) ← scanDigits more
          some (c :: s :: digits, rest)
        else do
          let (digits, rest) ← scanDigits rest
          some (c :: digits, rest)
      | [] => none
    else some ([], c :: rest)
  | [] => some ([], [])

def scanUnsigned (cs : List Char) : Option (List Char × List Char) := do
  let (whole, rest) ← scanWhole cs
  let (fraction, rest) ← scanFraction rest
  let (exponent, rest) ← scanExponent rest
  some (whole ++ fraction ++ exponent, rest)

/-! ## Tokens -/

def scanToken : List Char → Option (Token × List Char)
  | '\x7b' :: rest => some (.leftBrace, rest)
  | '\x7d' :: rest => some (.rightBrace, rest)
  | '[' :: rest => some (.leftBracket, rest)
  | ']' :: rest => some (.rightBracket, rest)
  | ':' :: rest => some (.colon, rest)
  | ',' :: rest => some (.comma, rest)
  | 'n' :: 'u' :: 'l' :: 'l' :: rest => some (.null, rest)
  | 't' :: 'r' :: 'u' :: 'e' :: rest => some (.bool true, rest)
  | 'f' :: 'a' :: 'l' :: 's' :: 'e' :: rest => some (.bool false, rest)
  | '"' :: rest => do
    let (units, rest) ← scanString rest
    some (.string ((joinUnits units).map String.ofList), rest)
  | '-' :: rest => do
    let (text, rest) ← scanUnsigned rest
    some (.number (String.ofList ('-' :: text)), rest)
  | cs => do
    let (text, rest) ← scanUnsigned cs
    some (.number (String.ofList text), rest)

/-- The tokens of a text. `fuel` bounds their number. -/
def scan : Nat → List Char → Option (List Token)
  | 0, _ => none
  | fuel + 1, cs =>
    match cs.dropWhile isBlank with
    | [] => some []
    | cs => do
      let (token, rest) ← scanToken cs
      let tokens ← scan fuel rest
      some (token :: tokens)

def tokens? (cs : List Char) : Option (List Token) := scan (cs.length + 1) cs

end RoundLedger.Json
