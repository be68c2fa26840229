/-!
# JSON texts

Reads a JSON text in two steps: characters to tokens, and tokens to a value. Texts with anything but
blanks around the value are refused, and so is each deviation from the grammar of JSON. Numerals
keep their form, since settings tell `1` from `1.0`; strings whose escapes stand for half a
character are values without a text.
-/

namespace LeftPeg

/-- A number as it is written. -/
structure Numeral where
  negative : Bool
  /-- The digits before the point. -/
  digits : Nat
  /-- Whether it has neither a fraction nor an exponent. -/
  whole : Bool
deriving DecidableEq, Repr

namespace Numeral

/-- The natural number that is written without sign, fraction and exponent. -/
def natural? (numeral : Numeral) : Option Nat :=
  if numeral.whole ∧ ¬ numeral.negative then some numeral.digits else none

end Numeral

/-- A JSON value. -/
inductive Json where
  | null
  | bool (value : Bool)
  | number (numeral : Numeral)
  /-- A string, without its text if that is no sequence of characters. -/
  | string (text? : Option String)
  | array (items : List Json)
  | object (fields : List (Option String × Json))
deriving Repr

namespace Json

/-! ## Tokens -/

inductive Token where
  | beginArray
  | endArray
  | beginObject
  | endObject
  | colon
  | comma
  | null
  | bool (value : Bool)
  | number (numeral : Numeral)
  | string (text? : Option String)
deriving DecidableEq, Repr

def isBlank (c : Char) : Bool :=
  c = ' ' || c = '\n' || c = '\t' || c = '\r'

/-- The number that decimal digits stand for. -/
def ofDigits (digits : List Char) : Nat :=
  digits.foldl (fun value c => 10 * value + (c.toNat - '0'.toNat)) 0

/-- One digit or more, and what follows them. -/
def digits? (text : List Char) : Option (List Char × List Char) :=
  match text.span Char.isDigit with
  | ([], _) => none
  | (digits, rest) => some (digits, rest)

/-- What follows a fraction, if there is one, and whether there is one. -/
def fraction? : List Char → Option (Bool × List Char)
  | '.' :: rest => (digits? rest).map fun (_, rest) => (true, rest)
  | rest => some (false, rest)

/-- What follows the sign of an exponent. -/
def afterSign : List Char → List Char
  | '+' :: rest | '-' :: rest => rest
  | rest => rest

/-- What follows an exponent, if there is one, and whether there is one. -/
def exponent? : List Char → Option (Bool × List Char)
  | 'e' :: rest | 'E' :: rest => (digits? (afterSign rest)).map fun (_, rest) => (true, rest)
  | rest => some (false, rest)

/-- A number after its sign. Only zero itself begins with the digit zero. -/
def numeral? (negative : Bool) (text : List Char) : Option (Token × List Char) := do
  let (digits, rest) ← digits? text
  if digits.head? = some '0' ∧ digits.length ≠ 1 then none
  else
    let (hasFraction, rest) ← fraction? rest
    let (hasExponent, rest) ← exponent? rest
    some (.number ⟨negative, ofDigits digits, !hasFraction && !hasExponent⟩, rest)

/-- A character of a string, or the code unit that an escape stands for. -/
inductive Piece where
  | char (c : Char)
  | unit (code : Nat)
deriving DecidableEq, Repr

def hexDigit? (c : Char) : Option Nat :=
  if '0' ≤ c ∧ c ≤ '9' then some (c.toNat - '0'.toNat)
  else if 'a' ≤ c ∧ c ≤ 'f' then some (c.toNat - 'a'.toNat + 10)
  else if 'A' ≤ c ∧ c ≤ 'F' then some (c.toNat - 'A'.toNat + 10)
  else none

/-- The code unit that four hexadecimal digits stand for. -/
def unit? (a b c d : Char) : Option Piece := do
  let a ← hexDigit? a
  let b ← hexDigit? b
  let c ← hexDigit? c
  let d ← hexDigit? d
  some (.unit (((a * 16 + b) * 16 + c) * 16 + d))

/-- The character that a letter stands for after a backslash. -/
def escape? : Char → Option Char
  | '"' => some '"'
  | '\\' => some '\\'
  | '/' => some '/'
  | 'b' => some '\x08'
  | 'f' => some '\x0c'
  | 'n' => some '\n'
  | 'r' => some '\r'
  | 't' => some '\t'
  | _ => none

/-- The pieces of a string up to its closing quotation mark, the latest first in `pieces`, and what
follows the string. -/
def pieces? (pieces : List Piece) : List Char → Option (List Piece × List Char)
  | [] => none
  | '"' :: rest => some (pieces.reverse, rest)
  | '\\' :: 'u' :: a :: b :: c :: d :: rest =>
    (unit? a b c d).bind fun piece => pieces? (piece :: pieces) rest
  | '\\' :: c :: rest => (escape? c).bind fun c => pieces? (.char c :: pieces) rest
  | c :: rest => if c.toNat < 32 then none else pieces? (.char c :: pieces) rest

def isHighHalf (code : Nat) : Bool :=
  0xD800 ≤ code && code < 0xDC00

def isLowHalf (code : Nat) : Bool :=
  0xDC00 ≤ code && code < 0xE000

/-- The characters that the pieces of a string stand for. Two halves make one character, and a half
on its own makes none. -/
def characters? : List Piece → Option (List Char)
  | [] => some []
  | .char c :: rest => (characters? rest).map (c :: ·)
  | .unit high :: .unit low :: rest =>
    if isHighHalf high then
      if isLowHalf low then
        (characters? rest).map
          (Char.ofNat (0x10000 + (high - 0xD800) * 0x400 + (low - 0xDC00)) :: ·)
      else none
    else if isLowHalf high then none
    else (characters? (.unit low :: rest)).map (Char.ofNat high :: ·)
  | .unit code :: rest =>
    if isHighHalf code || isLowHalf code then none
    else (characters? rest).map (Char.ofNat code :: ·)

/-- The first token of a text that does not begin with a blank, and what follows it. -/
def token? : List Char → Option (Token × List Char)
  | '[' :: rest => some (.beginArray, rest)
  | ']' :: rest => some (.endArray, rest)
  | '\x7b' :: rest => some (.beginObject, rest)
  | '\x7d' :: rest => some (.endObject, rest)
  | ':' :: rest => some (.colon, rest)
  | ',' :: rest => some (.comma, rest)
  | 'n' :: 'u' :: 'l' :: 'l' :: rest => some (.null, rest)
  | 't' :: 'r' :: 'u' :: 'e' :: rest => some (.bool true, rest)
  | 'f' :: 'a' :: 'l' :: 's' :: 'e' :: rest => some (.bool false, rest)
  | '"' :: rest =>
    (pieces? [] rest).map fun (pieces, rest) =>
      (.string ((characters? pieces).map String.ofList), rest)
  | '-' :: rest => numeral? true rest
  | text => numeral? false text

/-- The tokens of a text, of which there are at most `count`. -/
def tokensUpTo : Nat → List Char → Option (List Token)
  | 0, text => if text.isEmpty then some [] else none
  | count + 1, text =>
    match text.dropWhile isBlank with
    | [] => some []
    | text => do
      let (token, rest) ← token? text
      (tokensUpTo count rest).map (token :: ·)

/-- The tokens of a text. Each takes up a character at least. -/
def tokens? (text : List Char) : Option (List Token) :=
  tokensUpTo text.length text

/-! ## Values -/

mutual

/-- The value that tokens begin with, and the tokens that follow it. -/
def valueWithin : Nat → List Token → Option (Json × List Token)
  | 0, _ => none
  | _ + 1, .null :: rest => some (.null, rest)
  | _ + 1, .bool value :: rest => some (.bool value, rest)
  | _ + 1, .number numeral :: rest => some (.number numeral, rest)
  | _ + 1, .string text? :: rest => some (.string text?, rest)
  | _ + 1, .beginArray :: .endArray :: rest => some (.array [], rest)
  | depth + 1, .beginArray :: rest =>
    (itemsWithin depth rest).map fun (items, rest) => (.array items, rest)
  | _ + 1, .beginObject :: .endObject :: rest => some (.object [], rest)
  | depth + 1, .beginObject :: rest =>
    (fieldsWithin depth rest).map fun (fields, rest) => (.object fields, rest)
  | _ + 1, _ => none

/-- The items of an array, up to its end. -/
def itemsWithin : Nat → List Token → Option (List Json × List Token)
  | 0, _ => none
  | depth + 1, tokens => do
    let (item, rest) ← valueWithin depth tokens
    match rest with
    | .endArray :: rest => some ([item], rest)
    | .comma :: rest =>
      let (items, rest) ← itemsWithin depth rest
      some (item :: items, rest)
    | _ => none

/-- The fields of an object, up to its end. -/
def fieldsWithin : Nat → List Token → Option (List (Option String × Json) × List Token)
  | depth + 1, .string name? :: .colon :: tokens => do
    let (value, rest) ← valueWithin depth tokens
    match rest with
    | .endObject :: rest => some ([(name?, value)], rest)
    | .comma :: rest =>
      let (fields, rest) ← fieldsWithin depth rest
      some ((name?, value) :: fields, rest)
    | _ => none
  | _, _ => none

end

/-- The value of a text. Values and their parts nest at most twice for each token. -/
def parse? (text : String) : Option Json := do
  let tokens ← tokens? text.toList
  match ← valueWithin (2 * tokens.length + 1) tokens with
  | (value, []) => some value
  | _ => none

end Json

end LeftPeg
