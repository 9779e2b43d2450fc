import ContextAdvisor.Json.Tree

/-!
# Cutting a JSON text into tokens

`Token.scan?` accepts the lexical grammar of RFC 8259: four blanks, six punctuation marks, three
words, strings without control characters and numbers without superfluous zeros. An integer keeps
its digits, save that minus zero is a decimal, the only form in which a zero has a sign.
-/
namespace ContextAdvisor

/-- A lexical unit of a JSON text. -/
inductive Token where
  | openArray
  | closeArray
  | openObject
  | closeObject
  | comma
  | colon
  | null
  | bool (b : Bool)
  | integer (n : Int)
  | decimal (d : Decimal)
  | string (s : Option String)

/-- What a string is written with: characters as they are and escaped 16-bit units. -/
inductive StringPiece where
  | plain (c : Char)
  | unit (code : Nat)

namespace StringPiece

/-- Is the unit the first half of a surrogate pair? -/
def isHigh (code : Nat) : Bool := 0xD800 ≤ code && code < 0xDC00

/-- Is the unit the second half of a surrogate pair? -/
def isLow (code : Nat) : Bool := 0xDC00 ≤ code && code < 0xE000

/-- The text of the pieces, in front of which stands the reversed text `before`. Surrogates have to
come in pairs. -/
def text? : (before : List Char) → List StringPiece → Option String
  | before, [] => some (String.ofList before.reverse)
  | before, .plain c :: rest => text? (c :: before) rest
  | before, .unit high :: .unit low :: rest =>
    if isHigh high then
      if isLow low then
        text? (Char.ofNat (0x10000 + (high - 0xD800) * 0x400 + (low - 0xDC00)) :: before) rest
      else none
    else if isLow high then none
    else text? (Char.ofNat high :: before) (.unit low :: rest)
  | before, .unit code :: rest =>
    if isHigh code || isLow code then none else text? (Char.ofNat code :: before) rest

/-- The value of a hexadecimal digit. -/
def hexDigit? (c : Char) : Option Nat :=
  if c.isDigit then some (c.toNat - '0'.toNat)
  else if 'a' ≤ c && c ≤ 'f' then some (c.toNat - 'a'.toNat + 10)
  else if 'A' ≤ c && c ≤ 'F' then some (c.toNat - 'A'.toNat + 10)
  else none

/-- The unit written with four hexadecimal digits. -/
def hexUnit? (a b c d : Char) : Option Nat := do
  let a ← hexDigit? a
  let b ← hexDigit? b
  let c ← hexDigit? c
  let d ← hexDigit? d
  return ((a * 16 + b) * 16 + c) * 16 + d

/-- The character meant by a letter after a backslash. -/
def named? : Char → Option Char
  | '"' => some '"'
  | '\\' => some '\\'
  | '/' => some '/'
  | 'b' => some '\x08'
  | 'f' => some '\x0c'
  | 'n' => some '\n'
  | 'r' => some '\r'
  | 't' => some '\t'
  | _ => none

/-- The pieces up to the closing quote, and what follows it. -/
def scan? (before : List StringPiece) : List Char → Option (List StringPiece × List Char)
  | [] => none
  | '"' :: rest => some (before.reverse, rest)
  | '\\' :: 'u' :: a :: b :: c :: d :: rest =>
    match hexUnit? a b c d with
    | some code => scan? (.unit code :: before) rest
    | none => none
  | '\\' :: letter :: rest =>
    match named? letter with
    | some c => scan? (.plain c :: before) rest
    | none => none
  | c :: rest => if c == '\\' || c.toNat < 0x20 then none else scan? (.plain c :: before) rest

end StringPiece

namespace Token

/-- A leading run of at least one digit, and what follows it. -/
def scanDigits? (text : List Char) : Option (List Char × List Char) :=
  match text.span Char.isDigit with
  | ([], _) => none
  | split => some split

/-- The digits after a decimal point, if there is one. -/
def scanFraction? : List Char → Option (Option (List Char) × List Char)
  | '.' :: rest => (scanDigits? rest).map fun (digits, after) => (some digits, after)
  | rest => some (none, rest)

/-- The exponent, if there is one. -/
def scanExponent? : List Char → Option (Option Int × List Char)
  | c :: rest =>
    if c == 'e' || c == 'E' then
      let (negative, digits) := splitSign rest
      (scanDigits? digits).map fun (digits, after) =>
        let size : Int := digitsValue digits
        (some (if negative then -size else size), after)
    else some (none, c :: rest)
  | [] => some (none, [])

/-- A number without its sign. -/
def scanNumber? (negative : Bool) (text : List Char) : Option (Token × List Char) := do
  let (whole, rest) ← scanDigits? text
  if whole.head? = some '0' && 1 < whole.length then none
  let (fraction, rest) ← scanFraction? rest
  let (exponent, rest) ← scanExponent? rest
  let size := digitsValue whole
  let token : Token := match fraction, exponent with
    | none, none =>
      if negative && size = 0 then .decimal ⟨true, 0, 0⟩
      else .integer (if negative then -(size : Int) else size)
    | _, _ =>
      let places := fraction.getD []
      .decimal ⟨negative, digitsValue (whole ++ places), exponent.getD 0 - places.length⟩
  return (token, rest)

/-- The token that opens a text, and what follows it. -/
def next? : List Char → Option (Token × List Char)
  | '[' :: rest => some (.openArray, rest)
  | ']' :: rest => some (.closeArray, rest)
  | '{' :: rest => some (.openObject, rest)
  | '}' :: rest => some (.closeObject, rest)
  | ',' :: rest => some (.comma, rest)
  | ':' :: rest => some (.colon, rest)
  | 'n' :: 'u' :: 'l' :: 'l' :: rest => some (.null, rest)
  | 't' :: 'r' :: 'u' :: 'e' :: rest => some (.bool true, rest)
  | 'f' :: 'a' :: 'l' :: 's' :: 'e' :: rest => some (.bool false, rest)
  | '"' :: rest =>
    (StringPiece.scan? [] rest).map fun (pieces, after) =>
      (.string (StringPiece.text? [] pieces), after)
  | '-' :: rest => scanNumber? true rest
  | text => scanNumber? false text

/-- Is the character one of the four blanks between tokens? -/
def isGap (c : Char) : Bool := c == ' ' || c == '\n' || c == '\t' || c == '\r'

/-- Adds the tokens of a text to `before`, which is reversed. Every token takes at least one
character, so `fuel` is enough if it exceeds the length of the text. -/
def scanFrom? : (fuel : Nat) → (before : List Token) → List Char → Option (List Token)
  | 0, _, _ => none
  | fuel + 1, before, text =>
    match text.dropWhile isGap with
    | [] => some before.reverse
    | start =>
      match next? start with
      | some (token, rest) => scanFrom? fuel (token :: before) rest
      | none => none

/-- The tokens of a text. -/
def scan? (text : List Char) : Option (List Token) := scanFrom? (text.length + 1) [] text

end Token

end ContextAdvisor
