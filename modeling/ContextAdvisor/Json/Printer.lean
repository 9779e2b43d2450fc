import ContextAdvisor.Json.Tree

/-!
# Writing JSON texts

`compact` writes a value on one line without blanks, `pretty` puts every item and member on a line
of its own, indented by two blanks for each open container. Members are written in the order in
which the tree holds them. Characters beyond ASCII stand for themselves; quotes, backslashes and
control characters are escaped, the common ones by a letter.
-/
namespace ContextAdvisor.Json

/-- A digit of a hexadecimal escape. -/
def hexDigit (n : Nat) : Char := Char.ofNat (if n < 10 then 48 + n else 87 + n)

/-- A character as it stands between quotes. -/
def escape (c : Char) : List Char :=
  match c with
  | '"' => ['\\', '"']
  | '\\' => ['\\', '\\']
  | '\x08' => ['\\', 'b']
  | '\x0c' => ['\\', 'f']
  | '\n' => ['\\', 'n']
  | '\r' => ['\\', 'r']
  | '\t' => ['\\', 't']
  | c => if c.toNat < 0x20 then
      ['\\', 'u', '0', '0', hexDigit (c.toNat / 16), hexDigit (c.toNat % 16)]
    else [c]

/-- A text in quotes. -/
def quote (s : String) : List Char := '"' :: (s.toList.flatMap escape ++ ['"'])

/-- An integer in decimal digits. -/
def integerText (n : Int) : List Char :=
  if n < 0 then '-' :: Nat.toDigits 10 n.natAbs else Nat.toDigits 10 n.natAbs

mutual

/-- The characters of the one-line form. -/
def compactChars : Json → List Char
  | .null => "null".toList
  | .bool b => if b then "true".toList else "false".toList
  | .integer n => integerText n
  | .decimal d => d.text
  | .string s => quote s
  | .array [] => ['[', ']']
  | .array (item :: rest) => '[' :: (compactChars item ++ compactItems rest)
  | .object [] => ['{', '}']
  | .object ((key, value) :: rest) =>
    '{' :: (quote key ++ ':' :: (compactChars value ++ compactMembers rest))

/-- The items after the first one, and the end of the array. -/
def compactItems : List Json → List Char
  | [] => [']']
  | item :: rest => ',' :: (compactChars item ++ compactItems rest)

/-- The members after the first one, and the end of the object. -/
def compactMembers : List (String × Json) → List Char
  | [] => ['}']
  | (key, value) :: rest =>
    ',' :: (quote key ++ ':' :: (compactChars value ++ compactMembers rest))

end

/-- A line break and the blanks before the next line. -/
def lineBreak (depth : Nat) : List Char := '\n' :: List.replicate (2 * depth) ' '

mutual

/-- The characters of the indented form inside `depth` containers. -/
def prettyChars (depth : Nat) : Json → List Char
  | .null => "null".toList
  | .bool b => if b then "true".toList else "false".toList
  | .integer n => integerText n
  | .decimal d => d.text
  | .string s => quote s
  | .array [] => ['[', ']']
  | .array (item :: rest) =>
    '[' :: (lineBreak (depth + 1) ++ (prettyChars (depth + 1) item ++ prettyItems depth rest))
  | .object [] => ['{', '}']
  | .object ((key, value) :: rest) =>
    '{' :: (lineBreak (depth + 1) ++ (quote key ++
      ':' :: ' ' :: (prettyChars (depth + 1) value ++ prettyMembers depth rest)))

/-- The items after the first one, and the end of the array. -/
def prettyItems (depth : Nat) : List Json → List Char
  | [] => lineBreak depth ++ [']']
  | item :: rest =>
    ',' :: (lineBreak (depth + 1) ++ (prettyChars (depth + 1) item ++ prettyItems depth rest))

/-- The members after the first one, and the end of the object. -/
def prettyMembers (depth : Nat) : List (String × Json) → List Char
  | [] => lineBreak depth ++ ['}']
  | (key, value) :: rest =>
    ',' :: (lineBreak (depth + 1) ++ (quote key ++
      ':' :: ' ' :: (prettyChars (depth + 1) value ++ prettyMembers depth rest)))

end

/-- The one-line text of a value. -/
def compact (v : Json) : String := String.ofList (compactChars v)

/-- The indented text of a value. -/
def pretty (v : Json) : String := String.ofList (prettyChars 0 v)

end ContextAdvisor.Json
