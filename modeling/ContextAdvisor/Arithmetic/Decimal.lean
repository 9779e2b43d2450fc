/-!
# Decimal numbers and their written forms

A `Decimal` is a sign, a natural coefficient and a power of ten, so every digit string has exactly
one reading and none is rounded here. A `Numeral` also covers the words for infinity and for an
undefined result. `Numeral.read?` reads the free form found in context values, `Decimal.text`
writes the form used in documents: positional while the value lies in `[1e-5, 1e16)`, with an
exponent otherwise, and always with a point or an exponent.
-/
namespace ContextAdvisor

/-- The number `± coefficient · 10 ^ exponent`. Zero keeps its sign. -/
structure Decimal where
  negative : Bool
  coefficient : Nat
  exponent : Int
  deriving DecidableEq

/-- What a numeric word can denote. -/
inductive Numeral where
  | finite (value : Decimal)
  | infinite (negative : Bool)
  | undefined
  deriving DecidableEq

/-- The value of a string of decimal digits, most significant first. -/
def digitsValue (digits : List Char) : Nat :=
  digits.foldl (fun n c => 10 * n + (c.toNat - '0'.toNat)) 0

/-- Splits a leading sign from its number; `true` stands for a minus sign. -/
def splitSign : List Char → Bool × List Char
  | '-' :: rest => (true, rest)
  | '+' :: rest => (false, rest)
  | rest => (false, rest)

/-- The integer written as an optional sign and at least one digit, filling the whole text. -/
def signedValue? (text : List Char) : Option Int :=
  let (negative, digits) := splitSign text
  if digits.isEmpty || !digits.all Char.isDigit then none
  else if negative then some (-(digitsValue digits : Int)) else some (digitsValue digits)

namespace Numeral

/-- Reads digits with an optional point and an optional exponent. At least one digit must stand
before or after the point. -/
def magnitude? (negative : Bool) (text : List Char) : Option Decimal :=
  let (whole, afterWhole) := text.span Char.isDigit
  let (fraction, afterFraction) := match afterWhole with
    | '.' :: rest => rest.span Char.isDigit
    | rest => ([], rest)
  if whole.isEmpty && fraction.isEmpty then none
  else
    let scaled (e : Int) : Decimal :=
      ⟨negative, digitsValue (whole ++ fraction), e - fraction.length⟩
    match afterFraction with
    | [] => some (scaled 0)
    | c :: rest => if c == 'e' || c == 'E' then (signedValue? rest).map scaled else none

/-- Reads a number in free form: an optional sign, then digits with an optional point and exponent,
or one of the words `inf`, `infinity` and `nan` in any case. -/
def read? (text : List Char) : Option Numeral :=
  let (negative, body) := splitSign text
  let word := String.ofList (body.map Char.toLower)
  if word == "inf" || word == "infinity" then some (.infinite negative)
  else if word == "nan" then some .undefined
  else (magnitude? negative body).map .finite

end Numeral

namespace Decimal

/-- The digits of the coefficient. -/
def digits (d : Decimal) : List Char := Nat.toDigits 10 d.coefficient

/-- Writes digits with an exponent; `point` is the place of the decimal point counted from the
first digit, so the exponent of the first digit is `point - 1`. -/
def scientificText (digits : List Char) (point : Int) : List Char :=
  let mantissa := match digits with
    | first :: second :: rest => first :: '.' :: second :: rest
    | short => short
  let e := point - 1
  mantissa ++ 'e' :: (if e < 0 then '-' else '+') :: Nat.toDigits 10 e.natAbs

/-- Writes digits around the decimal point that stands `point` places after the first digit. -/
def positionalText (digits : List Char) (point : Int) : List Char :=
  if point ≤ 0 then
    '0' :: '.' :: (List.replicate point.natAbs '0' ++ digits)
  else if digits.length ≤ point.natAbs then
    digits ++ List.replicate (point.natAbs - digits.length) '0' ++ ['.', '0']
  else
    digits.take point.natAbs ++ '.' :: digits.drop point.natAbs

/-- The document form of a decimal whose coefficient has no trailing zero. Values in
`[1e-5, 1e16)` are positional and keep a point, others take an exponent with its sign. -/
def text (d : Decimal) : List Char :=
  let point := d.digits.length + d.exponent
  let body :=
    if d.coefficient = 0 then ['0', '.', '0']
    else if -4 ≤ point ∧ point ≤ 16 then positionalText d.digits point
    else scientificText d.digits point
  if d.negative then '-' :: body else body

end Decimal

example : Numeral.read? "-2.50e1".toList = some (.finite ⟨true, 250, -1⟩) := by decide
example : (Decimal.text ⟨false, 15, -8⟩) = "1.5e-7".toList := by decide
example : (Decimal.text ⟨true, 1, 16⟩) = "-1e+16".toList := by decide
example : (Decimal.text ⟨false, 1, -5⟩) = "0.00001".toList := by decide

end ContextAdvisor
