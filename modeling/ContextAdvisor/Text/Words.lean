import ContextAdvisor.Arithmetic.Decimal

/-!
# Cutting texts into words

Context values and rule values are short texts that carry numbers, lists and pairs of names. This
module trims them, cuts them at a separator and reads whole numbers. Blank characters are those
with the Unicode property `White_Space`.
-/
namespace ContextAdvisor.Text

/-- The code points with the property `White_Space`, as closed ranges. -/
def blankRanges : List (Nat × Nat) :=
  [(0x9, 0xD), (0x20, 0x20), (0x85, 0x85), (0xA0, 0xA0), (0x1680, 0x1680), (0x2000, 0x200A),
    (0x2028, 0x2029), (0x202F, 0x202F), (0x205F, 0x205F), (0x3000, 0x3000)]

/-- Is the character blank? -/
def isBlank (c : Char) : Bool :=
  blankRanges.any fun (first, last) => first ≤ c.toNat && c.toNat ≤ last

/-- A text without the blanks at its two ends. -/
def trim (text : List Char) : List Char :=
  ((text.dropWhile isBlank).reverse.dropWhile isBlank).reverse

/-- The pieces between the separators; one more than there are separators. -/
def pieces (separator : Char) : List Char → List (List Char)
  | [] => [[]]
  | c :: rest =>
    if c == separator then [] :: pieces separator rest
    else match pieces separator rest with
      | [] => [[c]]
      | piece :: others => (c :: piece) :: others

/-- The entries of a comma-separated list: trimmed, empty ones left out. -/
def listed (text : List Char) : List (List Char) :=
  ((pieces ',' text).map trim).filter (!·.isEmpty)

/-- Cuts a text at its first comma. -/
def cutAtComma? (text : List Char) : Option (List Char × List Char) :=
  match text.span (· != ',') with
  | (first, _ :: second) => some (first, second)
  | (_, []) => none

/-- What follows a label that opens the text; nothing if the label does not open it. -/
def afterLabel? (label text : List Char) : Option (List Char) := label.isPrefixOf? text

/-- The range of a 64-bit signed word. -/
def inWord (n : Int) : Bool := -9223372036854775808 ≤ n && n ≤ 9223372036854775807

/-- Reads an integer of at most 64 bits: an optional sign and at least one digit, nothing else. -/
def readInteger? (text : List Char) : Option Int :=
  (signedValue? text).filter inWord

example : listed " a, ,b ".toList = ["a".toList, "b".toList] := by decide
example : readInteger? "-12".toList = some (-12) := by decide

end ContextAdvisor.Text
