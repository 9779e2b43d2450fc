import ContextAdvisor.Proofs.Json.RoundTrip

/-!
# The number that a text denotes

The text of a decimal is a number with a point or an exponent, and it is cut into one token. This
token is the decimal itself, except that the zero behind the point of a whole number counts as a
digit. So the text of every value is read as the syntax of this value, with its numbers in the form
in which they are written.
-/
namespace ContextAdvisor

namespace Token

/-- The parts of a number with a point or an exponent. -/
structure NumberParts where
  whole : List Char
  places : List Char
  exponent : Option Int
  whole_ne_nil : whole ≠ []
  isDigit_of_mem_whole : ∀ c ∈ whole, c.isDigit = true
  isDigit_of_mem_places : ∀ c ∈ places, c.isDigit = true
  /-- There is no superfluous zero in front. -/
  unpadded : whole.head? = some '0' → whole.length = 1
  fractional : places ≠ [] ∨ exponent.isSome

namespace NumberParts

/-- A point and the digits behind it, if there are any. -/
def fractionText : List Char → List Char
  | [] => []
  | places => '.' :: places

/-- An exponent with its sign, if there is one. -/
def exponentText : Option Int → List Char
  | none => []
  | some e => 'e' :: (if e < 0 then '-' else '+') :: Nat.toDigits 10 e.natAbs

theorem fractionText_eq {places : List Char} (h : places ≠ []) :
    fractionText places = '.' :: places := by
  cases places with
  | nil => exact absurd rfl h
  | cons p places => rfl

def text (parts : NumberParts) : List Char :=
  parts.whole ++ (fractionText parts.places ++ exponentText parts.exponent)

def decimal (parts : NumberParts) (negative : Bool) : Decimal :=
  ⟨negative, digitsValue (parts.whole ++ parts.places),
    parts.exponent.getD 0 - parts.places.length⟩

theorem scanExponent?_exponentText (exponent : Option Int) {rest : List Char}
    (hr : EndsNumber rest) :
    scanExponent? (exponentText exponent ++ rest) = some (exponent, rest) := by
  cases exponent with
  | none => exact scanExponent?_of_endsNumber hr
  | some e =>
    have hdigits : scanDigits? (Nat.toDigits 10 e.natAbs ++ rest) =
        some (Nat.toDigits 10 e.natAbs, rest) :=
      scanDigits?_append Nat.toDigits_ne_nil
        (fun c hc => Nat.isDigit_of_mem_toDigits (by decide) (by decide) hc) hr.not_digit
    by_cases he : e < 0
    · simp [exponentText, he, scanExponent?, splitSign, hdigits, digitsValue_toDigits,
        abs_of_neg he]
    · simp [exponentText, he, scanExponent?, splitSign, hdigits, digitsValue_toDigits,
        abs_of_nonneg (not_lt.mp he)]

theorem not_digit_exponentText (exponent : Option Int) {rest : List Char} (hr : EndsNumber rest) :
    ∀ c ∈ (exponentText exponent ++ rest).head?, c.isDigit = false ∧ c ≠ '.' := by
  intro c hc
  cases exponent with
  | none => exact ⟨(hr c hc).1, (hr c hc).2.1⟩
  | some e =>
    obtain rfl : 'e' = c := Option.some.inj hc
    exact ⟨by decide, by decide⟩

theorem scanFraction?_fractionText {places : List Char} (hp : ∀ c ∈ places, c.isDigit = true)
    {rest : List Char} (hr : ∀ c ∈ rest.head?, c.isDigit = false ∧ c ≠ '.') :
    scanFraction? (fractionText places ++ rest) =
      some (if places = [] then none else some places, rest) := by
  cases places with
  | nil =>
    cases rest with
    | nil => rfl
    | cons c rest =>
      rw [fractionText, List.nil_append, scanFraction?, if_pos rfl]
      exact fun _ he => (hr c rfl).2 (List.cons.inj he).1
  | cons p places =>
    rw [fractionText, List.cons_append, scanFraction?,
      scanDigits?_append (List.cons_ne_nil p places) hp fun c hc => (hr c hc).1]
    · rfl
    · intro h
      cases h

/-- The text is read as the number with these parts. -/
theorem scanNumber?_text (parts : NumberParts) (negative : Bool) {rest : List Char}
    (hr : EndsNumber rest) :
    scanNumber? negative (parts.text ++ rest) = some (.decimal (parts.decimal negative), rest) := by
  obtain ⟨whole, places, exponent, hne, hwhole, hplaces, hzeros, hfractional⟩ := parts
  have hexponent := not_digit_exponentText exponent hr
  have hafter : ∀ c ∈ (fractionText places ++ (exponentText exponent ++ rest)).head?,
      c.isDigit = false := by
    cases places with
    | nil => exact fun c hc => (hexponent c hc).1
    | cons p places =>
      intro c hc
      obtain rfl : '.' = c := Option.some.inj hc
      decide
  have hsingle : ¬ (whole.head? = some '0' ∧ 1 < whole.length) :=
    fun h => absurd (hzeros h.1) (by omega)
  have hdigits := scanDigits?_append hne hwhole hafter
  have hfraction := scanFraction?_fractionText hplaces hexponent
  have hpower := scanExponent?_exponentText exponent hr
  simp only [text, decimal, List.append_assoc, scanNumber?, hdigits, Option.bind_eq_bind,
    Option.bind_some, hfraction, hpower, Bool.and_eq_true, decide_eq_true_eq, if_neg hsingle]
  cases places with
  | cons p places => simp
  | nil =>
    obtain ⟨e, rfl⟩ : ∃ e, exponent = some e := by
      simpa [Option.isSome_iff_exists] using hfractional
    simp

end NumberParts

end Token

namespace Decimal

open Token

/-- The decimal that the text denotes digit by digit. -/
def written (d : Decimal) : Decimal :=
  if d.coefficient = 0 then ⟨d.negative, 0, -1⟩
  else if 0 ≤ d.exponent ∧ d.digits.length + d.exponent ≤ 16 then
    ⟨d.negative, d.coefficient * 10 ^ (d.exponent.toNat + 1), -1⟩
  else d

/-- The text without its sign. -/
def magnitudeText (d : Decimal) : List Char :=
  let point : Int := d.digits.length + d.exponent
  if d.coefficient = 0 then ['0', '.', '0']
  else if -4 ≤ point ∧ point ≤ 16 then positionalText d.digits point
  else scientificText d.digits point

theorem text_eq (d : Decimal) :
    d.text = if d.negative then '-' :: d.magnitudeText else d.magnitudeText := rfl

theorem digits_ne_nil (d : Decimal) : d.digits ≠ [] := Nat.toDigits_ne_nil

theorem isDigit_of_mem_digits {d : Decimal} {c : Char} (h : c ∈ d.digits) : c.isDigit = true :=
  Nat.isDigit_of_mem_toDigits (by decide) (by decide) h

theorem digitsValue_append (xs ys : List Char) :
    digitsValue (xs ++ ys) = Nat.ofDigitChars 10 ys (digitsValue xs) :=
  Nat.ofDigitChars_append 0

theorem digitsValue_append_zeros (xs : List Char) (n : Nat) :
    digitsValue (xs ++ List.replicate n '0') = digitsValue xs * 10 ^ n := by
  rw [digitsValue_append, Nat.ofDigitChars_replicate_zero, mul_comm]

theorem digitsValue_zeros_append (n : Nat) (xs : List Char) :
    digitsValue (List.replicate n '0' ++ xs) = digitsValue xs := by
  have hzeros : digitsValue (List.replicate n '0') = 0 := Nat.ofDigitChars_replicate_zero
  rw [digitsValue_append, hzeros]
  rfl

/-- One digit in front of the point, the others behind it, and an exponent. -/
theorem exists_parts_scientific (d : Decimal) :
    ∃ parts : NumberParts, scientificText d.digits (d.digits.length + d.exponent) = parts.text ∧
      parts.decimal d.negative = d := by
  have hvalue : digitsValue d.digits = d.coefficient := digitsValue_toDigits _
  have hdigits : ∀ c ∈ d.digits, c.isDigit = true := fun c hc => isDigit_of_mem_digits hc
  obtain ⟨first, rest, h⟩ := List.exists_cons_of_ne_nil d.digits_ne_nil
  rw [h] at hdigits hvalue ⊢
  refine ⟨{
    whole := [first]
    places := rest
    exponent := some ((first :: rest).length + d.exponent - 1)
    whole_ne_nil := List.cons_ne_nil first []
    isDigit_of_mem_whole := fun c hm => hdigits c (by simp [List.mem_singleton.mp hm])
    isDigit_of_mem_places := fun c hm => hdigits c (List.mem_cons_of_mem first hm)
    unpadded := fun _ => rfl
    fractional := .inr rfl }, ?_, ?_⟩
  · cases rest <;> rfl
  · simp only [NumberParts.decimal, List.singleton_append, hvalue, Option.getD_some,
      List.length_cons]
    congr 1
    omega

/-- All digits stand behind the point, after some zeros. -/
theorem exists_parts_below_one {d : Decimal} (h : d.digits.length + d.exponent ≤ 0) :
    ∃ parts : NumberParts, positionalText d.digits (d.digits.length + d.exponent) = parts.text ∧
      parts.decimal d.negative = d := by
  have hvalue : digitsValue d.digits = d.coefficient := digitsValue_toDigits _
  generalize hn : (d.digits.length + d.exponent).natAbs = n
  have hplaces : List.replicate n '0' ++ d.digits ≠ [] :=
    List.append_ne_nil_of_right_ne_nil _ d.digits_ne_nil
  have hall : digitsValue (['0'] ++ (List.replicate n '0' ++ d.digits)) = d.coefficient := by
    have hzeros := digitsValue_zeros_append (n + 1) d.digits
    rwa [List.replicate_succ, List.cons_append, hvalue] at hzeros
  refine ⟨{
    whole := ['0']
    places := List.replicate n '0' ++ d.digits
    exponent := none
    whole_ne_nil := List.cons_ne_nil '0' []
    isDigit_of_mem_whole := by simp
    isDigit_of_mem_places := fun c hc => ?_
    unpadded := fun _ => rfl
    fractional := .inl hplaces }, ?_, ?_⟩
  · rcases List.mem_append.mp hc with hc | hc
    · obtain rfl := List.eq_of_mem_replicate hc
      decide
    · exact isDigit_of_mem_digits hc
  · rw [positionalText, if_pos h, hn, NumberParts.text, NumberParts.fractionText_eq hplaces]
    simp [NumberParts.exponentText]
  · simp only [NumberParts.decimal, hall, Option.getD_none, List.length_append,
      List.length_replicate]
    congr 1
    omega

/-- Zeros fill the places up to the point. -/
theorem exists_parts_whole {d : Decimal} (hc : d.coefficient ≠ 0) (h : 0 ≤ d.exponent) :
    ∃ parts : NumberParts, positionalText d.digits (d.digits.length + d.exponent) = parts.text ∧
      parts.decimal d.negative =
        ⟨d.negative, d.coefficient * 10 ^ (d.exponent.toNat + 1), -1⟩ := by
  have hvalue : digitsValue d.digits = d.coefficient := digitsValue_toDigits _
  have hlead : d.digits.head? ≠ some '0' := head?_toDigits_ne_zero hc
  have hlength := List.length_pos_iff.mpr d.digits_ne_nil
  have hzeros : (d.digits.length + d.exponent).natAbs - d.digits.length = d.exponent.toNat := by
    omega
  have hall : digitsValue (d.digits ++ List.replicate d.exponent.toNat '0' ++ ['0']) =
      d.coefficient * 10 ^ (d.exponent.toNat + 1) := by
    rw [List.append_assoc, ← List.replicate_succ', digitsValue_append_zeros, hvalue]
  refine ⟨{
    whole := d.digits ++ List.replicate d.exponent.toNat '0'
    places := ['0']
    exponent := none
    whole_ne_nil := List.append_ne_nil_of_left_ne_nil d.digits_ne_nil _
    isDigit_of_mem_whole := fun c hc => ?_
    isDigit_of_mem_places := by simp
    unpadded := fun hhead => ?_
    fractional := .inl (List.cons_ne_nil '0' []) }, ?_, ?_⟩
  · rcases List.mem_append.mp hc with hc | hc
    · exact isDigit_of_mem_digits hc
    · obtain rfl := List.eq_of_mem_replicate hc
      decide
  · rw [List.head?_append_of_ne_nil _ d.digits_ne_nil] at hhead
    exact absurd hhead hlead
  · rw [positionalText, if_neg (by omega), if_pos (by omega), hzeros]
    simp [NumberParts.text, NumberParts.fractionText, NumberParts.exponentText]
  · simp only [NumberParts.decimal, hall]
    rfl

/-- The point stands between the digits. -/
theorem exists_parts_between {d : Decimal} (hc : d.coefficient ≠ 0) (hneg : d.exponent < 0)
    (hpos : 0 < d.digits.length + d.exponent) :
    ∃ parts : NumberParts, positionalText d.digits (d.digits.length + d.exponent) = parts.text ∧
      parts.decimal d.negative = d := by
  have hvalue : digitsValue d.digits = d.coefficient := digitsValue_toDigits _
  have hlead : d.digits.head? ≠ some '0' := head?_toDigits_ne_zero hc
  generalize hn : (d.digits.length + d.exponent).natAbs = n
  have hdrop : d.digits.drop n ≠ [] := List.ne_nil_of_length_pos (by rw [List.length_drop]; omega)
  refine ⟨{
    whole := d.digits.take n
    places := d.digits.drop n
    exponent := none
    whole_ne_nil := List.ne_nil_of_length_pos (by rw [List.length_take]; omega)
    isDigit_of_mem_whole := fun c hc => isDigit_of_mem_digits (List.mem_of_mem_take hc)
    isDigit_of_mem_places := fun c hc => isDigit_of_mem_digits (List.mem_of_mem_drop hc)
    unpadded := fun hhead => ?_
    fractional := .inl hdrop }, ?_, ?_⟩
  · rw [List.head?_take, if_neg (by omega)] at hhead
    exact absurd hhead hlead
  · rw [positionalText, if_neg (by omega), hn, if_neg (by omega), NumberParts.text,
      NumberParts.fractionText_eq hdrop]
    simp [NumberParts.exponentText]
  · simp only [NumberParts.decimal, List.take_append_drop, hvalue, Option.getD_none,
      List.length_drop]
    congr 1
    omega

theorem exists_parts (d : Decimal) : ∃ parts : NumberParts, d.magnitudeText = parts.text ∧
    parts.decimal d.negative = d.written := by
  have hlength := List.length_pos_iff.mpr d.digits_ne_nil
  rw [magnitudeText, written]
  by_cases hc : d.coefficient = 0
  · rw [if_pos hc, if_pos hc]
    exact ⟨⟨['0'], ['0'], none, by simp, by simp, by simp, by simp, by simp⟩, rfl, rfl⟩
  · simp only [if_neg hc]
    by_cases hwhole : 0 ≤ d.exponent ∧ d.digits.length + d.exponent ≤ 16
    · have hpositional : -4 ≤ d.digits.length + d.exponent ∧ d.digits.length + d.exponent ≤ 16 :=
        ⟨by omega, hwhole.2⟩
      rw [if_pos hwhole, if_pos hpositional]
      exact exists_parts_whole hc hwhole.1
    · rw [if_neg hwhole]
      split_ifs with hpositional
      · rcases le_or_gt (d.digits.length + d.exponent) 0 with hsmall | hpos
        · exact exists_parts_below_one hsmall
        · exact exists_parts_between hc (by omega) hpos
      · exact exists_parts_scientific d

/-- Behind the sign, the text is read as the number that was written. -/
theorem scanNumber?_magnitudeText (d : Decimal) {rest : List Char} (hr : EndsNumber rest) :
    scanNumber? d.negative (d.magnitudeText ++ rest) = some (.decimal d.written, rest) := by
  obtain ⟨parts, htext, hdecimal⟩ := d.exists_parts
  rw [htext, parts.scanNumber?_text _ hr, hdecimal]

theorem exists_cons_magnitudeText (d : Decimal) :
    ∃ c text, d.magnitudeText = c :: text ∧ c.isDigit = true := by
  obtain ⟨parts, htext, -⟩ := d.exists_parts
  obtain ⟨c, more, hwhole⟩ := List.exists_cons_of_ne_nil parts.whole_ne_nil
  have hdigit := parts.isDigit_of_mem_whole c (hwhole ▸ List.mem_cons_self)
  rw [NumberParts.text, hwhole, List.cons_append] at htext
  exact ⟨c, _, htext, hdigit⟩

/-- Every decimal is written as one token. -/
theorem scans_text (d : Decimal) {rest : List Char} (hr : EndsNumber rest) :
    Scans d.text [.decimal d.written] rest := by
  have hnumber := d.scanNumber?_magnitudeText hr
  rw [text_eq]
  cases hsign : d.negative with
  | true =>
    rw [hsign] at hnumber
    exact .single (by decide) hnumber
  | false =>
    obtain ⟨c, text, htext, hdigit⟩ := d.exists_cons_magnitudeText
    rw [hsign, htext] at hnumber
    simp only [Bool.false_eq_true, if_false, htext]
    exact .single (Json.isGap_of_isDigit hdigit) ((next?_of_isDigit hdigit _).trans hnumber)

/-- The zeros of a whole number may stand in its exponent or in its coefficient. -/
theorem digits_scaled {d : Decimal} (hc : d.coefficient ≠ 0) (n : Nat) :
    Nat.toDigits 10 (d.coefficient * 10 ^ n) = d.digits ++ List.replicate n '0' := by
  induction n with
  | zero => simp [digits]
  | succ n ih =>
    have hpos : 0 < d.coefficient * 10 ^ n := by positivity
    have hzero : Nat.toDigits 10 0 = ['0'] := Nat.toDigits_zero 10
    rw [List.replicate_succ', ← List.append_assoc, ← ih, ← hzero,
      Nat.toDigits_append_toDigits (by decide) hpos (by decide), pow_succ]
    congr 1
    ring

/-- Digits, some zeros, a point and one more zero. -/
theorem positionalText_scaled (digits : List Char) (hne : digits ≠ []) (n : Nat) :
    positionalText (digits ++ List.replicate (n + 1) '0') (digits.length + n) =
      positionalText digits (digits.length + n) := by
  have hlength := List.length_pos_iff.mpr hne
  have hpoint : ((digits.length : Int) + n).natAbs = digits.length + n := by omega
  have hmore : digits.length + n - digits.length = n := by omega
  have hdigits : digits.length ≤ digits.length + n := Nat.le_add_right _ _
  have hzeros : ¬ digits.length + (n + 1) ≤ digits.length + n := by omega
  have hsplit : digits ++ List.replicate (n + 1) '0' = digits ++ List.replicate n '0' ++ ['0'] := by
    rw [List.replicate_succ', List.append_assoc]
  have hcut : (digits ++ List.replicate n '0').length = digits.length + n := by simp
  simp only [positionalText, hpoint, List.length_append, List.length_replicate, if_pos hdigits,
    if_neg hzeros, hmore]
  rw [if_neg (by omega), if_neg (by omega), hsplit, ← hcut, List.take_left, List.drop_left]

/-- The decimal in its written form has the same text. -/
theorem text_written (d : Decimal) : d.written.text = d.text := by
  rw [written]
  split_ifs with hc hwhole
  · rw [text_eq, text_eq, magnitudeText, magnitudeText, if_pos rfl, if_pos hc]
  · obtain ⟨he, hlarge⟩ := hwhole
    obtain ⟨n, hn⟩ := Int.eq_ofNat_of_zero_le he
    have hscaled : d.coefficient * 10 ^ (n + 1) ≠ 0 := by positivity
    have hdigits : digits ⟨d.negative, d.coefficient * 10 ^ (n + 1), -1⟩ =
        d.digits ++ List.replicate (n + 1) '0' := digits_scaled hc (n + 1)
    have hpoint : ((d.digits ++ List.replicate (n + 1) '0').length : Int) + -1 =
        d.digits.length + n := by
      rw [List.length_append, List.length_replicate]
      omega
    have hpositional : -4 ≤ (d.digits.length + n : Int) ∧ (d.digits.length + n : Int) ≤ 16 := by
      omega
    simp only [text_eq, magnitudeText, hn, Int.toNat_natCast, hdigits, hpoint, if_neg hscaled,
      if_neg hc, if_pos hpositional, positionalText_scaled d.digits d.digits_ne_nil n]
  · rfl

theorem legible_written (d : Decimal) : d.written.Legible := fun rest hr => by
  rw [text_written]
  exact d.scans_text hr

end Decimal

namespace Json

mutual

/-- The value with its numbers in the form in which they are written. -/
def written : Json → Json
  | .decimal d => .decimal d.written
  | .array items => .array (writtenItems items)
  | .object members => .object (writtenMembers members)
  | other => other

/-- The items with their numbers in the form in which they are written. -/
def writtenItems : List Json → List Json
  | [] => []
  | item :: rest => written item :: writtenItems rest

/-- The members with their numbers in the form in which they are written. -/
def writtenMembers : List (String × Json) → List (String × Json)
  | [] => []
  | (key, value) :: rest => (key, written value) :: writtenMembers rest

end

mutual

theorem compactChars_written : ∀ v : Json, compactChars v.written = compactChars v
  | .null => rfl
  | .bool _ => rfl
  | .integer _ => rfl
  | .decimal d => d.text_written
  | .string _ => rfl
  | .array [] => rfl
  | .array (item :: items) => by
    rw [written, writtenItems, compactChars, compactChars, compactChars_written item,
      compactItems_writtenItems items]
  | .object [] => rfl
  | .object ((key, value) :: members) => by
    rw [written, writtenMembers, compactChars, compactChars, compactChars_written value,
      compactMembers_writtenMembers members]

theorem compactItems_writtenItems : ∀ items : List Json,
    compactItems (writtenItems items) = compactItems items
  | [] => rfl
  | item :: items => by
    rw [writtenItems, compactItems, compactItems, compactChars_written item,
      compactItems_writtenItems items]

theorem compactMembers_writtenMembers : ∀ members : List (String × Json),
    compactMembers (writtenMembers members) = compactMembers members
  | [] => rfl
  | (key, value) :: members => by
    rw [writtenMembers, compactMembers, compactMembers, compactChars_written value,
      compactMembers_writtenMembers members]

end

mutual

theorem legible_of_mem_decimals_written : ∀ (v : Json), ∀ d ∈ v.written.decimals, d.Legible
  | .null, _, h => nomatch h
  | .bool _, _, h => nomatch h
  | .integer _, _, h => nomatch h
  | .decimal d, _, h => by
    obtain rfl := List.mem_singleton.mp h
    exact d.legible_written
  | .string _, _, h => nomatch h
  | .array items, d, h => legible_of_mem_itemDecimals_written items d h
  | .object members, d, h => legible_of_mem_memberDecimals_written members d h

theorem legible_of_mem_itemDecimals_written : ∀ (items : List Json),
    ∀ d ∈ itemDecimals (writtenItems items), d.Legible
  | [], _, h => nomatch h
  | item :: items, d, h => by
    rcases List.mem_append.mp h with h | h
    · exact legible_of_mem_decimals_written item d h
    · exact legible_of_mem_itemDecimals_written items d h

theorem legible_of_mem_memberDecimals_written : ∀ (members : List (String × Json)),
    ∀ d ∈ memberDecimals (writtenMembers members), d.Legible
  | [], _, h => nomatch h
  | (_, value) :: members, d, h => by
    rcases List.mem_append.mp h with h | h
    · exact legible_of_mem_decimals_written value d h
    · exact legible_of_mem_memberDecimals_written members d h

end

end Json

/-- The one-line text of every value is read as its syntax. -/
theorem Syntax.parse?_compact_eq (v : Json) : parse? v.compact = some v.written.toSyntax := by
  have h := parse?_compact v.written v.legible_of_mem_decimals_written
  rwa [Json.compact, Json.compactChars_written, ← Json.compact] at h

end ContextAdvisor
