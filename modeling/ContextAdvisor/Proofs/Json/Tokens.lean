import ContextAdvisor.Json.Printer
import ContextAdvisor.Json.Token
import Mathlib.Tactic

/-!
# The tokens of a value's one-line text

Every character of a string is written as one piece that is read as the same character, and an
integer is written without superfluous zeros.
-/
namespace ContextAdvisor

namespace StringPiece

/-- Is the piece read as a character, whatever stands around it? -/
def Denotes (piece : StringPiece) (c : Char) : Prop :=
  ∀ before rest, text? before (piece :: rest) = text? (c :: before) rest

theorem denotes_plain (c : Char) : (plain c).Denotes c := fun _ _ => by rw [text?]

/-- A unit below the surrogates stands for itself. -/
theorem denotes_unit {c : Char} (h : c.toNat < 0x20) : (unit c.toNat).Denotes c := by
  have hhigh : isHigh c.toNat = false := by
    rw [isHigh, decide_eq_false (by omega), Bool.false_and]
  have hlow : isLow c.toNat = false := by
    rw [isLow, decide_eq_false (by omega), Bool.false_and]
  intro before rest
  cases rest with
  | nil => simp [text?, hhigh, hlow]
  | cons next rest => cases next <;> simp [text?, hhigh, hlow]

theorem hexDigit?_hexDigit : ∀ n < 16, hexDigit? (Json.hexDigit n) = some n := by decide

theorem hexUnit?_hexDigit {n : Nat} (h : n < 0x20) :
    hexUnit? '0' '0' (Json.hexDigit (n / 16)) (Json.hexDigit (n % 16)) = some n := by
  have hzero : hexDigit? '0' = some 0 := by decide
  have hdiv := hexDigit?_hexDigit (n / 16) (by omega)
  have hmod := hexDigit?_hexDigit (n % 16) (by omega)
  simp only [hexUnit?, hzero, hdiv, hmod, Option.bind_eq_bind, Option.bind_some, Option.pure_def,
    Option.some.injEq]
  omega

/-- A character is written as one piece that denotes it. -/
theorem exists_denotes_escape (c : Char) : ∃ piece, Denotes piece c ∧
    ∀ before rest, scan? before (Json.escape c ++ rest) = scan? (piece :: before) rest := by
  unfold Json.escape
  split
  iterate 7 exact ⟨.plain _, denotes_plain _, fun _ _ => by simp [scan?, named?]⟩
  next hquote hbackslash _ _ _ _ _ =>
    split_ifs with h
    · exact ⟨.unit c.toNat, denotes_unit h, fun _ _ => by simp [scan?, hexUnit?_hexDigit h]⟩
    · refine ⟨.plain c, denotes_plain c, fun before rest => ?_⟩
      have hplain : c ≠ '\\' := hbackslash
      rw [List.singleton_append, scan?]
      · simp [hplain, h]
      · exact hquote
      · exact fun _ _ _ _ _ he _ => hbackslash he
      · exact fun _ _ he _ => hbackslash he

/-- The text between quotes is read as the string that was written. -/
theorem exists_pieces (cs : List Char) : ∃ pieces,
    (∀ before, text? before pieces = some (String.ofList (before.reverse ++ cs))) ∧
    ∀ before rest, scan? before (cs.flatMap Json.escape ++ '"' :: rest) =
      some (before.reverse ++ pieces, rest) := by
  induction cs with
  | nil => exact ⟨[], fun before => by simp [text?], fun before rest => by simp [scan?]⟩
  | cons c cs ih =>
    obtain ⟨piece, hdenotes, hscan⟩ := exists_denotes_escape c
    obtain ⟨pieces, htext, hscans⟩ := ih
    refine ⟨piece :: pieces, fun before => ?_, fun before rest => ?_⟩
    · rw [hdenotes, htext, List.reverse_cons, List.append_assoc, List.singleton_append]
    · rw [List.flatMap_cons, List.append_assoc, hscan, hscans, List.reverse_cons,
        List.append_assoc, List.singleton_append]

end StringPiece

theorem digitsValue_toDigits (n : Nat) : digitsValue (Nat.toDigits 10 n) = n :=
  Nat.ofDigitChars_toDigits (by decide) (by decide)

theorem digitChar_ne_zero : ∀ n < 10, n ≠ 0 → n.digitChar ≠ '0' := by decide

/-- Only zero is written with a leading zero. -/
theorem head?_toDigits_ne_zero {n : Nat} (h : n ≠ 0) : (Nat.toDigits 10 n).head? ≠ some '0' := by
  induction n using Nat.strongRecOn with
  | ind n ih =>
    rw [Nat.toDigits_eq_if (by decide)]
    split_ifs with hn
    · simpa using digitChar_ne_zero n hn h
    · rw [List.head?_append_of_ne_nil _ Nat.toDigits_ne_nil]
      exact ih (n / 10) (by omega) (by omega)

namespace Token

/-- Can nothing at the front of the text continue a number? -/
def EndsNumber (text : List Char) : Prop :=
  ∀ c ∈ text.head?, c.isDigit = false ∧ c ≠ '.' ∧ c ≠ 'e' ∧ c ≠ 'E'

theorem EndsNumber.not_digit {text : List Char} (h : EndsNumber text) :
    ∀ c ∈ text.head?, c.isDigit = false :=
  fun c hc => (h c hc).1

theorem scanDigits?_append {digits rest : List Char} (hne : digits ≠ [])
    (hd : ∀ c ∈ digits, c.isDigit = true) (hr : ∀ c ∈ rest.head?, c.isDigit = false) :
    scanDigits? (digits ++ rest) = some (digits, rest) := by
  have hspan : (digits ++ rest).span Char.isDigit = (digits, rest) := by
    rw [List.span_eq_takeWhile_dropWhile, List.takeWhile_append_of_pos hd,
      List.dropWhile_append_of_pos hd]
    cases rest with
    | nil => simp
    | cons c rest =>
      have hc : c.isDigit = false := hr c rfl
      simp [hc]
  rw [scanDigits?, hspan]
  cases digits with
  | nil => exact absurd rfl hne
  | cons d digits => rfl

theorem scanFraction?_of_endsNumber {rest : List Char} (hr : EndsNumber rest) :
    scanFraction? rest = some (none, rest) := by
  cases rest with
  | nil => rfl
  | cons c rest =>
    rw [scanFraction?]
    exact fun _ he => (hr c rfl).2.1 (List.cons.inj he).1

theorem scanExponent?_of_endsNumber {rest : List Char} (hr : EndsNumber rest) :
    scanExponent? rest = some (none, rest) := by
  cases rest with
  | nil => rfl
  | cons c rest =>
    obtain ⟨-, -, he, hE⟩ := hr c rfl
    simp [scanExponent?, he, hE]

theorem scanNumber?_toDigits (negative : Bool) {n : Nat} (hn : negative = true → n ≠ 0)
    {rest : List Char} (hr : EndsNumber rest) :
    scanNumber? negative (Nat.toDigits 10 n ++ rest) =
      some (.integer (if negative then -(n : Int) else n), rest) := by
  have hd : ∀ c ∈ Nat.toDigits 10 n, c.isDigit = true := fun c hc =>
    Nat.isDigit_of_mem_toDigits (by decide) (by decide) hc
  have hzeros : ¬ ((Nat.toDigits 10 n).head? = some '0' ∧ 1 < (Nat.toDigits 10 n).length) := by
    rintro ⟨hhead, hlong⟩
    have hzero : n = 0 := by_contra fun h => head?_toDigits_ne_zero h hhead
    simp [hzero] at hlong
  have hsign : ¬ (negative = true ∧ n = 0) := fun h => hn h.1 h.2
  simp [scanNumber?, scanDigits?_append Nat.toDigits_ne_nil hd hr.not_digit,
    scanFraction?_of_endsNumber hr, scanExponent?_of_endsNumber hr, digitsValue_toDigits, hzeros,
    hsign]

theorem next?_of_isDigit {c : Char} (h : c.isDigit = true) (rest : List Char) :
    next? (c :: rest) = scanNumber? false (c :: rest) := by
  rw [next?] <;> intros <;> simp_all

/-- An integer is written as one token. -/
theorem next?_integerText (n : Int) {rest : List Char} (hr : EndsNumber rest) :
    next? (Json.integerText n ++ rest) = some (.integer n, rest) := by
  rw [Json.integerText]
  split_ifs with hn
  · rw [List.cons_append, next?, scanNumber?_toDigits true (by omega) hr, if_pos rfl]
    simp only [Option.some.injEq, Prod.mk.injEq, Token.integer.injEq, and_true]
    omega
  · obtain ⟨d, ds, hd⟩ := List.exists_cons_of_ne_nil (Nat.toDigits_ne_nil (b := 10) (n := n.natAbs))
    have hdigit : d.isDigit = true :=
      Nat.isDigit_of_mem_toDigits (by decide) (by decide) (hd ▸ List.mem_cons_self)
    rw [hd, List.cons_append, next?_of_isDigit hdigit, ← List.cons_append, ← hd,
      scanNumber?_toDigits false (by simp) hr, if_neg (by simp)]
    simp only [Option.some.injEq, Prod.mk.injEq, Token.integer.injEq, and_true]
    omega

/-- A string is written as one token. -/
theorem next?_quote (s : String) (rest : List Char) :
    next? (Json.quote s ++ rest) = some (.string (some s), rest) := by
  obtain ⟨pieces, htext, hscan⟩ := StringPiece.exists_pieces s.toList
  have htext' := htext []
  have hscan' := hscan [] rest
  simp only [List.reverse_nil, List.nil_append, String.ofList_toList] at htext' hscan'
  simp only [Json.quote, List.cons_append, List.append_assoc, List.nil_append, next?, hscan',
    Option.map_some, htext']

/-- With `rest` behind it the text is cut into exactly the tokens, each of which takes at least one
character. -/
structure Scans (text : List Char) (tokens : List Token) (rest : List Char) : Prop where
  length_le : tokens.length ≤ text.length
  scanFrom?_eq : ∀ fuel before, scanFrom? (fuel + tokens.length) before (text ++ rest) =
    scanFrom? fuel (tokens.reverse ++ before) rest

namespace Scans

variable {text rest : List Char} {tokens : List Token}

/-- A token that does not start with a blank. -/
theorem single {c : Char} {token : Token} (hgap : isGap c = false)
    (h : next? (c :: text ++ rest) = some (token, rest)) : Scans (c :: text) [token] rest where
  length_le := by simp
  scanFrom?_eq fuel before := by
    rw [List.cons_append] at h ⊢
    simp [scanFrom?, hgap, h]

theorem append {text' : List Char} {tokens' : List Token} (h : Scans text tokens (text' ++ rest))
    (h' : Scans text' tokens' rest) : Scans (text ++ text') (tokens ++ tokens') rest where
  length_le := by
    have := h.length_le
    have := h'.length_le
    simp only [List.length_append]
    omega
  scanFrom?_eq fuel before := by
    rw [List.length_append, Nat.add_comm tokens.length, ← Nat.add_assoc, List.append_assoc,
      h.scanFrom?_eq, h'.scanFrom?_eq, List.reverse_append, List.append_assoc]

/-- A punctuation mark in front of a text. -/
theorem cons {c : Char} {token : Token} (hgap : isGap c = false)
    (hnext : next? (c :: (text ++ rest)) = some (token, text ++ rest))
    (h : Scans text tokens rest) : Scans (c :: text) (token :: tokens) rest := by
  have hc : Scans [c] [token] (text ++ rest) := single hgap hnext
  exact hc.append h

/-- A text with nothing behind it. -/
theorem scan?_eq (h : Scans text tokens []) : scan? text = some tokens := by
  have hfuel : text.length + 1 = text.length - tokens.length + 1 + tokens.length := by
    have := h.length_le
    omega
  have hall := h.scanFrom?_eq (text.length - tokens.length + 1) []
  rw [List.append_nil, ← hfuel] at hall
  rw [scan?, hall]
  simp [scanFrom?]

end Scans

end Token

/-- Is the text of the decimal read as this very decimal? -/
def Decimal.Legible (d : Decimal) : Prop :=
  ∀ rest, Token.EndsNumber rest → Token.Scans d.text [.decimal d] rest

namespace Json

mutual

/-- The tokens of a value. -/
def tokens : Json → List Token
  | .null => [.null]
  | .bool b => [.bool b]
  | .integer n => [.integer n]
  | .decimal d => [.decimal d]
  | .string s => [.string (some s)]
  | .array [] => [.openArray, .closeArray]
  | .array (item :: rest) => .openArray :: (tokens item ++ itemTokens rest)
  | .object [] => [.openObject, .closeObject]
  | .object ((key, value) :: rest) =>
    .openObject :: .string (some key) :: .colon :: (tokens value ++ memberTokens rest)

/-- The tokens of the items after the first one, and the end of the array. -/
def itemTokens : List Json → List Token
  | [] => [.closeArray]
  | item :: rest => .comma :: (tokens item ++ itemTokens rest)

/-- The tokens of the members after the first one, and the end of the object. -/
def memberTokens : List (String × Json) → List Token
  | [] => [.closeObject]
  | (key, value) :: rest =>
    .comma :: .string (some key) :: .colon :: (tokens value ++ memberTokens rest)

end

mutual

/-- The decimals in a value. -/
def decimals : Json → List Decimal
  | .decimal d => [d]
  | .array items => itemDecimals items
  | .object members => memberDecimals members
  | _ => []

/-- The decimals in some items. -/
def itemDecimals : List Json → List Decimal
  | [] => []
  | item :: rest => decimals item ++ itemDecimals rest

/-- The decimals in some members. -/
def memberDecimals : List (String × Json) → List Decimal
  | [] => []
  | (_, value) :: rest => decimals value ++ memberDecimals rest

end

open Token

theorem isGap_of_isDigit {c : Char} (h : c.isDigit = true) : isGap c = false := by
  by_contra hgap
  simp only [isGap, Bool.not_eq_false, Bool.or_eq_true, beq_iff_eq] at hgap
  rcases hgap with ((rfl | rfl) | rfl) | rfl <;> exact absurd h (by decide)

theorem exists_cons_integerText (n : Int) :
    ∃ c text, integerText n = c :: text ∧ isGap c = false := by
  rw [integerText]
  split_ifs with hn
  · exact ⟨'-', _, rfl, by decide⟩
  · obtain ⟨d, ds, hd⟩ :=
      List.exists_cons_of_ne_nil (Nat.toDigits_ne_nil (b := 10) (n := n.natAbs))
    have hdigit : d.isDigit = true :=
      Nat.isDigit_of_mem_toDigits (by decide) (by decide) (hd ▸ List.mem_cons_self)
    exact ⟨d, ds, hd, isGap_of_isDigit hdigit⟩

theorem scans_integerText (n : Int) {rest : List Char} (hr : EndsNumber rest) :
    Scans (integerText n) [.integer n] rest := by
  have hnext := next?_integerText n hr
  obtain ⟨c, text, htext, hgap⟩ := exists_cons_integerText n
  rw [htext] at hnext ⊢
  exact .single hgap hnext

theorem scans_quote (s : String) (rest : List Char) : Scans (quote s) [.string (some s)] rest :=
  .single (by decide) (next?_quote s rest)

/-- A key, a colon, a value and what stands behind it. -/
theorem scans_member (key : String) {text more rest : List Char} {tokens tokens' : List Token}
    (h : Scans text tokens (more ++ rest)) (h' : Scans more tokens' rest) :
    Scans (quote key ++ ':' :: (text ++ more)) (.string (some key) :: .colon :: (tokens ++ tokens'))
      rest :=
  (scans_quote key _).append (.cons (by decide) rfl (h.append h'))

theorem endsNumber_compactItems (items : List Json) (rest : List Char) :
    EndsNumber (compactItems items ++ rest) := by
  intro c hc
  cases items <;> simp [compactItems] at hc <;> subst hc <;> decide

theorem endsNumber_compactMembers (members : List (String × Json)) (rest : List Char) :
    EndsNumber (compactMembers members ++ rest) := by
  intro c hc
  cases members <;> simp [compactMembers] at hc <;> subst hc <;> decide

mutual

theorem scans_compactChars : ∀ (v : Json), (∀ d ∈ v.decimals, d.Legible) →
    ∀ rest, EndsNumber rest → Scans (compactChars v) v.tokens rest
  | .null, _, _, _ => .single (by decide) rfl
  | .bool true, _, _, _ => .single (by decide) rfl
  | .bool false, _, _, _ => .single (by decide) rfl
  | .integer n, _, _, hr => scans_integerText n hr
  | .decimal d, hd, rest, hr => hd d (by simp [decimals]) rest hr
  | .string s, _, rest, _ => scans_quote s rest
  | .array [], _, _, _ => .cons (by decide) rfl (.single (by decide) rfl)
  | .array (item :: items), hd, rest, _ => by
    simp only [decimals, itemDecimals, List.mem_append] at hd
    have hitem := scans_compactChars item (fun d h => hd d (.inl h)) _
      (endsNumber_compactItems items rest)
    have hitems := scans_compactItems items (fun d h => hd d (.inr h)) rest
    exact .cons (by decide) rfl (hitem.append hitems)
  | .object [], _, _, _ => .cons (by decide) rfl (.single (by decide) rfl)
  | .object ((key, value) :: members), hd, rest, _ => by
    simp only [decimals, memberDecimals, List.mem_append] at hd
    have hvalue := scans_compactChars value (fun d h => hd d (.inl h)) _
      (endsNumber_compactMembers members rest)
    have hmembers := scans_compactMembers members (fun d h => hd d (.inr h)) rest
    exact .cons (by decide) rfl (scans_member key hvalue hmembers)

theorem scans_compactItems : ∀ (items : List Json), (∀ d ∈ itemDecimals items, d.Legible) →
    ∀ rest, Scans (compactItems items) (itemTokens items) rest
  | [], _, _ => .single (by decide) rfl
  | item :: items, hd, rest => by
    simp only [itemDecimals, List.mem_append] at hd
    have hitem := scans_compactChars item (fun d h => hd d (.inl h)) _
      (endsNumber_compactItems items rest)
    have hitems := scans_compactItems items (fun d h => hd d (.inr h)) rest
    exact .cons (by decide) rfl (hitem.append hitems)

theorem scans_compactMembers : ∀ (members : List (String × Json)),
    (∀ d ∈ memberDecimals members, d.Legible) →
    ∀ rest, Scans (compactMembers members) (memberTokens members) rest
  | [], _, _ => .single (by decide) rfl
  | (key, value) :: members, hd, rest => by
    simp only [memberDecimals, List.mem_append] at hd
    have hvalue := scans_compactChars value (fun d h => hd d (.inl h)) _
      (endsNumber_compactMembers members rest)
    have hmembers := scans_compactMembers members (fun d h => hd d (.inr h)) rest
    exact .cons (by decide) rfl (scans_member key hvalue hmembers)

end

/-- The one-line text of a value is cut into its tokens. -/
theorem scan?_compact (v : Json) (hd : ∀ d ∈ v.decimals, d.Legible) :
    Token.scan? v.compact.toList = some v.tokens := by
  rw [compact, String.toList_ofList]
  exact (scans_compactChars v hd [] (by simp [EndsNumber])).scan?_eq

end Json

end ContextAdvisor
