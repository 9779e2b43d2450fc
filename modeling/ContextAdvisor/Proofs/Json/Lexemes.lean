import ContextAdvisor.Proofs.Json.Tokens

/-!
# Where tokens end

A token consists of the characters that it takes, and at most the one character behind it has a say
in where it ends. So a text may be cut at a punctuation mark, wherever one stands among its tokens:
the tokens before the mark are those of the text before it, and likewise behind it.
-/
namespace ContextAdvisor

/-- A string ends at its closing quote, whatever stands behind it. -/
theorem StringPiece.exists_front_of_scan? {before pieces : List StringPiece}
    {text rest : List Char} (h : scan? before text = some (pieces, rest)) :
    ∃ front, text = front ++ rest ∧
      ∀ rest', scan? before (front ++ rest') = some (pieces, rest') := by
  fun_induction scan? before text with
  | case1 before => cases h
  | case2 before text =>
    cases h
    exact ⟨['"'], rfl, fun rest' => by simp [scan?]⟩
  | case3 before a b c d text code hcode ih =>
    obtain ⟨front, htext, hfront⟩ := ih h
    refine ⟨'\\' :: 'u' :: a :: b :: c :: d :: front, by simp [htext], fun rest' => ?_⟩
    simp only [List.cons_append, scan?, hcode, hfront]
  | case4 before a b c d text hcode => cases h
  | case5 before letter text hunit c hc ih =>
    obtain ⟨front, htext, hfront⟩ := ih h
    have hletter : letter ≠ 'u' := by
      rintro rfl
      cases hc
    refine ⟨'\\' :: letter :: front, by simp [htext], fun rest' => ?_⟩
    rw [List.cons_append, List.cons_append, scan?]
    · simp only [hc, hfront]
    · exact fun _ _ _ _ _ hu _ => hletter hu
  | case6 before letter text hunit hc => cases h
  | case7 before c text hquote hunit hletter hplain => cases h
  | case8 before c text hquote hunit hletter hplain ih =>
    obtain ⟨front, htext, hfront⟩ := ih h
    have hbackslash : c ≠ '\\' := by
      rintro rfl
      exact hplain rfl
    refine ⟨c :: front, by simp [htext], fun rest' => ?_⟩
    rw [List.cons_append, scan?]
    · rw [if_neg hplain, hfront]
    · exact hquote
    · exact fun _ _ _ _ _ hc _ => hbackslash hc
    · exact fun _ _ hc _ => hbackslash hc

namespace Token

/-- The character of a punctuation mark. -/
def mark? : Token → Option Char
  | .openArray => some '['
  | .closeArray => some ']'
  | .openObject => some '{'
  | .closeObject => some '}'
  | .comma => some ','
  | .colon => some ':'
  | _ => none

theorem next?_of_mark? {c : Char} {token : Token} (h : token.mark? = some c) (rest : List Char) :
    next? (c :: rest) = some (token, rest) := by
  cases token <;> cases h <;> rfl

theorem endsNumber_of_mark? {c : Char} {token : Token} (h : token.mark? = some c)
    (rest : List Char) : EndsNumber (c :: rest) := by
  rintro _ ⟨⟩
  cases token <;> cases h <;> decide

/-- May the second text stand in the place of the first behind a number? -/
def Alike (rest rest' : List Char) : Prop := rest'.head? = rest.head? ∨ EndsNumber rest'

theorem Alike.append {rest rest' : List Char} (h : Alike rest rest') (front : List Char) :
    Alike (front ++ rest) (front ++ rest') := by
  cases front with
  | nil => exact h
  | cons c front => exact .inl rfl

/-- What holds of the character behind a number, and of each one that cannot continue a number,
holds of the character behind it in the other place. -/
theorem Alike.forall_head {rest rest' : List Char} (h : Alike rest rest') {P : Char → Prop}
    (hrest : ∀ c ∈ rest.head?, P c)
    (hends : ∀ c, c.isDigit = false ∧ c ≠ '.' ∧ c ≠ 'e' ∧ c ≠ 'E' → P c) :
    ∀ c ∈ rest'.head?, P c := by
  intro c hc
  rcases h with h | h
  · exact hrest c (h ▸ hc)
  · exact hends c (h c hc)

/-- Does a value stand at the front of a text, and does it stay the same if what follows is replaced
by something that begins alike? -/
def Leads {β : Type} (read : List Char → Option (β × List Char)) (text : List Char) (value : β)
    (rest : List Char) : Prop :=
  ∃ front, text = front ++ rest ∧
    ∀ rest', Alike rest rest' → read (front ++ rest') = some (value, rest')

variable {text rest : List Char}

theorem scanDigits?_eq_some {digits : List Char} (h : scanDigits? text = some (digits, rest)) :
    text = digits ++ rest ∧ digits ≠ [] ∧ (∀ c ∈ digits, c.isDigit = true) ∧
      ∀ c ∈ rest.head?, c.isDigit = false := by
  rw [scanDigits?, List.span_eq_takeWhile_dropWhile] at h
  split at h
  · cases h
  · next hne =>
    cases h
    refine ⟨List.takeWhile_append_dropWhile.symm, fun hnil => hne _ (by rw [hnil]),
      fun c hc => ?_, fun c hc => ?_⟩
    · exact List.all_eq_true.mp List.all_takeWhile c hc
    · have hhead := List.head?_dropWhile_not Char.isDigit text
      rw [Option.mem_def.mp hc] at hhead
      simpa using hhead

theorem leads_scanDigits? {digits : List Char} (h : scanDigits? text = some (digits, rest)) :
    Leads scanDigits? text digits rest := by
  obtain ⟨htext, hne, hdigits, hrest⟩ := scanDigits?_eq_some h
  exact ⟨digits, htext, fun rest' halike =>
    scanDigits?_append hne hdigits (halike.forall_head hrest fun c hc => hc.1)⟩

theorem leads_scanFraction? {fraction : Option (List Char)}
    (h : scanFraction? text = some (fraction, rest)) : Leads scanFraction? text fraction rest := by
  unfold scanFraction? at h
  split at h
  · next more =>
    obtain ⟨⟨digits, after⟩, hdigits, heq⟩ := Option.map_eq_some_iff.mp h
    cases heq
    obtain ⟨front, hmore, hfront⟩ := leads_scanDigits? hdigits
    refine ⟨'.' :: front, by simp [hmore], fun rest' halike => ?_⟩
    simp [scanFraction?, hfront rest' halike]
  · next hpoint =>
    cases h
    refine ⟨[], rfl, fun rest' halike => ?_⟩
    have hhead : ∀ c ∈ rest'.head?, c ≠ '.' := by
      refine halike.forall_head (fun c hc hdot => ?_) fun c hc => hc.2.1
      obtain ⟨more, hmore⟩ := List.head?_eq_some_iff.mp hc
      exact hpoint more (hdot ▸ hmore)
    cases rest' with
    | nil => rfl
    | cons c rest' =>
      rw [List.nil_append, scanFraction?]
      exact fun _ hc => hhead c rfl (List.cons.inj hc).1

/-- A sign in front of digits is split off, whatever stands behind them. -/
theorem exists_sign_of_splitSign {negative : Bool} {digits after : List Char}
    (h : splitSign text = (negative, digits ++ after)) (hne : digits ≠ [])
    (hd : ∀ c ∈ digits, c.isDigit = true) :
    ∃ sign, text = sign ++ (digits ++ after) ∧
      ∀ after', splitSign (sign ++ (digits ++ after')) = (negative, digits ++ after') := by
  unfold splitSign at h
  split at h
  · cases h
    exact ⟨['-'], rfl, fun _ => rfl⟩
  · cases h
    exact ⟨['+'], rfl, fun _ => rfl⟩
  · cases h
    refine ⟨[], rfl, fun after' => ?_⟩
    obtain ⟨d, ds, rfl⟩ := List.exists_cons_of_ne_nil hne
    have hdigit : d.isDigit = true := hd d List.mem_cons_self
    rw [List.nil_append, List.cons_append, splitSign]
    · exact fun _ he => absurd hdigit (by rw [(List.cons.inj he).1]; decide)
    · exact fun _ he => absurd hdigit (by rw [(List.cons.inj he).1]; decide)

theorem leads_scanExponent? {exponent : Option Int}
    (h : scanExponent? text = some (exponent, rest)) : Leads scanExponent? text exponent rest := by
  have hnone : (∀ c ∈ rest.head?, c ≠ 'e' ∧ c ≠ 'E') →
      ∀ rest', Alike rest rest' → scanExponent? rest' = some (none, rest') := by
    intro hhead rest' halike
    have hhead' := halike.forall_head hhead fun c hc => hc.2.2
    cases rest' with
    | nil => rfl
    | cons c rest' =>
      obtain ⟨he, hE⟩ := hhead' c rfl
      simp [scanExponent?, he, hE]
  cases text with
  | nil =>
    cases h
    exact ⟨[], rfl, hnone (by simp)⟩
  | cons c text =>
    rw [scanExponent?] at h
    split_ifs at h with hc
    · rcases hsplit : splitSign text with ⟨negative, body⟩
      rw [hsplit] at h
      obtain ⟨⟨digits, after⟩, hdigits, heq⟩ := Option.map_eq_some_iff.mp h
      cases heq
      obtain ⟨rfl, hne, hd, hrest⟩ := scanDigits?_eq_some hdigits
      obtain ⟨sign, htext, hsign⟩ := exists_sign_of_splitSign hsplit hne hd
      refine ⟨c :: (sign ++ digits), by simp [htext], fun rest' halike => ?_⟩
      have hdigits' := scanDigits?_append hne hd (halike.forall_head hrest fun c hc => hc.1)
      rw [List.cons_append, List.append_assoc, scanExponent?, if_pos hc, hsign]
      simp [hdigits']
    · cases h
      refine ⟨[], rfl, hnone ?_⟩
      simpa using hc

/-- A number has digits, perhaps a fraction and perhaps an exponent. It is determined by them, and
it is not a punctuation mark. -/
theorem exists_parts_of_scanNumber? {negative : Bool} {token : Token}
    (h : scanNumber? negative text = some (token, rest)) :
    ∃ whole r fraction r' exponent, scanDigits? text = some (whole, r) ∧
      scanFraction? r = some (fraction, r') ∧ scanExponent? r' = some (exponent, rest) ∧
      token.mark? = none ∧
      ∀ text' s s' rest', scanDigits? text' = some (whole, s) →
        scanFraction? s = some (fraction, s') → scanExponent? s' = some (exponent, rest') →
        scanNumber? negative text' = some (token, rest') := by
  obtain ⟨⟨whole, r⟩, hwhole, h⟩ := Option.bind_eq_some_iff.mp h
  dsimp only at h
  by_cases hzeros : whole.head? = some '0' && 1 < whole.length
  · rw [if_pos hzeros] at h
    cases h
  rw [if_neg hzeros] at h
  obtain ⟨⟨fraction, r'⟩, hfraction, h⟩ := Option.bind_eq_some_iff.mp h
  dsimp only at h
  obtain ⟨⟨exponent, r''⟩, hexponent, htoken⟩ := Option.bind_eq_some_iff.mp h
  obtain ⟨rfl, rfl⟩ := Prod.mk.inj (Option.some.inj htoken)
  refine ⟨whole, r, fraction, r', exponent, hwhole, hfraction, hexponent, ?_, ?_⟩
  · dsimp only
    split
    · split <;> rfl
    · rfl
  · intro text' s s' rest' hwhole' hfraction' hexponent'
    simp only [scanNumber?, Option.bind_eq_bind, hwhole', hfraction', hexponent', Option.bind_some,
      if_neg hzeros]
    rfl

/-- A number starts with a digit. -/
theorem exists_leads_scanNumber? {negative : Bool} {token : Token}
    (h : scanNumber? negative text = some (token, rest)) :
    ∃ d front, d.isDigit = true ∧ text = d :: front ++ rest ∧
      ∀ rest', Alike rest rest' →
        scanNumber? negative (d :: front ++ rest') = some (token, rest') := by
  obtain ⟨whole, r, fraction, r', exponent, hwhole, hfraction, hexponent, -, hparts⟩ :=
    exists_parts_of_scanNumber? h
  obtain ⟨htext, hne, hdigits, hr⟩ := scanDigits?_eq_some hwhole
  obtain ⟨front, hr', hfront⟩ := leads_scanFraction? hfraction
  obtain ⟨front', hr'', hfront'⟩ := leads_scanExponent? hexponent
  obtain ⟨d, ds, rfl⟩ := List.exists_cons_of_ne_nil hne
  refine ⟨d, ds ++ (front ++ front'), hdigits d List.mem_cons_self, by simp [htext, hr', hr''],
    fun rest' halike => ?_⟩
  have halike' : Alike r' (front' ++ rest') := hr'' ▸ halike.append front'
  have halike'' : Alike r (front ++ (front' ++ rest')) := hr' ▸ halike'.append front
  rw [← List.cons_append, List.append_assoc, List.append_assoc]
  exact hparts _ _ _ _
    (scanDigits?_append hne hdigits (halike''.forall_head hr fun c hc => hc.1))
    (hfront _ halike') (hfront' _ halike)

/-- Does a token start with a character that is no blank, and is it read from the same characters
whatever stands behind them, if that begins alike? -/
def IsLexeme (text : List Char) (token : Token) (rest : List Char) : Prop :=
  ∃ c front, isGap c = false ∧ text = c :: front ++ rest ∧
    ∀ rest', Alike rest rest' → next? (c :: front ++ rest') = some (token, rest')

/-- A mark or a word is a token whatever stands behind it. -/
theorem isLexeme_of_forall {c : Char} (front : List Char) {more : List Char}
    {token spelled : Token} (hc : isGap c = false)
    (hspelled : ∀ more, next? (c :: front ++ more) = some (spelled, more))
    (h : next? (c :: front ++ more) = some (token, rest)) :
    IsLexeme (c :: front ++ more) token rest := by
  rw [hspelled] at h
  cases h
  exact ⟨c, front, hc, rfl, fun rest' _ => hspelled rest'⟩

theorem isLexeme_of_next? {token : Token} (h : next? text = some (token, rest)) :
    IsLexeme text token rest := by
  fun_cases next? text with
  | case1 more => exact isLexeme_of_forall [] (by decide) (fun _ => rfl) h
  | case2 more => exact isLexeme_of_forall [] (by decide) (fun _ => rfl) h
  | case3 more => exact isLexeme_of_forall [] (by decide) (fun _ => rfl) h
  | case4 more => exact isLexeme_of_forall [] (by decide) (fun _ => rfl) h
  | case5 more => exact isLexeme_of_forall [] (by decide) (fun _ => rfl) h
  | case6 more => exact isLexeme_of_forall [] (by decide) (fun _ => rfl) h
  | case7 more =>
    exact isLexeme_of_forall ['u', 'l', 'l'] (by decide) (fun _ => rfl) h
  | case8 more =>
    exact isLexeme_of_forall ['r', 'u', 'e'] (by decide) (fun _ => rfl) h
  | case9 more =>
    exact isLexeme_of_forall ['a', 'l', 's', 'e'] (by decide) (fun _ => rfl) h
  | case10 more =>
    rw [next?] at h
    obtain ⟨⟨pieces, after⟩, hpieces, heq⟩ := Option.map_eq_some_iff.mp h
    cases heq
    obtain ⟨front, hmore, hfront⟩ := StringPiece.exists_front_of_scan? hpieces
    refine ⟨'"', front, by decide, by simp [hmore], fun rest' _ => ?_⟩
    simp [next?, hfront]
  | case11 more =>
    rw [next?] at h
    obtain ⟨d, front, -, hmore, hfront⟩ := exists_leads_scanNumber? h
    refine ⟨'-', d :: front, by decide, by simp [hmore], fun rest' halike => ?_⟩
    exact hfront rest' halike
  | case12 =>
    rw [next?] at h
    · obtain ⟨d, front, hd, hmore, hfront⟩ := exists_leads_scanNumber? h
      refine ⟨d, front, Json.isGap_of_isDigit hd, hmore, fun rest' halike => ?_⟩
      rw [List.cons_append, next?_of_isDigit hd]
      exact hfront rest' halike
    all_goals assumption

/-- Only the character of a punctuation mark is read as this mark. -/
theorem eq_cons_of_next? {c : Char} {token : Token} (hmark : token.mark? = some c)
    (h : next? text = some (token, rest)) : text = c :: rest := by
  fun_cases next? text with
  | case7 more | case8 more | case9 more =>
    cases h
    cases hmark
  | case10 more =>
    rw [next?] at h
    obtain ⟨⟨pieces, after⟩, -, heq⟩ := Option.map_eq_some_iff.mp h
    cases heq
    cases hmark
  | case11 more =>
    rw [next?] at h
    obtain ⟨-, -, -, -, -, -, -, -, hnone, -⟩ := exists_parts_of_scanNumber? h
    rw [hnone] at hmark
    cases hmark
  | case12 =>
    rw [next?] at h
    · obtain ⟨-, -, -, -, -, -, -, -, hnone, -⟩ := exists_parts_of_scanNumber? h
      rw [hnone] at hmark
      cases hmark
    all_goals assumption
  | _ =>
    cases h
    cases hmark
    rfl

/-- Is the text made of these tokens, with blanks before, between and behind them? -/
inductive Cut : List Char → List Token → Prop
  | nil : Cut [] []
  | gap {c : Char} {text : List Char} {tokens : List Token} (hc : isGap c = true)
    (h : Cut text tokens) : Cut (c :: text) tokens
  | token {text rest : List Char} {token : Token} {tokens : List Token}
    (hnext : next? text = some (token, rest)) (h : Cut rest tokens) : Cut text (token :: tokens)

theorem Cut.of_dropWhile {tokens : List Token} (h : Cut (text.dropWhile isGap) tokens) :
    Cut text tokens := by
  induction text with
  | nil => exact h
  | cons c text ih =>
    by_cases hc : isGap c
    · rw [List.dropWhile_cons_of_pos hc] at h
      exact .gap hc (ih h)
    · rwa [List.dropWhile_cons_of_neg hc] at h

theorem exists_cut_of_scanFrom? {fuel : Nat} {before tokens : List Token}
    (h : scanFrom? fuel before text = some tokens) :
    ∃ more, tokens = before.reverse ++ more ∧ Cut text more := by
  induction fuel generalizing before text with
  | zero => cases h
  | succ fuel ih =>
    rw [scanFrom?] at h
    split at h
    · next hgap =>
      cases h
      refine ⟨[], (List.append_nil _).symm, .of_dropWhile ?_⟩
      rw [hgap]
      exact .nil
    · split at h
      · next token rest hnext =>
        obtain ⟨more, htokens, hcut⟩ := ih h
        refine ⟨token :: more, ?_, .of_dropWhile (.token hnext hcut)⟩
        rw [htokens, List.reverse_cons, List.append_assoc, List.singleton_append]
      · cases h

theorem Cut.scanFrom?_eq {tokens : List Token} (h : Cut text tokens) {fuel : Nat}
    (hfuel : text.length < fuel) (before : List Token) :
    scanFrom? fuel before text = some (before.reverse ++ tokens) := by
  induction h generalizing fuel before with
  | nil =>
    obtain ⟨fuel, rfl⟩ := Nat.exists_eq_succ_of_ne_zero (Nat.ne_zero_of_lt hfuel)
    simp [scanFrom?]
  | @gap c text tokens hc h ih =>
    obtain ⟨fuel, rfl⟩ := Nat.exists_eq_succ_of_ne_zero (Nat.ne_zero_of_lt hfuel)
    rw [← ih (Nat.lt_of_succ_lt hfuel) before, scanFrom?, scanFrom?,
      List.dropWhile_cons_of_pos hc]
  | @token text rest token tokens hnext h ih =>
    obtain ⟨fuel, rfl⟩ := Nat.exists_eq_succ_of_ne_zero (Nat.ne_zero_of_lt hfuel)
    obtain ⟨c, front, hc, rfl, -⟩ := isLexeme_of_next? hnext
    have hrest : rest.length < fuel := by
      simp only [List.length_append, List.length_cons] at hfuel
      omega
    rw [List.cons_append] at hnext ⊢
    have hgap : ¬ isGap c = true := by simp [hc]
    simp only [scanFrom?, List.dropWhile_cons_of_neg hgap, hnext, ih hrest, List.reverse_cons,
      List.append_assoc, List.singleton_append]

theorem scan?_eq_some_iff {tokens : List Token} : scan? text = some tokens ↔ Cut text tokens := by
  constructor
  · intro h
    obtain ⟨more, htokens, hcut⟩ := exists_cut_of_scanFrom? h
    rwa [htokens]
  · exact fun h => h.scanFrom?_eq (Nat.lt_succ_self _) []

namespace Cut

variable {text' : List Char} {tokens tokens' : List Token} {mark : Token} {c : Char}

/-- Two texts with a punctuation mark between them. -/
theorem append (hmark : mark.mark? = some c) (h : Cut text tokens) (h' : Cut text' tokens') :
    Cut (text ++ c :: text') (tokens ++ mark :: tokens') := by
  induction h with
  | nil => exact .token (next?_of_mark? hmark text') h'
  | gap hc h ih => exact .gap hc ih
  | @token text rest token tokens hnext h ih =>
    obtain ⟨d, front, -, rfl, hfront⟩ := isLexeme_of_next? hnext
    have halike : Alike rest (rest ++ c :: text') := by
      cases rest with
      | nil => exact .inr (endsNumber_of_mark? hmark text')
      | cons d rest => exact .inl rfl
    rw [List.append_assoc]
    exact .token (hfront _ halike) ih

/-- A text falls into two parts at each punctuation mark among its tokens. -/
theorem exists_append (hmark : mark.mark? = some c) (h : Cut text (tokens ++ mark :: tokens')) :
    ∃ front back, text = front ++ c :: back ∧ Cut front tokens ∧ Cut back tokens' := by
  generalize hall : tokens ++ mark :: tokens' = all at h
  induction h generalizing tokens with
  | nil => simp at hall
  | @gap d text all hd h ih =>
    obtain ⟨front, back, rfl, hfront, hback⟩ := ih hall
    exact ⟨d :: front, back, rfl, .gap hd hfront, hback⟩
  | @token text rest token all hnext h ih =>
    cases tokens with
    | nil =>
      obtain ⟨rfl, rfl⟩ := List.cons.inj hall
      exact ⟨[], rest, eq_cons_of_next? hmark hnext, .nil, h⟩
    | cons first tokens =>
      obtain ⟨rfl, hrest⟩ := List.cons.inj hall
      obtain ⟨front, back, rfl, hfront, hback⟩ := ih hrest
      obtain ⟨d, lexeme, -, rfl, hlexeme⟩ := isLexeme_of_next? hnext
      have halike : Alike (front ++ c :: back) front := by
        cases front with
        | nil => exact .inr (by simp [EndsNumber])
        | cons d front => exact .inl rfl
      exact ⟨d :: lexeme ++ front, back, by simp, .token (hlexeme front halike) hfront, hback⟩

/-- A text without tokens consists of blanks. -/
theorem all_isGap (h : Cut text []) : text.all isGap = true := by
  generalize hall : ([] : List Token) = all at h
  induction h with
  | nil => rfl
  | gap hc h ih => simpa [hc] using ih hall
  | token hnext h ih => cases hall

/-- A text whose first token is a punctuation mark starts with it, after blanks. -/
theorem exists_cons (hmark : mark.mark? = some c) (h : Cut text (mark :: tokens)) :
    ∃ before back, text = before ++ c :: back ∧ before.all isGap = true ∧ Cut back tokens := by
  have hcut : Cut text ([] ++ mark :: tokens) := h
  obtain ⟨before, back, htext, hbefore, hback⟩ := hcut.exists_append hmark
  exact ⟨before, back, htext, hbefore.all_isGap, hback⟩

end Cut

end Token

end ContextAdvisor
