import ContextAdvisor.Proofs.Json.Decimals

/-!
# Reading indented texts

The indented text of a value consists of the tokens of its one-line text with blanks between them,
so it is read as the same syntax.
-/
namespace ContextAdvisor

namespace Token

theorem scanFrom?_gap {c : Char} (hc : isGap c = true) (fuel : Nat) (before : List Token)
    (text : List Char) : scanFrom? fuel before (c :: text) = scanFrom? fuel before text := by
  cases fuel with
  | zero => rfl
  | succ fuel => rw [scanFrom?, scanFrom?, List.dropWhile_cons_of_pos hc]

/-- Blanks in front of a text do not count. -/
theorem Scans.gap {gap text rest : List Char} {tokens : List Token}
    (hgap : ∀ c ∈ gap, isGap c = true) (h : Scans text tokens rest) :
    Scans (gap ++ text) tokens rest := by
  induction gap with
  | nil => exact h
  | cons c gap ih =>
    obtain ⟨hc, hmore⟩ := List.forall_mem_cons.mp hgap
    obtain ⟨hlength, hscan⟩ := ih hmore
    refine ⟨hlength.trans (Nat.le_succ _), fun fuel before => ?_⟩
    rw [List.cons_append, List.cons_append, scanFrom?_gap hc, hscan]

theorem Scans.blank {text rest : List Char} {tokens : List Token} (h : Scans text tokens rest) :
    Scans (' ' :: text) tokens rest :=
  show Scans ([' '] ++ text) tokens rest from h.gap (List.forall_mem_singleton.mpr (by decide))

end Token

namespace Json

open Token

theorem isGap_of_mem_lineBreak {depth : Nat} {c : Char} (h : c ∈ lineBreak depth) :
    isGap c = true := by
  rcases List.mem_cons.mp h with rfl | h
  · decide
  · obtain rfl := List.eq_of_mem_replicate h
    decide

theorem scans_lineBreak (depth : Nat) {text rest : List Char} {tokens : List Token}
    (h : Scans text tokens rest) : Scans (lineBreak depth ++ text) tokens rest :=
  h.gap fun _ => isGap_of_mem_lineBreak

theorem endsNumber_prettyItems (depth : Nat) (items : List Json) (rest : List Char) :
    EndsNumber (prettyItems depth items ++ rest) := by
  intro c hc
  cases items <;> simp [prettyItems, lineBreak] at hc <;> subst hc <;> decide

theorem endsNumber_prettyMembers (depth : Nat) (members : List (String × Json))
    (rest : List Char) : EndsNumber (prettyMembers depth members ++ rest) := by
  intro c hc
  cases members <;> simp [prettyMembers, lineBreak] at hc <;> subst hc <;> decide

mutual

/-- The indented text of a value is cut into the tokens of the value as it is written. -/
theorem scans_prettyChars : ∀ (depth : Nat) (v : Json) (rest : List Char), EndsNumber rest →
    Scans (prettyChars depth v) v.written.tokens rest
  | _, .null, _, _ => .single (by decide) rfl
  | _, .bool true, _, _ => .single (by decide) rfl
  | _, .bool false, _, _ => .single (by decide) rfl
  | _, .integer n, _, hr => scans_integerText n hr
  | _, .decimal d, _, hr => d.scans_text hr
  | _, .string s, rest, _ => scans_quote s rest
  | _, .array [], _, _ => .cons (by decide) rfl (.single (by decide) rfl)
  | depth, .array (item :: items), rest, _ => by
    have hitem := scans_prettyChars (depth + 1) item _ (endsNumber_prettyItems depth items rest)
    have hitems := scans_prettyItems depth items rest
    exact .cons (by decide) rfl (scans_lineBreak _ (hitem.append hitems))
  | _, .object [], _, _ => .cons (by decide) rfl (.single (by decide) rfl)
  | depth, .object ((key, value) :: members), rest, _ => by
    have hvalue := scans_prettyChars (depth + 1) value _
      (endsNumber_prettyMembers depth members rest)
    have hmembers := scans_prettyMembers depth members rest
    exact .cons (by decide) rfl (scans_lineBreak _
      (scans_member key hvalue.blank hmembers))

theorem scans_prettyItems : ∀ (depth : Nat) (items : List Json) (rest : List Char),
    Scans (prettyItems depth items) (itemTokens (writtenItems items)) rest
  | _, [], _ => scans_lineBreak _ (.single (by decide) rfl)
  | depth, item :: items, rest => by
    have hitem := scans_prettyChars (depth + 1) item _ (endsNumber_prettyItems depth items rest)
    have hitems := scans_prettyItems depth items rest
    exact .cons (by decide) rfl (scans_lineBreak _ (hitem.append hitems))

theorem scans_prettyMembers : ∀ (depth : Nat) (members : List (String × Json))
    (rest : List Char), Scans (prettyMembers depth members) (memberTokens (writtenMembers members))
      rest
  | _, [], _ => scans_lineBreak _ (.single (by decide) rfl)
  | depth, (key, value) :: members, rest => by
    have hvalue := scans_prettyChars (depth + 1) value _
      (endsNumber_prettyMembers depth members rest)
    have hmembers := scans_prettyMembers depth members rest
    exact .cons (by decide) rfl (scans_lineBreak _
      (scans_member key hvalue.blank hmembers))

end

end Json

/-- The indented text of every value is read as its syntax. -/
theorem Syntax.parse?_pretty_eq (v : Json) : parse? v.pretty = some v.written.toSyntax := by
  have hscan := (Json.scans_prettyChars 0 v [] (by simp [Token.EndsNumber])).scan?_eq
  rw [parse?, Json.pretty, String.toList_ofList, hscan, Option.bind_some, ofTokens?_tokens]

end ContextAdvisor
