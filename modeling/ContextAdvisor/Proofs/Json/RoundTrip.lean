import ContextAdvisor.Json.Parser
import ContextAdvisor.Proofs.Json.Tokens

/-!
# Reading back what was written

The tokens of a value lead the parser through its open containers and hand the value to the
innermost one. So the one-line text of a value is read as the syntax of this value.
-/
namespace ContextAdvisor

namespace Syntax.Progress

open Json

/-- Takes all of some tokens. -/
def steps (progress : Progress) (tokens : List Token) : Option Progress :=
  tokens.foldlM step progress

theorem steps_cons {progress next : Progress} {token : Token} (h : step progress token = some next)
    (rest : List Token) : progress.steps (token :: rest) = next.steps rest := by
  simp [steps, h]

mutual

/-- Where a value may stand, its tokens hand it to the innermost container. -/
theorem steps_tokens : ∀ (v : Json) (frames : List Frame) (phase : Phase),
    phase = .value ∨ phase = .firstItem → ∀ rest,
      steps ⟨frames, phase⟩ (v.tokens ++ rest) =
        (complete v.toSyntax frames).bind fun progress => progress.steps rest
  | .null, frames, _, hp, rest => by
    rcases hp with rfl | rfl <;> rfl
  | .bool b, frames, _, hp, rest => by
    rcases hp with rfl | rfl <;> rfl
  | .integer n, frames, _, hp, rest => by
    rcases hp with rfl | rfl <;> rfl
  | .decimal d, frames, _, hp, rest => by
    rcases hp with rfl | rfl <;> rfl
  | .string s, frames, _, hp, rest => by
    rcases hp with rfl | rfl <;> rfl
  | .array [], frames, _, hp, rest => by
    rcases hp with rfl | rfl <;> rfl
  | .array (item :: items), frames, phase, hp, rest => by
    have hopen : step ⟨frames, phase⟩ .openArray = some ⟨.array [] :: frames, .firstItem⟩ := by
      rcases hp with rfl | rfl <;> rfl
    have hitem := steps_tokens item (.array [] :: frames) .firstItem (.inr rfl)
      (itemTokens items ++ rest)
    rw [tokens, List.cons_append, steps_cons hopen, List.append_assoc, hitem]
    exact steps_itemTokens items [toSyntax item] frames rest
  | .object [], frames, _, hp, rest => by
    rcases hp with rfl | rfl <;> rfl
  | .object ((key, value) :: members), frames, phase, hp, rest => by
    have hopen : step ⟨frames, phase⟩ .openObject = some ⟨.object [] :: frames, .firstKey⟩ := by
      rcases hp with rfl | rfl <;> rfl
    have hvalue := steps_tokens value (.member [] (some key) :: frames) .value (.inl rfl)
      (memberTokens members ++ rest)
    rw [tokens, List.cons_append, List.cons_append, List.cons_append, steps_cons hopen,
      steps_cons rfl, steps_cons rfl, List.append_assoc, hvalue]
    exact steps_memberTokens members [(some key, toSyntax value)] frames rest

theorem steps_itemTokens : ∀ (items : List Json) (done : List Syntax) (frames : List Frame) rest,
    steps ⟨.array done :: frames, .separator⟩ (itemTokens items ++ rest) =
      (complete (.array (done.reverse ++ itemsToSyntax items)) frames).bind fun progress =>
        progress.steps rest
  | [], done, frames, rest => by
    rw [itemsToSyntax, List.append_nil]
    rfl
  | item :: items, done, frames, rest => by
    have hitem := steps_tokens item (.array done :: frames) .value (.inl rfl)
      (itemTokens items ++ rest)
    rw [itemTokens, List.cons_append, steps_cons rfl, List.append_assoc, hitem]
    have hitems := steps_itemTokens items (toSyntax item :: done) frames rest
    rw [List.reverse_cons, List.append_assoc] at hitems
    exact hitems

theorem steps_memberTokens : ∀ (members : List (String × Json))
    (done : List (Option String × Syntax)) (frames : List Frame) rest,
    steps ⟨.object done :: frames, .separator⟩ (memberTokens members ++ rest) =
      (complete (.object (done.reverse ++ membersToSyntax members)) frames).bind fun progress =>
        progress.steps rest
  | [], done, frames, rest => by
    rw [membersToSyntax, List.append_nil]
    rfl
  | (key, value) :: members, done, frames, rest => by
    have hvalue := steps_tokens value (.member done (some key) :: frames) .value (.inl rfl)
      (memberTokens members ++ rest)
    rw [memberTokens, List.cons_append, List.cons_append, List.cons_append, steps_cons rfl,
      steps_cons rfl, steps_cons rfl, List.append_assoc, hvalue]
    have hmembers := steps_memberTokens members ((some key, toSyntax value) :: done) frames rest
    rw [List.reverse_cons, List.append_assoc] at hmembers
    exact hmembers

end

end Syntax.Progress

namespace Syntax

theorem ofTokens?_tokens (v : Json) : ofTokens? v.tokens = some v.toSyntax := by
  have h := Progress.steps_tokens v [] .value (.inl rfl) []
  rw [List.append_nil] at h
  rw [ofTokens?, show v.tokens.foldlM Progress.step ⟨[], .value⟩ = _ from h]
  rfl

/-- The one-line text of a value is read as its syntax, if the decimals in it are. -/
theorem parse?_compact (v : Json) (hd : ∀ d ∈ v.decimals, d.Legible) :
    parse? v.compact = some v.toSyntax := by
  rw [parse?, Json.scan?_compact v hd, Option.bind_some, ofTokens?_tokens]

end Syntax

end ContextAdvisor
