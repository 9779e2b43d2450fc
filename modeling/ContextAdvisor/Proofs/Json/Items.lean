import ContextAdvisor.Proofs.Json.Lexemes
import ContextAdvisor.Proofs.Json.RoundTrip

/-!
# The items of an array

Containers that are open around a value do not matter for how the value is read; they only wait for
it. So every item of an array is read as it would be if it stood alone. The text of an array
consists of the texts of its items with commas between them, in brackets and between blanks.
-/
namespace ContextAdvisor.Syntax

namespace Progress

/-- The same progress inside some containers, the innermost of which waits for the value. -/
def within (outer : List Frame) : Progress → Option Progress
  | ⟨_, .done value⟩ => complete value outer
  | ⟨frames, phase⟩ => some ⟨frames ++ outer, phase⟩

/-- Is there still something to read of a value? -/
def Underway (progress : Progress) : Prop :=
  progress.phase = .value ∨ progress.frames ≠ [] ∧ ∀ value, progress.phase ≠ .done value

theorem complete_append (value : Syntax) (frames outer : List Frame) :
    complete value (frames ++ outer) = (complete value frames).bind (within outer) := by
  cases frames with
  | nil => rfl
  | cons frame frames => cases frame <;> rfl

theorem start_append (token : Token) (frames outer : List Frame) :
    start (frames ++ outer) token = (start frames token).bind (within outer) := by
  cases token with
  | openArray => rfl
  | openObject => rfl
  | closeArray => rfl
  | closeObject => rfl
  | comma => rfl
  | colon => rfl
  | _ => exact complete_append _ frames outer

theorem close_append (token : Token) {frames : List Frame} (h : frames ≠ []) (outer : List Frame) :
    close token (frames ++ outer) = (close token frames).bind (within outer) := by
  obtain ⟨frame, frames, rfl⟩ := List.exists_cons_of_ne_nil h
  cases token with
  | closeArray =>
    cases frame with
    | array items => exact complete_append _ frames outer
    | _ => rfl
  | closeObject =>
    cases frame with
    | object members => exact complete_append _ frames outer
    | _ => rfl
  | _ => rfl

theorem step_firstItem {token : Token} (h : token ≠ .closeArray) (frames : List Frame) :
    step ⟨frames, .firstItem⟩ token = start frames token := by
  cases token <;> first | rfl | exact absurd rfl h

theorem step_separator {token : Token} (h : token ≠ .comma) (frames : List Frame) :
    step ⟨frames, .separator⟩ token = close token frames := by
  cases token <;> first | rfl | exact absurd rfl h

/-- A token has the same effect inside other containers. -/
theorem step_append {frames : List Frame} {phase : Phase} (h : Underway ⟨frames, phase⟩)
    (token : Token) (outer : List Frame) :
    step ⟨frames ++ outer, phase⟩ token = (step ⟨frames, phase⟩ token).bind (within outer) := by
  rcases h with hphase | ⟨hne, hphase⟩
  · obtain rfl : phase = .value := hphase
    exact start_append token frames outer
  cases phase with
  | value => exact start_append token frames outer
  | firstItem =>
    by_cases htoken : token = .closeArray
    · rw [htoken]
      exact close_append _ hne outer
    · rw [step_firstItem htoken, step_firstItem htoken, start_append]
  | firstKey =>
    cases token with
    | closeObject => exact close_append _ hne outer
    | _ => rfl
  | key => cases token <;> rfl
  | colon key =>
    obtain ⟨frame, frames, rfl⟩ := List.exists_cons_of_ne_nil hne
    cases token <;> cases frame <;> rfl
  | separator =>
    by_cases htoken : token = .comma
    · obtain ⟨frame, frames, rfl⟩ := List.exists_cons_of_ne_nil hne
      rw [htoken]
      cases frame <;> rfl
    · rw [step_separator htoken, step_separator htoken, close_append _ hne]
  | done value => exact absurd rfl (hphase value)

theorem complete_cases {value : Syntax} {frames : List Frame} {next : Progress}
    (h : complete value frames = some next) : next = ⟨[], .done value⟩ ∨ next.Underway := by
  cases frames with
  | nil => exact .inl (Option.some.inj h).symm
  | cons frame frames =>
    cases frame <;> cases h <;> exact .inr (.inr ⟨List.cons_ne_nil _ _, nofun⟩)

theorem start_cases {token : Token} {frames : List Frame} {next : Progress}
    (h : start frames token = some next) : (∃ value, next = ⟨[], .done value⟩) ∨ next.Underway := by
  cases token with
  | openArray | openObject =>
    cases h
    exact .inr (.inr ⟨List.cons_ne_nil _ _, nofun⟩)
  | closeArray | closeObject | comma | colon => cases h
  | _ => exact (complete_cases h).imp_left fun hnext => ⟨_, hnext⟩

theorem close_cases {token : Token} {frames : List Frame} {next : Progress}
    (h : close token frames = some next) : (∃ value, next = ⟨[], .done value⟩) ∨ next.Underway := by
  unfold close at h
  split at h
  · exact (complete_cases h).imp_left fun hnext => ⟨_, hnext⟩
  · exact (complete_cases h).imp_left fun hnext => ⟨_, hnext⟩
  · cases h

/-- A token completes the value, or it goes on. -/
theorem step_cases {progress next : Progress} {token : Token} (hp : progress.Underway)
    (h : progress.step token = some next) :
    (∃ value, next = ⟨[], .done value⟩) ∨ next.Underway := by
  obtain ⟨frames, phase⟩ := progress
  rcases hp with hphase | ⟨hne, hphase⟩
  · obtain rfl : phase = .value := hphase
    exact start_cases h
  cases phase with
  | value => exact start_cases h
  | firstItem =>
    by_cases htoken : token = .closeArray
    · rw [htoken] at h
      exact close_cases h
    · rw [step_firstItem htoken] at h
      exact start_cases h
  | firstKey =>
    cases token with
    | closeObject => exact close_cases h
    | string key =>
      cases h
      exact .inr (.inr ⟨hne, nofun⟩)
    | _ => cases h
  | key =>
    cases token with
    | string key =>
      cases h
      exact .inr (.inr ⟨hne, nofun⟩)
    | _ => cases h
  | colon key =>
    obtain ⟨frame, frames, rfl⟩ := List.exists_cons_of_ne_nil hne
    cases token <;> cases frame <;> cases h
    exact .inr (.inl rfl)
  | separator =>
    by_cases htoken : token = .comma
    · obtain ⟨frame, frames, rfl⟩ := List.exists_cons_of_ne_nil hne
      rw [htoken] at h
      cases frame with
      | array items =>
        cases h
        exact .inr (.inl rfl)
      | object members =>
        cases h
        exact .inr (.inr ⟨List.cons_ne_nil _ _, nofun⟩)
      | member members key => cases h
    · rw [step_separator htoken] at h
      exact close_cases h
  | done value => exact absurd rfl (hphase value)

/-- Nothing can follow a complete value. -/
theorem steps_done {frames : List Frame} {value : Syntax} {tokens : List Token} {next : Progress}
    (h : steps ⟨frames, .done value⟩ tokens = some next) :
    tokens = [] ∧ next = ⟨frames, .done value⟩ := by
  cases tokens with
  | nil => exact ⟨rfl, (Option.some.inj h).symm⟩
  | cons token rest => cases h

theorem within_of_underway {progress : Progress} (h : progress.Underway) (outer : List Frame) :
    progress.within outer = some ⟨progress.frames ++ outer, progress.phase⟩ := by
  obtain ⟨frames, phase⟩ := progress
  cases phase with
  | done value =>
    rcases h with hphase | ⟨-, hphase⟩
    · cases hphase
    · exact absurd rfl (hphase value)
  | _ => rfl

theorem not_underway_done {frames : List Frame} {value : Syntax} :
    ¬ Underway ⟨frames, .done value⟩ := by
  rintro (hphase | ⟨-, hphase⟩)
  · cases hphase
  · exact hphase value rfl

/-- The tokens of a value hand it to the innermost container around it. -/
theorem steps_within {progress : Progress} (hp : progress.Underway) {front : List Token}
    {value : Syntax} {frames : List Frame} (h : progress.steps front = some ⟨frames, .done value⟩)
    (outer : List Frame) (back : List Token) :
    steps ⟨progress.frames ++ outer, progress.phase⟩ (front ++ back) =
      (complete value outer).bind fun next => next.steps back := by
  induction front generalizing progress with
  | nil =>
    cases h
    exact absurd hp not_underway_done
  | cons token front ih =>
    obtain ⟨next, hnext, hrest⟩ := Option.bind_eq_some_iff.mp h
    have hstep := step_append hp token outer
    rw [hnext, Option.bind_some] at hstep
    rcases step_cases hp hnext with ⟨v, rfl⟩ | hunderway
    · obtain ⟨rfl, hv⟩ := steps_done hrest
      cases hv
      exact congrArg (Option.bind · fun next => steps next back) hstep
    · rw [within_of_underway hunderway] at hstep
      rw [List.cons_append, steps_cons hstep]
      exact ih hunderway hrest

/-- What leads a value inside some containers to the end starts with the tokens of the value. -/
theorem exists_steps_within {progress : Progress} (hp : progress.Underway) {outer : List Frame}
    {tokens : List Token} {frames : List Frame} {whole : Syntax}
    (h : steps ⟨progress.frames ++ outer, progress.phase⟩ tokens = some ⟨frames, .done whole⟩) :
    ∃ front back value, tokens = front ++ back ∧ progress.steps front = some ⟨[], .done value⟩ ∧
      ((complete value outer).bind fun next => next.steps back) = some ⟨frames, .done whole⟩ := by
  induction tokens generalizing progress with
  | nil =>
    obtain ⟨inner, phase⟩ := progress
    cases h
    rcases hp with hphase | ⟨-, hphase⟩
    · cases hphase
    · exact absurd rfl (hphase whole)
  | cons token tokens ih =>
    obtain ⟨after, hafter, hrest⟩ := Option.bind_eq_some_iff.mp h
    rw [step_append hp token outer] at hafter
    obtain ⟨next, hnext, hwithin⟩ := Option.bind_eq_some_iff.mp hafter
    rcases step_cases hp hnext with ⟨value, rfl⟩ | hunderway
    · refine ⟨[token], tokens, value, rfl, ?_, ?_⟩
      · rw [steps_cons hnext]
        rfl
      · rw [show complete value outer = some after from hwithin]
        exact hrest
    · rw [within_of_underway hunderway] at hwithin
      obtain rfl := Option.some.inj hwithin
      obtain ⟨front, back, value, rfl, hfront, hback⟩ := ih hunderway hrest
      exact ⟨token :: front, back, value, rfl, (steps_cons hnext front).trans hfront, hback⟩

/-- A key is followed by a colon and a value, and then the object goes on. -/
theorem exists_steps_of_key {members : List (Option String × Syntax)} {tokens : List Token}
    {frames : List Frame} {whole : Syntax}
    (h : steps ⟨[.object members], .key⟩ tokens = some ⟨frames, .done whole⟩) :
    ∃ back members', back.length < tokens.length ∧
      steps ⟨[.object members'], .separator⟩ back = some ⟨frames, .done whole⟩ := by
  rcases tokens with _ | ⟨first, _ | ⟨second, tokens⟩⟩
  · cases h
  · cases first <;> cases h
  · cases first with
    | string key =>
      cases second with
      | colon =>
        have hvalue : steps ⟨[.member members key], .value⟩ tokens = some ⟨frames, .done whole⟩ := h
        obtain ⟨front, back, value, rfl, -, hback⟩ :=
          @exists_steps_within ⟨[], .value⟩ (.inl rfl) [.member members key] _ _ _ hvalue
        refine ⟨back, (key, value) :: members, ?_, hback⟩
        simp only [List.length_cons, List.length_append]
        omega
      | _ => cases h
    | _ => cases h

/-- What starts as an object is an object. -/
theorem exists_members_of_steps {members : List (Option String × Syntax)} {tokens : List Token}
    {frames : List Frame} {whole : Syntax}
    (h : steps ⟨[.object members], .separator⟩ tokens = some ⟨frames, .done whole⟩) :
    ∃ all, whole = .object all := by
  induction hn : tokens.length using Nat.strongRecOn generalizing tokens members with
  | ind n ih =>
    cases tokens with
    | nil => cases h
    | cons token tokens =>
      cases token with
      | comma =>
        have hkey : steps ⟨[.object members], .key⟩ tokens = some ⟨frames, .done whole⟩ := h
        obtain ⟨back, members', hlength, hback⟩ := exists_steps_of_key hkey
        rw [List.length_cons] at hn
        exact ih back.length (by omega) hback rfl
      | closeObject =>
        have hdone : steps ⟨[], .done (.object members.reverse)⟩ tokens =
          some ⟨frames, .done whole⟩ := h
        cases (steps_done hdone).2
        exact ⟨_, rfl⟩
      | _ => cases h

theorem exists_members_of_firstKey {tokens : List Token} {frames : List Frame} {whole : Syntax}
    (h : steps ⟨[.object []], .firstKey⟩ tokens = some ⟨frames, .done whole⟩) :
    ∃ all, whole = .object all := by
  cases tokens with
  | nil => cases h
  | cons token tokens =>
    cases token with
    | closeObject =>
      have hdone : steps ⟨[], .done (.object [])⟩ tokens = some ⟨frames, .done whole⟩ := h
      cases (steps_done hdone).2
      exact ⟨[], rfl⟩
    | string key =>
      have hkey : steps ⟨[.object []], .key⟩ (.string key :: tokens) =
        some ⟨frames, .done whole⟩ := h
      obtain ⟨back, members, -, hback⟩ := exists_steps_of_key hkey
      exact exists_members_of_steps hback
    | _ => cases h

end Progress

open Progress

theorem ofTokens?_eq_some_iff {tokens : List Token} {value : Syntax} :
    ofTokens? tokens = some value ↔
      ∃ frames, steps ⟨[], .value⟩ tokens = some ⟨frames, .done value⟩ := by
  unfold ofTokens? steps
  split
  · next frames v h => simp [h]
  · next hnot =>
    refine ⟨nofun, ?_⟩
    rintro ⟨frames, h⟩
    exact absurd h (hnot frames value)

/-- The rest of an array consists of items, each of them after a comma, and its end. -/
theorem exists_items_of_steps {read : List Syntax} {tokens : List Token} {frames : List Frame}
    {whole : Syntax}
    (h : steps ⟨[.array read], .separator⟩ tokens = some ⟨frames, .done whole⟩) :
    ∃ (parts : List (List Token)) (more : List Syntax), whole = .array (read.reverse ++ more) ∧
      tokens = parts.flatMap (.comma :: ·) ++ [.closeArray] ∧
      parts.map ofTokens? = more.map some := by
  induction hn : tokens.length using Nat.strongRecOn generalizing tokens read with
  | ind n ih =>
    cases tokens with
    | nil => cases h
    | cons token tokens =>
      cases token with
      | comma =>
        have hvalue : steps ⟨[.array read], .value⟩ tokens = some ⟨frames, .done whole⟩ := h
        obtain ⟨front, back, item, rfl, hfront, hback⟩ :=
          @exists_steps_within ⟨[], .value⟩ (.inl rfl) [.array read] _ _ _ hvalue
        have hlength : back.length < n := by
          rw [← hn, List.length_cons, List.length_append]
          omega
        obtain ⟨parts, more, hwhole, rfl, hparts⟩ := ih back.length hlength hback rfl
        refine ⟨front :: parts, item :: more, by simpa using hwhole, by simp, ?_⟩
        rw [List.map_cons, List.map_cons, hparts, ofTokens?_eq_some_iff.mpr ⟨[], hfront⟩]
      | closeArray =>
        have hdone : steps ⟨[], .done (.array read.reverse)⟩ tokens =
          some ⟨frames, .done whole⟩ := h
        obtain ⟨rfl, heq⟩ := steps_done hdone
        cases heq
        exact ⟨[], [], by simp, rfl, rfl⟩
      | _ => cases h

/-- What starts as an array is empty, or consists of an item, further ones and its end. -/
theorem exists_items_of_firstItem {tokens : List Token} {frames : List Frame} {whole : Syntax}
    (h : steps ⟨[.array []], .firstItem⟩ tokens = some ⟨frames, .done whole⟩) :
    tokens = [.closeArray] ∧ whole = .array [] ∨
      ∃ (part : List Token) (parts : List (List Token)) (items : List Syntax),
        whole = .array items ∧ tokens = part ++ (parts.flatMap (.comma :: ·) ++ [.closeArray]) ∧
        (part :: parts).map ofTokens? = items.map some := by
  cases tokens with
  | nil => cases h
  | cons token tokens =>
    by_cases htoken : token = .closeArray
    · subst htoken
      have hdone : steps ⟨[], .done (.array [])⟩ tokens = some ⟨frames, .done whole⟩ := h
      obtain ⟨rfl, heq⟩ := steps_done hdone
      cases heq
      exact .inl ⟨rfl, rfl⟩
    · have hvalue : steps ⟨[.array []], .value⟩ (token :: tokens) =
          some ⟨frames, .done whole⟩ := by
        rw [← h, steps, List.foldlM_cons, steps, List.foldlM_cons, step_firstItem htoken]
        rfl
      obtain ⟨part, back, item, hsplit, hpart, hback⟩ :=
        @exists_steps_within ⟨[], .value⟩ (.inl rfl) [.array []] _ _ _ hvalue
      obtain ⟨parts, more, hwhole, rfl, hparts⟩ := exists_items_of_steps hback
      refine .inr ⟨part, parts, item :: more, hwhole, hsplit, ?_⟩
      rw [List.map_cons, List.map_cons, hparts, ofTokens?_eq_some_iff.mpr ⟨[], hpart⟩]

/-- The tokens of an array are those of its items with commas between them, in brackets. -/
theorem exists_parts_of_ofTokens? {tokens : List Token} {items : List Syntax}
    (h : ofTokens? tokens = some (.array items)) :
    tokens = [.openArray, .closeArray] ∧ items = [] ∨
      ∃ (part : List Token) (parts : List (List Token)),
        tokens = .openArray :: (part ++ (parts.flatMap (.comma :: ·) ++ [.closeArray])) ∧
        (part :: parts).map ofTokens? = items.map some := by
  obtain ⟨frames, h⟩ := ofTokens?_eq_some_iff.mp h
  cases tokens with
  | nil => cases h
  | cons token tokens =>
    obtain ⟨next, hnext, hrest⟩ := Option.bind_eq_some_iff.mp h
    cases token with
    | openArray =>
      cases hnext
      rcases exists_items_of_firstItem hrest with
        ⟨rfl, hitems⟩ | ⟨part, parts, more, hitems, rfl, hparts⟩
      · cases hitems
        exact .inl ⟨rfl, rfl⟩
      · cases hitems
        exact .inr ⟨part, parts, rfl, hparts⟩
    | openObject =>
      cases hnext
      obtain ⟨all, hall⟩ := exists_members_of_firstKey hrest
      cases hall
    | closeArray | closeObject | comma | colon => cases hnext
    | _ =>
      cases hnext
      cases (steps_done hrest).2

/-- An item between brackets is an array with this item. -/
theorem ofTokens?_singleton {tokens : List Token} {item : Syntax}
    (h : ofTokens? tokens = some item) :
    ofTokens? (.openArray :: (tokens ++ [.closeArray])) = some (.array [item]) := by
  obtain ⟨frames, hsteps⟩ := ofTokens?_eq_some_iff.mp h
  have hin := @steps_within ⟨[], .value⟩ (.inl rfl) _ _ _ hsteps [.array []] [.closeArray]
  refine ofTokens?_eq_some_iff.mpr ⟨[], ?_⟩
  have hopen : step ⟨[], .value⟩ .openArray = some ⟨[.array []], .firstItem⟩ := rfl
  rw [steps_cons hopen]
  cases tokens with
  | nil => cases hsteps
  | cons token tokens =>
    have htoken : token ≠ .closeArray := by
      rintro rfl
      cases hsteps
    rw [List.cons_append, steps, List.foldlM_cons, step_firstItem htoken]
    exact hin

/-- Is the text that of an array, with these texts for its items? -/
inductive WritesArray : List Char → List (List Char) → Prop
  | empty {before inside after : List Char} (hbefore : before.all Token.isGap)
    (hinside : inside.all Token.isGap) (hafter : after.all Token.isGap) :
    WritesArray (before ++ '[' :: (inside ++ ']' :: after)) []
  | items {before after : List Char} (part : List Char) (parts : List (List Char))
    (hbefore : before.all Token.isGap) (hafter : after.all Token.isGap) :
    WritesArray (before ++ '[' :: (part ++ (parts.flatMap (',' :: ·) ++ ']' :: after)))
      (part :: parts)

open Token

/-- The text of items is cut where their tokens are. -/
theorem exists_parts_of_cut {text : List Char} {part : List Token} {parts : List (List Token)}
    (h : Cut text (part ++ (parts.flatMap (.comma :: ·) ++ [.closeArray]))) :
    ∃ (front : List Char) (texts : List (List Char)) (after : List Char),
      text = front ++ (texts.flatMap (',' :: ·) ++ ']' :: after) ∧
      (front :: texts).map scan? = (part :: parts).map some ∧ after.all isGap := by
  induction parts generalizing text part with
  | nil =>
    obtain ⟨front, after, rfl, hfront, hafter⟩ := Cut.exists_append (c := ']') rfl h
    exact ⟨front, [], after, rfl, by simp [scan?_eq_some_iff.mpr hfront], hafter.all_isGap⟩
  | cons second parts ih =>
    rw [List.flatMap_cons, List.cons_append, List.cons_append, List.append_assoc] at h
    obtain ⟨front, back, rfl, hfront, hback⟩ := Cut.exists_append (c := ',') rfl h
    obtain ⟨middle, texts, after, rfl, htexts, hafter⟩ := ih hback
    refine ⟨front, middle :: texts, after, by simp, ?_, hafter⟩
    rw [List.map_cons, htexts, scan?_eq_some_iff.mpr hfront]
    rfl

/-- The text of an array consists of the texts of its items with commas between them, in brackets
and between blanks. -/
theorem exists_parts_of_parse? {text : String} {items : List Syntax}
    (h : parse? text = some (.array items)) :
    ∃ parts : List String, WritesArray text.toList (parts.map String.toList) ∧
      parts.map parse? = items.map some := by
  obtain ⟨tokens, hscan, htokens⟩ := Option.bind_eq_some_iff.mp h
  rw [scan?_eq_some_iff] at hscan
  rcases exists_parts_of_ofTokens? htokens with ⟨rfl, rfl⟩ | ⟨part, parts, rfl, hparts⟩
  · obtain ⟨before, back, htext, hbefore, hback⟩ := hscan.exists_cons (c := '[') rfl
    obtain ⟨inside, after, rfl, hinside, hafter⟩ := hback.exists_cons (c := ']') rfl
    refine ⟨[], ?_, rfl⟩
    rw [htext]
    exact .empty hbefore hinside hafter.all_isGap
  · obtain ⟨before, back, htext, hbefore, hback⟩ := hscan.exists_cons (c := '[') rfl
    obtain ⟨front, texts, after, rfl, htexts, hafter⟩ := exists_parts_of_cut hback
    refine ⟨(front :: texts).map String.ofList, ?_, ?_⟩
    · rw [htext, List.map_map, show String.toList ∘ String.ofList = id from
        funext fun cs => String.toList_ofList, List.map_id]
      exact .items front texts hbefore hafter
    · have hread : parse? ∘ String.ofList = (·.bind ofTokens?) ∘ scan? := by
        funext cs
        rw [Function.comp_apply, parse?, String.toList_ofList]
        rfl
      rw [← hparts, List.map_map, hread, ← List.map_map, htexts, List.map_map]
      rfl

/-- A text between brackets is an array with this item. -/
theorem parse?_singleton {text : String} {item : Syntax} (h : parse? text = some item) :
    parse? ("[" ++ text ++ "]") = some (.array [item]) := by
  obtain ⟨tokens, hscan, htokens⟩ := Option.bind_eq_some_iff.mp h
  have hcut : Cut (text.toList ++ ']' :: []) (tokens ++ .closeArray :: []) :=
    (scan?_eq_some_iff.mp hscan).append rfl .nil
  have hall : Cut ([] ++ '[' :: (text.toList ++ [']']))
      ([] ++ .openArray :: (tokens ++ [.closeArray])) :=
    Cut.append rfl .nil hcut
  rw [parse?, String.toList_append, String.toList_append]
  exact (congrArg (Option.bind · ofTokens?) (scan?_eq_some_iff.mpr hall)).trans
    (ofTokens?_singleton htokens)

end ContextAdvisor.Syntax
