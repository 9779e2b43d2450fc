import ContextAdvisor.Json.Token

/-!
# Reading JSON texts

The parser takes one token at a time and keeps the containers that are still open, innermost first.
What may come next depends on the phase alone, so a text is read by one pass over its tokens.
-/
namespace ContextAdvisor.Syntax

/-- A container that is still open. Items and members are kept in reverse. -/
inductive Frame where
  | array (items : List Syntax)
  | object (members : List (Option String × Syntax))
  | member (members : List (Option String × Syntax)) (key : Option String)

/-- What the parser waits for. -/
inductive Phase where
  /-- a value -/
  | value
  /-- the first item of an array, or its end -/
  | firstItem
  /-- the first key of an object, or its end -/
  | firstKey
  /-- a key -/
  | key
  /-- the colon behind a key -/
  | colon (key : Option String)
  /-- a comma, or the end of the innermost container -/
  | separator
  /-- nothing more -/
  | done (value : Syntax)

/-- The open containers and what has to come next. -/
structure Progress where
  frames : List Frame
  phase : Phase

namespace Progress

/-- Hands a complete value to the innermost container. -/
def complete (value : Syntax) : List Frame → Option Progress
  | [] => some ⟨[], .done value⟩
  | .array items :: rest => some ⟨.array (value :: items) :: rest, .separator⟩
  | .member members key :: rest => some ⟨.object ((key, value) :: members) :: rest, .separator⟩
  | .object _ :: _ => none

/-- Takes the first token of a value. -/
def start (frames : List Frame) : Token → Option Progress
  | .null => complete .null frames
  | .bool b => complete (.bool b) frames
  | .integer n => complete (.integer n) frames
  | .decimal d => complete (.decimal d) frames
  | .string s => complete (.string s) frames
  | .openArray => some ⟨.array [] :: frames, .firstItem⟩
  | .openObject => some ⟨.object [] :: frames, .firstKey⟩
  | _ => none

/-- Ends the innermost container. -/
def close : Token → List Frame → Option Progress
  | .closeArray, .array items :: rest => complete (.array items.reverse) rest
  | .closeObject, .object members :: rest => complete (.object members.reverse) rest
  | _, _ => none

/-- Takes one token. -/
def step (progress : Progress) (token : Token) : Option Progress :=
  match progress.phase, token, progress.frames with
  | .value, token, frames => start frames token
  | .firstItem, .closeArray, frames => close .closeArray frames
  | .firstItem, token, frames => start frames token
  | .firstKey, .closeObject, frames => close .closeObject frames
  | .firstKey, .string key, frames => some ⟨frames, .colon key⟩
  | .key, .string key, frames => some ⟨frames, .colon key⟩
  | .colon key, .colon, .object members :: rest => some ⟨.member members key :: rest, .value⟩
  | .separator, .comma, .array items :: rest => some ⟨.array items :: rest, .value⟩
  | .separator, .comma, .object members :: rest => some ⟨.object members :: rest, .key⟩
  | .separator, token, frames => close token frames
  | _, _, _ => none

end Progress

/-- The tree of a token list that is exactly one value. -/
def ofTokens? (tokens : List Token) : Option Syntax :=
  match tokens.foldlM Progress.step ⟨[], .value⟩ with
  | some ⟨_, .done value⟩ => some value
  | _ => none

/-- Reads a JSON text. -/
def parse? (text : String) : Option Syntax := (Token.scan? text.toList).bind ofTokens?

end ContextAdvisor.Syntax

namespace ContextAdvisor.Json

/-- Reads a JSON text as a value. -/
def parse? (text : String) : Option Json :=
  (Syntax.parse? text).bind (Syntax.value? Syntax.depthLimit)

end ContextAdvisor.Json
