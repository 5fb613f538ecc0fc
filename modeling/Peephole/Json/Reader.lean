import Peephole.Json
import Peephole.Json.Token

/-!
# Reading JSON

The reader takes one token after the other.  Between two tokens it holds what
must come next and the arrays and objects that are still open, so that a text may
nest as deep as it likes.
-/

namespace Peephole

/-- An array or object that is still open, with what it holds so far, last first. -/
inductive Frame where
  | array (items : List Json)
  /-- An object whose member of the given key is being read. -/
  | object (members : List (Option String × Json)) (key : Option String)

/-- What must come next. -/
inductive Expecting where
  | value
  | itemOrEnd
  | memberOrEnd
  | key (members : List (Option String × Json))
  | colon (members : List (Option String × Json)) (key : Option String)
  /-- A value is complete: it goes to the innermost open frame. -/
  | delimiter (value : Json)

structure Reader where
  expecting : Expecting
  frames : List Frame

namespace Reader

def start : Reader :=
  ⟨.value, []⟩

/-- Takes a token where a value must come. -/
def feedValue (frames : List Frame) : Token → Option Reader
  | .null => some ⟨.delimiter .null, frames⟩
  | .bool value => some ⟨.delimiter (.bool value), frames⟩
  | .number value? => some ⟨.delimiter (.number value?), frames⟩
  | .string text? => some ⟨.delimiter (.string text?), frames⟩
  | .openBracket => some ⟨.itemOrEnd, frames⟩
  | .openBrace => some ⟨.memberOrEnd, frames⟩
  | _ => none

/-- Takes a token after a complete value. -/
def feedDelimiter (value : Json) : List Frame → Token → Option Reader
  | .array items :: frames, .comma => some ⟨.value, .array (value :: items) :: frames⟩
  | .array items :: frames, .closeBracket =>
      some ⟨.delimiter (.array (value :: items).reverse), frames⟩
  | .object members key :: frames, .comma => some ⟨.key ((key, value) :: members), frames⟩
  | .object members key :: frames, .closeBrace =>
      some ⟨.delimiter (.object ((key, value) :: members).reverse), frames⟩
  | _, _ => none

/-- Takes a token. -/
def feed (reader : Reader) (token : Token) : Option Reader :=
  match reader.expecting, token with
  | .value, token => feedValue reader.frames token
  | .itemOrEnd, .closeBracket => some ⟨.delimiter (.array []), reader.frames⟩
  | .itemOrEnd, token => feedValue (.array [] :: reader.frames) token
  | .memberOrEnd, .closeBrace => some ⟨.delimiter (.object []), reader.frames⟩
  | .memberOrEnd, .string key => some ⟨.colon [] key, reader.frames⟩
  | .key members, .string key => some ⟨.colon members key, reader.frames⟩
  | .colon members key, .colon => some ⟨.value, .object members key :: reader.frames⟩
  | .delimiter value, token => feedDelimiter value reader.frames token
  | _, _ => none

/-- The value that was read, if it is complete. -/
def result? (reader : Reader) : Option Json :=
  match reader.expecting, reader.frames with
  | .delimiter value, [] => some value
  | _, _ => none

end Reader

/-- The value that a text stands for. -/
def Json.parse? (text : String) : Option Json := do
  let tokens ← Token.lex? text.toList
  let reader ← tokens.foldlM Reader.feed Reader.start
  reader.result?

end Peephole
