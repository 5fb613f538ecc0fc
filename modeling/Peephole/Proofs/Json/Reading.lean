import Peephole.Json.Reader
import Peephole.Proofs.Json.Lexing

/-!
# Reading what was written

The reader takes the tokens of a value and has the value, inside whatever arrays and
objects are open.  With the text of a value read as its tokens, reading undoes writing.
-/

namespace Peephole

namespace Reader

open Json

/-- Tokens that take the reader from one state to another, whatever comes after them. -/
def Passes (reader : Reader) (tokens : List Token) (passed : Reader) : Prop :=
  tokens.foldlM feed reader = some passed

variable {reader passed final : Reader} {tokens after : List Token}

theorem Passes.append (hfirst : reader.Passes tokens passed) (hsecond : passed.Passes after final) :
    reader.Passes (tokens ++ after) final := by
  rw [Passes, List.foldlM_append, hfirst]
  exact hsecond

theorem Passes.cons {token : Token} (hfeed : reader.feed token = some passed)
    (hrest : passed.Passes after final) : reader.Passes (token :: after) final := by
  rw [Passes, List.foldlM_cons, hfeed]
  exact hrest

/-- The first item of an array is read as any other value. -/
theorem passes_itemOrEnd_iff (value : Json) (frames : List Frame) :
    Passes ⟨.itemOrEnd, frames⟩ value.tokens passed ↔
      Passes ⟨.value, .array [] :: frames⟩ value.tokens passed := by
  match value with
  | .null => rfl
  | .bool _ => rfl
  | .number _ => rfl
  | .string _ => rfl
  | .array [] => rfl
  | .array (_ :: _) => rfl
  | .object [] => rfl
  | .object (_ :: _) => rfl

mutual

/-- The tokens of a value are read as the value. -/
theorem passes_tokens (value : Json) (frames : List Frame) :
    Passes ⟨.value, frames⟩ value.tokens ⟨.delimiter value, frames⟩ := by
  match value with
  | .null => rfl
  | .bool _ => rfl
  | .number _ => rfl
  | .string _ => rfl
  | .array [] => rfl
  | .array (item :: rest) =>
      have hitem := passes_tokens item (.array [] :: frames)
      have hrest := passes_itemTokens rest item [] frames
      rw [← passes_itemOrEnd_iff] at hitem
      rw [tokens, List.cons_append, List.cons_append, List.append_assoc]
      exact .cons rfl (hitem.append hrest)
  | .object [] => rfl
  | .object ((key, value) :: rest) =>
      have hvalue := passes_tokens value (.object [] key :: frames)
      have hrest := passes_memberListTokens rest value [] key frames
      rw [tokens, memberTokens, List.cons_append, List.cons_append, List.append_assoc]
      exact .cons rfl (.cons rfl (.cons rfl (hvalue.append hrest)))

theorem passes_itemTokens (items : List Json) (last : Json) (seen : List Json)
    (frames : List Frame) :
    Passes ⟨.delimiter last, .array seen :: frames⟩ (itemTokens items ++ [.closeBracket])
      ⟨.delimiter (.array (seen.reverse ++ last :: items)), frames⟩ := by
  match items with
  | [] =>
      rw [← List.reverse_cons]
      rfl
  | item :: rest =>
      have hitem := passes_tokens item (.array (last :: seen) :: frames)
      have hrest := passes_itemTokens rest item (last :: seen) frames
      rw [List.reverse_cons, List.append_assoc, List.singleton_append] at hrest
      rw [itemTokens, List.cons_append, List.cons_append, List.append_assoc]
      exact .cons rfl (hitem.append hrest)

theorem passes_memberListTokens (members : List (Option String × Json)) (last : Json)
    (seen : List (Option String × Json)) (key : Option String) (frames : List Frame) :
    Passes ⟨.delimiter last, .object seen key :: frames⟩
      (memberListTokens members ++ [.closeBrace])
      ⟨.delimiter (.object (seen.reverse ++ (key, last) :: members)), frames⟩ := by
  match members with
  | [] =>
      rw [← List.reverse_cons]
      rfl
  | (next, value) :: rest =>
      have hvalue := passes_tokens value (.object ((key, last) :: seen) next :: frames)
      have hrest := passes_memberListTokens rest value ((key, last) :: seen) next frames
      rw [List.reverse_cons, List.append_assoc, List.singleton_append] at hrest
      rw [memberListTokens, memberTokens, List.cons_append, List.cons_append, List.append_assoc]
      exact .cons rfl (.cons rfl (.cons rfl (hvalue.append hrest)))

end

end Reader

/-- Reading a text gives back the value that it was written for. -/
theorem Json.parse?_pretty (value : Json) : Json.parse? value.pretty = some value := by
  have hends : Token.Ends [] := trivial
  have hnone : Token.lex? [] = some [] := by
    rw [Token.lex?]
  have hlex := lex?_write 0 value hends hnone
  have hread : value.tokens.foldlM Reader.feed Reader.start =
      some ⟨.delimiter value, []⟩ := Reader.passes_tokens value []
  rw [List.append_nil, List.append_nil] at hlex
  rw [parse?, pretty, String.toList_ofList, hlex]
  simp [hread, Reader.result?]

end Peephole
