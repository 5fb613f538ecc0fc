import Peephole.Json.Layout
import Peephole.Json.Token

/-!
# Lexing what was written

The text of a value is read as the tokens of the value, whatever stands after it.  Only
a number could go on in what follows, and a value is never followed by anything that a
number could go on with.
-/

namespace Peephole

/-! ## Digits -/

namespace Digits

theorem isDigit_digit : ∀ value < 10, (digit value).isDigit = true := by
  decide

theorem toNat_digit : ∀ value < 10, (digit value).toNat - 48 = value := by
  decide

theorem hexValue?_hexDigit : ∀ value < 16, hexValue? (hexDigit value) = some value := by
  decide

theorem ofDecimal_append (digits : List Char) (char : Char) :
    ofDecimal (digits ++ [char]) = 10 * ofDecimal digits + (char.toNat - 48) := by
  rw [ofDecimal, List.foldl_append]
  rfl

theorem ofDecimal_decimal (number : Nat) : ofDecimal (decimal number) = number := by
  fun_induction decimal number with
  | case1 number hlt =>
      rw [← List.nil_append [digit number], ofDecimal_append, toNat_digit number hlt]
      exact Nat.zero_add number
  | case2 number hle ih =>
      rw [ofDecimal_append, ih, toNat_digit (number % 10) (Nat.mod_lt _ (by omega))]
      exact Nat.div_add_mod number 10

theorem isDigit_of_mem_decimal (number : Nat) :
    ∀ char ∈ decimal number, char.isDigit = true := by
  fun_induction decimal number with
  | case1 number hlt =>
      intro char hchar
      rw [List.mem_singleton.mp hchar]
      exact isDigit_digit number hlt
  | case2 number hle ih =>
      intro char hchar
      rcases List.mem_append.mp hchar with hchar | hchar
      · exact ih char hchar
      · rw [List.mem_singleton.mp hchar]
        exact isDigit_digit _ (Nat.mod_lt _ (by omega))

theorem decimal_ne_nil (number : Nat) : decimal number ≠ [] := by
  rw [decimal]
  split <;> simp

/-- A notation does not start with a zero, but for that of zero itself. -/
theorem exists_decimal_eq_cons {number : Nat} (hpos : 0 < number) :
    ∃ char rest, decimal number = char :: rest ∧ char ≠ '0' := by
  fun_induction decimal number with
  | case1 number hlt =>
      have hne : ∀ value < 10, 0 < value → digit value ≠ '0' := by decide
      exact ⟨digit number, [], rfl, hne number hlt hpos⟩
  | case2 number hle ih =>
      obtain ⟨char, rest, hdecimal, hne⟩ := ih (Nat.div_pos (by omega) (by omega))
      exact ⟨char, rest ++ [digit (number % 10)], by rw [hdecimal, List.cons_append], hne⟩

end Digits

/-! ## Quoted strings -/

namespace Quoted

open Digits

theorem writeChar_cases (char : Char) :
    (∃ mark, writeChar char = ['\\', mark] ∧ escape? mark = some char) ∨
      (char.toNat < 0x20 ∧ writeChar char =
        ['\\', 'u', '0', '0', hexDigit (char.toNat / 16), hexDigit (char.toNat % 16)]) ∨
      (¬ char.toNat < 0x20 ∧ char ≠ '"' ∧ char ≠ '\\' ∧ writeChar char = [char]) := by
  by_cases hmarked : char ∈ ['"', '\\', '\x08', '\x0c', '\n', '\r', '\t']
  · left
    simp only [List.mem_cons, List.not_mem_nil, or_false] at hmarked
    rcases hmarked with rfl | rfl | rfl | rfl | rfl | rfl | rfl <;> exact ⟨_, rfl, rfl⟩
  · right
    simp only [List.mem_cons, List.not_mem_nil, or_false, not_or] at hmarked
    obtain ⟨hquote, hbackslash, hbackspace, hfeed, hnewline, hreturn, htab⟩ := hmarked
    rw [writeChar, if_neg hquote, if_neg hbackslash, if_neg hbackspace, if_neg hfeed,
      if_neg hnewline, if_neg hreturn, if_neg htab]
    by_cases hcontrol : char.toNat < 0x20
    · exact .inl ⟨hcontrol, if_pos hcontrol⟩
    · exact .inr ⟨hcontrol, hquote, hbackslash, if_neg hcontrol⟩

variable {pieces : List Piece} {chars rest : List Char}

theorem scan?_escaped {mark char : Char} (hescape : escape? mark = some char)
    (hscan : scan? chars = some (pieces, rest)) :
    scan? ('\\' :: mark :: chars) = some (.char char :: pieces, rest) := by
  have hmark : mark ≠ 'u' := by
    rintro rfl
    cases hescape
  rw [scan?.eq_def]
  simp_all

theorem scan?_numbered {first second third fourth : Char} {value : Nat}
    (hvalue : ofHex? first second third fourth = some value)
    (hscan : scan? chars = some (pieces, rest)) :
    scan? ('\\' :: 'u' :: first :: second :: third :: fourth :: chars) =
      some (.unit value :: pieces, rest) := by
  rw [scan?, hvalue, hscan]
  rfl

theorem scan?_plain {char : Char} (hcontrol : ¬ char.toNat < 0x20) (hquote : char ≠ '"')
    (hbackslash : char ≠ '\\') (hscan : scan? chars = some (pieces, rest)) :
    scan? (char :: chars) = some (.char char :: pieces, rest) := by
  rw [scan?.eq_def]
  simp_all

theorem assemble?_unit {value : Nat} (hvalue : value < 0xD800) (pieces : List Piece) :
    assemble? (.unit value :: pieces) = (assemble? pieces).map (Char.ofNat value :: ·) := by
  have hhigh : isHigh value = false := by
    simp only [isHigh, Bool.and_eq_false_imp, decide_eq_true_eq, decide_eq_false_iff_not]
    omega
  have hlow : isLow value = false := by
    simp only [isLow, Bool.and_eq_false_imp, decide_eq_true_eq, decide_eq_false_iff_not]
    omega
  rcases pieces with _ | ⟨_ | _, rest⟩ <;> simp [assemble?, hhigh, hlow]

/-- A written character is read as one piece, and the piece as the character. -/
theorem exists_piece (char : Char) :
    ∃ piece, (∀ {pieces chars rest}, scan? chars = some (pieces, rest) →
        scan? (writeChar char ++ chars) = some (piece :: pieces, rest)) ∧
      ∀ pieces, assemble? (piece :: pieces) = (assemble? pieces).map (char :: ·) := by
  rcases writeChar_cases char with ⟨mark, hwrite, hescape⟩ | ⟨hcontrol, hwrite⟩ |
    ⟨hcontrol, hquote, hbackslash, hwrite⟩
  · rw [hwrite]
    exact ⟨.char char, scan?_escaped hescape, fun _ => rfl⟩
  · have hvalue : ofHex? '0' '0' (hexDigit (char.toNat / 16)) (hexDigit (char.toNat % 16)) =
        some char.toNat := by
      rw [ofHex?, hexValue?_hexDigit _ (by omega), hexValue?_hexDigit _ (by omega)]
      change some (((0 * 16 + 0) * 16 + char.toNat / 16) * 16 + char.toNat % 16) = some char.toNat
      congr 1
      omega
    rw [hwrite]
    refine ⟨.unit char.toNat, scan?_numbered hvalue, fun pieces => ?_⟩
    rw [assemble?_unit (by omega), Char.ofNat_toNat]
  · rw [hwrite]
    exact ⟨.char char, scan?_plain hcontrol hquote hbackslash, fun _ => rfl⟩

/-- Scanning and putting together undoes writing. -/
theorem exists_scan?_write (text rest : List Char) :
    ∃ pieces, scan? (text.flatMap writeChar ++ '"' :: rest) = some (pieces, rest) ∧
      assemble? pieces = some text := by
  induction text with
  | nil => exact ⟨[], by rw [List.flatMap_nil, List.nil_append, scan?], rfl⟩
  | cons char text ih =>
      obtain ⟨pieces, hscan, hassemble⟩ := ih
      obtain ⟨piece, hread, hstands⟩ := exists_piece char
      refine ⟨piece :: pieces, ?_, ?_⟩
      · rw [List.flatMap_cons, List.append_assoc]
        exact hread hscan
      · rw [hstands, hassemble]
        rfl

end Quoted

/-! ## Tokens -/

namespace Token

open Digits

/-- What a number does not go on with. -/
def Ends : List Char → Prop
  | [] => True
  | char :: _ => char.isDigit = false ∧ char ≠ '.' ∧ char ≠ 'e' ∧ char ≠ 'E'

variable {chars rest : List Char} {tokens : List Token}

theorem lex?_of_blank {char : Char} (hblank : isBlank char = true) :
    lex? (char :: chars) = lex? chars := by
  rw [lex?, if_pos hblank]

theorem lex?_of_scan? {char : Char} {token : Token} (hblank : isBlank char = false)
    (hscan : scan? char chars = some (token, rest)) (hrest : lex? rest = some tokens) :
    lex? (char :: chars) = some (token :: tokens) := by
  rw [lex?, if_neg (by simp [hblank])]
  split
  · rename_i hnone
    rw [hscan] at hnone
    cases hnone
  · rename_i token' rest' hsome
    rw [hscan] at hsome
    cases hsome
    rw [hrest]
    rfl

theorem scanNatural?_decimal (number : Nat) (hends : Ends rest) :
    scanNatural? (decimal number ++ rest) = some (number, rest) := by
  have hrest : rest.takeWhile Char.isDigit = [] ∧ rest.dropWhile Char.isDigit = rest := by
    cases rest with
    | nil => exact ⟨rfl, rfl⟩
    | cons char rest => simp [hends.1]
  rcases Nat.eq_zero_or_pos number with rfl | hpos
  · rw [decimal]
    rfl
  · obtain ⟨char, digits, hdecimal, hne⟩ := exists_decimal_eq_cons hpos
    have hdigits := isDigit_of_mem_decimal number
    rw [hdecimal, List.forall_mem_cons] at hdigits
    rw [hdecimal, List.cons_append, scanNatural?, if_neg hne, if_pos hdigits.1,
      List.takeWhile_append_of_pos hdigits.2, List.dropWhile_append_of_pos hdigits.2, hrest.1,
      hrest.2, List.append_nil, ← hdecimal, ofDecimal_decimal]

theorem scanUnsigned?_decimal (number : Nat) (hends : Ends rest) :
    scanUnsigned? (decimal number ++ rest) = some (some number, rest) := by
  have hfraction : skipFraction? rest = some (false, rest) := by
    cases rest with
    | nil => rfl
    | cons char rest => rw [skipFraction?, if_neg hends.2.1]
  have hexponent : skipExponent? rest = some (false, rest) := by
    cases rest with
    | nil => rfl
    | cons char rest => rw [skipExponent?, if_neg (not_or.mpr hends.2.2)]
  rw [scanUnsigned?, scanNatural?_decimal number hends]
  simp [hfraction, hexponent]

theorem isBlank_of_isDigit {char : Char} (hdigit : char.isDigit = true) :
    isBlank char = false := by
  rw [isBlank]
  simp only [Bool.or_eq_false_iff, beq_eq_false_iff_ne]
  refine ⟨⟨⟨?_, ?_⟩, ?_⟩, ?_⟩ <;> (rintro rfl; cases hdigit)

theorem scan?_of_isDigit {char : Char} (hdigit : char.isDigit = true) :
    scan? char chars = (scanUnsigned? (char :: chars)).map fun scanned =>
      (.number (scanned.1.map Int.ofNat), scanned.2) := by
  rw [scan?.eq_def]
  split
  case h_12 => rfl
  all_goals cases hdigit

theorem lex?_decimal (number : Nat) (hends : Ends rest) (hrest : lex? rest = some tokens) :
    lex? (decimal number ++ rest) = some (.number (some number) :: tokens) := by
  obtain ⟨char, digits, hdecimal⟩ := List.exists_cons_of_ne_nil (decimal_ne_nil number)
  have hscan := scanUnsigned?_decimal number hends
  have hdigit : char.isDigit = true := by
    apply isDigit_of_mem_decimal number
    rw [hdecimal]
    exact List.mem_cons_self
  rw [hdecimal, List.cons_append] at hscan ⊢
  apply lex?_of_scan? (isBlank_of_isDigit hdigit) _ hrest
  rw [scan?_of_isDigit hdigit, hscan]
  rfl

theorem lex?_writeNumber (value? : Option Int) (hends : Ends rest)
    (hrest : lex? rest = some tokens) :
    lex? (Json.writeNumber value? ++ rest) = some (.number value? :: tokens) := by
  match value? with
  | some (.ofNat value) => exact lex?_decimal value hends hrest
  | some (.negSucc value) =>
      rw [Json.writeNumber, Json.writeInteger, List.cons_append]
      apply lex?_of_scan? rfl _ hrest
      rw [scan?, scanUnsigned?_decimal (value + 1) hends]
      rfl
  | none =>
      have hzero : decimal 0 = ['0'] := by
        rw [decimal]
        rfl
      rw [Json.writeNumber, ← List.singleton_append, ← hzero, List.append_assoc,
        List.singleton_append]
      apply lex?_of_scan? rfl _ hrest
      rw [scan?, scanUnsigned?_decimal 0 hends]
      rfl

theorem lex?_quoted (text? : Option String) (hrest : lex? rest = some tokens) :
    lex? (Quoted.write text? ++ rest) = some (.string text? :: tokens) := by
  cases text? with
  | none =>
      have hscan : Quoted.scan? ('\\' :: 'u' :: 'd' :: '8' :: '0' :: '0' :: '"' :: rest) =
          some ([.unit 0xD800], rest) := by
        apply Quoted.scan?_numbered rfl
        rw [Quoted.scan?]
      simp only [Quoted.write, List.cons_append, List.nil_append]
      apply lex?_of_scan? rfl _ hrest
      rw [scan?, hscan]
      rfl
  | some text =>
      obtain ⟨pieces, hscan, hassemble⟩ := Quoted.exists_scan?_write text.toList rest
      rw [Quoted.write, List.cons_append, List.cons_append, List.append_assoc,
        List.singleton_append]
      apply lex?_of_scan? rfl _ hrest
      rw [scan?, hscan, Option.map_some, hassemble, Option.map_some, String.ofList_toList]

theorem lex?_newline (level : Nat) : lex? (Json.newline level ++ rest) = lex? rest := by
  have hblanks : ∀ width, lex? (List.replicate width ' ' ++ rest) = lex? rest := by
    intro width
    induction width with
    | zero => rfl
    | succ width ih =>
        rw [List.replicate_succ, List.cons_append, lex?_of_blank rfl]
        exact ih
  rw [Json.newline, List.cons_append, lex?_of_blank rfl]
  exact hblanks (2 * level)

theorem ends_newline (level : Nat) : Ends (Json.newline level ++ rest) := by
  simp [Json.newline, Ends]

end Token

/-! ## Values -/

namespace Json

open Token

mutual

/-- The tokens of a value. -/
def tokens : Json → List Token
  | .null => [.null]
  | .bool value => [.bool value]
  | .number value? => [.number value?]
  | .string text? => [.string text?]
  | .array [] => [.openBracket, .closeBracket]
  | .array (item :: rest) => .openBracket :: tokens item ++ itemTokens rest ++ [.closeBracket]
  | .object [] => [.openBrace, .closeBrace]
  | .object (member :: rest) =>
      .openBrace :: memberTokens member ++ memberListTokens rest ++ [.closeBrace]

/-- The tokens of the items after the first. -/
def itemTokens : List Json → List Token
  | [] => []
  | item :: rest => .comma :: tokens item ++ itemTokens rest

def memberTokens : Option String × Json → List Token
  | (key, value) => .string key :: .colon :: tokens value

/-- The tokens of the members after the first. -/
def memberListTokens : List (Option String × Json) → List Token
  | [] => []
  | member :: rest => .comma :: memberTokens member ++ memberListTokens rest

end

variable {rest : List Char} {after : List Token}

theorem ends_writeItems (level : Nat) (items : List Json) (hends : Ends rest) :
    Ends (writeItems level items ++ rest) := by
  cases items with
  | nil => exact hends
  | cons item items => simp [writeItems, Ends]

theorem ends_writeMembers (level : Nat) (members : List (Option String × Json))
    (hends : Ends rest) : Ends (writeMembers level members ++ rest) := by
  cases members with
  | nil => exact hends
  | cons member members => simp [writeMembers, Ends]

mutual

/-- The text of a value is read as its tokens. -/
theorem lex?_write (level : Nat) (value : Json) {rest : List Char} {after : List Token}
    (hends : Ends rest) (hrest : lex? rest = some after) :
    lex? (write level value ++ rest) = some (tokens value ++ after) := by
  match value with
  | .null => exact lex?_of_scan? rfl rfl hrest
  | .bool true => exact lex?_of_scan? rfl rfl hrest
  | .bool false => exact lex?_of_scan? rfl rfl hrest
  | .number value? => exact lex?_writeNumber value? hends hrest
  | .string text? => exact lex?_quoted text? hrest
  | .array [] =>
      have hclose : lex? (']' :: rest) = some (.closeBracket :: after) :=
        lex?_of_scan? rfl rfl hrest
      exact lex?_of_scan? rfl rfl hclose
  | .array (item :: items) =>
      have hclose : lex? (newline level ++ ']' :: rest) = some (.closeBracket :: after) := by
        rw [lex?_newline]
        exact lex?_of_scan? rfl rfl hrest
      have hitems := lex?_writeItems (level + 1) items (ends_newline level) hclose
      have hitem := lex?_write (level + 1) item
        (ends_writeItems (level + 1) items (ends_newline level)) hitems
      rw [← lex?_newline (level + 1)] at hitem
      simp only [write, tokens, List.cons_append, List.append_assoc, List.nil_append]
      exact lex?_of_scan? rfl rfl hitem
  | .object [] =>
      have hclose : lex? ('\x7d' :: rest) = some (.closeBrace :: after) :=
        lex?_of_scan? rfl rfl hrest
      exact lex?_of_scan? rfl rfl hclose
  | .object (member :: members) =>
      have hclose : lex? (newline level ++ '\x7d' :: rest) = some (.closeBrace :: after) := by
        rw [lex?_newline]
        exact lex?_of_scan? rfl rfl hrest
      have hmembers := lex?_writeMembers (level + 1) members (ends_newline level) hclose
      have hmember := lex?_writeMember (level + 1) member
        (ends_writeMembers (level + 1) members (ends_newline level)) hmembers
      rw [← lex?_newline (level + 1)] at hmember
      simp only [write, tokens, List.cons_append, List.append_assoc, List.nil_append]
      exact lex?_of_scan? rfl rfl hmember

theorem lex?_writeItems (level : Nat) (items : List Json) {rest : List Char}
    {after : List Token} (hends : Ends rest) (hrest : lex? rest = some after) :
    lex? (writeItems level items ++ rest) = some (itemTokens items ++ after) := by
  match items with
  | [] => exact hrest
  | item :: items =>
      have hitems := lex?_writeItems level items hends hrest
      have hitem := lex?_write level item (ends_writeItems level items hends) hitems
      rw [← lex?_newline level] at hitem
      simp only [writeItems, itemTokens, List.cons_append, List.append_assoc]
      exact lex?_of_scan? rfl rfl hitem

theorem lex?_writeMember (level : Nat) (member : Option String × Json) {rest : List Char}
    {after : List Token} (hends : Ends rest) (hrest : lex? rest = some after) :
    lex? (writeMember level member ++ rest) = some (memberTokens member ++ after) := by
  match member with
  | (key, value) =>
      have hvalue := lex?_write level value hends hrest
      have hcolon : lex? (':' :: ' ' :: (write level value ++ rest)) =
          some (.colon :: (tokens value ++ after)) := by
        apply lex?_of_scan? rfl rfl
        rw [lex?_of_blank rfl]
        exact hvalue
      simp only [writeMember, memberTokens, List.cons_append, List.append_assoc, List.nil_append]
      exact lex?_quoted key hcolon

theorem lex?_writeMembers (level : Nat) (members : List (Option String × Json))
    {rest : List Char} {after : List Token} (hends : Ends rest)
    (hrest : lex? rest = some after) :
    lex? (writeMembers level members ++ rest) = some (memberListTokens members ++ after) := by
  match members with
  | [] => exact hrest
  | member :: members =>
      have hmembers := lex?_writeMembers level members hends hrest
      have hmember := lex?_writeMember level member (ends_writeMembers level members hends)
        hmembers
      rw [← lex?_newline level] at hmember
      simp only [writeMembers, memberListTokens, List.cons_append, List.append_assoc]
      exact lex?_of_scan? rfl rfl hmember

end

end Json

end Peephole
