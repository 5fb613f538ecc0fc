import Peephole.Json.Quoted

/-!
# JSON tokens

A JSON text is a sequence of punctuation marks, words, numbers and quoted
strings with blanks between them.  No two tokens other than punctuation may stand
side by side in a value, so where one ends never depends on what follows.
-/

namespace Peephole

inductive Token where
  | openBrace
  | closeBrace
  | openBracket
  | closeBracket
  | colon
  | comma
  | null
  | bool (value : Bool)
  /-- A number, with its value if it is written as an integer. -/
  | number (value? : Option Int)
  /-- A string, with its text if it is one in Unicode. -/
  | string (text? : Option String)
  deriving DecidableEq, Repr

namespace Token

open Digits

def isBlank (char : Char) : Bool :=
  char == ' ' || char == '\t' || char == '\n' || char == '\r'

/-- Passes over one or more digits. -/
def skipDigits? : List Char → Option (List Char)
  | [] => none
  | char :: rest => if char.isDigit then some (rest.dropWhile Char.isDigit) else none

/-- The integer part of a number: a zero, or digits that start with another one. -/
def scanNatural? : List Char → Option (Nat × List Char)
  | [] => none
  | char :: rest =>
      if char = '0' then some (0, rest)
      else if char.isDigit then
        some (ofDecimal (char :: rest.takeWhile Char.isDigit), rest.dropWhile Char.isDigit)
      else none

/-- Passes over a fraction if there is one, and says whether there was. -/
def skipFraction? : List Char → Option (Bool × List Char)
  | [] => some (false, [])
  | char :: rest =>
      if char = '.' then (skipDigits? rest).map fun rest => (true, rest)
      else some (false, char :: rest)

/-- Passes over a sign if there is one. -/
def skipSign : List Char → List Char
  | [] => []
  | char :: rest => if char = '+' ∨ char = '-' then rest else char :: rest

/-- Passes over an exponent if there is one, and says whether there was. -/
def skipExponent? : List Char → Option (Bool × List Char)
  | [] => some (false, [])
  | char :: rest =>
      if char = 'e' ∨ char = 'E' then
        (skipDigits? (skipSign rest)).map fun rest => (true, rest)
      else some (false, char :: rest)

/-- A number without its sign.  It has a value if it has neither fraction nor
exponent. -/
def scanUnsigned? (chars : List Char) : Option (Option Nat × List Char) := do
  let (value, rest) ← scanNatural? chars
  let (hasFraction, rest) ← skipFraction? rest
  let (hasExponent, rest) ← skipExponent? rest
  return (if hasFraction || hasExponent then none else some value, rest)

/-- The value of a number with a minus sign.  Minus zero is no integer. -/
def negative? : Option Nat → Option Int
  | none => none
  | some 0 => none
  | some value => some (-(value : Int))

/-- A token that starts with a character, and the rest after it. -/
def scan? (char : Char) (rest : List Char) : Option (Token × List Char) :=
  match char with
  | '\x7b' => some (.openBrace, rest)
  | '\x7d' => some (.closeBrace, rest)
  | '[' => some (.openBracket, rest)
  | ']' => some (.closeBracket, rest)
  | ':' => some (.colon, rest)
  | ',' => some (.comma, rest)
  | '"' =>
      (Quoted.scan? rest).map fun scanned =>
        (.string ((Quoted.assemble? scanned.1).map String.ofList), scanned.2)
  | 'n' =>
      match rest with
      | 'u' :: 'l' :: 'l' :: rest => some (.null, rest)
      | _ => none
  | 't' =>
      match rest with
      | 'r' :: 'u' :: 'e' :: rest => some (.bool true, rest)
      | _ => none
  | 'f' =>
      match rest with
      | 'a' :: 'l' :: 's' :: 'e' :: rest => some (.bool false, rest)
      | _ => none
  | '-' => (scanUnsigned? rest).map fun scanned => (.number (negative? scanned.1), scanned.2)
  | char =>
      (scanUnsigned? (char :: rest)).map fun scanned =>
        (.number (scanned.1.map Int.ofNat), scanned.2)

theorem length_dropWhile_le (test : Char → Bool) (chars : List Char) :
    (chars.dropWhile test).length ≤ chars.length :=
  (List.dropWhile_sublist test).length_le

theorem length_lt_of_skipDigits? {chars rest : List Char}
    (hskip : skipDigits? chars = some rest) : rest.length < chars.length := by
  cases chars with
  | nil => simp [skipDigits?] at hskip
  | cons char chars =>
      have hdrop := length_dropWhile_le Char.isDigit chars
      simp only [skipDigits?] at hskip
      split at hskip
      · simp only [Option.some.injEq] at hskip
        subst hskip
        simp only [List.length_cons]
        omega
      · simp at hskip

theorem length_lt_of_scanNatural? {chars rest : List Char} {value : Nat}
    (hscan : scanNatural? chars = some (value, rest)) : rest.length < chars.length := by
  cases chars with
  | nil => simp [scanNatural?] at hscan
  | cons char chars =>
      have hdrop := length_dropWhile_le Char.isDigit chars
      simp only [scanNatural?] at hscan
      split at hscan
      · simp_all
      · split at hscan
        · simp only [Option.some.injEq, Prod.mk.injEq] at hscan
          simp only [List.length_cons, ← hscan.2]
          omega
        · simp at hscan

theorem length_le_of_skipFraction? {chars rest : List Char} {found : Bool}
    (hskip : skipFraction? chars = some (found, rest)) : rest.length ≤ chars.length := by
  cases chars with
  | nil => simp_all [skipFraction?]
  | cons char chars =>
      simp only [skipFraction?] at hskip
      split at hskip
      · simp only [Option.map_eq_some_iff, Prod.mk.injEq] at hskip
        obtain ⟨_, hdigits, _, rfl⟩ := hskip
        have hlt := length_lt_of_skipDigits? hdigits
        simp only [List.length_cons]
        omega
      · simp only [Option.some.injEq, Prod.mk.injEq] at hskip
        simp [← hskip.2]

theorem length_skipSign_le (chars : List Char) : (skipSign chars).length ≤ chars.length := by
  cases chars with
  | nil => simp [skipSign]
  | cons char chars =>
      simp only [skipSign]
      split <;> simp

theorem length_le_of_skipExponent? {chars rest : List Char} {found : Bool}
    (hskip : skipExponent? chars = some (found, rest)) : rest.length ≤ chars.length := by
  cases chars with
  | nil => simp_all [skipExponent?]
  | cons char chars =>
      simp only [skipExponent?] at hskip
      split at hskip
      · simp only [Option.map_eq_some_iff, Prod.mk.injEq] at hskip
        obtain ⟨_, hdigits, _, rfl⟩ := hskip
        have hlt := length_lt_of_skipDigits? hdigits
        have hle := length_skipSign_le chars
        simp only [List.length_cons]
        omega
      · simp only [Option.some.injEq, Prod.mk.injEq] at hskip
        simp [← hskip.2]

theorem length_lt_of_scanUnsigned? {chars rest : List Char} {value? : Option Nat}
    (hscan : scanUnsigned? chars = some (value?, rest)) : rest.length < chars.length := by
  simp only [scanUnsigned?, Option.bind_eq_bind, Option.bind_eq_some_iff, Prod.exists,
    Option.pure_def, Option.some.injEq, Prod.mk.injEq] at hscan
  obtain ⟨value, afterNatural, hnatural, fraction, afterFraction, hfraction, found,
    afterExponent, hexponent, _, rfl⟩ := hscan
  have h1 := length_lt_of_scanNatural? hnatural
  have h2 := length_le_of_skipFraction? hfraction
  have h3 := length_le_of_skipExponent? hexponent
  omega

/-- A token takes at least the character it starts with. -/
theorem length_le_of_scan? {char : Char} {chars rest : List Char} {token : Token}
    (hscan : scan? char chars = some (token, rest)) : rest.length ≤ chars.length := by
  unfold scan? at hscan
  split at hscan
  case h_7 =>
    simp only [Option.map_eq_some_iff, Prod.mk.injEq] at hscan
    obtain ⟨⟨pieces, rest⟩, hquoted, _, rfl⟩ := hscan
    exact Quoted.length_le_of_scan?_eq_some hquoted
  case h_11 =>
    simp only [Option.map_eq_some_iff, Prod.mk.injEq] at hscan
    obtain ⟨⟨value, rest⟩, hnumber, _, rfl⟩ := hscan
    exact Nat.le_of_lt (length_lt_of_scanUnsigned? hnumber)
  case h_12 =>
    simp only [Option.map_eq_some_iff, Prod.mk.injEq] at hscan
    obtain ⟨⟨value, rest⟩, hnumber, _, rfl⟩ := hscan
    exact Nat.le_of_lt_succ (length_lt_of_scanUnsigned? hnumber)
  case h_8 | h_9 | h_10 => split at hscan <;> grind
  all_goals grind

/-- The tokens of a text. -/
def lex? : List Char → Option (List Token)
  | [] => some []
  | char :: rest =>
      if isBlank char then lex? rest
      else
        match _hscan : scan? char rest with
        | none => none
        | some (token, rest) => (lex? rest).map (token :: ·)
termination_by chars => chars.length
decreasing_by
  · simp
  · have := length_le_of_scan? _hscan
    simp only [List.length_cons]
    omega

end Token

end Peephole
