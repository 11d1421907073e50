import AgentRelay.Number.Binary64
import AgentRelay.Number.Whole
import AgentRelay.Text.Lower

/-
  Reading a floating-point number from decimal text: digits, a point, an
  exponent, a sign, blanks around, an underscore between two digits, or one of
  the words for infinity and not-a-number.
-/

namespace AgentRelay.Number

open AgentRelay.Text (lower)

/-- Drops each underscore that stands between two digits; `none` when one
stands elsewhere. `prev` says that the character before was a digit. -/
def dropUnderscores? : Bool → List Char → Option (List Char)
  | _, [] => some []
  | prev, c :: cs =>
    if c = '_' then
      match cs with
      | d :: _ => if prev ∧ d.isDigit then dropUnderscores? false cs else none
      | [] => none
    else (dropUnderscores? c.isDigit cs).map (c :: ·)

/-- The leading digits as a number with their count, and what follows. -/
def leadingDigits : Nat → Nat → List Char → Nat × Nat × List Char
  | acc, n, [] => (acc, n, [])
  | acc, n, c :: cs =>
    if c.isDigit then leadingDigits (acc * 10 + (c.toNat - 48)) (n + 1) cs
    else (acc, n, c :: cs)

def exponent? : List Char → Option Int
  | [] => some 0
  | c :: cs =>
    if c = 'e' ∨ c = 'E' then
      let (negative, rest) :=
        match cs with
        | '-' :: r => (true, r)
        | '+' :: r => (false, r)
        | r => (false, r)
      match leadingDigits 0 0 rest with
      | (n, count, []) => if count = 0 then none else some (if negative then -(n : Int) else n)
      | _ => none
    else none

/-- A number without sign and blanks. -/
def unsignedReal? (negative : Bool) (cs : List Char) : Option Binary64 :=
  let word := lower cs
  if word = "inf".toList ∨ word = "infinity".toList then some (.infinity negative)
  else if word = "nan".toList then some .nan
  else
    let (whole, nWhole, rest) := leadingDigits 0 0 cs
    let (digits, nFraction, tail) :=
      match rest with
      | '.' :: r => leadingDigits whole 0 r
      | r => (whole, 0, r)
    if nWhole + nFraction = 0 then none
    else (exponent? tail).map fun e => .ofDecimal negative digits (e - nFraction)

def readReal? (cs : List Char) : Option Binary64 :=
  (dropUnderscores? false (trimmed cs)).bind fun text =>
    match text with
    | '-' :: rest => unsignedReal? true rest
    | '+' :: rest => unsignedReal? false rest
    | rest => unsignedReal? false rest

end AgentRelay.Number
