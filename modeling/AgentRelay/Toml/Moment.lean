import AgentRelay.Calendar
import AgentRelay.Number.Decimal
import AgentRelay.Toml.Lines

/-
  Times, days and moments of TOML values, and the numbers among them.

  The places of a moment's parts are fixed; what stands between them is not
  looked at. An offset that cannot be read is none.
-/

namespace AgentRelay.Toml

open AgentRelay.Number (Binary64 readInt? readReal? tenTo twoTo)

def slice (i j : Nat) (cs : List Char) : List Char := (cs.take j).drop i

def twoDigits (cs : List Char) : Bool := cs.length == 2 && cs.all Char.isDigit

/-- A time stands at the start: hours, minutes and seconds with two digits. -/
def startsTime (cs : List Char) : Bool :=
  twoDigits (slice 0 2 cs) && cs[2]? == some ':' && twoDigits (slice 3 5 cs) &&
    cs[5]? == some ':' && twoDigits (slice 6 8 cs)

/-- The time at the start of a text; three to six digits of a fraction count as
they stand. -/
def readTime (cs : List Char) : Except Fault TimeOfDay := do
  let part (i : Nat) : Int := (readInt? 10 (slice i (i + 2) cs)).getD 0
  let fraction :=
    if cs[8]? = some '.' then (((cs.drop 9).takeWhile Char.isDigit).take 6) else []
  let micro := if fraction.length < 3 then 0 else (readInt? 10 fraction).getD 0
  match TimeOfDay.ofParts? (part 0) (part 3) (part 6) micro with
  | some t => return t
  | none => throw .malformed

/-- The seconds of an offset: a sign, hours and minutes. -/
def offset? (cs : List Char) : Option Int :=
  let cs := if cs = ['Z'] then "+00:00".toList else cs
  match readInt? 10 (slice 1 3 cs), readInt? 10 (slice 4 6 cs) with
  | some h, some m =>
    let seconds := h * 3600 + m * 60
    some (if cs.head? = some '-' then -seconds else seconds)
  | _, _ => none

/-- The microseconds of a fraction, `none` for a text that is no number. More
than six digits are cut by way of a floating-point number, which the fraction
as a whole number must not exceed. -/
def microseconds? (cs : List Char) : Except Fault (Option Int) :=
  match readInt? 10 cs with
  | none => .ok none
  | some n =>
    let width := cs.length
    if width ≤ 6 then .ok (some (n * (tenTo (6 - width) : Int)))
    else
      let x := Binary64.ofInt n
      if x.isInfinite then .error .hugeFraction
      else
        let (m, q) := (x.mul (.ofDecimal false 1 (6 - (width : Int)))).magnitude
        let whole : Nat := if q ≥ 0 then m * twoTo q.toNat else m / twoTo (-q).toNat
        .ok (some (if x.negative then -(whole : Int) else whole))

/-- The text of a fraction and that of the offset behind it. -/
def cutOffset (tail : List Char) : List Char × Option (List Char) :=
  let cut (sign : Char) : List Char × Option (List Char) :=
    (tail.takeWhile (· != sign), some (tail.dropWhile (· != sign)))
  if tail.getLast? = some 'Z' ∨ tail.getLast? = some 'z' then (tail.dropLast, some ['Z'])
  else if tail.contains '+' then cut '+'
  else if tail.contains '-' then cut '-'
  else (tail, none)

/-- The fraction in microseconds and the offset behind a time. Where one of the
two cannot be read, there is no offset, and a fraction that cannot be read is
none. -/
def fractionAndOffset (cs : List Char) : Except Fault (Int × Option Int) := do
  if cs.length ≤ 19 then return (0, none)
  else if cs[19]? ≠ some '.' then return (0, offset? (cs.drop 19))
  else
    let (fraction, zone?) := cutOffset (cs.drop 20)
    match zone? with
    | none => return ((← microseconds? fraction).getD 0, none)
    | some zone =>
      match offset? zone with
      | none => return (0, none)
      | some o =>
        match ← microseconds? fraction with
        | some n => return (n, some o)
        | none => return (0, none)

/-- A day or a moment, `none` for a text that is neither. -/
def readMoment? (cs : List Char) : Except Fault (Option (Date ⊕ Moment)) := do
  let (micro, zone) ← fractionAndOffset cs
  return do
    if !(cs.drop 1).contains '-' then none
    let date ← Date.ofParts? (← readInt? 10 (slice 0 4 cs)) (← readInt? 10 (slice 5 7 cs))
      (← readInt? 10 (slice 8 10 cs))
    if cs.length = 10 then return .inl date
    else
      let time ← TimeOfDay.ofParts? (← readInt? 10 (slice 11 13 cs))
        (← readInt? 10 (slice 14 16 cs)) (← readInt? 10 (slice 17 19 cs)) micro
      return .inr ⟨date, time, zone⟩

def numberIsStrict (cs : List Char) : Bool :=
  let n := Text.stripChars cs
  match n with
  | [] => false
  | first :: rest =>
    if first == '_' || n.getLast? == some '_' then false
    else if Text.containsSeq ['_', '.'] n || Text.containsSeq ['.', '_'] n then false
    else
      match rest with
      | [] => true
      | second :: more =>
        if first == '0' && !(second == '.' || second == 'o' || second == 'b' || second == 'x') then
          false
        else
          let signed := first == '+' || first == '-'
          let zeroLed :=
            match more with
            | third :: _ => second == '0' && third != '.'
            | [] => false
          if signed && zeroLed then false
          else !Text.containsSeq ['_', '_'] (if signed then rest else n)

/-- A number as a value, with the name of its kind. -/
inductive NumberRead where
  | whole : Int → NumberRead
  | floating : Binary64 → NumberRead

/-- Reads a number; a minus sign subtracts from zero. -/
def readNumber (cs : List Char) : Except Fault NumberRead := do
  let first := cs.headD ' '
  let negative := first = '-'
  let v := (if negative ∨ first = '+' then cs.drop 1 else cs).filter (· ≠ '_')
  let lowered := Text.lower v
  let floating (x : Option Binary64) : Except Fault NumberRead :=
    match x with
    | some x => .ok (.floating (if !negative then x else if x.isZero then .zero false else x.neg))
    | none => .error .malformed
  if v.contains '.' || (!v.contains 'x' && (v.contains 'e' || v.contains 'E')) then
    if v.contains '.' && ((v.dropWhile (· != '.')).drop 1).isEmpty then throw .malformed
    if !(v.headD ' ').isDigit then throw .malformed
    floating (readReal? v)
  else if lowered = "inf".toList ∨ lowered = "nan".toList then floating (readReal? v)
  else
    match readInt? 0 v with
    | some i => return .whole (if negative then -i else i)
    | none => throw .malformed

end AgentRelay.Toml
