import AgentRelay.Calendar

/-
  Days and moments as YAML writes them: a day alone, or a day with a time after
  a letter T or blanks, with a fraction and an offset if need be.
-/

namespace AgentRelay.Yaml

/-- The numbers of a written day or moment, not yet checked against the
calendar. -/
structure WrittenTime where
  hour : Nat
  minute : Nat
  second : Nat
  fraction : List Char
  offset : Option Int

/-- A written day, with a time when there is one; `padded` says that month and
day have two digits. -/
structure WrittenMoment where
  year : Nat
  month : Nat
  day : Nat
  padded : Bool
  time : Option WrittenTime

namespace WrittenMoment

def digit (c : Char) : Nat := c.toNat - 48

def two? : List Char → Option (Nat × List Char)
  | a :: b :: cs => if a.isDigit && b.isDigit then some (digit a * 10 + digit b, cs) else none
  | _ => none

def oneOrTwo? (cs : List Char) : Option (Nat × List Char) :=
  match two? cs with
  | some r => some r
  | none =>
    match cs with
    | a :: cs => if a.isDigit then some (digit a, cs) else none
    | [] => none

def sign? (c : Char) : List Char → Option (List Char)
  | d :: cs => if d = c then some cs else none
  | [] => none

/-- The offset at the end: the letter Z, or a sign with hours and minutes. -/
def offset? : List Char → Option (Option Int)
  | [] => some none
  | 'Z' :: [] => some (some 0)
  | s :: cs =>
    if s = '+' ∨ s = '-' then do
      let (hours, rest) ← oneOrTwo? cs
      let minutes ← match rest with
        | [] => some 0
        | ':' :: rest =>
          match two? rest with
          | some (m, []) => some m
          | _ => none
        | _ => none
      let seconds : Int := hours * 3600 + minutes * 60
      return some (if s = '-' then -seconds else seconds)
    else none

def time? (cs : List Char) : Option WrittenTime := do
  let (hour, cs) ← oneOrTwo? cs
  let (minute, cs) ← two? (← sign? ':' cs)
  let (second, cs) ← two? (← sign? ':' cs)
  let (fraction, cs) := match cs with
    | '.' :: cs => (cs.takeWhile Char.isDigit, cs.dropWhile Char.isDigit)
    | cs => ([], cs)
  let blanks := cs.takeWhile (fun c => c == ' ' || c == '\t')
  let rest := cs.drop blanks.length
  if rest.isEmpty && !blanks.isEmpty then none
  let offset ← offset? rest
  return ⟨hour, minute, second, fraction, offset⟩

def read? (cs : List Char) : Option WrittenMoment := do
  let (century, cs) ← two? cs
  let (year, cs) ← two? cs
  let cs ← sign? '-' cs
  let monthPadded := (two? cs).isSome
  let (month, cs) ← oneOrTwo? cs
  let cs ← sign? '-' cs
  let dayPadded := (two? cs).isSome
  let (day, cs) ← oneOrTwo? cs
  let padded := monthPadded && dayPadded
  let year := century * 100 + year
  match cs with
  | [] => return ⟨year, month, day, padded, none⟩
  | c :: rest =>
    let rest ←
      if c = 'T' ∨ c = 't' then some rest
      else if c = ' ' ∨ c = '\t' then some (rest.dropWhile (fun c => c == ' ' || c == '\t'))
      else none
    let time ← time? rest
    return ⟨year, month, day, padded, some time⟩

/-- The first six digits of a fraction, filled with zeros. -/
def microseconds (fraction : List Char) : Nat :=
  let six := (fraction ++ List.replicate 6 '0').take 6
  six.foldl (fun n c => n * 10 + digit c) 0

/-- The day or the moment, if the calendar has it. -/
def toCalendar? (w : WrittenMoment) : Option (Date ⊕ Moment) := do
  let date? := Date.ofParts? w.year w.month w.day
  match w.time with
  | none => return .inl (← date?)
  | some t =>
    let zoneFits := match t.offset with
      | some s => offsetInRange s
      | none => true
    if zoneFits then
      let time ← TimeOfDay.ofParts? t.hour t.minute t.second (microseconds t.fraction)
      return .inr ⟨← date?, time, t.offset⟩
    else none

end WrittenMoment

end AgentRelay.Yaml
