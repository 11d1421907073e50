import AgentRelay.Number.Decimal
import AgentRelay.Text.Lower
import AgentRelay.Value.Basic
import AgentRelay.Yaml.Tag
import AgentRelay.Yaml.Token

/-
  The value of a scalar with a tag.

  A tag may be written in front of any text, so each reading can fail even
  though a plain scalar only gets a tag it fits by its look.
-/

namespace AgentRelay.Yaml

open AgentRelay.Number (Binary64 readInt? readReal?)

/-- The opposite when `negative` is set. -/
def signed (negative : Bool) (i : Int) : Int := if negative then -i else i

/-- A number in base sixty from its digits, least first. -/
def sixtyInt : List Int → Int
  | [] => 0
  | d :: ds => d + 60 * sixtyInt ds

def readWhole (text : List Char) : Except Fault Int := do
  let cs := text.filter (· ≠ '_')
  let negative := cs.headD ' ' = '-'
  let digits := Tag.afterSign cs
  let number : Option Int → Except Fault Int
    | some i => .ok (signed negative i)
    | none => .error .badNumber
  match digits with
  | [] => throw .emptyNumber
  | ['0'] => return 0
  | '0' :: 'b' :: r => number (readInt? 2 r)
  | '0' :: 'x' :: r => number (readInt? 16 r)
  | '0' :: r => number (readInt? 8 ('0' :: r))
  | r =>
    if r.contains ':' then
      number ((Text.splitOn ':' r).mapM (readInt? 10) |>.map fun ds => sixtyInt ds.reverse)
    else number (readInt? 10 r)

/-- A number in base sixty from its digits, least first; `unit` is the weight
of the first. -/
def sixtyReal : Binary64 → Nat → List Binary64 → Except Fault Binary64
  | acc, _, [] => .ok acc
  | acc, unit, d :: ds =>
    let weight := Binary64.ofInt unit
    if weight.isInfinite then .error .hugeWeight
    else sixtyReal (acc.add (d.mul weight)) (unit * 60) ds

/-- A not-a-number that is made from a word is that of the node it stands for. -/
def ownNan (origin : Origin) (x : Binary64) : Binary64 :=
  match origin with
  | .node _ n => if x.isNan then .nanOf (n + 1) else x
  | _ => x

/-- A floating-point number. With a point in front, not-a-number is the same one
everywhere. -/
def readFloating (origin : Origin) (text : List Char) : Except Fault Binary64 := do
  let cs := Text.lower (text.filter (· ≠ '_'))
  let negative := cs.headD ' ' = '-'
  let digits := Tag.afterSign cs
  let withSign (x : Binary64) : Binary64 := ownNan origin (if negative then x.neg else x)
  if cs.isEmpty then throw .emptyNumber
  else if digits = ".inf".toList then return .infinity negative
  else if digits = ".nan".toList then return .nan
  else if digits.contains ':' then
    match (Text.splitOn ':' digits).mapM readReal? with
    | some ds => (sixtyReal (.zero false) 1 ds.reverse).map withSign
    | none => throw .badNumber
  else
    match readReal? digits with
    | some x => return withSign x
    | none => throw .badNumber

def sixBits? (c : Char) : Option Nat :=
  if 'A' ≤ c ∧ c ≤ 'Z' then some (c.toNat - 65)
  else if 'a' ≤ c ∧ c ≤ 'z' then some (c.toNat - 71)
  else if '0' ≤ c ∧ c ≤ '9' then some (c.toNat + 4)
  else if c = '+' then some 62
  else if c = '/' then some 63
  else none

/-- The bytes of base-64 text from a place on: `place` characters of the
current four were read and left `rest` over, `pads` equal signs were seen. What
is not of the alphabet is skipped, and a complete padding ends the text. -/
def unpackFrom (place rest pads : Nat) : List Char → Option (List UInt8)
  | [] => if place = 0 then some [] else none
  | c :: cs =>
    if c = '=' then
      if place ≥ 2 then
        if place + (pads + 1) ≥ 4 then some [] else unpackFrom place rest (pads + 1) cs
      else unpackFrom place rest pads cs
    else
      match sixBits? c with
      | none => unpackFrom place rest pads cs
      | some b =>
        if place = 0 then unpackFrom 1 b 0 cs
        else if place = 1 then
          (unpackFrom 2 (b % 16) 0 cs).map (UInt8.ofNat (rest * 4 + b / 16) :: ·)
        else if place = 2 then
          (unpackFrom 3 (b % 4) 0 cs).map (UInt8.ofNat (rest * 16 + b / 4) :: ·)
        else (unpackFrom 0 0 0 cs).map (UInt8.ofNat (rest * 64 + b) :: ·)

def readBytes (text : List Char) : Except Fault (List UInt8) :=
  if text.all fun c => c.toNat < 128 then
    match unpackFrom 0 0 0 text with
    | some bs => .ok bs
    | none => .error .malformed
  else .error .malformed

def readMoment (origin : Origin) (text : List Char) : Except Fault Scalar :=
  let written? :=
    match WrittenMoment.read? text with
    | some w => some w
    | none => if text.getLast? = some '\n' then WrittenMoment.read? text.dropLast else none
  match written? with
  | none => .error .badMoment
  | some w =>
    match w.toCalendar? with
    | some (.inl d) => .ok (.date origin d)
    | some (.inr m) => .ok (.moment origin m)
    | none => .error .badNumber

def readTruth (text : List Char) : Except Fault Bool :=
  match Tag.truthWords.find? fun w => w.1.toList == Text.lower text with
  | some w => .ok w.2
  | none => .error (.badTruth (String.ofList (Text.lower text)))

/-- The value of a text under a tag. Only a text can have halves: nothing else is spelled with
one, nor with what it is shown as. -/
def Scalar.ofTagged (origin : Origin) (text : Phrase) : Tag → Except Fault Scalar
  | .null => .ok .null
  | .bool => (readTruth text.shown.toList).map .bool
  | .int => (readWhole text.shown.toList).map .int
  | .real => (readFloating origin text.shown.toList).map .real
  | .binary => (readBytes text.shown.toList).map .bytes
  | .moment => readMoment origin text.shown.toList
  | .text => .ok (.phrase text)
  | _ => .error .malformed

end AgentRelay.Yaml
