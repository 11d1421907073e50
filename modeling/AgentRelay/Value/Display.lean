import AgentRelay.Text.Printable
import AgentRelay.Value.Basic

/-
  The text of a value in messages and in fields that only hold text.

  `display` shows a text value as it is; inside a collection, and wherever a
  message quotes a value, `literal` shows it quoted: in single quotes, or in
  double quotes when it holds single quotes and no double ones. A collection
  inside itself is shown as dots. Numbers with too many digits have no text, nor
  has a moment alone whose offset is a day or more.

  Main statement: a text is displayed as it is (`Value.display?_text`).
-/

namespace AgentRelay

open AgentRelay.Number (digitsOf intText intText?)

namespace Literal

def hexDigit (n : Nat) : Char := if n < 10 then Char.ofNat (48 + n) else Char.ofNat (87 + n)

/-- A number in hexadecimal with exactly `width` digits. -/
def hex : Nat → Nat → List Char
  | 0, _ => []
  | width + 1, n => hex width (n / 16) ++ [hexDigit (n % 16)]

/-- The quote around a text: double only when the text holds single quotes and
no double ones. -/
def quoteFor (cs : List Char) : Char :=
  if cs.contains '\x27' && !cs.contains '\x22' then '\x22' else '\x27'

def escapeChar (quote c : Char) : List Char :=
  if c = quote ∨ c = '\\' then ['\\', c]
  else if c = '\t' then ['\\', 't']
  else if c = '\n' then ['\\', 'n']
  else if c = '\r' then ['\\', 'r']
  else if Text.isPrintable c then [c]
  else if c.toNat < 0x100 then '\\' :: 'x' :: hex 2 c.toNat
  else if c.toNat < 0x10000 then '\\' :: 'u' :: hex 4 c.toNat
  else '\\' :: 'U' :: hex 8 c.toNat

def text (s : String) : List Char :=
  let cs := s.toList
  let quote := quoteFor cs
  quote :: cs.flatMap (escapeChar quote) ++ [quote]

def escapePoint (quote : Char) : Point → List Char
  | .char c => escapeChar quote c
  | .half h => '\\' :: 'u' :: hex 4 h.number

def torn (t : Torn) : List Char :=
  let quote := quoteFor (t.points.map Point.shown)
  quote :: t.points.flatMap (escapePoint quote) ++ [quote]

def escapeByte (quote : Char) (b : UInt8) : List Char :=
  let c := Char.ofNat b.toNat
  if c = quote ∨ c = '\\' then ['\\', c]
  else if c = '\t' then ['\\', 't']
  else if c = '\n' then ['\\', 'n']
  else if c = '\r' then ['\\', 'r']
  else if b.toNat < 32 ∨ b.toNat ≥ 127 then '\\' :: 'x' :: hex 2 b.toNat
  else [c]

def bytes (bs : List UInt8) : List Char :=
  let quote := quoteFor (bs.map fun b => Char.ofNat b.toNat)
  'b' :: quote :: bs.flatMap (escapeByte quote) ++ [quote]

def call (name : String) (args : List (List Char)) : List Char :=
  name.toList ++ '(' :: [',', ' '].intercalate args ++ [')']

/-- The parts of a time that are written: seconds and fractions only when
there are any. -/
def timeParts (t : TimeOfDay) : List (List Char) :=
  [digitsOf t.hour, digitsOf t.minute] ++
    (if t.second = 0 ∧ t.microsecond = 0 then [] else [digitsOf t.second]) ++
    if t.microsecond = 0 then [] else [digitsOf t.microsecond]

/-- An offset is a number of days and a remainder that is never negative. -/
def offset (seconds : Int) : List Char :=
  if seconds = 0 then "datetime.timezone.utc".toList
  else
    let days := Int.fdiv seconds 86400
    let rest := Int.fmod seconds 86400
    let parts :=
      (if days = 0 then [] else ["days=".toList ++ intText days]) ++
        if rest = 0 then [] else ["seconds=".toList ++ intText rest]
    call "datetime.timezone" [call "datetime.timedelta" parts]

def dateParts (d : Date) : List (List Char) := [digitsOf d.year, digitsOf d.month, digitsOf d.day]

/-- A scalar as a message quotes it, `none` for a number with too many digits. -/
def scalar? : Scalar → Option (List Char)
  | .null => some "None".toList
  | .bool true => some "True".toList
  | .bool false => some "False".toList
  | .int i => intText? i
  | .real x => some x.text
  | .text s => some (text s)
  | .torn t => some (torn t)
  | .bytes bs => some (bytes bs)
  | .date _ d => some (call "datetime.date" (dateParts d))
  | .time t => some (call "datetime.time" (timeParts t))
  | .moment _ m =>
    let zone :=
      match m.offset with
      | none => []
      | some s => ["tzinfo=".toList ++ offset s]
    some (call "datetime.datetime" (dateParts m.date ++ timeParts m.time ++ zone))

def commas (parts : List (List Char)) : List Char := [',', ' '].intercalate parts

/-- Parts between brackets of a shape; a tuple of one part has a comma. -/
def bracketed (shape : Shape) (parts : List (List Char)) : List Char :=
  match shape, parts with
  | .seq, ps => '[' :: commas ps ++ [']']
  | .tuple, [p] => '(' :: p ++ [',', ')']
  | .tuple, ps => '(' :: commas ps ++ [')']
  | .map, ps => '\x7b' :: commas ps ++ ['\x7d']

/-- A collection inside itself: dots in its place. -/
def dots (shape : Shape) : List Char := bracketed shape ["...".toList]

end Literal

def Origin.insideOf (o : Origin) (around : List Origin) : List Origin :=
  if Value.isNode o then o :: around else around

mutual

/-- A value as a message quotes it; `around` are the collections around it. -/
def Value.literalIn? (around : List Origin) : Value → Option (List Char)
  | .scalar s => Literal.scalar? s
  | .seq o xs =>
    if around.contains o then some (Literal.dots .seq)
    else (Value.literals? (o.insideOf around) xs).map (Literal.bracketed .seq)
  | .tuple o xs =>
    if around.contains o then some (Literal.dots .tuple)
    else (Value.literals? (o.insideOf around) xs).map (Literal.bracketed .tuple)
  | .set _ [] => some "set()".toList
  | .set _ xs => (xs.mapM Literal.scalar?).map (Literal.bracketed .map)
  | .map o m =>
    if around.contains o then some (Literal.dots .map)
    else (Value.literalEntries? (o.insideOf around) m).map (Literal.bracketed .map)
  | .loop shape _ => some (Literal.dots shape)

def Value.literals? (around : List Origin) : List Value → Option (List (List Char))
  | [] => some []
  | x :: xs => do
    let first ← x.literalIn? around
    return first :: (← Value.literals? around xs)

/-- The entries of a mapping, each key and value with a colon. -/
def Value.literalEntries? (around : List Origin) :
    List (Scalar × Value) → Option (List (List Char))
  | [] => some []
  | (k, v) :: m => do
    let key ← Literal.scalar? k
    let value ← v.literalIn? around
    return (key ++ ':' :: ' ' :: value) :: (← Value.literalEntries? around m)

end

/-- A value as a message quotes it, `none` when a number in it has too many
digits. -/
def Value.literal? (v : Value) : Option (List Char) := v.literalIn? []

/-- The text of a scalar that stands alone, with its halves as they are shown; `none` for
one that is too large. -/
def Scalar.display? : Scalar → Option (List Char)
  | .text s => some s.toList
  | .torn t => some t.shown.toList
  | .date _ d => some d.text
  | .time t => some t.text
  | .moment _ m => m.text? ' '
  | s => Literal.scalar? s

/-- The text of a value that stands alone, `none` for one that is too large. -/
def Value.display? : Value → Option (List Char)
  | .scalar s => s.display?
  | v => v.literal?

/-- A text is displayed as it is. -/
theorem Value.display?_text (s : String) : (Value.text s).display? = some s.toList := rfl

end AgentRelay
