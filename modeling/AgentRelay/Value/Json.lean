import AgentRelay.Value.Display

/-
  The text of a value inside a validation report: one line, ASCII only, strings
  in double quotes, and values that this notation lacks written as their
  display text.

  A mapping key that is no text is written as the text its value would have; a
  key that has none (bytes, days, times) cannot be written, nor can a value that
  is too large or holds itself.
-/

namespace AgentRelay

namespace Json

/-- The two units of a character beyond the first plane. -/
def surrogates (n : Nat) : List Char :=
  let m := n - 0x10000
  '\\' :: 'u' :: Literal.hex 4 (0xd800 + m / 0x400) ++
    '\\' :: 'u' :: Literal.hex 4 (0xdc00 + m % 0x400)

def escapeChar (c : Char) : List Char :=
  if c = '\x22' then ['\\', c]
  else if c = '\\' then ['\\', c]
  else if c = '\n' then ['\\', 'n']
  else if c = '\r' then ['\\', 'r']
  else if c = '\t' then ['\\', 't']
  else if c = '\x0c' then ['\\', 'f']
  else if c = '\x08' then ['\\', 'b']
  else if 32 ≤ c.toNat ∧ c.toNat < 127 then [c]
  else if c.toNat < 0x10000 then '\\' :: 'u' :: Literal.hex 4 c.toNat
  else surrogates c.toNat

def quoted (cs : List Char) : List Char := '\x22' :: cs.flatMap escapeChar ++ ['\x22']

def escapePoint : Point → List Char
  | .char c => escapeChar c
  | .half h => '\\' :: 'u' :: Literal.hex 4 h.number

def quotedTorn (t : Torn) : List Char := '\x22' :: t.points.flatMap escapePoint ++ ['\x22']

/-- Numbers that are not finite are written as words. -/
def real (x : Number.Binary64) : List Char :=
  if x.isNan then "NaN".toList
  else if x.isInfinite then (if x.negative then "-Infinity" else "Infinity").toList
  else x.text

/-- Why a value cannot be written. -/
inductive Refusal where
  /-- A key that is no text and has none. -/
  | badKey : Refusal
  /-- A value that is too large, or that holds itself. -/
  | badValue : Refusal
  deriving DecidableEq, Repr

/-- The text of a value that may be too large to have one. -/
def sized (cs : Option (List Char)) : Except Refusal (List Char) :=
  match cs with
  | some cs => .ok cs
  | none => .error .badValue

def scalar : Scalar → Except Refusal (List Char)
  | .null => .ok "null".toList
  | .bool true => .ok "true".toList
  | .bool false => .ok "false".toList
  | .int i => sized (Number.intText? i)
  | .real x => .ok (real x)
  | .text s => .ok (quoted s.toList)
  | .torn t => .ok (quotedTorn t)
  | s => (sized s.display?).map quoted

def key : Scalar → Except Refusal (List Char)
  | .text s => .ok (quoted s.toList)
  | .torn t => .ok (quotedTorn t)
  | .bytes _ => .error .badKey
  | .date _ _ => .error .badKey
  | .time _ => .error .badKey
  | .moment _ _ => .error .badKey
  | s => (scalar s).map fun cs => '\x22' :: cs ++ ['\x22']

def commas (parts : List (List Char)) : List Char := [',', ' '].intercalate parts

end Json

mutual

def Value.json : Value → Except Json.Refusal (List Char)
  | .scalar s => Json.scalar s
  | .seq _ xs => (Value.jsons xs).map fun ps => '[' :: Json.commas ps ++ [']']
  | .tuple _ xs => (Value.jsons xs).map fun ps => '[' :: Json.commas ps ++ [']']
  | .set o xs => (Json.sized (Value.set o xs).display?).map Json.quoted
  | .map _ m => (Value.jsonEntries m).map fun ps => '\x7b' :: Json.commas ps ++ ['\x7d']
  | .loop _ _ => .error .badValue

def Value.jsons : List Value → Except Json.Refusal (List (List Char))
  | [] => .ok []
  | x :: xs => do
    let p ← x.json
    let ps ← Value.jsons xs
    return p :: ps

def Value.jsonEntries : List (Scalar × Value) → Except Json.Refusal (List (List Char))
  | [] => .ok []
  | (k, v) :: m => do
    let key ← Json.key k
    let p ← v.json
    let ps ← Value.jsonEntries m
    return (key ++ ':' :: ' ' :: p) :: ps

end

end AgentRelay
