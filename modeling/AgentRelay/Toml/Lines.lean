import AgentRelay.Text.Alnum
import AgentRelay.Text.Blank
import AgentRelay.Text.Pieces

/-
  The lines of a TOML document.

  One pass over the characters checks keys and quotes, blanks comments out, and
  puts arrays that run over several lines on one. A quote is judged by the
  characters in front of it; at the start of the document those at its end
  count as being in front.
-/

namespace AgentRelay.Toml

/-- Why TOML text has no value. -/
inductive Fault where
  /-- The text is not TOML. -/
  | malformed : Fault
  | cutShort : Fault
  | notTable : Fault
  | notList : Fault
  /-- A text over several lines stands behind an empty key. -/
  | namelessText : Fault
  | hugeCharacter : Fault
  /-- The fraction of a moment is too large a number to be rounded. -/
  | hugeFraction : Fault
  | tooDeep : Fault
  deriving DecidableEq, Repr

/-- How far a key has come. -/
inductive KeyPart where
  | outside : KeyPart
  | name : KeyPart
  | behind : KeyPart
  deriving DecidableEq, Repr

/-- The state of the pass: the characters as changed so far, the open brackets
of arrays, the open quote, and where in a line the pass is. -/
structure Pass where
  chars : Array Char
  brackets : Int
  inString : Bool
  quote : Option Char
  inBlock : Bool
  inArrayHeader : Bool
  inHeader : Bool
  lineStart : Bool
  key : KeyPart
  dotted : Bool

namespace Pass

def start (cs : List Char) : Pass :=
  ⟨cs.toArray, 0, false, none, false, false, false, true, .outside, false⟩

/-- The character `k` places in front of place `i`; in front of the first one
stands the last. `none` when the text is not that long. -/
def before? (p : Pass) (i k : Nat) : Option Char :=
  if k ≤ i then p.chars[i - k]?
  else if k - i ≤ p.chars.size then p.chars[p.chars.size - (k - i)]?
  else none

def putBefore (p : Pass) (i k : Nat) (c : Char) : Pass :=
  let place := if k ≤ i then i - k else p.chars.size - (k - i)
  { p with chars := p.chars.setIfInBounds place c }

/-- The number of backslashes in front of a place `k` in front of `i` is odd;
`fuel` bounds their number. -/
def oddSlashes (p : Pass) (i : Nat) : Nat → Nat → Bool
  | 0, _ => false
  | fuel + 1, k => if p.before? i k = some '\\' then !oddSlashes p i fuel (k + 1) else false

/-- What a character does inside a key: the new state, and whether the
character is done with. A quote with an odd number of backslashes in front of
it belongs to the key. -/
def inKey (p : Pass) (i : Nat) (c : Char) : Except Fault (Pass × Bool) :=
  if c = '\n' then .error .malformed
  else if p.inString then
    if p.quote = some c ∧ !p.oddSlashes i (i + 1) 1 then
      .ok ({ p with key := .behind, inString := false, quote := none }, true)
    else .ok (p, true)
  else
    let finish : Except Fault (Pass × Bool) :=
      if c = '=' then .ok ({ p with key := .outside, dotted := false }, false)
      else .error .malformed
    let resume (p : Pass) : Except Fault (Pass × Bool) :=
      match p.chars[i + 1]? with
      | none => .error .cutShort
      | some next =>
        if Text.isBlank next || next == '.' then .ok (p, true)
        else .ok ({ p with key := .name }, true)
    match p.key with
    | .name =>
      if Text.isBlank c then .ok ({ p with key := .behind }, true)
      else if c = '.' then .ok ({ p with dotted := true }, true)
      else if Text.isAlnum c || c == '_' || c == '-' then .ok (p, true)
      else if p.dotted && p.before? i 1 == some '.' && (c == '\x22' || c == '\x27') then
        .ok ({ p with inString := true, quote := some c }, true)
      else finish
    | _ =>
      if Text.isBlank c then if p.dotted then resume p else .ok (p, true)
      else if c = '.' then resume { p with dotted := true }
      else finish

/-- How many quotes `q` stand in front of place `i`, at most two. -/
def quotesBefore (p : Pass) (i : Nat) (q : Char) : Nat :=
  if p.before? i 1 = some q then if p.before? i 2 = some q then 2 else 1 else 0

def singleQuote (p : Pass) (i : Nat) : Pass :=
  let p :=
    if p.quotesBefore i '\x27' = 2 then { p with inBlock := !p.inBlock, inString := !p.inBlock }
    else { p with inString := !p.inString }
  { p with quote := if p.inString then some '\x27' else none }

/-- A double quote outside single quotes; an escaped one changes nothing. -/
def doubleQuote (p : Pass) (i : Nat) : Pass :=
  let n := p.quotesBefore i '\x22'
  let escaped := n ≠ 1 && p.oddSlashes i (p.chars.size + 1) (n + 1)
  let p :=
    if escaped then p
    else if n = 2 then { p with inBlock := !p.inBlock, inString := !p.inBlock }
    else { p with inString := !p.inString }
  { p with quote := if p.inString then some '\x22' else none }

/-- Blanks out a comment from place `i` on; the second answer is false when it
runs up to the end of the text. -/
def blankComment (p : Pass) : Nat → Nat → Pass × Bool
  | 0, _ => (p, false)
  | fuel + 1, i =>
    match p.chars[i]? with
    | none => (p, false)
    | some c =>
      if c = '\n' then (p, true)
      else blankComment { p with chars := p.chars.setIfInBounds i ' ' } fuel (i + 1)

def bracket (p : Pass) (i : Nat) (c : Char) : Pass :=
  let p :=
    if c = '[' ∧ !p.inString ∧ !p.inHeader ∧ !p.inArrayHeader then
      if p.lineStart then
        if p.chars[i + 1]? = some '[' then { p with inArrayHeader := true }
        else { p with inHeader := true }
      else { p with brackets := p.brackets + 1 }
    else p
  if c = ']' ∧ !p.inString then
    if p.inHeader then { p with inHeader := false }
    else if p.inArrayHeader then
      if p.before? i 1 = some ']' then { p with inArrayHeader := false } else p
    else { p with brackets := p.brackets - 1 }
  else p

/-- The end of a line. Behind the quotes that open a text of several lines it
is dropped, by moving the quotes one place on. -/
def lineEnd (p : Pass) (i : Nat) : Except Fault Pass :=
  if p.inString || p.inBlock then
    if !p.inBlock then .error .malformed
    else
      match p.before? i 1, p.before? i 2 with
      | some q, some r =>
        if (q = '\x27' ∨ q = '\x22') ∧ r = q then
          -- The line end becomes the last quote, and the first one gives way.
          let third := p.before? i 3
          let p := p.putBefore i 0 q
          .ok (if third = some q then p.putBefore i 3 ' ' else p)
        else .ok p
      | _, _ => .ok p
  else if p.brackets ≠ 0 then .ok (p.putBefore i 0 ' ')
  else .ok { p with lineStart := true }

/-- The first character of a line that is no blank. -/
def firstOfLine (p : Pass) (i : Nat) : Except Fault Pass :=
  let c := p.chars.getD i ' '
  if p.lineStart && c != ' ' && c != '\t' then
    let p := { p with lineStart := false }
    if p.inHeader || p.inArrayHeader then .ok p
    else if c = '=' then .error .malformed
    else .ok { p with key := .name }
  else .ok p

/-- What a character does outside keys; the second answer is false when the
rest of the text is a comment. -/
def outsideKey (p : Pass) (i : Nat) (c : Char) : Except Fault (Pass × Bool) := do
  let p := if c = '\x27' ∧ p.quote ≠ some '\x22' then p.singleQuote i else p
  let p := if c = '\x22' ∧ p.quote ≠ some '\x27' then p.doubleQuote i else p
  let (p, goesOn) :=
    if c = '#' ∧ !p.inString ∧ !p.inHeader ∧ !p.inArrayHeader then
      p.blankComment (p.chars.size + 1) i
    else (p, true)
  if !goesOn then return (p, false)
  let p := p.bracket i c
  let p ← if c = '\n' then p.lineEnd i else p.firstOfLine i
  return (p, true)

/-- One character; the second answer is false when the rest is a comment. -/
def step (p : Pass) (i : Nat) : Except Fault (Pass × Bool) := do
  let c := p.chars.getD i ' '
  if c = '\r' ∧ p.chars[i + 1]? = none then throw .cutShort
  else if c = '\r' ∧ p.chars[i + 1]? = some '\n' then return (p.putBefore i 0 ' ', true)
  else if p.key = .outside then p.outsideKey i c
  else
    let (p, done) ← p.inKey i c
    if done then return (p, true) else p.outsideKey i c

def run : Nat → Nat → Pass → Except Fault Pass
  | 0, _, p => .ok p
  | fuel + 1, i, p => do
    if i < p.chars.size then
      let (p, goesOn) ← p.step i
      if goesOn then run fuel (i + 1) p else return p
    else return p

end Pass

def lines (cs : List Char) : Except Fault (List (List Char)) := do
  let p ← Pass.run (cs.length + 1) 0 (Pass.start cs)
  if p.key ≠ .outside || p.inString then throw .malformed
  return Text.splitOn '\n' p.chars.toList

end AgentRelay.Toml
