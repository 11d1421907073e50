import AgentRelay.Yaml.Token

/-
  Block scalars: text set apart by indentation under a bar or an angle.
-/

namespace AgentRelay.Yaml.Lexer

open Cursor

/-- Past the blanks and the comment up to the end of a line, which must come. -/
def restOfLine (c : Cursor) : Except Halt Cursor :=
  let c := c.skipWhile (· == ' ')
  let c := if c.peek = '#' then c.skipWhile (fun ch => !isBreak ch) else c
  if isBreakOrEnd c.peek then .ok c.lineBreak.2 else c.halt .malformed

/-- The signs behind the bar: how the end is cut and how deep the text stands. -/
def blockHeader (c : Cursor) : Except Halt (Option Bool × Option Nat × Cursor) := do
  let chomp? (c : Cursor) : Option Bool × Cursor :=
    if c.peek = '+' then (some true, c.forward)
    else if c.peek = '-' then (some false, c.forward)
    else (none, c)
  let depth? (c : Cursor) : Except Halt (Option Nat × Cursor) :=
    if c.peek.isDigit then
      if c.peek = '0' then c.halt .malformed
      else .ok (some (c.peek.toNat - 48), c.forward)
    else .ok (none, c)
  let (chomp, depth, c) ←
    match chomp? c with
    | (some b, c) => do
      let (d, c) ← depth? c
      pure (some b, d, c)
    | (none, c) => do
      let (d, c) ← depth? c
      match d with
      | none => pure (none, none, c)
      | some d =>
        let (b, c) := chomp? c
        pure (b, some d, c)
  if isSpaceOrEnd c.peek then return (chomp, depth, c) else c.halt .malformed

/-- Blank lines in front of the text, and the widest indentation among them. -/
def leadingBlank : Nat → List Char → Nat → Cursor → List Char × Nat × Cursor
  | 0, acc, widest, c => (acc, widest, c)
  | fuel + 1, acc, widest, c =>
    if c.peek = ' ' then
      let c := c.forward
      leadingBlank fuel acc (max widest c.column) c
    else if isBreak c.peek then
      let (b, c) := c.lineBreak
      leadingBlank fuel (acc ++ b) widest c
    else (acc, widest, c)

/-- Past the indentation, at most up to `indent`. -/
def skipIndent : Nat → Nat → Cursor → Cursor
  | 0, _, c => c
  | fuel + 1, indent, c =>
    if c.column < indent ∧ c.peek = ' ' then skipIndent fuel indent c.forward else c

def blankLines : Nat → Nat → List Char → Cursor → List Char × Cursor
  | 0, _, acc, c => (acc, c)
  | fuel + 1, indent, acc, c =>
    let c := skipIndent indent indent c
    if isBreak c.peek then
      let (b, c) := c.lineBreak
      blankLines fuel indent (acc ++ b) c
    else (acc, c)

/-- The lines of the text from a line at `indent` on; the result is the text,
the last line end, and the blank lines behind it. -/
def blockLines (folded : Bool) (indent : Nat) :
    Nat → List Char → List Char → Cursor → List Char × List Char × List Char × Cursor
  | 0, acc, breaks, c => (acc, [], breaks, c)
  | fuel + 1, acc, breaks, c =>
    let acc := acc ++ breaks
    let flush := c.peek ≠ ' ' ∧ c.peek ≠ '\t'
    let (line, c) := c.takeWhile (fun ch => !isBreak ch)
    let acc := acc ++ line
    let (lineEnd, c) := c.lineBreak
    let (breaks, c) := blankLines (c.rest.length + 1) indent [] c
    if c.column = indent ∧ c.peek ≠ '\x00' then
      let acc :=
        if folded ∧ lineEnd = ['\n'] ∧ flush ∧ c.peek ≠ ' ' ∧ c.peek ≠ '\t' then
          if breaks.isEmpty then acc ++ [' '] else acc
        else acc ++ lineEnd
      blockLines folded indent fuel acc breaks c
    else (acc, lineEnd, breaks, c)

/-- A block scalar, from its bar on; `parent` is the indentation around it. -/
def blockScalar (folded : Bool) (parent : Int) (c : Cursor) :
    Except Halt (List Char × Cursor) := do
  let (chomp, depth, c) ← blockHeader c.forward
  let c ← restOfLine c
  let least := (max (parent + 1) 1).toNat
  let fuel := c.rest.length + 1
  let (breaks, indent, c) :=
    match depth with
    | none =>
      let (breaks, widest, c) := leadingBlank fuel [] 0 c
      (breaks, max least widest, c)
    | some d =>
      let indent := least + d - 1
      let (breaks, c) := blankLines fuel indent [] c
      (breaks, indent, c)
  let (text, lineEnd, breaks, c) :=
    if c.column = indent ∧ c.peek ≠ '\x00' then blockLines folded indent fuel [] breaks c
    else ([], [], breaks, c)
  let text := if chomp = some false then text else text ++ lineEnd
  let text := if chomp = some true then text ++ breaks else text
  return (text, c)

end AgentRelay.Yaml.Lexer
