import AgentRelay.Number.Whole
import AgentRelay.Text.Utf8
import AgentRelay.Yaml.Token

/-
  Scalars inside quotes, plain scalars, and the short marks: tags, anchors and
  directives.
-/

namespace AgentRelay.Yaml.Lexer

open Cursor

/-- Blank lines inside quotes. A document mark at the start of a line ends the
text in the middle of the quotes, which is a fault. -/
def quotedBreaks : Nat → List Char → Cursor → Except Halt (List Char × Cursor)
  | 0, acc, c => .ok (acc, c)
  | fuel + 1, acc, c =>
    let c := c.seeMark
    if c.atDocumentMark then c.halt .malformed
    else
      let c := c.skipWhile (fun ch => ch == ' ' || ch == '\t')
      if isBreak c.peek then
        let (b, c) := c.lineBreak
        quotedBreaks fuel (acc ++ b) c
      else .ok (acc, c)

/-- Blanks and line ends inside quotes: a single line end reads as a space. -/
def quotedSpaces (c : Cursor) : Except Halt (List Char × Cursor) := do
  let (blanks, c) := c.takeWhile (fun ch => ch == ' ' || ch == '\t')
  if c.peek = '\x00' then c.halt .malformed
  else if isBreak c.peek then
    let (b, c) := c.lineBreak
    let (breaks, c) ← quotedBreaks (c.rest.length + 1) [] c
    let first := if b ≠ ['\n'] then b else if breaks.isEmpty then [' '] else []
    return (first ++ breaks, c)
  else return (blanks, c)

def escaped? : Char → Option Char
  | '0' => some '\x00'
  | 'a' => some '\x07'
  | 'b' => some '\x08'
  | 't' => some '\t'
  | '\t' => some '\t'
  | 'n' => some '\n'
  | 'v' => some '\x0b'
  | 'f' => some '\x0c'
  | 'r' => some '\r'
  | 'e' => some '\x1b'
  | ' ' => some ' '
  | '\x22' => some '\x22'
  | '\\' => some '\\'
  | '/' => some '/'
  | 'N' => some '\u0085'
  | '_' => some '\u00a0'
  | 'L' => some '\u2028'
  | 'P' => some '\u2029'
  | _ => none

def hexDigits? : Char → Option Nat
  | 'x' => some 2
  | 'u' => some 4
  | 'U' => some 8
  | _ => none

def isHexDigit (c : Char) : Bool := c.isDigit || ('a' ≤ c && c ≤ 'f') || ('A' ≤ c && c ≤ 'F')

/-- What a number stands for. -/
def pointOf (n : Nat) : Except Fault Point :=
  if n > 0x7fffffff then .error .hugeCharacter
  else if n > 0x10ffff then .error .noSuchCharacter
  else .ok (Point.ofNumber n)

def escape (c : Cursor) : Except Halt (List Point × Cursor) := do
  let ch := c.peek
  match escaped? ch with
  | some e => return ([.char e], c.forward)
  | none =>
    match hexDigits? ch with
    | some n =>
      let c := c.forward
      let digits := (c.next n).takeWhile isHexDigit
      if digits.length = n then
        let code := (Number.digitsIn? 16 true 0 digits).getD 0
        match pointOf code with
        | .ok p => return ([p], forwardBy n c)
        | .error f => (c.see (n - 1)).halt f
      else (c.see digits.length).halt .malformed
    | none =>
      if isBreak ch then
        let c := c.lineBreak.2
        let (breaks, c) ← quotedBreaks (c.rest.length + 1) [] c
        return (breaks.map .char, c)
      else c.halt .malformed

/-- Text inside quotes up to a blank, a line end or the closing quote. -/
def quotedRun (double : Bool) : Nat → List Point → Cursor → Except Halt (List Point × Cursor)
  | 0, acc, c => .ok (acc, c)
  | fuel + 1, acc, c => do
    let stops (ch : Char) : Bool := ch == '\x27' || ch == '\x22' || ch == '\\' || isGap ch
    let (run, c) := c.takeWhile (fun ch => !stops ch)
    let acc := acc ++ run.map .char
    let ch := c.peek
    let c := if !double && ch == '\x27' then c.see 1 else c
    if !double && ch == '\x27' && c.peekAt 1 == '\x27' then
      quotedRun double fuel (acc ++ [.char '\x27']) (forwardBy 2 c)
    else if (double && ch == '\x27') || (!double && (ch == '\x22' || ch == '\\')) then
      quotedRun double fuel (acc ++ [.char ch]) c.forward
    else if double && ch == '\\' then
      let (e, c) ← escape c.forward
      quotedRun double fuel (acc ++ e) c
    else return (acc, c)

/-- The rest of a text inside quotes up to the closing quote. -/
def quotedRest (double : Bool) (quote : Char) : Nat → List Point → Cursor →
    Except Halt (List Point × Cursor)
  | 0, acc, c => .ok (acc, c)
  | fuel + 1, acc, c =>
    if c.peek = quote ∧ c.rest ≠ [] then .ok (acc, c.forward)
    else do
      let (blanks, c) ← quotedSpaces c
      let (run, c) ← quotedRun double (c.rest.length + 1) [] c
      quotedRest double quote fuel (acc ++ blanks.map .char ++ run) c

def quotedScalar (double : Bool) (c : Cursor) : Except Halt (List Point × Cursor) := do
  let quote := c.peek
  let c := c.forward
  let (run, c) ← quotedRun double (c.rest.length + 1) [] c
  quotedRest double quote (c.rest.length + 1) run c

/-- How many characters belong to a plain scalar before it must stop; a colon
stops it in front of a gap, and inside brackets so do the marks of brackets. -/
def plainRun (inFlow : Bool) : List Char → Nat
  | [] => 0
  | ch :: rest =>
    let next := rest.headD '\x00'
    let colonStops :=
      ch == ':' && (isGap next ||
        (inFlow && (next == ',' || next == '[' || next == ']' || next == '\x7b' || next == '\x7d')))
    let markStops :=
      inFlow && (ch == ',' || ch == '?' || ch == '[' || ch == ']' || ch == '\x7b' || ch == '\x7d')
    if isGap ch || colonStops || markStops then 0 else plainRun inFlow rest + 1

/-- Blank lines between the lines of a plain scalar; `none` when a document
mark follows. -/
def plainBreaks : Nat → List Char → Cursor → Option (List Char) × Cursor
  | 0, acc, c => (some acc, c)
  | fuel + 1, acc, c =>
    if c.peek = ' ' then plainBreaks fuel acc c.forward
    else if isBreak c.peek then
      let (b, c) := c.lineBreak
      let c := c.seeMark
      if c.atDocumentMark then (none, c) else plainBreaks fuel (acc ++ b) c
    else (some acc, c)

/-- Blanks and line ends behind a plain run. The first answer is the text they
count for, empty when the scalar ends here; the second says whether a line end
was passed. -/
def plainSpaces (c : Cursor) : List Char × Bool × Cursor :=
  let (blanks, c) := c.takeWhile (· == ' ')
  if isBreak c.peek then
    let (b, c) := c.lineBreak
    let c := c.seeMark
    if c.atDocumentMark then ([], true, c)
    else
      match plainBreaks (c.rest.length + 1) [] c with
      | (none, c) => ([], true, c)
      | (some breaks, c) =>
        let first := if b ≠ ['\n'] then b else if breaks.isEmpty then [' '] else []
        (first ++ breaks, true, c)
  else (blanks, false, c)

/-- A plain scalar. Besides its text it says whether a simple key may start
behind it, which is so when a line end was passed after the last run. -/
def plainScalar (inFlow : Bool) (indent : Int) :
    Nat → List Char → List Char → Bool → Cursor → List Char × Bool × Cursor
  | 0, acc, _, allow, c => (acc, allow, c)
  | fuel + 1, acc, spaces, allow, c =>
    if c.peek = '#' then (acc, allow, c)
    else
      let n := plainRun inFlow c.rest
      -- A colon stops the run for the character behind it.
      let c := if c.peekAt n = ':' then c.see (n + 1) else c
      if n = 0 then (acc, allow, c)
      else
        let acc := acc ++ spaces ++ c.next n
        let (spaces, passed, c) := plainSpaces (forwardBy n c)
        if spaces.isEmpty || c.peek == '#' || (!inFlow && (c.column : Int) < indent) then
          (acc, passed, c)
        else plainScalar inFlow indent fuel acc spaces passed c

def anchorName (c : Cursor) : Except Halt (String × Cursor) :=
  let (name, c) := c.forward.takeWhile isNameChar
  let ch := c.peek
  if name.isEmpty then c.halt .malformed
  else if isGap ch || "?:,]\x7d%@\x60".toList.contains ch then .ok (String.ofList name, c)
  else c.halt .malformed

def isUriChar (c : Char) : Bool := c.isAlphanum || "-;/?:@&=+$,_.!~*\x27()[]".toList.contains c

def uriBytes : Nat → List UInt8 → Cursor → Except Halt (List UInt8 × Cursor)
  | 0, acc, c => .ok (acc, c)
  | fuel + 1, acc, c =>
    if c.peek = '%' then
      let digits := (c.forward.next 2).takeWhile isHexDigit
      if digits.length = 2 then
        let n := (Number.digitsIn? 16 true 0 digits).getD 0
        uriBytes fuel (acc ++ [UInt8.ofNat n]) (forwardBy 3 c)
      else (c.forward.see digits.length).halt .malformed
    else .ok (acc, c)

def tagUri : Nat → List Char → Bool → Cursor → Except Halt (List Char × Cursor)
  | 0, acc, _, c => .ok (acc, c)
  | fuel + 1, acc, any, c =>
    let (run, c) := c.takeWhile isUriChar
    let acc := acc ++ run
    let any := any || !run.isEmpty
    if c.peek = '%' then do
      let (bytes, c) ← uriBytes (c.rest.length + 1) [] c
      match Text.decode? ⟨bytes.toArray⟩ with
      | some s => tagUri fuel (acc ++ s.toList) true c
      | none => c.halt .malformed
    else if any then .ok (acc, c)
    else c.halt .malformed

def tagHandle (c : Cursor) : Except Halt (List Char × Cursor) :=
  if c.peek ≠ '!' then c.halt .malformed
  else if c.peekAt 1 = ' ' then .ok (['!'], c.forward)
  else
    let (name, c) := c.forward.takeWhile isNameChar
    if c.peek = '!' ∧ c.rest ≠ [] then .ok ('!' :: name ++ ['!'], c.forward) else c.halt .malformed

/-- A tag: an address in angles, a lone exclamation mark, or a handle with the
rest of the address. -/
def tag (c : Cursor) : Except Halt (Option String × String × Cursor) := do
  let next := c.peekAt 1
  let c := c.see 1
  let (handle, suffix, c) ←
    if next = '<' then do
      let (uri, c) ← tagUri (c.rest.length + 1) [] false (forwardBy 2 c)
      if c.peek = '>' then pure (none, uri, c.forward) else c.halt .malformed
    else if isGap next then pure (none, ['!'], c.forward)
    else do
      let word := (c.rest.drop 1).takeWhile (fun ch => ch != '!' && !isSpaceOrEnd ch)
      let c := c.see (word.length + 1)
      let (handle, c) ←
        if c.peekAt (word.length + 1) = '!' then tagHandle c else pure (['!'], c.forward)
      let (uri, c) ← tagUri (c.rest.length + 1) [] false c
      pure (some (String.ofList handle), uri, c)
  if isSpaceOrEnd c.peek then return (handle, String.ofList suffix, c) else c.halt .malformed

def versionNumber (c : Cursor) : Except Halt (Nat × Cursor) :=
  let (digits, c) := c.takeWhile Char.isDigit
  if digits.length > Number.maxDecimalDigits then c.halt .badNumber
  else
    match Number.digitsIn? 10 true 0 digits with
    | some n => .ok (n, c)
    | none => c.halt .malformed

def directiveValue (name : List Char) (c : Cursor) : Except Halt (Directive × Cursor) := do
  if name = "YAML".toList then
    let (major, c) ← versionNumber (c.skipWhile (· == ' '))
    if c.peek ≠ '.' then c.halt .malformed
    let (minor, c) ← versionNumber c.forward
    if isSpaceOrEnd c.peek then return (.version major minor, c) else c.halt .malformed
  else if name = "TAG".toList then
    let (handle, c) ← tagHandle (c.skipWhile (· == ' '))
    if c.peek ≠ ' ' then c.halt .malformed
    let c := c.skipWhile (· == ' ')
    let (start, c) ← tagUri (c.rest.length + 1) [] false c
    if isSpaceOrEnd c.peek then
      return (.tag (String.ofList handle) (String.ofList start), c)
    else c.halt .malformed
  else return (.other, c.skipWhile (fun ch => !isBreak ch))

end AgentRelay.Yaml.Lexer
