import AgentRelay.Text.Phrase
import AgentRelay.Text.Pieces

/-
  The characters and tokens of YAML text.

  A token list ends with `streamEnd`, or with `fault` at the place where the
  text stops being YAML; whoever reads the tokens meets the fault only when it
  gets there.

  A text may come with a wall: a place that cannot be looked at. A cursor
  therefore keeps the furthest place that was looked at, and so does a fault,
  since what lies behind the wall counts for nothing and the wall counts as
  soon as it was looked at.
-/

namespace AgentRelay.Yaml

/-- Why YAML text has no value. -/
inductive Fault where
  /-- The text is not YAML, or its nodes do not fit their tags. -/
  | malformed : Fault
  | badNumber : Fault
  /-- A number without digits. -/
  | emptyNumber : Fault
  | badTruth (word : String) : Fault
  /-- A text tagged as a moment that is none. -/
  | badMoment : Fault
  /-- An escape for a character beyond the last one. -/
  | noSuchCharacter : Fault
  | hugeCharacter : Fault
  /-- A number in base sixty with a weight beyond all floating-point numbers. -/
  | hugeWeight : Fault
  | mappedMoment : Fault
  | tooDeep : Fault
  /-- The bytes of the text are those of no text from some place on. -/
  | undecodable : Fault
  deriving DecidableEq, Repr

def isBreak (c : Char) : Bool :=
  c == '\n' || c == '\r' || c == '\u0085' || c == '\u2028' || c == '\u2029'

def isBreakOrEnd (c : Char) : Bool := c == '\x00' || isBreak c

def isSpaceOrEnd (c : Char) : Bool := c == ' ' || isBreakOrEnd c

/-- A space, a tab, a line end, or the end of the text. -/
def isGap (c : Char) : Bool := c == '\t' || isSpaceOrEnd c

def isAllowed (c : Char) : Bool :=
  let n := c.toNat
  n == 0x9 || n == 0xa || n == 0xd || (0x20 ≤ n && n ≤ 0x7e) || n == 0x85 ||
    (0xa0 ≤ n && n ≤ 0xd7ff) || (0xe000 ≤ n && n ≤ 0xfffd) || 0x10000 ≤ n

def isNameChar (c : Char) : Bool := c.isAlphanum || c == '-' || c == '_'

def byteOrderMark : Char := '\ufeff'

/-- A directive in front of a document. -/
inductive Directive where
  | version (major minor : Nat) : Directive
  | tag (handle start : String) : Directive
  | other : Directive
  deriving DecidableEq, Repr

/-- The pieces YAML text is read as. -/
inductive Token where
  | streamEnd : Token
  | directive : Directive → Token
  | documentStart : Token
  | documentEnd : Token
  | blockSequenceStart : Token
  | blockMappingStart : Token
  | blockEnd : Token
  | flowSequenceStart : Token
  | flowMappingStart : Token
  | flowSequenceEnd : Token
  | flowMappingEnd : Token
  | blockEntry : Token
  | flowEntry : Token
  | key : Token
  | value : Token
  | alias : String → Token
  | anchor : String → Token
  | tag (handle : Option String) (suffix : String) : Token
  | scalar (text : Phrase) (plain : Bool) : Token
  | fault : Fault → Token
  deriving DecidableEq, Repr

/-- A text, and where and why looking at it fails. Nothing of the text counts
from that place on. -/
structure Source where
  text : List Char
  wall : Option (Nat × Fault)
  deriving Repr

/-- A text that is there as a whole. It fails from its start when it holds a
character that YAML does not allow. -/
def Source.whole (cs : List Char) : Source :=
  ⟨cs, if cs.all isAllowed then none else some (0, .malformed)⟩

/-- The fault that is met by looking at the text up to a place. -/
def Source.met? (s : Source) (place : Nat) : Option Fault :=
  match s.wall with
  | some (wall, f) => if wall ≤ place then some f else none
  | none => none

/-- A fault, and the furthest place that was looked at before it. -/
structure Halt where
  fault : Fault
  seen : Nat
  deriving DecidableEq, Repr

/-- A place in the text: what follows, how far the line and the text have come,
and the furthest place that was looked at on the way. -/
structure Cursor where
  rest : List Char
  index : Nat
  line : Nat
  column : Nat
  ahead : Nat
  deriving Repr

namespace Cursor

def start (cs : List Char) : Cursor := ⟨cs, 0, 0, 0, 0⟩

/-- The furthest place that was looked at: at least the one reached. -/
def seen (c : Cursor) : Nat := max c.ahead c.index

def see (n : Nat) (c : Cursor) : Cursor := { c with ahead := max c.ahead (c.index + n) }

def halt {α : Type} (c : Cursor) (f : Fault) : Except Halt α := .error ⟨f, c.seen⟩

def peek (c : Cursor) : Char := c.rest.headD '\x00'

def peekAt (c : Cursor) (n : Nat) : Char := (c.rest.drop n).headD '\x00'

def next (c : Cursor) (n : Nat) : List Char := c.rest.take n

def forward (c : Cursor) : Cursor :=
  match c.rest with
  | [] => c
  | ch :: rest =>
    if ch = '\n' ∨ ch = '\u0085' ∨ ch = '\u2028' ∨ ch = '\u2029' ∨
        (ch = '\r' ∧ rest.headD '\x00' ≠ '\n') then
      ⟨rest, c.index + 1, c.line + 1, 0, c.ahead⟩
    else if ch = byteOrderMark then ⟨rest, c.index + 1, c.line, c.column, c.ahead⟩
    else ⟨rest, c.index + 1, c.line, c.column + 1, c.ahead⟩

def forwardBy : Nat → Cursor → Cursor
  | 0, c => c
  | n + 1, c => forwardBy n c.forward

/-- The characters of the class `p` that follow, and the place behind them. -/
def takeWhile (p : Char → Bool) (c : Cursor) : List Char × Cursor :=
  let taken := c.rest.takeWhile p
  (taken, forwardBy taken.length c)

def skipWhile (p : Char → Bool) (c : Cursor) : Cursor := (c.takeWhile p).2

/-- Past one line end, with the text it counts for. -/
def lineBreak (c : Cursor) : List Char × Cursor :=
  let ch := c.peek
  if ch = '\r' ∨ ch = '\n' ∨ ch = '\u0085' then
    if ch = '\r' ∧ c.peekAt 1 = '\n' then (['\n'], forwardBy 2 c) else (['\n'], c.forward)
  else if ch = '\u2028' ∨ ch = '\u2029' then ([ch], c.forward)
  else ([], c)

def atTriple (c : Cursor) : Bool :=
  c.next 3 == ['-', '-', '-'] || c.next 3 == ['.', '.', '.']

def atDocumentMark (c : Cursor) : Bool := c.atTriple && isGap (c.peekAt 3)

def seeMark (c : Cursor) : Cursor := c.see (if c.atTriple then 3 else 2)

end Cursor

end AgentRelay.Yaml
