import AgentRelay.Body.Selection
import AgentRelay.Number.Whole
import AgentRelay.Text.Pieces

/-
  The two spellings of placeholders.

  One writes `$ARGUMENTS`, `$1`, a shell command between an exclamation mark
  with a backtick and a backtick, and a file behind an at sign; it also reads a
  line that starts with an exclamation mark as a shell command. The other
  writes everything but positions in braces.
-/

namespace AgentRelay.Body

/-- A rule for the placeholder that starts a text: how many characters it takes
and what it is. The flag says whether a line starts here. -/
abbrev Rule := Bool → List Char → Option (Nat × Placeholder)

/-- Applies a rule from place `pos` on, `skip` characters being taken already.
The rule is tried at the end of the text too. -/
def scan (rule : Rule) : (skip pos : Nat) → (lineStart : Bool) → List Char → List Found
  | 0, pos, lineStart, [] =>
    match rule lineStart [] with
    | some (n, p) => [⟨pos, pos + n, p⟩]
    | none => []
  | _ + 1, _, _, [] => []
  | 0, pos, lineStart, c :: cs =>
    match rule lineStart (c :: cs) with
    | some (n, p) => ⟨pos, pos + n, p⟩ :: scan rule (n - 1) (pos + 1) (c == '\n') cs
    | none => scan rule 0 (pos + 1) (c == '\n') cs
  | skip + 1, pos, _, c :: cs => scan rule skip (pos + 1) (c == '\n') cs

def Rule.pattern (rule : Rule) : Pattern := scan rule 0 0 true

namespace Rule

def word (w : List Char) (p : Placeholder) : Rule := fun _ cs =>
  if Text.startsWith w cs then some (w.length, p) else none

/-- A payload of one or more characters between an opening and a closing
character that it does not hold. -/
def between (opening : List Char) (closing : Char) (make : List Char → Placeholder) : Rule :=
  fun _ cs =>
    match Text.dropStart? opening cs with
    | none => none
    | some rest =>
      let payload := rest.takeWhile (· != closing)
      if payload.isEmpty || (rest.drop payload.length).isEmpty then none
      else some (opening.length + payload.length + 1, make payload)

def position : Rule := fun _ cs =>
  match cs with
  | '$' :: d :: rest =>
    if '1' ≤ d ∧ d ≤ '9' ∧ !(rest.head?.any Text.isDigit) then
      some (2, .argument (d.toNat - 48))
    else none
  | _ => none

/-- A command after an exclamation mark at the start of a line, up to the end
of the line it starts on. Blanks and line ends may stand in front of it, and it
does not start with a brace. -/
def line : Rule := fun lineStart cs =>
  match cs with
  | '!' :: rest =>
    let blanks := rest.takeWhile Text.isBlank
    -- All blanks are taken, because a command does not start with one.
    let command := (rest.drop blanks.length).takeWhile (· != '\n')
    if !lineStart || command.isEmpty || command.head? == some '\x7b' then none
    else some (1 + blanks.length + command.length, .shell command)
  | _ => none

def endsPath (c : Char) : Bool :=
  Text.isBlank c || c == '\x7b' || c == '\x7d' || c == '[' || c == ']' || c == '(' || c == ')' ||
    c == '<' || c == '>'

def path : Rule := fun _ cs =>
  match cs with
  | '@' :: rest =>
    let p := rest.takeWhile fun c => !endsPath c
    if p.isEmpty then none else some (1 + p.length, .file p)
  | _ => none

end Rule

/-- A spelling: the patterns that find placeholders and the way each one is
written. -/
structure Spelling where
  patterns : List Pattern
  write : Placeholder → List Char

namespace Spelling

def argumentsWord : List Char := "$ARGUMENTS".toList

def bracedWord : List Char := "\x7b\x7bargs\x7d\x7d".toList

def claude : Spelling where
  patterns :=
    [Rule.pattern (.word argumentsWord .arguments),
     Rule.pattern (.between ['!', '\x60'] '\x60' .shell),
     Rule.pattern .line,
     Rule.pattern .path,
     Rule.pattern .position]
  write
    | .arguments => argumentsWord
    | .argument n => '$' :: Number.digitsOf n
    | .shell command => '!' :: '\x60' :: command ++ ['\x60']
    | .file path => '@' :: path

def gemini : Spelling where
  patterns :=
    [Rule.pattern (.word bracedWord .arguments),
     Rule.pattern (.between ['!', '\x7b'] '\x7d' .shell),
     Rule.pattern (.between ['@', '\x7b'] '\x7d' .file),
     Rule.pattern .position]
  write
    | .arguments => bracedWord
    | .argument n => '$' :: Number.digitsOf n
    | .shell command => '!' :: '\x7b' :: command ++ ['\x7d']
    | .file path => '@' :: '\x7b' :: path ++ ['\x7d']

def read (s : Spelling) (body : List Char) : List Segment := parse s.patterns body

def segment (s : Spelling) : Segment → List Char
  | .text cs => cs
  | .placeholder p => s.write p

def text (s : Spelling) (segments : List Segment) : List Char := segments.flatMap s.segment

/-- A body given as text in one spelling, as text in another. -/
def convert (source target : Spelling) (body : List Char) : List Char :=
  target.text (source.read body)

end Spelling

end AgentRelay.Body
