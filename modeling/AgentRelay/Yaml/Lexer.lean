import AgentRelay.Yaml.Lexer.Block
import AgentRelay.Yaml.Lexer.Flow

/-
  The tokens of YAML text.

  Structure is given by indentation outside brackets. A token that turns out to
  be a key, because a colon follows on its line within 1024 characters, gets
  its key mark inserted in front of it afterwards; until then it is a possible
  key of its bracket depth. A reader cannot look at such a token before the
  question is settled, so a fault that comes up meanwhile stands at its place.
-/

namespace AgentRelay.Yaml

/-- A place where a key may have started. -/
structure PossibleKey where
  number : Nat
  required : Bool
  index : Nat
  line : Nat
  column : Nat
  deriving Repr

/-- The state of the lexer between two tokens. The head of `keys` is the
possible key of the innermost bracket, the last that of the text outside all
brackets. -/
structure Lexer where
  cursor : Cursor
  tokens : List Token
  indent : Int
  indents : List Int
  allowKey : Bool
  keys : List (Option PossibleKey)

namespace Lexer

def start (cs : List Char) : Lexer := ⟨Cursor.start cs, [], -1, [], true, [none]⟩

def inFlow (s : Lexer) : Bool := 1 < s.keys.length

def push (s : Lexer) (t : Token) : Lexer := { s with tokens := s.tokens ++ [t] }

def outOfReach (c : Cursor) (k : PossibleKey) : Bool := k.line != c.line || c.index - k.index > 1024

/-- Gives up the possible keys that are out of reach; one that had to be a key
is a fault. -/
def dropStale (c : Cursor) : List (Option PossibleKey) → Except Halt (List (Option PossibleKey))
  | [] => .ok []
  | none :: ks => (dropStale c ks).map (none :: ·)
  | some k :: ks =>
    if outOfReach c k then
      if k.required then c.halt .malformed else (dropStale c ks).map (none :: ·)
    else (dropStale c ks).map (some k :: ·)

def dropKey (s : Lexer) : Except Halt Lexer :=
  match s.keys with
  | some k :: ks =>
    if k.required then s.cursor.halt .malformed else .ok { s with keys := none :: ks }
  | _ => .ok s

def saveKey (s : Lexer) : Except Halt Lexer := do
  let required := !s.inFlow && s.indent == s.cursor.column
  if s.allowKey then
    let s ← s.dropKey
    let k : PossibleKey :=
      ⟨s.tokens.length, required, s.cursor.index, s.cursor.line, s.cursor.column⟩
    return { s with keys := some k :: s.keys.drop 1 }
  else return s

def unwindFrom (column : Int) : List Int → Lexer → Lexer
  | [], s => s
  | outer :: rest, s =>
    if s.indent > column then
      unwindFrom column rest { s.push .blockEnd with indent := outer, indents := rest }
    else s

def unwind (column : Int) (s : Lexer) : Lexer :=
  if s.inFlow then s else unwindFrom column s.indents s

/-- Opens a block at `column` when that is deeper; its first token goes to
place `number`. -/
def openBlock (column : Nat) (number : Nat) (t : Token) (s : Lexer) : Lexer :=
  if s.indent < column then
    { s with
      tokens := s.tokens.take number ++ t :: s.tokens.drop number
      indent := column
      indents := s.indent :: s.indents }
  else s

def toNextToken : Nat → Lexer → Lexer
  | 0, s => s
  | fuel + 1, s =>
    let c := s.cursor.skipWhile (· == ' ')
    let c := if c.peek = '#' then c.skipWhile (fun ch => !isBreakOrEnd ch) else c
    if isBreak c.peek then
      toNextToken fuel { s with cursor := c.lineBreak.2, allowKey := s.allowKey || !s.inFlow }
    else { s with cursor := c }

def mark (n : Nat) (t : Token) (s : Lexer) : Except Halt Lexer := do
  let s ← (s.unwind (-1)).dropKey
  return { s.push t with allowKey := false, cursor := Cursor.forwardBy n s.cursor }

def directive (s : Lexer) : Except Halt Lexer := do
  let s ← (s.unwind (-1)).dropKey
  let (name, c) := s.cursor.forward.takeWhile isNameChar
  if name.isEmpty || !isSpaceOrEnd c.peek then c.halt .malformed
  let (d, c) ← directiveValue name c
  let c ← restOfLine c
  return { s.push (.directive d) with allowKey := false, cursor := c }

def openBracket (t : Token) (s : Lexer) : Except Halt Lexer := do
  let s ← s.saveKey
  return { s.push t with allowKey := true, keys := none :: s.keys, cursor := s.cursor.forward }

/-- A closing bracket; outside brackets it is a fault. -/
def closeBracket (t : Token) (s : Lexer) : Except Halt Lexer := do
  let s ← s.dropKey
  if s.inFlow then
    return { s.push t with allowKey := false, keys := s.keys.drop 1, cursor := s.cursor.forward }
  else s.cursor.forward.halt .malformed

def comma (s : Lexer) : Except Halt Lexer := do
  let s ← s.dropKey
  return { s.push .flowEntry with allowKey := true, cursor := s.cursor.forward }

/-- A dash in front of an entry, or a question mark in front of a key. -/
def indicator (t opener : Token) (allow : Bool) (s : Lexer) : Except Halt Lexer := do
  if !s.inFlow && !s.allowKey then s.cursor.halt .malformed
  let s := if s.inFlow then s else s.openBlock s.cursor.column s.tokens.length opener
  let s ← s.dropKey
  return { s.push t with allowKey := allow, cursor := s.cursor.forward }

/-- A colon in front of a value: the possible key in front of it is a key. -/
def valueMark (s : Lexer) : Except Halt Lexer :=
  match s.keys with
  | some k :: ks =>
    let s := { s with
      tokens := s.tokens.take k.number ++ Token.key :: s.tokens.drop k.number
      keys := none :: ks }
    let s := if s.inFlow then s else s.openBlock k.column k.number .blockMappingStart
    .ok { s.push .value with allowKey := false, cursor := s.cursor.forward }
  | _ => s.indicator .value .blockMappingStart (!s.inFlow)

def name (t : String → Token) (s : Lexer) : Except Halt Lexer := do
  let s ← s.saveKey
  let (n, c) ← anchorName s.cursor
  return { s.push (t n) with allowKey := false, cursor := c }

def tagMark (s : Lexer) : Except Halt Lexer := do
  let s ← s.saveKey
  let (handle, suffix, c) ← tag s.cursor
  return { s.push (.tag handle suffix) with allowKey := false, cursor := c }

def block (folded : Bool) (s : Lexer) : Except Halt Lexer := do
  let s ← s.dropKey
  let (text, c) ← blockScalar folded s.indent s.cursor
  return { s.push (.scalar (String.ofList text) false) with allowKey := true, cursor := c }

def quoted (double : Bool) (s : Lexer) : Except Halt Lexer := do
  let s ← s.saveKey
  let (text, c) ← quotedScalar double s.cursor
  return { s.push (.scalar (.ofPoints text) false) with allowKey := false, cursor := c }

def plain (s : Lexer) : Except Halt Lexer := do
  let s ← s.saveKey
  let (text, allow, c) :=
    plainScalar s.inFlow (s.indent + 1) (s.cursor.rest.length + 1) [] [] false s.cursor
  return { s.push (.scalar (String.ofList text) true) with allowKey := allow, cursor := c }

/-- A plain scalar may start here: not with a mark, except a dash, and outside
brackets a question mark or a colon, in front of a character. -/
def plainStarts (inFlow : Bool) (c : Cursor) : Bool :=
  let ch := c.peek
  !(isGap ch || "-?:,[]\x7b\x7d#&*!|>\x27\x22%@\x60".toList.contains ch) ||
    (!isGap (c.peekAt 1) && (ch == '-' || (!inFlow && (ch == '?' || ch == ':'))))

def seeStart (inFlow : Bool) (c : Cursor) : Cursor :=
  let ch := c.peek
  let c := if c.column = 0 && (ch == '-' || ch == '.') then c.seeMark else c
  if ch == '-' || (!inFlow && (ch == '?' || ch == ':')) then c.see 1 else c

/-- Reads the token that starts here; `none` at the end of the text. -/
def token (s : Lexer) : Except Halt (Option Lexer) := do
  let c := seeStart s.inFlow s.cursor
  let s := { s with cursor := c }
  let ch := c.peek
  let next := c.peekAt 1
  if c.rest.isEmpty then return none
  else if ch == '%' && c.column == 0 then s.directive
  else if c.column == 0 && c.atDocumentMark then
    s.mark 3 (if ch == '-' then .documentStart else .documentEnd)
  else if ch == '[' then s.openBracket .flowSequenceStart
  else if ch == '\x7b' then s.openBracket .flowMappingStart
  else if ch == ']' then s.closeBracket .flowSequenceEnd
  else if ch == '\x7d' then s.closeBracket .flowMappingEnd
  else if ch == ',' then s.comma
  else if ch == '-' && isGap next then s.indicator .blockEntry .blockSequenceStart true
  else if ch == '?' && (s.inFlow || isGap next) then
    s.indicator .key .blockMappingStart (!s.inFlow)
  else if ch == ':' && (s.inFlow || isGap next) then s.valueMark
  else if ch == '*' then s.name .alias
  else if ch == '&' then s.name .anchor
  else if ch == '!' then s.tagMark
  else if ch == '|' && !s.inFlow then s.block false
  else if ch == '>' && !s.inFlow then s.block true
  else if ch == '\x27' then s.quoted false
  else if ch == '\x22' then s.quoted true
  else if plainStarts s.inFlow c then s.plain
  else (c.see 1).halt .malformed

/-- One step: up to the next token and over it; `none` with the last lexer at
the end of the text. -/
def step (s : Lexer) : Except Halt (Lexer ⊕ Lexer) := do
  let s := toNextToken (s.cursor.rest.length + 1) s
  -- Keys too far back are given up before the blocks they would open.
  let keys ← dropStale s.cursor s.keys
  let s := unwind s.cursor.column { s with keys := keys }
  match ← s.token with
  | some s => return .inl s
  | none => return .inr (← (s.unwind (-1)).dropKey)

/-- The token a reader waits at while a possible key is not settled. -/
def waitingAt (keys : List (Option PossibleKey)) (n : Nat) : Nat :=
  keys.foldl (fun n k => match k with | some k => min n k.number | none => n) n

def run (text : Source) : Nat → Lexer → List Token
  | 0, s => s.tokens ++ [.fault .malformed]
  | fuel + 1, s =>
    match dropStale s.cursor s.keys with
    | .error h => s.tokens ++ [.fault h.fault]
    | .ok keys =>
      -- Tokens from an unsettled key on are not handed out when a fault is met.
      let settled := s.tokens.take (waitingAt keys s.tokens.length)
      match step { s with keys := keys } with
      | .error h => settled ++ [.fault ((text.met? h.seen).getD h.fault)]
      | .ok (.inl next) =>
        match text.met? next.cursor.seen with
        | some f => settled ++ [.fault f]
        | none => run text fuel next
      | .ok (.inr last) =>
        match text.met? last.cursor.seen with
        | some f => settled ++ [.fault f]
        | none => last.tokens ++ [.streamEnd]

def skipOrderMark (c : Cursor) : Cursor := if c.peek = byteOrderMark then c.forward else c

end Lexer

def tokens (s : Source) : List Token :=
  match s.met? 0 with
  | some f => [.fault f]
  | none =>
    let start := Lexer.start s.text
    Lexer.run s (s.text.length + 1) { start with cursor := Lexer.skipOrderMark start.cursor }

end AgentRelay.Yaml
