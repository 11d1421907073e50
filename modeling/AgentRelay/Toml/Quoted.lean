import AgentRelay.Text.Lower
import AgentRelay.Text.Phrase
import AgentRelay.Toml.Lines

/-
  The text between quotes of a TOML value.
-/

namespace AgentRelay.Toml

/-- The character at a place, `cutShort` when the text is not that long. -/
def charAt (cs : List Char) (i : Nat) : Except Fault Char :=
  match cs[i]? with
  | some c => .ok c
  | none => .error .cutShort

/-- The items from place `start` up to `drop` places before the end. -/
def middle {α : Type} (start drop : Nat) (cs : List α) : List α :=
  (cs.take (cs.length - drop)).drop start

namespace Quoted

/-- The letters that may follow a backslash, with what they stand for. -/
def letters : List (Char × Char) :=
  [('0', '\x00'), ('b', '\x08'), ('f', '\x0c'), ('n', '\n'), ('r', '\r'), ('t', '\t'),
   ('\x22', '\x22')]

def letter? (c : Char) : Option Char := (letters.find? fun e => e.1 == c).map (·.2)

/-- Replaces the escapes with letters; `\u` and `\U` stay as they are. -/
def unescape : List Point → Except Fault (List Point)
  | [] => .ok []
  | .char '\\' :: .char c :: ps =>
    match letter? c with
    | some e => (unescape ps).map (.char e :: ·)
    | none =>
      if c = '\\' then (unescape ps).map (.char '\\' :: ·)
      else if c = 'u' ∨ c = 'U' then (unescape ps).map (.char '\\' :: .char c :: ·)
      else .error .malformed
  | .char '\\' :: .half _ :: _ => .error .malformed
  | p :: ps => (unescape ps).map (p :: ·)

def endsOdd (cs : List Char) : Bool := (cs.reverse.takeWhile (· == '\\')).length % 2 == 1

def isHex (c : Char) : Bool := c.isDigit || ('a' ≤ c && c ≤ 'f')

def hexValue (c : Char) : Nat := if c.isDigit then c.toNat - 48 else c.toNat - 87

/-- What an escape with a number stands for. With four digits it is never a half. -/
def numbered (digits : List Char) : Except Fault Point := do
  if !digits.all isHex then throw .malformed
  let first ← charAt digits 0
  if first = 'd' then
    let second ← charAt digits 1
    if !('0' ≤ second && second ≤ '7') then throw .malformed
  let n := digits.foldl (fun n c => n * 16 + hexValue c) 0
  if n > 0x7fffffff then throw .hugeCharacter
  else if n > 0x10ffff then throw .malformed
  else return Point.ofNumber n

/-- Puts the pieces between escapes together; `acc` is what was put together,
and an escape behind an odd number of backslashes is none. -/
def joinEscapes (mark : List Char) (width : Nat) (skip : Bool) (acc : List Point) :
    List (List Char) → Except Fault (List Point)
  | [] => .ok acc
  | piece :: rest =>
    if skip then
      joinEscapes mark width (endsOdd piece) (acc ++ (mark ++ piece).map Point.char) rest
    else do
      let digits := Text.lower (piece.take width)
      let p ← numbered digits
      joinEscapes mark width false (acc ++ p :: (piece.drop digits.length).map Point.char) rest

def unescapeNumbers (letter : Char) (width : Nat) (cs : List Char) : Except Fault (List Point) :=
  match Text.splitSeq ['\\', letter] cs with
  | [] => .ok (cs.map .char)
  | first :: pieces =>
    joinEscapes ['\\', letter] width (endsOdd first) (first.map .char) pieces

/-- The pieces between the quotes close the text exactly once. `blank` counts
the empty pieces of a text in three quotes. -/
def closesOnce (triple : Bool) : Nat → Bool → List (List Char) → Bool
  | _, _, [] => true
  | blank, closed, piece :: rest =>
    if piece.isEmpty then
      if triple then closesOnce triple (blank + 1) closed rest
      else closesOnce triple blank true rest
    else if endsOdd piece then closesOnce triple blank closed rest
    else if closed then false
    else if !triple || blank > 1 then closesOnce triple blank true rest
    else closesOnce triple 0 closed rest

/-- Every backslash is followed by a letter that may follow one; `double` says
that a second backslash came before. -/
def escapesFit : Bool → List (List Char) → Bool
  | _, [] => true
  | double, [] :: rest => escapesFit (!double) rest
  | double, (c :: _) :: rest =>
    if (letter? c).isNone && c != 'u' && c != 'U' && !double then false
    else escapesFit false rest

/-- The pieces between backslashes, without the first. -/
def slashPieces (cs : List Char) : List (List Char) := (Text.splitOn '\\' cs).drop 1

/-- Takes the quotes off: one or three at each end. -/
def bare (quote : Char) (ps : List Point) : List Point :=
  let quote := Point.char quote
  let ps :=
    if ps[1]? = some quote ∧ (ps.length < 3 ∨ ps[2]? = some quote) then middle 2 2 ps else ps
  middle 1 1 ps

def read (quote : Char) (cs : List Char) : Except Fault Phrase := do
  let pieces := Text.splitOn quote (cs.drop 1)
  let (triple, pieces) :=
    match pieces with
    | [] :: [] :: rest => (true, rest)
    | pieces => (false, pieces)
  if !closesOnce triple 0 false pieces then throw .malformed
  if quote ≠ '\x22' then return .ofPoints (bare quote (cs.map .char))
  else
    if !escapesFit false (slashPieces cs) then throw .malformed
    let ps ← unescapeNumbers 'u' 4 cs
    -- Four digits that spell a half are refused, so that every point is a character here.
    let ps ← unescapeNumbers 'U' 8 (ps.map Point.shown)
    return .ofPoints (bare quote (← unescape ps))

end Quoted

end AgentRelay.Toml
