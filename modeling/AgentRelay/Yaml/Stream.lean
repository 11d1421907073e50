import AgentRelay.Text.Newline
import AgentRelay.Text.Utf8
import AgentRelay.Yaml.Token

/-
  YAML text that is read from a file while its tokens are looked for.

  The text comes in portions of 4096 characters. Two of them are read before
  anything else is done, every other one when a character of it is looked at. A
  portion that cannot be read, or that holds a character which YAML does not
  allow, is a wall: what is wrong in front of it is met first.

  The bytes of a file are decoded piece by piece as portions need them, and a
  piece is often longer than what is missing. So a bad byte can stand in the way
  of a portion that ends far in front of it.
-/

namespace AgentRelay.Yaml

def portion : Nat := 4096

/-- The place from which on a text cannot be looked at when portion `n` fails. -/
def wallOf (n : Nat) : Nat := if n < 2 then 0 else portion * n

/-- A text without bad bytes: it fails at the first portion with a character
that YAML does not allow. -/
def Source.portions (cs : List Char) : Source :=
  ⟨cs, (cs.findIdx? fun c => !isAllowed c).map fun i => (wallOf (i / portion), .malformed)⟩

/-- The decoding of a file. -/
structure Feed where
  /-- The characters in front of the bad byte that are not decoded yet. -/
  chars : List Char
  /-- The place where the first of them starts. -/
  start : Nat
  taken : Nat
  /-- How many decoded characters are not handed out yet. -/
  ready : Nat
  /-- The bytes and the characters of the last piece. -/
  lastBytes : Nat
  lastChars : Nat
  /-- A carriage return at the end of the last piece, which may be half of a
  line end. -/
  heldReturn : Bool

namespace Feed

/-- The decoding before the first byte. -/
def ofChars (cs : List Char) : Feed := ⟨cs, 0, 0, 0, 0, 0, false⟩

/-- The least number of bytes a piece is asked for. -/
def leastPiece : Nat := 8192

/-- How many bytes are asked for when characters are missing: as many as they
would take at the rate of the last piece. -/
def request (f : Feed) (missing : Nat) : Nat :=
  let guess := if f.lastBytes > f.lastChars && f.lastChars != 0 then
    f.lastBytes * missing / f.lastChars else missing
  max leastPiece guess

/-- The characters that end in front of a place, what follows them, and the
place where they end. -/
def upTo (limit : Nat) : Nat → List Char → List Char × List Char × Nat
  | start, [] => ([], [], start)
  | start, c :: cs =>
    if start + c.utf8Size ≤ limit then
      let (taken, rest, stop) := upTo limit (start + c.utf8Size) cs
      (c :: taken, rest, stop)
    else ([], c :: cs, start)

/-- Takes the next piece of `bytes` bytes; `none` when it shows the bad byte. -/
def pull? (bytes : Nat) (bad : Nat) (f : Feed) (missing : Nat) : Option Feed :=
  let taken := min bytes (f.taken + f.request missing)
  if bad < taken || f.taken = bytes then none
  else
    let (raw, rest, start) := upTo taken f.start f.chars
    let raw := if f.heldReturn then '\r' :: raw else raw
    let held := raw.getLast? == some '\r'
    let count := (Text.unifyNewlines (if held then raw.dropLast else raw)).length
    some ⟨rest, start, taken, f.ready + count, taken - f.taken, count, held⟩

/-- How many portions can be handed out before the bad byte is met. -/
def portions (bytes bad : Nat) : Nat → Feed → Nat
  | 0, _ => 0
  | fuel + 1, f =>
    if portion ≤ f.ready then portions bytes bad fuel { f with ready := f.ready - portion } + 1
    else
      match pull? bytes bad f (portion - f.ready) with
      | some f => portions bytes bad fuel f
      | none => 0

end Feed

def Source.ofBytes (b : ByteArray) : Source :=
  match Text.badByte? b with
  | none => .portions (Text.unifyNewlines ((Text.decode? b).getD "").toList)
  | some bad =>
    let chars := ((Text.decode? (b.extract 0 bad.start)).getD "").toList
    let n := Feed.portions b.size bad.place (2 * b.size + 2) (.ofChars chars)
    let wall := wallOf n
    let s := Source.portions ((Text.unifyNewlines chars).take wall)
    { s with wall := some (s.wall.getD (wall, .undecodable)) }

end AgentRelay.Yaml
