import AgentRelay.Yaml.Token

/-
  What the characters of a scalar allow: whether it may stand plain, in single
  quotes, or as a block.
-/

namespace AgentRelay.Yaml

/-- What was seen in a text. -/
structure Seen where
  marks : Bool
  lines : Bool
  special : Bool
  leadingSpace : Bool
  leadingBreak : Bool
  trailingSpace : Bool
  trailingBreak : Bool
  breakSpace : Bool
  spaceBreak : Bool

/-- The ways a text may be written. -/
structure Analysis where
  empty : Bool
  lines : Bool
  plain : Bool
  single : Bool
  block : Bool
  deriving DecidableEq, Repr

namespace Analysis

def isLineEnd (c : Char) : Bool :=
  c == '\n' || c == '\u0085' || c == '\u2028' || c == '\u2029'

/-- The end of the text counts as a gap. -/
def gapNext : List Char → Bool
  | [] => true
  | c :: _ => isGap c

/-- A character that only double quotes can hold. -/
def isSpecial (c : Char) : Bool :=
  let n := c.toNat
  let plain := c == '\n' || (0x20 ≤ n && n ≤ 0x7e)
  let wide := (n == 0x85 || (0xa0 ≤ n && n ≤ 0xd7ff) || (0xe000 ≤ n && n ≤ 0xfffd) ||
    (0x10000 ≤ n && n < 0x10ffff)) && c != byteOrderMark
  !(plain || wide)

/-- A first character that would be read as a mark. -/
def marksFirst (c : Char) (rest : List Char) : Bool :=
  "#,[]\x7b\x7d&*!|>\x27\x22%@\x60".toList.contains c ||
    ((c == '?' || c == ':' || c == '-') && gapNext rest)

def marksLater (afterGap : Bool) (c : Char) (rest : List Char) : Bool :=
  (c == ':' && gapNext rest) || (c == '#' && afterGap)

/-- Looks at the characters after the first; `last` is the one before. -/
def scan : Char → List Char → Seen → Seen
  | _, [], seen => seen
  | last, c :: rest, seen =>
    let atEnd := rest.isEmpty
    scan c rest
      { seen with
        marks := seen.marks || marksLater (isGap last) c rest
        lines := seen.lines || isLineEnd c
        special := seen.special || isSpecial c
        trailingSpace := seen.trailingSpace || (c == ' ' && atEnd)
        trailingBreak := seen.trailingBreak || (isLineEnd c && atEnd)
        breakSpace := seen.breakSpace || (c == ' ' && isLineEnd last)
        spaceBreak := seen.spaceBreak || (isLineEnd c && last == ' ') }

def look (c : Char) (rest : List Char) : Seen :=
  let start := (c :: rest).take 3
  let ruler := start == ['-', '-', '-'] || start == ['.', '.', '.']
  scan c rest
    ⟨ruler || marksFirst c rest, isLineEnd c, isSpecial c, c == ' ', isLineEnd c,
      c == ' ' && rest.isEmpty, isLineEnd c && rest.isEmpty, false, false⟩

def of : List Char → Analysis
  | [] => ⟨true, false, true, true, false⟩
  | c :: rest =>
    let s := look c rest
    let edges := s.leadingSpace || s.leadingBreak || s.trailingSpace || s.trailingBreak
    let hidden := s.spaceBreak || s.special
    ⟨false, s.lines,
      !(edges || s.breakSpace || hidden || s.lines || s.marks),
      !(s.breakSpace || hidden),
      !(s.trailingSpace || hidden)⟩

end Analysis

end AgentRelay.Yaml
