import AgentRelay.Value.Display
import AgentRelay.Yaml.Writer.Analysis

/-
  A sheet of YAML being written: its characters, the column, and what the last
  thing written was. Scalars are put on it in one of four styles; lines are
  folded only beyond a width of a thousand characters.
-/

namespace AgentRelay.Yaml

/-- A sheet: the characters so far in reverse, the column, whether the last
thing written was white space, and whether only marks of indentation stand on
the line. -/
structure Sheet where
  reversed : List Char
  column : Nat
  blank : Bool
  margin : Bool

namespace Sheet

/-- The empty sheet. -/
def empty : Sheet := ⟨[], 0, true, true⟩

def toList (s : Sheet) : List Char := s.reversed.reverse

def width : Nat := 1000

/-- Characters, without a word on what they are. -/
def put (cs : List Char) (s : Sheet) : Sheet :=
  { s with reversed := cs.reverse ++ s.reversed, column := s.column + cs.length }

def inText (s : Sheet) : Sheet := { s with blank := false, margin := false }

/-- A mark, with a space in front where one is needed. A mark of indentation
keeps the margin. -/
def mark (cs : List Char) (apart indents : Bool) (s : Sheet) : Sheet :=
  let s := put (if s.blank || !apart then cs else ' ' :: cs) s
  { s with blank := false, margin := s.margin && indents }

def newLine (c : Char) (s : Sheet) : Sheet := ⟨c :: s.reversed, 0, true, true⟩

/-- Up to the column of an indentation, on a new line where needed. -/
def indentTo (n : Nat) (s : Sheet) : Sheet :=
  let s :=
    if !s.margin || s.column > n || (s.column == n && !s.blank) then newLine '\n' s else s
  if s.column < n then { put (List.replicate (n - s.column) ' ') s with blank := true } else s

/-- Characters up to the next one of a class, and the rest. -/
def cut (p : Char → Bool) (cs : List Char) : List Char × List Char :=
  (cs.takeWhile fun c => !p c, cs.dropWhile fun c => !p c)

/-- The words of a plain scalar and the blanks between them. A single blank
beyond the width becomes a fold. -/
def plainFrom (indent : Nat) (split : Bool) : Nat → List Char → Sheet → Sheet
  | 0, _, s => s
  | _ + 1, [], s => s
  | fuel + 1, c :: cs, s =>
    if c = ' ' then
      let blanks := (c :: cs).takeWhile (· == ' ')
      let rest := (c :: cs).drop blanks.length
      let s :=
        if blanks.length = 1 ∧ s.column > width ∧ split then inText (indentTo indent s)
        else put blanks s
      plainFrom indent split fuel rest s
    else
      let (word, rest) := cut (· == ' ') (c :: cs)
      plainFrom indent split fuel rest (put word s)

def plain (indent : Nat) (split : Bool) (cs : List Char) (s : Sheet) : Sheet :=
  if cs.isEmpty then s
  else
    let s := if s.blank then s else put [' '] s
    plainFrom indent split (cs.length + 1) cs (inText s)

/-- The line ends of a text in single quotes: the first line feed is written
twice, because a single one would be read as a space. -/
def breaks (cs : List Char) (s : Sheet) : Sheet :=
  let s := if cs.head? = some '\n' then newLine '\n' s else s
  cs.foldl (fun s c => newLine c s) s

/-- The inside of single quotes; `first` says that nothing stands before. -/
def singleFrom (indent : Nat) (split : Bool) : Nat → Bool → List Char → Sheet → Sheet
  | 0, _, _, s => s
  | _ + 1, _, [], s => s
  | fuel + 1, first, c :: cs, s =>
    if c = ' ' then
      let blanks := (c :: cs).takeWhile (· == ' ')
      let rest := (c :: cs).drop blanks.length
      let s :=
        if blanks.length = 1 ∧ s.column > width ∧ split ∧ !first ∧ !rest.isEmpty then
          indentTo indent s
        else put blanks s
      singleFrom indent split fuel false rest s
    else if Analysis.isLineEnd c then
      let ends := (c :: cs).takeWhile Analysis.isLineEnd
      let rest := (c :: cs).drop ends.length
      singleFrom indent split fuel false rest (indentTo indent (breaks ends s))
    else if c = '\x27' then singleFrom indent split fuel false cs (put ['\x27', '\x27'] s)
    else
      let (word, rest) :=
        cut (fun c => c == ' ' || Analysis.isLineEnd c || c == '\x27') (c :: cs)
      singleFrom indent split fuel false rest (put word s)

def single (indent : Nat) (split : Bool) (cs : List Char) (s : Sheet) : Sheet :=
  let s := mark ['\x27'] true false s
  mark ['\x27'] false false (singleFrom indent split (cs.length + 1) true cs s)

def letter? : Char → Option Char
  | '\x00' => some '0'
  | '\x07' => some 'a'
  | '\x08' => some 'b'
  | '\t' => some 't'
  | '\n' => some 'n'
  | '\x0b' => some 'v'
  | '\x0c' => some 'f'
  | '\r' => some 'r'
  | '\x1b' => some 'e'
  | '\x22' => some '\x22'
  | '\\' => some '\\'
  | '\u0085' => some 'N'
  | '\u00a0' => some '_'
  | '\u2028' => some 'L'
  | '\u2029' => some 'P'
  | _ => none

/-- A character that stands for itself in double quotes. -/
def standsDouble (c : Char) : Bool :=
  let n := c.toNat
  ((0x20 ≤ n && n ≤ 0x7e) || (0xa0 ≤ n && n ≤ 0xd7ff) || (0xe000 ≤ n && n ≤ 0xfffd)) &&
    !(c == '\x22' || c == '\\' || c == '\u2028' || c == '\u2029' || c == byteOrderMark)

def capitalHex (width n : Nat) : List Char := (Literal.hex width n).map Char.toUpper

def escape (c : Char) : List Char :=
  match letter? c with
  | some l => ['\\', l]
  | none =>
    let n := c.toNat
    if n ≤ 0xff then '\\' :: 'x' :: capitalHex 2 n
    else if n ≤ 0xffff then '\\' :: 'u' :: capitalHex 4 n
    else '\\' :: 'U' :: capitalHex 8 n

/-- A half is always written as an escape. -/
def pointStands : Point → Bool
  | .char c => standsDouble c
  | .half _ => false

def escapePoint : Point → List Char
  | .char c => escape c
  | .half h => '\\' :: 'u' :: capitalHex 4 h.number

/-- The inside of double quotes. `held` are the characters not yet written, in
reverse, and `first` says that the next character is the first one. Beyond the
width a line ends with a backslash, after an escape or in front of a blank. -/
def doubleFrom (indent : Nat) (split : Bool) : Bool → List Char → List Point → Sheet → Sheet
  | _, held, [], s => put held.reverse s
  | first, held, p :: ps, s =>
    let stands := pointStands p
    let s := if stands then s else put (escapePoint p) (put held.reverse s)
    let before := if stands then held else []
    let mayFold := !first && !ps.isEmpty && (p.shown == ' ' || before.isEmpty)
    let reach := if stands then s.column + before.length else s.column - 1
    if mayFold && reach > width && split then
      let s := inText (indentTo indent (put ('\\' :: before).reverse s))
      let next := if stands then p.shown else (ps.map Point.shown).headD ' '
      let s := if next = ' ' then put ['\\'] s else s
      doubleFrom indent split false (if stands then [p.shown] else []) ps s
    else doubleFrom indent split false (if stands then p.shown :: before else []) ps s

def double (indent : Nat) (split : Bool) (ps : List Point) (s : Sheet) : Sheet :=
  let s := mark ['\x22'] true false s
  mark ['\x22'] false false (doubleFrom indent split true [] ps s)

/-- Lines under a bar; each ends with a line feed. -/
def bar (indent : Nat) (lines : List (List Char)) (s : Sheet) : Sheet :=
  let s := newLine '\n' (mark ['|'] true false s)
  lines.foldl (fun s line => newLine '\n' (put line (indentTo indent s))) s

end Sheet

end AgentRelay.Yaml
