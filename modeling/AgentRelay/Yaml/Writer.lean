import AgentRelay.Value.Mapping
import AgentRelay.Yaml.Tag
import AgentRelay.Yaml.Writer.Sheet

/-
  Writing a mapping as a YAML document.

  Collections are written as blocks, one entry a line; a sequence behind a key
  stands no deeper than the key. A node that occurs twice gets a name at its
  first place, and every later place writes the name alone, also inside the
  node itself.

  A time of day and a table that was written on one line have no YAML form, and
  neither have numbers with too many digits and moments whose offset is a day or
  more.
-/

namespace AgentRelay.Yaml

/-- Why a mapping has no YAML form. -/
inductive Unwritable where
  | noForm : Unwritable
  | tooLarge : Unwritable
  | tooDeep : Unwritable
  deriving DecidableEq, Repr

/-- The identity of a node: its document and its number there. -/
abbrev Identity := Nat × Nat

/-- The identity a value has, if it can occur twice. -/
def identity? : Origin → Option Identity
  | .node doc n => some (doc, n)
  | _ => none

def originOf : Scalar → Origin
  | .date o _ => o
  | .moment o _ => o
  | _ => .own

/-- The identities met so far, and those met twice in the order of their second
meeting. -/
structure Meetings where
  seen : List Identity
  twice : List Identity

namespace Meetings

/-- Meets a node. The second answer says whether it was met before. -/
def meet (o : Origin) (m : Meetings) : Meetings × Bool :=
  match identity? o with
  | none => (m, false)
  | some i =>
    if m.seen.contains i then
      (if m.twice.contains i then m else { m with twice := m.twice ++ [i] }, true)
    else ({ m with seen := i :: m.seen }, false)

def scalar (s : Scalar) (m : Meetings) : Meetings := (m.meet (originOf s)).1

mutual

def value : Value → Meetings → Meetings
  | .scalar s, m => m.scalar s
  | .seq o xs, m =>
    let (m, again) := m.meet o
    if again then m else values xs m
  | .tuple o xs, m =>
    let (m, again) := m.meet o
    if again then m else values xs m
  | .loop _ o, m => (m.meet o).1
  | .set o xs, m =>
    let (m, again) := m.meet o
    if again then m else xs.foldl (fun m s => m.scalar s) m
  | .map o es, m =>
    let (m, again) := m.meet o
    if again then m else entries es m

def values : List Value → Meetings → Meetings
  | [], m => m
  | x :: xs, m => values xs (value x m)

def entries : List (Scalar × Value) → Meetings → Meetings
  | [], m => m
  | (k, v) :: es, m => entries es (value v (m.scalar k))

end

end Meetings

/-- How a scalar is written: what its text is made of, its tag, and whether it asks for a
bar. -/
structure Written where
  points : List Point
  tag : Tag
  bar : Bool

namespace Written

def ofText (cs : List Char) (tag : Tag) (bar : Bool) : Written := ⟨cs.map .char, tag, bar⟩

/-- The text with its halves as they are shown. -/
def text (x : Written) : List Char := x.points.map Point.shown

/-- Only double quotes can hold a half. -/
def isTorn (x : Written) : Bool :=
  x.points.any fun p => match p with | .half _ => true | .char _ => false

end Written

def base64Digit (n : Nat) : Char :=
  if n < 26 then Char.ofNat (65 + n)
  else if n < 52 then Char.ofNat (71 + n)
  else if n < 62 then Char.ofNat (n - 4)
  else if n = 62 then '+' else '/'

def base64 : List UInt8 → List Char
  | a :: b :: c :: bs =>
    let n := a.toNat * 65536 + b.toNat * 256 + c.toNat
    base64Digit (n / 262144) :: base64Digit (n / 4096 % 64) :: base64Digit (n / 64 % 64) ::
      base64Digit (n % 64) :: base64 bs
  | [a, b] =>
    let n := a.toNat * 1024 + b.toNat * 4
    [base64Digit (n / 4096), base64Digit (n / 64 % 64), base64Digit (n % 64), '=']
  | [a] => [base64Digit (a.toNat / 4), base64Digit (a.toNat % 4 * 16), '=', '=']
  | [] => []

/-- Lines of 76 characters; `fuel` bounds their number. -/
def linesOf76 : Nat → List Char → List (List Char)
  | 0, _ => []
  | _ + 1, [] => []
  | fuel + 1, cs => cs.take 76 :: linesOf76 fuel (cs.drop 76)

def byteLines (bs : List UInt8) : List (List Char) :=
  let cs := base64 bs
  linesOf76 (cs.length + 1) cs

/-- A number with a point. An exponent needs a point in front of it. -/
def floating (x : Number.Binary64) : List Char :=
  if x.isNan then ".nan".toList
  else if x.isInfinite then (if x.negative then "-.inf" else ".inf").toList
  else
    let cs := x.text
    if cs.contains '.' || !cs.contains 'e' then cs
    else cs.takeWhile (· != 'e') ++ '.' :: '0' :: cs.dropWhile (· != 'e')

/-- A text that something too large does not have. -/
def sized (cs : Option (List Char)) : Except Unwritable (List Char) :=
  match cs with
  | some cs => .ok cs
  | none => .error .tooLarge

def Written.of : Scalar → Except Unwritable Written
  | .null => .ok (ofText "null".toList .null false)
  | .bool b => .ok (ofText (if b then "true" else "false").toList .bool false)
  | .int i => (sized (Number.intText? i)).map (ofText · .int false)
  | .real x => .ok (ofText (floating x) .real false)
  | .text s => .ok (ofText s.toList .text false)
  | .torn t => .ok ⟨t.points, .text, false⟩
  | .bytes bs => .ok (ofText ((byteLines bs).flatMap (· ++ ['\n'])) .binary true)
  | .date _ d => .ok (ofText d.text .moment false)
  | .time _ => .error .noForm
  | .moment _ m => (sized (m.text? ' ')).map (ofText · .moment false)

def shortTag (t : Tag) : List Char :=
  match Tag.names.find? fun e => e.2 == t with
  | some e => '!' :: '!' :: e.1.toList
  | none => []

/-- A sheet, with the names of nodes and the identities already written. -/
structure Writer where
  sheet : Sheet
  named : List Identity
  done : List Identity

namespace Writer

def on (f : Sheet → Sheet) (w : Writer) : Writer := { w with sheet := f w.sheet }

def name? (o : Origin) (w : Writer) : Option (List Char) := do
  let i ← identity? o
  let n ← w.named.findIdx? (· == i)
  return 'i' :: 'd' :: Number.padLeft 3 (Number.digitsOf (n + 1))

def isDone (o : Origin) (w : Writer) : Bool :=
  match identity? o with
  | some i => w.done.contains i
  | none => false

/-- Writes the name of a node that was written before, or names it and goes on
with `body`. -/
def node (o : Origin) (body : Writer → Writer) (w : Writer) : Writer :=
  match w.name? o with
  | none => body w
  | some name =>
    if w.isDone o then w.on (Sheet.mark ('*' :: name) true false)
    else
      let w := w.on (Sheet.mark ('&' :: name) true false)
      body { w with done := (identity? o).toList ++ w.done }

/-- The styles a scalar can be written in. -/
inductive Style where
  | plain : Style
  | single : Style
  | double : Style
  | bar : Style
  deriving DecidableEq, Repr

/-- The style of a scalar: plain where its look is its tag, single quotes where
they can hold it, double quotes otherwise. A key on a line of its own must be
one line. -/
def style (simpleKey : Bool) (x : Written) : Style :=
  let a := Analysis.of x.text
  if x.isTorn then .double
  else if x.bar then
    if !simpleKey && a.block then .bar else .double
  else if Tag.ofPlain x.text = x.tag ∧ !(simpleKey && (a.empty || a.lines)) ∧ a.plain then .plain
  else if a.single && !(simpleKey && a.lines) then .single
  else .double

/-- A scalar in its style, behind its tag where the style does not show it. -/
def written (simpleKey : Bool) (indent : Nat) (x : Written) (w : Writer) : Writer :=
  let style := style simpleKey x
  let tagged := if style = .plain then false else x.tag ≠ .text
  let w := if tagged then w.on (Sheet.mark (shortTag x.tag) true false) else w
  match style with
  | .plain => w.on (Sheet.plain indent (!simpleKey) x.text)
  | .single => w.on (Sheet.single indent (!simpleKey) x.text)
  | .double => w.on (Sheet.double indent (!simpleKey) x.points)
  | .bar => w.on (Sheet.bar indent ((Text.splitOn '\n' x.text).dropLast))

def scalar (simpleKey : Bool) (indent : Nat) (s : Scalar) (w : Writer) : Writer :=
  match Written.of s with
  | .error _ => w
  | .ok x => w.node (originOf s) (written simpleKey (indent + 2) x)

/-- A key fits in front of its colon: it is short, not empty, and one line. -/
def isSimpleKey (s : Scalar) (w : Writer) : Bool :=
  let name := ((w.name? (originOf s)).getD []).length
  match Written.of s with
  | .error _ => false
  | .ok x =>
    if (w.name? (originOf s)).isSome && w.isDone (originOf s) then name < 128
    else
      let a := Analysis.of x.text
      name + (shortTag x.tag).length + x.text.length < 128 && !a.empty && !a.lines

def key (indent : Nat) (k : Scalar) (w : Writer) : Writer :=
  let w := w.on (Sheet.indentTo indent)
  if w.isSimpleKey k then (w.scalar true indent k).on (Sheet.mark [':'] false false)
  else
    let w := (w.on (Sheet.mark ['?'] true true)).scalar false indent k
    w.on fun s => Sheet.mark [':'] true true (Sheet.indentTo indent s)

/-- An empty collection in brackets. -/
def brackets (opening closing : Char) (w : Writer) : Writer :=
  w.on fun s =>
    let s := Sheet.mark [opening] true false s
    Sheet.mark [closing] false false { s with blank := true }

mutual

/-- A value inside a collection at `indent`; `asValue` says that it stands
behind a key. -/
def value (asValue : Bool) (indent : Nat) : Value → Writer → Writer
  | .scalar s, w => w.scalar false indent s
  | .seq o xs, w =>
    w.node o fun w =>
      -- A sequence behind a key stands at the column of the key.
      let inner := if asValue && !w.sheet.margin then indent else indent + 2
      if xs.isEmpty then brackets '[' ']' w else items inner xs w
  | .tuple o xs, w =>
    w.node o fun w =>
      let inner := if asValue && !w.sheet.margin then indent else indent + 2
      if xs.isEmpty then brackets '[' ']' w else items inner xs w
  | .loop _ o, w => w.node o id
  | .set o xs, w =>
    w.node o fun w =>
      let w := w.on (Sheet.mark (shortTag .set) true false)
      if xs.isEmpty then brackets '\x7b' '\x7d' w
      else xs.foldl (fun w s => (w.key (indent + 2) s).scalar false (indent + 2) .null) w
  | .map o es, w =>
    w.node o fun w =>
      if es.isEmpty then brackets '\x7b' '\x7d' w else entries (indent + 2) es w

def items (indent : Nat) : List Value → Writer → Writer
  | [], w => w
  | x :: xs, w =>
    let w := w.on fun s => Sheet.mark ['-'] true true (Sheet.indentTo indent s)
    items indent xs (value false indent x w)

def entries (indent : Nat) : List (Scalar × Value) → Writer → Writer
  | [], w => w
  | (k, v) :: es, w => entries indent es (value true indent v (w.key indent k))

end

end Writer

/-- How deep collections may stand in one another where they are written. It is less
than what can be read, because the interpreter spends more of its stack on a collection
that it writes. -/
def maxWrittenDepth : Nat := 328

/-- The first scalar without a YAML form. -/
def checkScalars : List Scalar → Except Unwritable Unit
  | [] => .ok ()
  | s :: ss => do
    let _ ← Written.of s
    checkScalars ss

mutual

/-- A value has a YAML form, in a place that is `depth` collections deep. -/
def check (depth : Nat) : Value → Except Unwritable Unit
  | .scalar s => checkScalars [s]
  | .seq _ xs => if depth > maxWrittenDepth then .error .tooDeep else checkAll (depth + 1) xs
  | .tuple _ xs => if depth > maxWrittenDepth then .error .tooDeep else checkAll (depth + 1) xs
  | .set _ xs => checkScalars xs
  | .map o es =>
    if o = .inlineTable then .error .noForm
    else if depth > maxWrittenDepth then .error .tooDeep
    else checkEntries (depth + 1) es
  | .loop _ _ => .ok ()

def checkAll (depth : Nat) : List Value → Except Unwritable Unit
  | [] => .ok ()
  | x :: xs => do
    check depth x
    checkAll depth xs

def checkEntries (depth : Nat) : List (Scalar × Value) → Except Unwritable Unit
  | [] => .ok ()
  | (k, v) :: es => do
    checkScalars [k]
    check depth v
    checkEntries depth es

end

def write (m : Mapping) : Except Unwritable String := do
  checkEntries 1 m
  let meetings := Meetings.entries m ⟨[], []⟩
  let w : Writer := ⟨Sheet.empty, meetings.twice, []⟩
  let w := if m.isEmpty then Writer.brackets '\x7b' '\x7d' w else Writer.entries 0 m w
  return String.ofList (Sheet.indentTo 0 w.sheet).toList

end AgentRelay.Yaml
