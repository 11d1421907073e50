import AgentRelay.Text.Pieces
import AgentRelay.Value.Display
import AgentRelay.Value.Mapping

/-
  Writing a mapping as a TOML document.

  Values come first, then the tables, level by level. Texts are written in
  double quotes; names of keys stand bare where they can. Values that hold
  themselves have no form. A half in a text is written as it is, one in the name of a
  key as an escape.

  Main statement: a text is written between quotes (`text_eq`), each character
  on its own.
-/

namespace AgentRelay.Toml

/-- Why a mapping has no TOML form. -/
inductive Unwritable where
  | noForm : Unwritable
  /-- A value of the right kind that is too large to be written, or a table
  inside itself. -/
  | badValue : Unwritable
  /-- A list inside itself. -/
  | endless : Unwritable
  | badKey (name : String) : Unwritable
  | badName : Unwritable
  deriving DecidableEq, Repr

namespace Writer

def escape (c : Char) : List Char :=
  if c = '\x08' then ['\\', 'b']
  else if c = '\t' then ['\\', 't']
  else if c = '\n' then ['\\', 'n']
  else if c = '\x0c' then ['\\', 'f']
  else if c = '\r' then ['\\', 'r']
  else if c = '\x22' then ['\\', '\x22']
  else if c = '\\' then ['\\', '\\']
  else if c.toNat < 32 ∨ c.toNat = 127 then '\\' :: 'u' :: Literal.hex 4 c.toNat
  else [c]

def text (cs : List Char) : List Char := '\x22' :: cs.flatMap escape ++ ['\x22']

theorem text_eq (cs : List Char) : text cs = '\x22' :: cs.flatMap escape ++ ['\x22'] := rfl

def replace (a b cs : List Char) : List Char := Text.joinWith b (Text.splitSeq a cs)

/-- Puts the pieces of a name together that were cut at escapes with two
digits: an escape turns into one with four digits where an odd number of
backslashes stands in front of it, and loses its backslash elsewhere. -/
def joinEscapes : Nat → List (List Char) → Option (List Char)
  | 0, _ => none
  | _ + 1, [] => none
  | _ + 1, [piece] => some piece
  | fuel + 1, first :: second :: rest => do
    let (first, rest) := if first.isEmpty then (second, rest) else (first, second :: rest)
    let first := replace ['\\', '\\'] ['\\'] first
    let last ← first.getLast?
    let slashes := min (first.reverse.takeWhile (· == '\\')).length (first.length - 1)
    let bare := (last != '\\') != (slashes % 2 == 1)
    match rest with
    | [] => none
    | next :: rest =>
      joinEscapes fuel ((first ++ (if bare then ['x'] else ['u', '0', '0']) ++ next) :: rest)

/-- A name that is not bare, from the way a message quotes it. -/
def quotedName (written : List Char) : Except Unwritable (List Char) :=
  let single := written.head? = some '\x27'
  let inner := (written.drop 1).dropLast
  let inner :=
    if single then
      replace ['\x22'] ['\\', '\x22'] (replace ['\\', '\x27'] ['\x27'] inner)
    else inner
  let pieces := Text.splitSeq ['\\', 'x'] inner
  match joinEscapes (pieces.length + 1) pieces with
  | some cs => .ok ('\x22' :: cs ++ ['\x22'])
  | none => .error .badName

/-- A name of letters, digits, dashes and underscores; a line feed may follow. -/
def isBare (name : List Char) : Bool :=
  let name := if name.getLast? = some '\n' then name.dropLast else name
  !name.isEmpty && name.all fun c => c.isAlphanum || c == '-' || c == '_'

def keyName (name : List Char) : Except Unwritable (List Char) :=
  if isBare name then .ok name else quotedName (Literal.text (String.ofList name))

/-- A text that something too large does not have. -/
def sized (cs : Option (List Char)) : Except Unwritable (List Char) :=
  match cs with
  | some cs => .ok cs
  | none => .error .badValue

/-- The name of a key as it is written, and the text under which its value is looked up. -/
def named : Scalar → Except Unwritable (List Char × Phrase)
  | .torn t => (quotedName (Literal.torn t)).map fun written => (written, .torn t)
  | k => do
    let name ← sized k.display?
    return (← keyName name, .whole (String.ofList name))

/-- A number with a point; exponents carry no leading zero. -/
def floating (x : Number.Binary64) : List Char :=
  replace ['e', '-', '0'] ['e', '-'] (replace ['e', '+', '0'] ['e', '+'] x.text)

/-- What a document is made of. -/
abbrev Script := List Point

def chars (cs : List Char) : Script := cs.map .char

def escapePoint : Point → Script
  | .char c => chars (escape c)
  | .half h => [.half h]

def torn (t : Torn) : Script := chars ['\x22'] ++ t.points.flatMap escapePoint ++ chars ['\x22']

def scalar : Scalar → Except Unwritable Script
  | .null => .error .noForm
  | .bool b => .ok (chars (if b then "true" else "false").toList)
  | .int i => (sized (Number.intText? i)).map chars
  | .real x => .ok (chars (floating x))
  | .text s => .ok (chars (text s.toList))
  | .torn t => .ok (torn t)
  | .bytes bs =>
    .ok (chars ('[' :: bs.flatMap (fun b => ' ' :: Number.digitsOf b.toNat ++ [',']) ++ [']']))
  | .date _ d => .ok (chars d.text)
  | .time t => .ok (chars t.text)
  | .moment _ m =>
    (sized (m.text? 'T')).map fun cs => chars (replace "+00:00".toList ['Z'] cs)

def items (xs : List Script) : Script :=
  chars ['['] ++ xs.flatMap (fun x => chars [' '] ++ x ++ chars [',']) ++ chars [']']

/-- How deep lists may stand in one another where they are written. The bound is the
stack of the interpreter, as for the readers of YAML. -/
def maxDepth : Nat := 490

/-- A value on one line. Of a table inside a list only the keys are written. The
first argument bounds how deep lists stand in one another. -/
def value : Nat → Value → Except Unwritable Script
  | 0, _ => .error .endless
  | fuel + 1, v =>
    match v with
    | .scalar s => scalar s
    | .set _ xs => (xs.mapM scalar).map items
    | .map _ m => (m.mapM fun e => scalar e.1).map items
    | v =>
      match v.items? with
      | some xs => (xs.mapM (value fuel)).map items
      | none => .error .endless

/-- Tables still to be written, by name. -/
abbrev Tables := List (List Char × Value)

/-- Adds a table; one of the same name is replaced. -/
def Tables.set : Tables → List Char → Value → Tables
  | [], name, v => [(name, v)]
  | (n, w) :: ts, name, v => if n = name then (n, v) :: ts else (n, w) :: Tables.set ts name v

def under (sup name : List Char) : List Char := if sup.isEmpty then name else sup ++ '.' :: name

def isEmptyLike : Value → Bool
  | .scalar (.text s) => s.isEmpty
  | .scalar (.bytes bs) => bs.isEmpty
  | .seq _ xs => xs.isEmpty
  | .tuple _ xs => xs.isEmpty
  | .set _ xs => xs.isEmpty
  | _ => false

/-- The name that the first item of a value which is no table has as a key. -/
def firstName? (v : Value) : Except Unwritable (Option (List Char)) :=
  match v with
  | .scalar (.text s) => .ok (s.toList.head?.map fun c => [c])
  | .scalar (.torn t) => .ok (t.shown.toList.head?.map fun c => [c])
  | v =>
    match v.items? with
    | some (x :: _) => (sized x.display?).map some
    | _ => .ok none

def tableItems? (v : Value) : Option (List Value) :=
  match v with
  | .seq _ xs => if xs.any Value.isMapping then v.items? else none
  | _ => none

mutual

def depth : Value → Nat
  | .scalar _ => 0
  | .seq _ xs => depths xs + 1
  | .tuple _ xs => depths xs + 1
  | .set _ _ => 1
  | .map _ m => entryDepths m + 1
  | .loop _ _ => 0

def depths : List Value → Nat
  | [] => 0
  | x :: xs => max (depth x) (depths xs)

def entryDepths : List (Scalar × Value) → Nat
  | [] => 0
  | (_, v) :: m => max (depth v) (entryDepths m)

end

/-- A table's own lines, and the tables inside it. -/
abbrev Laid := Except Unwritable (Script × Tables)

/-- One level of the tables inside an item of the list `name`. -/
def level (inner : List Char → Value → Laid) (name : List Char) :
    Tables → Script × Tables → Laid
  | [], acc => .ok acc
  | (n, v) :: ts, (text, next) => do
    let (own, tables) ← inner (under name n) v
    let text :=
      if own.isEmpty then text else text ++ chars ('[' :: under name n ++ [']', '\n']) ++ own
    -- Tables deeper down wait for the next level.
    let next := tables.foldl (fun next e => Tables.set next (under n e.1) e.2) next
    level inner name ts (text, next)

/-- The tables inside an item of the list `name`, level by level. -/
def innerTables (inner : List Char → Value → Laid) (name : List Char) :
    Nat → Tables → Except Unwritable Script
  | 0, _ => .ok []
  | _ + 1, [] => .ok []
  | fuel + 1, t :: ts => do
    let (text, next) ← level inner name (t :: ts) ([], [])
    return text ++ (← innerTables inner name fuel next)

/-- The tables of the list `name`, each with the tables inside it. An item whose
own text starts with a header stands behind an empty line. -/
def listTables (inner : List Char → Value → Laid) (fuel : Nat) (name : List Char) :
    List Value → Except Unwritable Script
  | [] => .ok []
  | x :: xs => do
    let (own, tables) ← inner name x
    let (first, second) := if own.head? = some (.char '[') then ([], own) else (own, [])
    let below ← innerTables inner name fuel tables
    let header := chars ('[' :: '[' :: name ++ [']', ']', '\n'])
    return header ++ first ++ chars ['\n'] ++ second ++ below ++
      (← listTables inner fuel name xs)

/-- A table being laid out: the lines of its values, the lists of tables, and
the tables inside it. -/
structure Layout where
  lines : Script
  lists : Script
  tables : Tables

/-- The entries of a table, looked up by the text of their keys. -/
def entries (inner : List Char → Value → Laid) (fuel : Nat) (sup : List Char) (all : Mapping) :
    List (Scalar × Value) → Layout → Except Unwritable Layout
  | [], l => .ok l
  | (k, _) :: m, l => do
    let (written, name) ← named k
    match Mapping.get? all (.phrase name) with
    | none => throw (.badKey name.shown)
    | some (.map o es) =>
      entries inner fuel sup all m { l with tables := l.tables.set written (.map o es) }
    | some v =>
      match tableItems? v with
      | some xs =>
        let more ← listTables inner fuel (under sup written) xs
        entries inner fuel sup all m { l with lists := l.lists ++ more }
      | none =>
        if v.isNull then entries inner fuel sup all m l
        else
          let line := chars (written ++ " = ".toList) ++ (← value maxDepth v) ++ chars ['\n']
          entries inner fuel sup all m { l with lines := l.lines ++ line }

/-- The lines of a table's own values, and the tables inside it. Lists of
tables are written behind the other values. A value that is no table is gone
through for keys, and has none. -/
def table : Nat → List Char → Value → Laid
  | 0, _, _ => .error .endless
  | fuel + 1, sup, v => do
    match v.entries? with
    | some m => do
      let l ← entries (table fuel) fuel sup m m ⟨[], [], []⟩
      return (l.lines ++ l.lists, l.tables)
    | none => do
      if isEmptyLike v then return ([], [])
      match ← firstName? v with
      | some name => let _ ← keyName name
      | none => pure ()
      throw .noForm

def identity? : Value → Option (Nat × Nat)
  | .map (.node doc n) _ => some (doc, n)
  | _ => none

/-- An empty line, or nothing, stands at the end. -/
def isApart (text : Script) : Bool :=
  text.isEmpty || text.reverse.take 2 == chars ['\n', '\n']

/-- Writes tables behind `text`, level by level; a table that was met on a
level above stands inside itself. -/
def levels (size : Nat) : Nat → List (Nat × Nat) → Script → Tables →
    Except Unwritable Script
  | 0, _, text, _ => .ok text
  | _ + 1, _, text, [] => .ok text
  | fuel + 1, above, text, t :: ts => do
    let here := (t :: ts).filterMap fun e => identity? e.2
    if above.any here.contains then throw .badValue
    let (text, next) ← (t :: ts).foldlM (fun (text, next) e => do
      let (own, inner) ← table size e.1 e.2
      let text :=
        if !own.isEmpty || inner.isEmpty then
          let gap := if isApart text then [] else ['\n']
          text ++ chars (gap ++ '[' :: e.1 ++ [']', '\n']) ++ own
        else text
      return (text, inner.foldl (fun next s => Tables.set next (e.1 ++ '.' :: s.1) s.2) next))
      (text, [])
    levels size fuel (above ++ here) text next

end Writer

def write (m : Mapping) : Except Unwritable Phrase := do
  let size := 4 * Writer.depth (Value.mapping m) + 8
  let (text, tables) ← Writer.table size [] (Value.mapping m)
  return .ofPoints (← Writer.levels size size [] text tables)

end AgentRelay.Toml
