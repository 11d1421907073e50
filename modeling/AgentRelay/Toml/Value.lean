import AgentRelay.Toml.Moment
import AgentRelay.Toml.Quoted
import AgentRelay.Value.Mapping

/-
  The values of a TOML document, and its lines of a key and a value.

  A text over several lines is not complete on its first line; reading such a
  line gives the key and what there is of the text.
-/

namespace AgentRelay.Toml

/-- A text over several lines that is not complete yet: its key, the text so
far, and whether the last line end is to be dropped. -/
structure Unfinished where
  key : String
  text : List Char
  joined : Bool

/-- The kinds of values that an array must not mix. -/
inductive ItemKind where
  | bool : ItemKind
  | text : ItemKind
  | array : ItemKind
  | table : ItemKind
  | time : ItemKind
  /-- A day, with or without a time. -/
  | day : ItemKind
  | whole : ItemKind
  | floating : ItemKind
  deriving DecidableEq, Repr

/-- Cuts at quotes. What stands at odd places is quoted, as far as quotes of
one sort go. -/
def splitAtQuotes (cs : List Char) : List (List Char) :=
  let doubles := Text.splitOn '\x22' cs
  let first := doubles.headD []
  let (singles, doubles) :=
    if doubles.length > 1 ∧ first.contains '\x27' then
      weave doubles.length (Text.splitOn '\x27' first) (doubles.drop 1)
    else ([], doubles)
  singles ++
    match doubles with
    | [] => []
    | d :: ds => Text.splitOn '\x27' d ++ ds
where
  weave : Nat → List (List Char) → List (List Char) → List (List Char) × List (List Char)
    | 0, singles, doubles => (singles, doubles)
    | fuel + 1, singles, doubles =>
      match doubles with
      | [] => (singles, [])
      | d :: ds =>
        if singles.length % 2 = 0 then
          let last := singles.getLastD [] ++ '\x22' :: d
          let singles :=
            if last.contains '\x27' then singles.dropLast ++ Text.splitOn '\x27' last
            else singles.dropLast ++ [last]
          weave fuel singles ds
        else (singles, doubles)

/-- How often a sequence occurs in front of the first unquoted piece that holds
it; pieces alternate between unquoted and quoted. -/
def countBefore (sep : List Char) : Bool → List (List Char) → Nat
  | _, [] => 0
  | quoted, piece :: rest =>
    if !quoted && Text.containsSeq sep piece then 0
    else (Text.splitSeq sep piece).length - 1 + countBefore sep (!quoted) rest

def quotedWhole (key : List Char) : Bool :=
  match key with
  | c :: _ => (c == '\x22' || c == '\x27') && key.getLast? == some c
  | [] => false

def dottedParts (key : List Char) : List (List Char) :=
  if key.contains '\x22' || key.contains '\x27' then alternate false (splitAtQuotes key)
  else Text.splitOn '.' key
where
  alternate : Bool → List (List Char) → List (List Char)
    | _, [] => []
    | true, piece :: rest => piece :: alternate false rest
    | false, piece :: rest =>
      (Text.splitOn '.' piece).map Text.stripChars ++ alternate true rest

/-- The parts of a dotted key up to the last one that is not empty. -/
def dropEmptyEnd (parts : List (List Char)) : List (List Char) :=
  (parts.reverse.dropWhile List.isEmpty).reverse

/-- The text of a value that opens a text over several lines, from its last
opening quotes on; `none` when it opens none. -/
def opensText (p : List Char) : Except Fault (Option (List Char)) := do
  if p.length < 3 then return none
  let inArray :=
    p.head? == some '[' && (Text.stripChars p).getLast? != some ']' &&
      (let inner := Text.stripChars (middle 1 1 p)
       inner.head? == some '\x22' || inner.head? == some '\x27')
  let p ←
    if inArray then
      lastItem p.length (Text.splitOn ',' (Text.stripChars (p.drop 1)))
    else pure p
  let first ← charAt p 0
  if first ≠ '\x22' ∧ first ≠ '\x27' then return none
  let second ← charAt p 1
  if second ≠ first then return none
  let third ← charAt p 2
  if third ≠ first then return none
  let n := p.length
  if n > 5 ∧ p[n - 1]? = some first ∧ p[n - 2]? = some first ∧ p[n - 3]? = some first then
    return none
  return some p
where
  lastItem : Nat → List (List Char) → Except Fault (List Char)
    | 0, items => .ok (items.getLastD [])
    | fuel + 1, items => do
      let last := items.getLastD []
      if items.length > 1 then
        let c ← charAt last 0
        if c ≠ '\x22' ∧ c ≠ '\x27' then
          let kept := items.dropLast
          lastItem fuel (kept.dropLast ++ [kept.getLastD [] ++ ',' :: last])
        else return last
      else return last

/-- A piece of an array stands between quotes of one kind, the last one not
escaped. -/
def isBounded (cs : List Char) : Bool :=
  match cs with
  | [] => true
  | c :: _ =>
    cs.getLast? == some c && !Quoted.endsOdd ((cs.drop 1).dropLast)

/-- A piece is complete as a text: bounded, and not the start of a text in
three quotes. -/
def isComplete (cs : List Char) : Bool :=
  let triple :=
    match cs with
    | a :: b :: c :: _ =>
      a == b && b == c && cs[cs.length - 2]? != some a && cs[cs.length - 3]? != some a
    | _ => false
  isBounded cs && !triple

/-- Joins the pieces of an array of texts that were cut at commas inside
quotes. -/
def joinTexts : Nat → List (List Char) → Except Fault (List (List Char))
  | 0, pieces => .ok pieces
  | _ + 1, [] => .ok []
  | _ + 1, [last] => .ok [last]
  | fuel + 1, p :: q :: rest =>
    if isComplete (Text.stripChars p) then (joinTexts fuel (q :: rest)).map (p :: ·)
    else
      let joined := p ++ ',' :: q
      if rest.isEmpty ∧ !isComplete (Text.stripChars joined) then .error .cutShort
      else joinTexts fuel (joined :: rest)

/-- The state of the search for the end of a table inside an array. -/
structure TableSearch where
  first : Nat
  place : Nat
  depth : Nat
  inString : Bool

/-- The tables of an array of tables: from each opening brace to the brace that
closes it. -/
def tablesOf (a : Array Char) : Nat → TableSearch → List (List Char)
  | 0, _ => []
  | fuel + 1, s =>
    if s.place < a.size - 1 then
      let c := a.getD s.place ' '
      let inString :=
        if c = '\x22' ∨ c = '\x27' then
          let slashes := ((a.toList.take s.place).reverse.takeWhile (· == '\\')).length
          if s.inString ∧ slashes % 2 = 1 then s.inString else !s.inString
        else s.inString
      let depth := if !inString && c == '\x7b' then s.depth + 1 else s.depth
      let s := { s with inString := inString, depth := depth }
      if inString || c != '\x7d' then tablesOf a fuel { s with place := s.place + 1 }
      else if depth > 1 then tablesOf a fuel { s with place := s.place + 1, depth := depth - 1 }
      else
        let stop := s.place + 1
        let next := (List.range (a.size - 1)).find? fun i => stop < i && a.getD i ' ' == '\x7b'
        let first := next.getD (max (stop + 1) (a.size - 1))
        (a.toList.take stop).drop s.first ::
          tablesOf a fuel { s with first := first, place := first + 1 }
    else []

/-- The items of an array of arrays: cut at the commas outside inner brackets. -/
def outerItems : Int → List Char → List Char → List (List Char)
  | _, acc, [] => [acc.reverse]
  | depth, acc, c :: cs =>
    if c = '[' then outerItems (depth + 1) (c :: acc) cs
    else if c = ']' then outerItems (depth - 1) (c :: acc) cs
    else if c = ',' ∧ depth = 0 then acc.reverse :: outerItems depth [] cs
    else outerItems depth (c :: acc) cs

def itemsOf (a : List Char) : Except Fault (List (List Char)) := do
  let a := Text.stripChars a
  let inner := middle 1 1 a
  let inFront := Text.stripChars (inner.takeWhile (· != '['))
  if !inner.contains '[' || !inFront.isEmpty then
    let bare := Text.stripChars inner
    if bare.head? = some '\x7b' then
      let depth := if a[1]? = some '\x7b' then 1 else 0
      return tablesOf a.toArray (a.length + 1) ⟨1, 2, depth, false⟩
    else
      let pieces := Text.splitOn ',' inner
      let texts := bare.head? == some '\x22' || bare.head? == some '\x27'
      if texts then joinTexts (pieces.length + 1) pieces else return pieces
  else return outerItems 0 [] inner

/-- The value looks like one that is complete inside a table on one line. -/
def looksWhole (value : List Char) : Except Fault Bool := do
  let first ← charAt value 0
  let last := value.getLast?
  let bounded := last == some first && (first == '\x22' || first == '\x27')
  let array := first == '[' && last == some ']'
  let table := first == '\x7b' && last == some '\x7d'
  return bounded || first == '-' || first.isDigit || value == "true".toList ||
    value == "false".toList || array || table

/-- The entries of a table on one line as they are written; `carry` is a piece
that was not complete. -/
def entriesOf : List Char → Bool → List (List Char) → Except Fault (List (List Char))
  | _, carrying, [] => if carrying then .error .malformed else .ok []
  | carry, carrying, piece :: rest => do
    let group := if carrying then carry ++ ',' :: piece else piece
    match Text.splitAtMost '=' 1 group with
    | [_, value] =>
      if ← looksWhole (Text.stripChars value) then
        return group :: (← entriesOf [] false rest)
      else entriesOf group true rest
    | _ => throw .malformed

/-- The table behind a path of keys, with what `f` makes of it; missing tables
are made. Only a table can be entered. -/
def enter {α : Type} (f : Value → Except Fault (Value × α)) :
    List String → Value → Except Fault (Value × α)
  | [], v => f v
  | key :: path, .map o m => do
    let inner := (Mapping.get? m (.text key)).getD (Value.mapping [])
    let (inner, a) ← enter f path inner
    return (.map o (Mapping.set m (.text key) inner), a)
  | _ :: _, _ => .error .notTable

/-- The tail of a line counts as a value: a number, a day, or a time. -/
def tailIsNumber (tail : List Char) : Except Fault Bool := do
  if (Number.readReal? tail).isSome then return true
  return (← readMoment? tail).isSome || startsTime tail

/-- The tail of a line counts as a value by its start, or is a truth value. -/
def tailIsOpen (tail : List Char) : Bool :=
  match tail with
  | [] => true
  | c :: _ =>
    let word := Text.stripChars tail
    c == ' ' || c == '\t' || c == '\x27' || c == '\x22' || c == '[' || c == '\x7b' ||
      word == "true".toList || word == "false".toList

/-- Cuts a line at `i` equal signs at most, moving on while the tail is no
value; also says whether the tail is written as a number may be. -/
def cutLine (line : List Char) : Nat → Nat → Bool → List (List Char) →
    Except Fault (List (List Char) × Bool)
  | 0, _, strict, pair => .ok (pair, strict)
  | fuel + 1, i, strict, pair => do
    let tail := pair.getLastD []
    if tailIsOpen tail then return (pair, strict)
    if ← tailIsNumber tail then return (pair, strict)
    else
      let next := Text.splitAtMost '=' (i + 1) line
      if next.getLastD [] = tail then throw .malformed
      else cutLine line fuel (i + 1) (strict && numberIsStrict (next.getLastD [])) next

/-- Key and value of a line, and whether the value is written as a number may
be. -/
def keyAndValue (line : List Char) : Except Fault (List Char × List Char × Bool) := do
  let i := 1 + countBefore ['='] false (splitAtQuotes line)
  let pair := Text.splitAtMost '=' i line
  let tail := pair.getLastD []
  let strict := numberIsStrict tail
  let tail := if (tail.headD ' ').isDigit then tail.filter (· ≠ '_') else tail
  let (pair, strict) ← cutLine line (line.length + 1) i strict (pair.dropLast ++ [tail])
  return (Text.stripChars (Text.joinWith ['='] pair.dropLast),
    Text.stripChars (pair.getLastD []), strict)

/-- The path of tables and the last key that a written key names. -/
def keyPath (key : List Char) : Except Fault (List String × String) := do
  if key.contains '.' then
    let parts := dropEmptyEnd (dottedParts key)
    match parts.getLast? with
    | none => throw .cutShort
    | some last =>
      return ((parts.dropLast.filter fun p => !p.isEmpty).map String.ofList,
        String.ofList (Text.stripChars last))
  else
    let _ ← charAt key 0
    if quotedWhole key then
      -- Escapes with numbers stay as they are in a key.
      let name ← Quoted.unescape ((middle 1 1 key).map .char)
      return ([], String.ofList (name.map Point.shown))
    else return ([], String.ofList key)

def addKey (key : String) (v : Value) : Value → Except Fault Value
  | .map o m =>
    if Mapping.contains m (.text key) then .error .malformed
    else .ok (.map o (Mapping.set m (.text key) v))
  | _ => .error .malformed

/-- What is known of a text over several lines after its first line: the text
so far, with a line end unless a backslash stands at its end. -/
def unfinished (key : String) (value opened : List Char) : Unfinished :=
  let joined := Quoted.endsOdd opened
  ⟨key, if joined then value.dropLast else value ++ ['\n'], joined⟩

/-- How deep arrays may stand in one another, in steps: an array is two steps
deep, and a table on one line three. -/
def maxSteps : Nat := 980

/-- The steps left inside something that is `n` steps deep. -/
def deeper (n room : Nat) : Except Fault Nat :=
  if room < n then .error .tooDeep else .ok (room - n)

mutual

/-- A value with its kind, where `room` steps are left. -/
def readItem : Nat → (room : Nat) → Bool → List Char → Except Fault (Value × ItemKind)
  | 0, _, _, _ => .error .malformed
  | fuel + 1, room, strict, v => do
    let word := Text.lower v
    match v with
    | [] => throw .malformed
    | first :: _ =>
      if v = "true".toList then return (.bool true, .bool)
      else if word = "true".toList then throw .malformed
      else if v = "false".toList then return (.bool false, .bool)
      else if word = "false".toList then throw .malformed
      else if first = '\x22' ∨ first = '\x27' then
        return (.phrase (← Quoted.read first v), .text)
      else if first = '[' then
        let room ← deeper 2 room
        let items ← readItems fuel room none (← itemsOf v)
        return (Value.list items, .array)
      else if first = '\x7b' then
        let room ← deeper 3 room
        return (← readTable fuel room v (.map .inlineTable []), .table)
      else if startsTime v then return (.scalar (.time (← readTime v)), .time)
      else
        match ← readMoment? v with
        | some (.inl d) => return (.scalar (.date .own d), .day)
        | some (.inr m) => return (.scalar (.moment .own m), .day)
        | none =>
          if !strict then throw .malformed
          match ← readNumber v with
          | .whole i => return (.int i, .whole)
          | .floating x => return (.scalar (.real x), .floating)

/-- The items of an array, all of one kind; blank ones are left out. -/
def readItems : Nat → (room : Nat) → Option ItemKind → List (List Char) →
    Except Fault (List Value)
  | 0, _, _, _ => .error .malformed
  | _ + 1, _, _, [] => .ok []
  | fuel + 1, room, kind, item :: rest => do
    let item := Text.stripChars item
    if item.isEmpty then readItems fuel room kind rest
    else
      let (v, k) ← readItem fuel room true item
      if kind.any (· ≠ k) then throw .malformed
      return v :: (← readItems fuel room (some k) rest)

/-- Adds the entries of a table on one line to a table. -/
def readTable : Nat → (room : Nat) → List Char → Value → Except Fault Value
  | 0, _, _, _ => .error .malformed
  | fuel + 1, room, line, table => do
    let pieces := Text.splitOn ',' (middle 1 1 line)
    let pieces :=
      match pieces with
      | [p] => if (Text.stripChars p).isEmpty then [] else [p]
      | ps => ps
    readEntries fuel room (← entriesOf [] false pieces) table

/-- Adds entries to a table, up to one that opens a text over several lines. -/
def readEntries : Nat → (room : Nat) → List (List Char) → Value → Except Fault Value
  | 0, _, _, _ => .error .malformed
  | _ + 1, _, [], table => .ok table
  | fuel + 1, room, entry :: rest, table => do
    let (table, more) ← readLine fuel room entry table
    match more with
    | some _ => return table
    | none => readEntries fuel room rest table

/-- Adds a line of a key and a value to a table; the key and the text so far
when the line opens a text over several lines. -/
def readLine : Nat → (room : Nat) → List Char → Value →
    Except Fault (Value × Option Unfinished)
  | 0, _, _, _ => .error .malformed
  | fuel + 1, room, line, table => do
    let (key, value, strict) ← keyAndValue line
    let (path, last) ← keyPath key
    let place (inner : Value) : Except Fault (Value × Option Unfinished) := do
      match ← opensText value with
      | some opened =>
        -- A key that is there already is refused before the text is complete.
        let _ ← addKey last .null inner
        if last.isEmpty then throw .namelessText
        return (inner, some (unfinished last value opened))
      | none =>
        let (v, _) ← readItem fuel room strict value
        return (← addKey last v inner, none)
    enter place path table

end

def depthOf (cs : List Char) : Nat := 8 * cs.length + 16

end AgentRelay.Toml
