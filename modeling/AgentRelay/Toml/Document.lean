import AgentRelay.Toml.Value

/-
  Reading a TOML document: its headers and lines, from top to bottom.

  A header opens a table, whose place is kept as the way to it from the root;
  every following line of a key and a value goes there. Tables that a header
  only passes through may be opened by a later header.
-/

namespace AgentRelay.Toml

/-- One step of the way to a table. -/
inductive Step where
  | key : String → Step
  | last : Step
  deriving DecidableEq, Repr

def valueAt : List Step → Value → Option Value
  | [], v => some v
  | .key k :: way, .map _ m => (Mapping.get? m (.text k)).bind (valueAt way)
  | .last :: way, .seq _ xs => xs.getLast?.bind (valueAt way)
  | _, _ => none

def putAt (new : Value) : List Step → Value → Value
  | [], _ => new
  | .key k :: way, .map o m =>
    match Mapping.get? m (.text k) with
    | some v => .map o (Mapping.set m (.text k) (putAt new way v))
    | none => .map o (Mapping.set m (.text k) new)
  | .last :: way, .seq o xs =>
    match xs.getLast? with
    | some v => .seq o (xs.dropLast ++ [putAt new way v])
    | none => .seq o xs
  | _, v => v

/-- A document being read: its root, the way to the open table, the names of
tables that were only passed through, and a text that is not complete. -/
structure Document where
  root : Value
  way : List Step
  passed : List String
  unfinished : Option Unfinished

namespace Document

/-- The empty document. -/
def empty : Document := ⟨Value.mapping [], [], [], none⟩

def current (d : Document) : Value := (valueAt d.way d.root).getD .null

def setCurrent (v : Value) (d : Document) : Document := { d with root := putAt v d.way d.root }

def go (s : Step) (d : Document) : Document := { d with way := d.way ++ [s] }

/-- Puts a new table under a name of the open table, in a list where it is to
be one of several. -/
def addTable (name : String) (several : Bool) (d : Document) : Document :=
  match d.current with
  | .map o m =>
    let table := Value.mapping []
    let table := if several then Value.list [table] else table
    d.setCurrent (.map o (Mapping.set m (.text name) table))
  | _ => d

/-- The last item of the open list. -/
def goLast (d : Document) : Except Fault Document :=
  match d.current with
  | .map _ _ => .ok d
  | .seq _ [] => .error .cutShort
  | .seq _ _ => .ok (d.go .last)
  | .text s => if s.isEmpty then .error .cutShort else .ok d
  | .scalar (.torn _) => .ok d
  | _ => .error .notTable

/-- Opens the table under the last name of a header, which exists already. -/
def reopen (name : String) (several : Bool) (inner : Value) (d : Document) :
    Except Fault Document :=
  if d.passed.contains name then
    if several then .error .malformed else .ok { d with passed := d.passed.erase name }
  else if several then
    match inner with
    | .seq o xs =>
      .ok ({ (d.go (.key name)).setCurrent (.seq o (xs ++ [Value.mapping []])) with way := d.way })
    | _ => .error .notList
  else .error .malformed

/-- Opens the table under one name of a header; `isLast` says that it is the
last name, and `several` that the header adds to a list of tables. -/
def openName (several isLast : Bool) (name : String) (d : Document) : Except Fault Document := do
  if name.isEmpty then throw .malformed
  let d ←
    match d.current with
    | .map _ m =>
      match Mapping.get? m (.text name) with
      | some inner =>
        let d ← if isLast then d.reopen name several inner else pure d
        pure (d.go (.key name))
      | none =>
        -- A table that is only passed through may be opened by a later header.
        let d := if isLast then d else { d with passed := d.passed ++ [name] }
        pure ((d.addTable name (isLast && several)).go (.key name))
    | .seq _ xs =>
      match xs.getLast? with
      | none => throw .cutShort
      -- The last table of a list is the one that counts.
      | some (.map _ m) =>
        let d := d.go .last
        let d := if Mapping.contains m (.text name) then d else d.addTable name (isLast && several)
        pure (d.go (.key name))
      | some _ => throw .notTable
    | .text s => if s.isEmpty then throw .cutShort else throw .notTable
    | _ => throw .notTable
  if several then d.goLast else return d

def openTable (several : Bool) : List String → Document → Except Fault Document
  | [], d => .ok d
  | name :: rest, d => do
    let d ← d.openName several rest.isEmpty name
    openTable several rest d

end Document

def isBareName (cs : List Char) : Bool :=
  !cs.isEmpty && cs.all fun c => c.isAlphanum || c == '_' || c == '-'

/-- A name in quotes that was cut at points, from its first pieces; the answer
is the name and how many pieces it takes. -/
def quotedName? (pieces : List (List Char)) : Nat → Nat → Option (List Char × Nat)
  | 0, _ => none
  | fuel + 1, n =>
    let joined := Text.stripChars (Text.joinWith ['.'] (pieces.take n))
    if joined.length ≠ 1 ∧ joined.getLast? = joined.head? then some (middle 1 1 joined, n)
    else quotedName? pieces fuel (n + 1)

def headerNames : Nat → List (List Char) → Except Fault (List String)
  | 0, _ => .ok []
  | _ + 1, [] => .ok []
  | fuel + 1, piece :: rest => do
    let piece := Text.stripChars piece
    if piece.head? = some '\x22' ∨ piece.head? = some '\x27' then
      match quotedName? (piece :: rest) (rest.length + 1) 1 with
      | none => throw .malformed
      | some (name, n) =>
        return String.ofList name :: (← headerNames fuel (rest.drop (n - 1)))
    else if isBareName piece then return String.ofList piece :: (← headerNames fuel rest)
    else throw .malformed

/-- The pieces of at most `n` cuts at a sequence. -/
def cutAtMost (sep : List Char) (n : Nat) (cs : List Char) : List (List Char) :=
  let pieces := Text.splitSeq sep cs
  if pieces.length ≤ n then pieces
  else pieces.take n ++ [Text.joinWith sep (pieces.drop n)]

/-- A header: whether it adds to a list of tables, and its names. -/
def readHeader (cs : List Char) : Except Fault (Bool × List String) := do
  let second ← match cs[1]? with
    | some c => pure c
    | none => throw .malformed
  let several : Bool := second = '['
  let sep := if several then [']', ']'] else [']']
  let cs := cs.drop sep.length
  let n := 1 + countBefore sep false (splitAtQuotes cs)
  let pieces := cutAtMost sep n cs
  if pieces.length < n + 1 ∨ !(Text.stripChars (pieces.getLastD [])).isEmpty then
    throw .malformed
  let groups := Text.splitOn '.' (Text.joinWith sep pieces.dropLast)
  return (several, ← headerNames (groups.length + 1) groups)

def continueText (fuel : Nat) (u : Unfinished) (cs : List Char) (d : Document) :
    Except Fault Document := do
  let text := u.text ++ cs
  let first ← charAt text 0
  let n := cs.length
  let closed ←
    -- A list ends with a line, a text with three of its quotes.
    if first = '[' then do
      match cs.getLast? with
      | none => throw .cutShort
      | some c => pure (c == ']')
    else
      pure (n > 2 && cs[n - 1]? == some first && cs[n - 2]? == some first &&
        cs[n - 3]? == some first)
  if closed then
    let (v, _) ← readItem fuel maxSteps true text
    match d.current with
    | .map o m =>
      return { d.setCurrent (.map o (Mapping.set m (.text u.key) v)) with unfinished := none }
    | _ => throw .notTable
  else return { d with unfinished := some (unfinished u.key text text) }

def Document.addLine (fuel : Nat) (line : List Char) (d : Document) : Except Fault Document := do
  match d.unfinished with
  | some u =>
    let line := if u.joined || !u.text.contains '\n' then Text.stripChars line else line
    if line.isEmpty && u.joined then return d else continueText fuel u line d
  | none =>
    let line := Text.stripChars line
    match line with
    | [] => return d
    | '[' :: _ =>
      let (several, names) ← readHeader line
      openTable several names { d with way := [] }
    | '\x7b' :: _ =>
      if line.getLast? ≠ some '\x7d' then throw .malformed
      return d.setCurrent (← readTable fuel maxSteps line d.current)
    | _ =>
      if line.contains '=' then
        let (v, more) ← readLine fuel maxSteps line d.current
        return { d.setCurrent v with unfinished := more }
      else return d

def addLines (fuel : Nat) : List (List Char) → Document → Except Fault Document
  | [], d => .ok d
  | line :: rest, d => do
    let d ← d.addLine fuel line
    addLines fuel rest d

def readDocument (text : String) : Except Fault Mapping := do
  let cs := text.toList
  let d ← addLines (depthOf cs) (← lines cs) Document.empty
  match d.root with
  | .map _ m => return m
  | _ => return []

end AgentRelay.Toml
