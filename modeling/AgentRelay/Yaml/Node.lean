import AgentRelay.Yaml.Lexer
import AgentRelay.Yaml.Tag

/-
  The nodes of a document, from its tokens.

  Every node has a number, given in the order in which the nodes start, and
  names the nodes it holds by their numbers. An alias is the number its anchor
  names, so that two places with one node can be told from two places with
  equal nodes. A collection has its number before its contents are read, and so
  it may hold itself.
-/

namespace AgentRelay.Yaml

/-- What a node holds: a text, or the numbers of other nodes. -/
inductive Content where
  | scalar (text : Phrase) : Content
  | seq (items : List Nat) : Content
  | map (entries : List (Nat × Nat)) : Content
  deriving DecidableEq, Repr

/-- A node: its tag and what it holds. -/
structure Node where
  tag : Tag
  content : Content
  deriving DecidableEq, Repr

/-- The nodes of a document by their numbers, and the number of its root. -/
structure Graph where
  nodes : Array Node
  root : Nat
  deriving Repr

/-- How deep collections may stand in one another where they are read. YAML knows no
such bound: it is the stack of the interpreter that the readers call one another on. -/
def maxDepth : Nat := 490

/-- What is known while a document is read: the tokens to come, the numbers of
the anchors, the nodes so far, the handles of tags, and how much deeper
collections may stand. -/
structure Reading where
  tokens : List Token
  anchors : List (String × Nat)
  nodes : Array Node
  handles : List (String × String)
  room : Nat

/-- A reading step. -/
abbrev Read (α : Type) := StateT Reading (Except Fault) α

namespace Read

def isDocumentMark : Token → Bool
  | .directive _ => true
  | .documentStart => true
  | .documentEnd => true
  | .streamEnd => true
  | _ => false

/-- The next token; a fault is met here. -/
def peek : Read Token := do
  match (← get).tokens with
  | .fault f :: _ => throw f
  | t :: _ => return t
  | [] => return .streamEnd

def skip : Read Unit := modify fun s => { s with tokens := s.tokens.drop 1 }

def add (node : Node) : Read Nat :=
  modifyGet fun s => (s.nodes.size, { s with nodes := s.nodes.push node })

def hold (n : Nat) (content : Content) : Read Unit :=
  modify fun s => { s with nodes := s.nodes.modify n fun node => { node with content := content } }

def expect (t : Token) : Read Unit := do
  if (← peek) = t then skip else throw .malformed

def anchored (name : String) : Read Nat := do
  match (← get).anchors.lookup name with
  | some n => return n
  | none => throw .malformed

def addNamed (anchor : Option String) (node : Node) : Read Nat := do
  match anchor with
  | none => add node
  | some name => do
    if (← get).anchors.any fun a => a.1 == name then throw .malformed
    let n ← add node
    modify fun s => { s with anchors := (name, n) :: s.anchors }
    return n

def address (handle : Option String) (suffix : String) : Read String := do
  match handle with
  | none => return suffix
  | some h =>
    match (← get).handles.find? fun e => e.1 == h with
    | some (_, start) => return start ++ suffix
    | none => throw .malformed

/-- An anchor, if one stands here. -/
def anchor? : Read (Option String) := do
  match ← peek with
  | .anchor a => do
    skip
    return some a
  | _ => return none

/-- A tag as it is written, if one stands here. -/
def tag? : Read (Option (Option String × String)) := do
  match ← peek with
  | .tag handle suffix => do
    skip
    return some (handle, suffix)
  | _ => return none

/-- The address of a written tag, if there is one. -/
def address? (tag : Option (Option String × String)) : Read (Option String) := do
  match tag with
  | some (handle, suffix) => return some (← address handle suffix)
  | none => return none

/-- Anchor and tag in front of a node, in either order. The handle of the tag is
looked up when both have been read. -/
def properties : Read (Option String × Option String) := do
  match ← anchor? with
  | some a => return (some a, ← address? (← tag?))
  | none =>
    match ← tag? with
    | some t => do
      let anchor ← anchor?
      return (anchor, ← address? (some t))
    | none => return (none, none)

def collectionTag (own : Tag) : Option String → Tag
  | none => own
  | some "!" => own
  | some t => .ofAddress t

/-- The tag of a scalar; without one of its own a plain scalar goes by its
look and any other is text. -/
def scalarTag (text : Phrase) (plain : Bool) : Option String → Tag
  | none => if plain then .ofPlain text.shown.toList else .text
  | some "!" => .ofPlain text.shown.toList
  | some t => .ofAddress t

def scalar (text : Phrase) (plain : Bool) (anchor tag : Option String) : Read Nat :=
  addNamed anchor ⟨scalarTag text plain tag, .scalar text⟩

def nothing : Read Nat := scalar "" true none none

def seq (anchor tag : Option String) (items : Read (List Nat)) : Read Nat := do
  let n ← addNamed anchor ⟨collectionTag .seq tag, .seq []⟩
  hold n (.seq (← items))
  return n

def map (anchor tag : Option String) (entries : Read (List (Nat × Nat))) : Read Nat := do
  let n ← addNamed anchor ⟨collectionTag .map tag, .map []⟩
  hold n (.map (← entries))
  return n

def deeper {α : Type} (contents : Read α) : Read α := do
  match (← get).room with
  | 0 => throw .tooDeep
  | room + 1 => do
    modify fun s => { s with room := room }
    let a ← contents
    modify fun s => { s with room := room + 1 }
    return a

mutual

/-- A node. Blocks may start only where `block` is set, and entries without an
indentation of their own only where `indentless` is. -/
def node (block indentless : Bool) : Nat → Read Nat
  | 0 => throw .malformed
  | fuel + 1 => do
    match ← peek with
    | .alias name => do
      skip
      anchored name
    | _ => do
      let (anchor, tag) ← properties
      let bare : Read Nat :=
        if anchor.isSome || tag.isSome then scalar "" true anchor tag else throw .malformed
      match ← peek with
      | .blockEntry =>
        if indentless then seq anchor tag (deeper (indentlessItems fuel))
        else bare
      | .scalar text plain => do
        skip
        scalar text plain anchor tag
      | .flowSequenceStart =>
        seq anchor tag (deeper do skip; flowItems true fuel)
      | .flowMappingStart =>
        map anchor tag (deeper do skip; flowEntries true fuel)
      | .blockSequenceStart =>
        if block then seq anchor tag (deeper do skip; blockItems fuel)
        else bare
      | .blockMappingStart =>
        if block then map anchor tag (deeper do skip; blockEntries fuel)
        else bare
      | _ => bare

def blockItems : Nat → Read (List Nat)
  | 0 => throw .malformed
  | fuel + 1 => do
    match ← peek with
    | .blockEntry => do
      skip
      let t ← peek
      let item ← if t = .blockEntry ∨ t = .blockEnd then nothing else node true false fuel
      return item :: (← blockItems fuel)
    | _ => do
      expect .blockEnd
      return []

/-- The items of a sequence that stands no deeper than its key. -/
def indentlessItems : Nat → Read (List Nat)
  | 0 => throw .malformed
  | fuel + 1 => do
    match ← peek with
    | .blockEntry => do
      skip
      let t ← peek
      let item ←
        if t = .blockEntry ∨ t = .key ∨ t = .value ∨ t = .blockEnd then nothing
        else node true false fuel
      return item :: (← indentlessItems fuel)
    | _ => return []

def blockEntries : Nat → Read (List (Nat × Nat))
  | 0 => throw .malformed
  | fuel + 1 => do
    let part : Read Nat := do
      skip
      let t ← peek
      if t = .key ∨ t = .value ∨ t = .blockEnd then nothing else node true true fuel
    match ← peek with
    | .key => do
      let key ← part
      let value ← if (← peek) = .value then part else nothing
      return (key, value) :: (← blockEntries fuel)
    | _ => do
      expect .blockEnd
      return []

/-- The items of a sequence in brackets; an item may be a single entry of a
mapping. -/
def flowItems (first : Bool) : Nat → Read (List Nat)
  | 0 => throw .malformed
  | fuel + 1 => do
    if (← peek) = .flowSequenceEnd then
      skip
      return []
    else
      if !first then expect .flowEntry
      match ← peek with
      | .key => do
        let entry ← map none none <| deeper do
          skip
          let t ← peek
          let key ←
            if t = .value ∨ t = .flowEntry ∨ t = .flowSequenceEnd then nothing
            else node false false fuel
          let value ←
            if (← peek) = .value then do
              skip
              let t ← peek
              if t = .flowEntry ∨ t = .flowSequenceEnd then nothing
              else node false false fuel
            else nothing
          return [(key, value)]
        return entry :: (← flowItems false fuel)
      | .flowSequenceEnd => do
        skip
        return []
      | _ => do
        let item ← node false false fuel
        return item :: (← flowItems false fuel)

/-- The entries of a mapping in brackets; a value may be missing. -/
def flowEntries (first : Bool) : Nat → Read (List (Nat × Nat))
  | 0 => throw .malformed
  | fuel + 1 => do
    if (← peek) = .flowMappingEnd then
      skip
      return []
    else
      if !first then expect .flowEntry
      match ← peek with
      | .key => do
        skip
        let t ← peek
        let key ←
          if t = .value ∨ t = .flowEntry ∨ t = .flowMappingEnd then nothing
          else node false false fuel
        let value ←
          if (← peek) = .value then do
            skip
            let t ← peek
            if t = .flowEntry ∨ t = .flowMappingEnd then nothing else node false false fuel
          else nothing
        return (key, value) :: (← flowEntries false fuel)
      | .flowMappingEnd => do
        skip
        return []
      | _ => do
        let key ← node false false fuel
        let value ← nothing
        return (key, value) :: (← flowEntries false fuel)

end

def knownHandles : List (String × String) := [("!", "!"), ("!!", Tag.standard)]

/-- The directives in front of a document; `version` says that one gave the
version already. -/
def directives (version : Bool) : Nat → Read Unit
  | 0 => throw .malformed
  | fuel + 1 => do
    match ← peek with
    | .directive d => do
      skip
      match d with
      | .version major _ =>
        if version || major != 1 then throw .malformed
        directives true fuel
      | .tag handle start =>
        if (← get).handles.any fun e => e.1 == handle then throw .malformed
        modify fun s => { s with handles := (handle, start) :: s.handles }
        directives version fuel
      | .other => directives version fuel
    | _ => modify fun s => { s with handles := s.handles ++ knownHandles }

def documentEnds : Nat → Read Unit
  | 0 => pure ()
  | fuel + 1 => do
    if (← peek) = .documentEnd then
      skip
      documentEnds fuel

/-- The end of the text. Another document is a fault, which is met when its
directives and its start are read. -/
def streamEnds (fuel : Nat) : Read Unit := do
  if (← peek) != .streamEnd then
    modify fun s => { s with handles := [] }
    directives false fuel
    expect .documentStart
    throw .malformed

/-- The root of the only document, `none` when there is none. -/
def document (fuel : Nat) : Read (Option Nat) := do
  let t ← peek
  if t = .streamEnd then return none
  let explicit := match t with
    | .documentStart => true
    | .directive _ => true
    | _ => false
  let root ←
    if explicit then do
      directives false fuel
      expect .documentStart
      if isDocumentMark (← peek) then nothing else node true false fuel
    else do
      modify fun s => { s with handles := knownHandles }
      node true false fuel
  documentEnds fuel
  streamEnds fuel
  return some root

end Read

/-- The nodes of the only document in a text, `none` for a text without one. -/
def Graph.ofSource? (s : Source) : Except Fault (Option Graph) := do
  let ts := tokens s
  let (root, r) ← (Read.document (4 * ts.length + 8)).run ⟨ts, [], #[], [], maxDepth + 1⟩
  return root.map fun n => ⟨r.nodes, n⟩

end AgentRelay.Yaml
