import AgentRelay.Value.Mapping
import AgentRelay.Value.SetOrder
import AgentRelay.Yaml.Node
import AgentRelay.Yaml.Scalar

/-
  The value of a document.

  A node becomes the value its tag asks for. A collection is made empty at
  first and filled in its turn: the root is made, and then the collections are
  filled in the order in which they were made. So a collection can hold itself,
  and of several faults the one met first in this order counts. A key is made
  before its value, and must not be a collection.

  A mapping takes over the entries of the mappings behind its merge keys, in
  front of its own. This changes the nodes themselves: whoever looks at the node
  later, by an alias, finds the entries in it, and finds a value key to be
  text.

  The members of a set stand in the order they are written in.
-/

namespace AgentRelay.Yaml

/-- What a node has become: a scalar, or a collection that holds other nodes
once it is filled. Pairs have a number of their own. -/
inductive Part where
  | scalar (s : Scalar) : Part
  | unfilled : Part
  | seq (items : List Nat) : Part
  | pairs (items : List (Nat × Nat × Nat)) : Part
  | set (members : List Scalar) : Part
  /-- The node of each key, the key, and the node of its value. -/
  | map (entries : List (Nat × Scalar × Nat)) : Part
  deriving Repr

/-- A document whose values are being made: its number, the nodes, what has
become of them, the collections made so far in order, how many of them are
filled, and the next number for a pair. -/
structure Building where
  doc : Nat
  nodes : Array Node
  parts : Array (Option Part)
  made : Array Nat
  filled : Nat
  next : Nat

/-- A step of making values. -/
abbrev Build (α : Type) := StateT Building (Except Fault) α

namespace Build

def node (n : Nat) : Build Node := do
  match (← get).nodes[n]? with
  | some node => return node
  | none => throw .malformed

def tagOf (n : Nat) : Build Tag := do return (← node n).tag

def entriesOf (n : Nat) : Build (List (Nat × Nat)) := do
  match (← node n).content with
  | .map entries => return entries
  | _ => throw .malformed

def change (n : Nat) (f : Node → Node) : Build Unit :=
  modify fun b => { b with nodes := b.nodes.modify n f }

def become (n : Nat) (p : Part) : Build Unit :=
  modify fun b => { b with parts := b.parts.setIfInBounds n (some p) }

/-- The node of the first entry with a value key. -/
def valueEntry? : List (Nat × Nat) → Build (Option Nat)
  | [] => return none
  | (k, v) :: rest => do
    if (← tagOf k) = .value then return some v
    valueEntry? rest

/-- The text a scalar tag reads: that of a scalar, or of a mapping's entry under
the value key. A text that stands inside itself is too deep. -/
def textOf : Nat → Nat → Build Phrase
  | 0, _ => throw .tooDeep
  | fuel + 1, n => do
    match (← node n).content with
    | .scalar text => return text
    | .seq _ => throw .malformed
    | .map entries =>
      match ← valueEntry? entries with
      | some v => textOf fuel v
      | none => throw .malformed

/-- The value of a node under a scalar tag. The text of a moment must be the
node's own. -/
def scalarOf (n : Nat) (node : Node) : Build Scalar := do
  let b ← get
  if !node.tag.isScalar then throw .malformed
  let text ← textOf (b.nodes.size + 1) n
  match node.tag, node.content with
  | .moment, .map _ => throw .mappedMoment
  | tag, _ => Scalar.ofTagged (.node b.doc n) text tag

/-- What a node becomes; a collection is left to be filled in its turn. -/
def make (n : Nat) : Build Part := do
  match ((← get).parts[n]?).join with
  | some p => return p
  | none => do
    let node ← node n
    let p ←
      if node.tag.isCollection then do
        modify fun b => { b with made := b.made.push n }
        pure .unfilled
      else pure (.scalar (← scalarOf n node))
    become n p
    return p

/-- The value of a key, which must not be a collection. -/
def makeKey (n : Nat) : Build Scalar := do
  match ← make n with
  | .scalar s => return s
  | _ => throw .malformed

def fresh : Build Nat := modifyGet fun b => (b.next, { b with next := b.next + 1 })

/-- The pairs of some nodes, which must be mappings with one entry each. -/
def makePairs : List Nat → Build (List (Nat × Nat × Nat))
  | [] => return []
  | n :: ns => do
    match ← entriesOf n with
    | [(k, v)] => do
      let _ ← make k
      let _ ← make v
      let pair ← fresh
      return (pair, k, v) :: (← makePairs ns)
    | _ => throw .malformed

/-- Sets an entry: in place when the key is there, at the end otherwise. One key
node is one key. -/
def setEntry : List (Nat × Scalar × Nat) → Nat → Scalar → Nat → List (Nat × Scalar × Nat)
  | [], n, k, v => [(n, k, v)]
  | (m, j, w) :: es, n, k, v =>
    if m = n || j.same k then (m, j, v) :: es else (m, j, w) :: setEntry es n k v

/-- The entries of a mapping from those of its node, behind `done`. -/
def makeEntries : List (Nat × Nat) → List (Nat × Scalar × Nat) → Build (List (Nat × Scalar × Nat))
  | [], done => return done
  | (k, v) :: rest, done => do
    let key ← makeKey k
    let _ ← make v
    makeEntries rest (setEntry done k key v)

/-- Makes text of the value keys among the entries up to the first merge key.
The answer is the place of the merge key and the node of its value. -/
def nextMerge? : Nat → List (Nat × Nat) → Build (Option (Nat × Nat))
  | _, [] => return none
  | i, (k, v) :: rest => do
    match ← tagOf k with
    | .merge => return some (i, v)
    | .value => do
      change k fun node => { node with tag := .text }
      nextMerge? (i + 1) rest
    | _ => nextMerge? (i + 1) rest

mutual

/-- Takes over entries into a mapping node, from its entry number `i` on;
`merged` are those taken over so far. Every step takes a merge key out of the
document, and `fuel` bounds their number. -/
def flatten : Nat → Nat → Nat → List (Nat × Nat) → Build Unit
  | 0, _, _, _ => throw .malformed
  | fuel + 1, n, i, merged => do
    let entries ← entriesOf n
    match ← nextMerge? i (entries.drop i) with
    | none =>
      if !merged.isEmpty then change n fun node => { node with content := .map (merged ++ entries) }
    | some (j, v) => do
      change n fun node => { node with content := .map (entries.eraseIdx j) }
      flatten fuel n j (merged ++ (← takenFrom fuel v))

/-- The entries taken over from the value of a merge key: those of a mapping, or
of a sequence of mappings, the last one first. -/
def takenFrom : Nat → Nat → Build (List (Nat × Nat))
  | 0, _ => throw .malformed
  | fuel + 1, v => do
    match (← node v).content with
    | .scalar _ => throw .malformed
    | .map _ => flatEntries fuel v
    | .seq items => return (← items.mapM (flatEntries fuel)).reverse.flatten

def flatEntries : Nat → Nat → Build (List (Nat × Nat))
  | 0, _ => throw .malformed
  | fuel + 1, n => do
    match (← node n).content with
    | .map _ => do
      flatten fuel n 0 []
      entriesOf n
    | _ => throw .malformed

end

def mergeKeys (b : Building) : Nat :=
  b.nodes.foldl (fun count node =>
    match node.content with
    | .map entries =>
      count + entries.countP fun e => (b.nodes[e.1]?).any fun k => k.tag = .merge
    | _ => count) 0

def allEntries (n : Nat) : Build (List (Nat × Scalar × Nat)) := do
  let entries ← flatEntries (4 * mergeKeys (← get) + 4) n
  makeEntries entries []

/-- The number of the document at the target. What is kept of it is a copy. -/
def copiedDocument : Nat := 1

/-- The members of a set that has the keys of a mapping, as they will be written. -/
def membersOf (doc : Nat) (keys : List Scalar) : List Scalar :=
  let members := SetOrder.ofKeys keys
  if doc = copiedDocument then SetOrder.copied members else members

def fill (n : Nat) : Build Unit := do
  let node ← node n
  match node.tag, node.content with
  | .seq, .seq items => do
    items.forM fun i => do let _ ← make i
    become n (.seq items)
  | .omap, .seq items => do become n (.pairs (← makePairs items))
  | .pairs, .seq items => do become n (.pairs (← makePairs items))
  | .map, .map _ => do become n (.map (← allEntries n))
  | .set, .map _ => do
    let keys := (← allEntries n).map fun e => e.2.1
    become n (.set (membersOf (← get).doc keys))
  | _, _ => throw .malformed

def fillAll : Nat → Build Unit
  | 0 => return ()
  | fuel + 1 => do
    let b ← get
    match b.made[b.filled]? with
    | none => return ()
    | some n => do
      set { b with filled := b.filled + 1 }
      fill n
      fillAll fuel

def document (root : Nat) : Build Unit := do
  let _ ← make root
  fillAll ((← get).nodes.size + 1)

end Build

namespace Building

def start (doc : Nat) (nodes : Array Node) : Building :=
  ⟨doc, nodes, Array.replicate nodes.size none, #[], 0, nodes.size⟩

def part? (b : Building) (n : Nat) : Option Part := (b.parts[n]?).join

/-- The shape of a collection that can hold itself. -/
def shape? (b : Building) (n : Nat) : Option Shape :=
  match b.part? n with
  | some (.seq _) => some .seq
  | some (.pairs _) => some .seq
  | some (.map _) => some .map
  | _ => none

def value (b : Building) : Nat → List Nat → Nat → Value
  | 0, _, _ => .null
  | fuel + 1, around, n =>
    let origin := Origin.node b.doc n
    match (b.shape? n).filter fun _ => around.contains n with
    | some shape => .loop shape origin
    | none =>
      let inner (m : Nat) : Value := b.value fuel (n :: around) m
      match b.part? n with
      | some (.scalar s) => .scalar s
      | some (.seq items) => .seq origin (items.map inner)
      | some (.pairs items) =>
        .seq origin (items.map fun e =>
          .tuple (.node b.doc e.1) [inner e.2.1, inner e.2.2])
      | some (.set members) => .set origin members
      | some (.map entries) => .map origin (entries.map fun e => (e.2.1, inner e.2.2))
      | _ => .null

end Building

/-- The value of the root of a document; `doc` is the number of the document. -/
def Graph.value (doc : Nat) (g : Graph) : Except Fault Value := do
  let (_, b) ← (Build.document g.root).run (Building.start doc g.nodes)
  return b.value (g.nodes.size + 1) [] g.root

/-- The value of the only document in a text, null when there is none. The
nodes of its collections carry the number `doc`. -/
def readSource (doc : Nat) (s : Source) : Except Fault Value := do
  match ← Graph.ofSource? s with
  | none => return .null
  | some g => g.value doc

/-- The value of the only document in a text that is there as a whole. -/
def readValue (doc : Nat) (text : String) : Except Fault Value :=
  readSource doc (.whole text.toList)

end AgentRelay.Yaml
