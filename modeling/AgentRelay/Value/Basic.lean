import AgentRelay.Calendar
import AgentRelay.Text.Phrase

/-
  The values documents hold: scalars, sequences and mappings whose keys are
  scalars.

  A collection or a day that was read from a document remembers the node it
  came from. Two occurrences of one node are one object, and a writer that can
  name nodes writes it once. A table that was written on one line is marked,
  because not every writer accepts it.

  A collection may hold itself. The place where it does is a `loop`, which
  points at the collection around it; a value is closed when every loop in it
  has its collection around it. Taking the parts of a collection closes them
  (`items?`, `entries?`): each loop to the collection is filled with it.
-/

namespace AgentRelay

/-- Where a collection came from. -/
inductive Origin where
  | own : Origin
  /-- Read from a document: the number of the document within a conversion, and
  the number of the node within the document. -/
  | node : Nat → Nat → Origin
  | inlineTable : Origin
  deriving DecidableEq, Repr

/-- The values without parts, which are also the keys of mappings. -/
inductive Scalar where
  | null : Scalar
  | bool : Bool → Scalar
  | int : Int → Scalar
  | real : Number.Binary64 → Scalar
  | text : String → Scalar
  /-- A text that holds a half. -/
  | torn : Torn → Scalar
  | bytes : List UInt8 → Scalar
  | date : Origin → Date → Scalar
  | time : TimeOfDay → Scalar
  | moment : Origin → Moment → Scalar
  deriving DecidableEq, Repr

/-- A text, whole or torn. -/
def Scalar.phrase : Phrase → Scalar
  | .whole s => .text s
  | .torn t => .torn t

/-- The shapes of the collections that can hold themselves. -/
inductive Shape where
  | seq : Shape
  | tuple : Shape
  | map : Shape
  deriving DecidableEq, Repr

def Shape.kindName : Shape → String
  | .seq => "list"
  | .tuple => "tuple"
  | .map => "dict"

/-- A value of a document. -/
inductive Value where
  | scalar : Scalar → Value
  | seq : Origin → List Value → Value
  | tuple : Origin → List Value → Value
  | set : Origin → List Scalar → Value
  | map : Origin → List (Scalar × Value) → Value
  /-- The collection of this shape and origin that stands around the place. -/
  | loop : Shape → Origin → Value
  deriving Repr

/-- The entries of a mapping, in the order in which the keys first came. -/
abbrev Mapping := List (Scalar × Value)

namespace Value

@[match_pattern] abbrev null : Value := .scalar .null
@[match_pattern] abbrev bool (b : Bool) : Value := .scalar (.bool b)
@[match_pattern] abbrev int (i : Int) : Value := .scalar (.int i)
@[match_pattern] abbrev text (s : String) : Value := .scalar (.text s)

def phrase (p : Phrase) : Value := .scalar (.phrase p)

def list (xs : List Value) : Value := .seq .own xs

def mapping (m : Mapping) : Value := .map .own m

mutual

/-- The value with `v` in the places that stand for the collection `o`. Inside
another occurrence of that collection they stand for this occurrence. -/
def fill (o : Origin) (v : Value) : Value → Value
  | .scalar s => .scalar s
  | .seq p xs => .seq p (if p = o then xs else fillAll o v xs)
  | .tuple p xs => .tuple p (if p = o then xs else fillAll o v xs)
  | .set p xs => .set p xs
  | .map p m => .map p (if p = o then m else fillEntries o v m)
  | .loop s p => if p = o then v else .loop s p

def fillAll (o : Origin) (v : Value) : List Value → List Value
  | [] => []
  | x :: xs => fill o v x :: fillAll o v xs

def fillEntries (o : Origin) (v : Value) : List (Scalar × Value) → List (Scalar × Value)
  | [] => []
  | (k, x) :: m => (k, fill o v x) :: fillEntries o v m

end

/-- Only a collection with a node of its own can be pointed at. -/
def isNode : Origin → Bool
  | .node _ _ => true
  | _ => false

def items? : Value → Option (List Value)
  | .seq o xs => some (if isNode o then fillAll o (.seq o xs) xs else xs)
  | .tuple o xs => some (if isNode o then fillAll o (.tuple o xs) xs else xs)
  | _ => none

def entries? : Value → Option Mapping
  | .map o m => some (if isNode o then fillEntries o (.map o m) m else m)
  | _ => none

def text? : Value → Option String
  | .text s => some s
  | _ => none

def phrase? : Value → Option Phrase
  | .text s => some (.whole s)
  | .scalar (.torn t) => some (.torn t)
  | _ => none

def bool? : Value → Option Bool
  | .bool b => some b
  | _ => none

def isNull : Value → Bool
  | .null => true
  | _ => false

def isMapping : Value → Bool
  | .map _ _ => true
  | .loop .map _ => true
  | _ => false

/-- A value counts as present unless it is null, false, zero or empty. -/
def truthy : Value → Bool
  | .scalar .null => false
  | .scalar (.bool b) => b
  | .scalar (.int i) => i != 0
  | .scalar (.real x) => !x.isZero
  | .scalar (.text s) => !s.isEmpty
  | .scalar (.bytes bs) => !bs.isEmpty
  | .scalar _ => true
  | .seq _ xs => !xs.isEmpty
  | .tuple _ xs => !xs.isEmpty
  | .set _ xs => !xs.isEmpty
  | .map _ m => !m.isEmpty
  | .loop _ _ => true

def kindName : Value → String
  | .scalar .null => "NoneType"
  | .scalar (.bool _) => "bool"
  | .scalar (.int _) => "int"
  | .scalar (.real _) => "float"
  | .scalar (.text _) => "str"
  | .scalar (.torn _) => "str"
  | .scalar (.bytes _) => "bytes"
  | .scalar (.date _ _) => "date"
  | .scalar (.time _) => "time"
  | .scalar (.moment _ _) => "datetime"
  | .seq _ _ => Shape.seq.kindName
  | .tuple _ _ => Shape.tuple.kindName
  | .set _ _ => "set"
  | .map _ _ => Shape.map.kindName
  | .loop s _ => s.kindName

end Value

end AgentRelay
