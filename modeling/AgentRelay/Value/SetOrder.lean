import AgentRelay.Value.Basic

/-
  The order in which a set has its members.

  A set is a hash table with open addressing, and its members stand in the
  order of the table. So their order depends on the hashes, and among members
  that want the same place on the order in which they came. A copy takes them in
  the order of the table, and may have them in another order than the set.

  Only truth values and numbers have hashes that are the same in every run of
  the interpreter. A set with another member keeps the order in which its members
  came, which stands for all the orders it may have.
-/

namespace AgentRelay.SetOrder

open AgentRelay.Number (twoTo)

/-- The hash of a number is its remainder by this prime. -/
def modulus : Nat := twoTo 61 - 1

/-- A hash as a word, from its amount; minus one is no hash, and minus two stands for it. -/
def word (negative : Bool) (amount : Nat) : Nat :=
  if negative && amount != 0 then twoTo 64 - max amount 2 else amount

/-- The hash of a scalar, for those that have one and the same in every run. -/
def hash? : Scalar → Option Nat
  | .bool b => some b.toNat
  | .int i => some (word (decide (i < 0)) (i.natAbs % modulus))
  | .real x =>
    if x.isNan then none
    else if x.isInfinite then some (word x.negative 314159)
    else
      let (m, q) := x.magnitude
      -- The power of two with the exponent 61 leaves the remainder one.
      some (word x.negative (m * twoTo (q % 61).toNat % modulus))
  | _ => none

/-- A member of a set with its hash. -/
structure Member where
  hash : Nat
  key : Scalar
  deriving Repr

def member? (key : Scalar) : Option Member := (hash? key).map fun hash => ⟨hash, key⟩

/-- The places of a table. Their number is a power of two. -/
abbrev Table := List (Option Member)

def unused (size : Nat) : Table := List.replicate size none

/-- The members in the order of the table. -/
def members (t : Table) : List Member := t.filterMap id

def isFree (t : Table) (i : Nat) : Bool := (t[i]?).any Option.isNone

/-- The places looked at from place `i` on: ten in a row when the table has them,
and only the first one otherwise. -/
def looked (size i : Nat) : List Nat := if i + 9 < size then List.range' i 10 else [i]

/-- The place for a member that is looked for from place `i` on; `rest` is what is
left of its hash. When the rounds are over any place will do. -/
def placeFrom? (t : Table) : Nat → Nat → Nat → Option Nat
  | 0, _, _ => t.findIdx? Option.isNone
  | rounds + 1, rest, i =>
    match (looked t.length i).find? (isFree t) with
    | some j => some j
    | none => placeFrom? t rounds (rest / 32) ((i * 5 + 1 + rest / 32) % t.length)

/-- Puts a member that is not there into a free place. Thirteen rounds use the
hash up, and after them the search goes over all the places. -/
def place (t : Table) (m : Member) : Table :=
  match placeFrom? t (t.length + 13) m.hash (m.hash % t.length) with
  | some i => t.set i (some m)
  | none => t

/-- The smallest size of a table with more than `n` places. -/
def sizeAbove (n : Nat) : Nat := max 8 (twoTo (n.log2 + 1))

/-- The members of a table in a new one with more than `n` places. -/
def resized (t : Table) (n : Nat) : Table := (members t).foldl place (unused (sizeAbove n))

/-- A table that is filled to three fifths grows. -/
def add (t : Table) (m : Member) : Table :=
  let t := place t m
  let used := (members t).length
  if used * 5 < (t.length - 1) * 3 then t
  else resized t (if used > 50000 then used * 2 else used * 4)

/-- The table a set starts with when so many members are known to come. -/
def tableFor (n : Nat) : Table := unused (if n * 5 < 7 * 3 then 8 else sizeAbove (n * 2))

/-- The members `ks` in the order of the table they are put into, from a table at
the start. -/
def inTable (start : Table) (ks : List Scalar) : List Scalar :=
  match ks.mapM member? with
  | some ms => (members (ms.foldl add start)).map (·.key)
  | none => ks

/-- The members of a set that is made of the keys of a mapping. -/
def ofKeys (ks : List Scalar) : List Scalar := inTable (tableFor ks.length) ks

/-- The members of a copy of a set. The copy is not told how many will come. -/
def copied (ks : List Scalar) : List Scalar := inTable (tableFor 0) ks

end AgentRelay.SetOrder
