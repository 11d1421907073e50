import AgentRelay.Text.Pieces
import AgentRelay.Value.Display

/-
  Paths: a root of no, one or two slashes, and the names that follow.

  A written path is tidied when it is read: repeated slashes, single points and
  a slash at the end are dropped. Two points stay, because what they mean
  depends on the files.
-/

namespace AgentRelay

/-- A path. The root counts the slashes in front: none for a relative path. -/
structure Path where
  root : Nat
  parts : List String
  deriving DecidableEq, Repr, Inhabited

namespace Path

/-- The slashes in front that count: exactly two are kept, any more are one. -/
def rootOf (cs : List Char) : Nat :=
  let n := (cs.takeWhile (· == '/')).length
  if n ≤ 2 then n else 1

/-- A name between slashes that counts. -/
def isPart (cs : List Char) : Bool := !cs.isEmpty && cs != ['.']

def ofChars (cs : List Char) : Path :=
  ⟨rootOf cs, ((Text.splitOn '/' cs).filter isPart).map String.ofList⟩

def ofText (s : String) : Path := ofChars s.toList

/-- The characters of a path; the empty relative path is a point. -/
def chars (p : Path) : List Char :=
  if p.root = 0 ∧ p.parts.isEmpty then ['.']
  else List.replicate p.root '/' ++ Text.joinWith ['/'] (p.parts.map String.toList)

def text (p : Path) : String := String.ofList p.chars

def isAbsolute (p : Path) : Bool := p.root != 0

/-- One path behind another; an absolute one stands alone. -/
def join (p q : Path) : Path := if q.isAbsolute then q else ⟨p.root, p.parts ++ q.parts⟩

def append (p : Path) (s : String) : Path := p.join (ofText s)

/-- The path without its last name. -/
def parent (p : Path) : Path := ⟨p.root, p.parts.dropLast⟩

/-- The last name, empty when there is none. -/
def name (p : Path) : String := p.parts.getLast?.getD ""

/-- The way from `base` to the path, when the path lies behind it. -/
def below? (base p : Path) : Option Path :=
  if p.root = base.root ∧ p.parts.take base.parts.length = base.parts then
    some ⟨0, p.parts.drop base.parts.length⟩
  else none

/-- The order of lists of names: name by name, a shorter list first. -/
def partsLe : List String → List String → Bool
  | [], _ => true
  | _ :: _, [] => false
  | a :: as, b :: bs => if a = b then partsLe as bs else decide (a < b)

def le (p q : Path) : Bool :=
  if p.root = q.root then partsLe p.parts q.parts else p.root < q.root

def sorted (ps : List Path) : List Path := ps.mergeSort le

/-- The last name from its last point on, unless the point stands at an end. -/
def extension (p : Path) : List Char :=
  let cs := p.name.toList
  let tail := (cs.reverse.takeWhile (· != '.')).reverse
  let head := cs.take (cs.length - tail.length - 1)
  if tail.isEmpty || tail.length == cs.length || head.isEmpty then [] else '.' :: tail

end Path

end AgentRelay
