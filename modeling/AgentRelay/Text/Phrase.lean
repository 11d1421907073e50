/-
  Texts that may hold halves of surrogate pairs.

  An escape in a document spells a character by its number, and readers also take the
  numbers from 0xd800 to 0xdfff, which stand for halves of pairs. Such a half is no
  character, and no bytes in a file stand for it. A text with one is torn: it can be
  compared, cut and escaped like any other, but a file cannot hold it as it is.
-/

namespace AgentRelay

/-- Half of a surrogate pair on its own, by its place among the halves. -/
abbrev Half := Fin 2048

def Half.number (h : Half) : Nat := 0xd800 + h.val

/-- What a text is made of. -/
inductive Point where
  | char : Char → Point
  | half : Half → Point
  deriving DecidableEq, Repr

/-- What a number up to 0x10ffff stands for. -/
def Point.ofNumber (n : Nat) : Point :=
  if h : 0xd800 ≤ n ∧ n < 0xd800 + 2048 then .half ⟨n - 0xd800, by omega⟩
  else .char (Char.ofNat n)

/-- A point as a character; a half is shown as the replacement character. -/
def Point.shown : Point → Char
  | char c => c
  | half _ => '\ufffd'

/-- A text with a half in it: what stands in front of the first half, the half, and what
stands behind it. -/
structure Torn where
  front : List Char
  half : Half
  back : List Point
  deriving DecidableEq, Repr

namespace Torn

def points (t : Torn) : List Point := t.front.map .char ++ .half t.half :: t.back

def shown (t : Torn) : String := String.ofList (t.points.map Point.shown)

end Torn

/-- A text, whole or torn. -/
inductive Phrase where
  | whole : String → Phrase
  | torn : Torn → Phrase
  deriving DecidableEq, Repr

namespace Phrase

instance : Coe String Phrase := ⟨whole⟩

/-- The text of some points behind the characters `front`, which are in reverse. -/
def ofPointsFrom (front : List Char) : List Point → Phrase
  | [] => whole (String.ofList front.reverse)
  | .char c :: ps => ofPointsFrom (c :: front) ps
  | .half h :: ps => torn ⟨front.reverse, h, ps⟩

def ofPoints (ps : List Point) : Phrase := ofPointsFrom [] ps

/-- A text with the halves in it shown as replacement characters. -/
def shown : Phrase → String
  | whole s => s
  | torn t => t.shown

def whole? : Phrase → Option String
  | whole s => some s
  | torn _ => none

end Phrase

end AgentRelay
