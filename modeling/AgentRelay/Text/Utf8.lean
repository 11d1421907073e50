/-
  Text as bytes: the encoding every file is read and written in.

  Reading is strict: an overlong form, a surrogate or a number beyond the last
  character is refused. `badByte?` says where: the first byte that no text goes on
  with, which tells how far a reader gets that takes the bytes piece by piece.

  Main statement: what was written reads back (`decode?_encode`).
-/

namespace AgentRelay.Text

def encode (s : String) : ByteArray := s.toUTF8

/-- The text of some bytes, if they are one. -/
def decode? (b : ByteArray) : Option String := String.fromUTF8? b

theorem decode?_encode (s : String) : decode? (encode s) = some s := by
  have h : s.toUTF8.IsValidUTF8 := s.isValidUTF8
  unfold decode? encode String.fromUTF8?
  simp only [dif_pos h]
  rfl

/-- The ranges of the bytes that follow the first byte of a character; `none`
for a byte that starts none. -/
def following? (b : UInt8) : Option (List (UInt8 × UInt8)) :=
  let any : UInt8 × UInt8 := (0x80, 0xbf)
  if b < 0x80 then some []
  else if b < 0xc2 then none
  else if b < 0xe0 then some [any]
  else if b = 0xe0 then some [(0xa0, 0xbf), any]
  else if b = 0xed then some [(0x80, 0x9f), any]
  else if b < 0xf0 then some [any, any]
  else if b = 0xf0 then some [(0x90, 0xbf), any, any]
  else if b < 0xf4 then some [any, any, any]
  else if b = 0xf4 then some [(0x80, 0x8f), any, any]
  else none

/-- The byte is the second one of a surrogate, where a byte of `range` should
be. This is noticed with the third one only. -/
def isSurrogateHalf (range : UInt8 × UInt8) (b : UInt8) : Bool :=
  range == (0x80, 0x9f) && 0xa0 ≤ b && b ≤ 0xbf

/-- Where bytes stop being a text. -/
structure BadByte where
  start : Nat
  /-- The place of the first byte that does not fit; the number of the bytes
  when the last character is cut short. -/
  place : Nat
  deriving DecidableEq, Repr

/-- Where bytes stop being a text, from a place on: `ranges` are the ranges of
the bytes that the character from `start` on still lacks. -/
def badByteFrom? (start place : Nat) (ranges : List (UInt8 × UInt8)) :
    List UInt8 → Option BadByte
  | [] => if ranges.isEmpty then none else some ⟨start, place⟩
  | b :: bs =>
    match ranges with
    | [] =>
      match following? b with
      | some ranges => badByteFrom? place (place + 1) ranges bs
      | none => some ⟨place, place⟩
    | (low, high) :: ranges =>
      if low ≤ b && b ≤ high then badByteFrom? start (place + 1) ranges bs
      else some ⟨start, if isSurrogateHalf (low, high) b then place + 1 else place⟩

/-- Where bytes stop being a text, if they do. -/
def badByte? (b : ByteArray) : Option BadByte := badByteFrom? 0 0 [] b.toList

end AgentRelay.Text
