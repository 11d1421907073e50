/-
  Blank characters, and cutting them off the ends of a text.

  `isBlank` is the property the placeholder patterns, the emptiness tests and
  `strip` share: the white space of Unicode together with the four separator
  controls U+001C to U+001F. A zero-width space and a byte order mark are not
  blank.
-/

namespace AgentRelay.Text

def blanks : List Nat :=
  [0x9, 0xa, 0xb, 0xc, 0xd, 0x1c, 0x1d, 0x1e, 0x1f, 0x20, 0x85, 0xa0, 0x1680,
   0x2000, 0x2001, 0x2002, 0x2003, 0x2004, 0x2005, 0x2006, 0x2007, 0x2008,
   0x2009, 0x200a, 0x2028, 0x2029, 0x202f, 0x205f, 0x3000]

/-- A character is blank when its code point is listed. -/
def isBlank (c : Char) : Bool := blanks.contains c.toNat

/-- The blanks of ASCII that numbers and bytes may stand between: the separator
controls are not among them. -/
def isNarrowBlank (c : Char) : Bool :=
  c == ' ' || c == '\t' || c == '\n' || c == '\x0b' || c == '\x0c' || c == '\r'

def stripEndChars (cs : List Char) : List Char := (cs.reverse.dropWhile isBlank).reverse

def stripChars (cs : List Char) : List Char := stripEndChars (cs.dropWhile isBlank)

def strip (s : String) : String := String.ofList (stripChars s.toList)

/-- A text is empty up to blanks. -/
def isBlankText (s : String) : Bool := s.toList.all isBlank

end AgentRelay.Text
