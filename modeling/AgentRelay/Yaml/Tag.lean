import AgentRelay.Text.Pieces
import AgentRelay.Yaml.Moment

/-
  Tags, and the tag a plain scalar gets from its look.

  A scalar that carries no tag and stands outside quotes is null, a truth
  value, a number, a day or a moment when it looks like one, and text
  otherwise. A line feed at the very end does not change the look.

  Main statement: decimal digits that do not begin with zero are a whole number, with
  underscores among them too (`Tag.ofPlain_of_decimal`).
-/

namespace AgentRelay.Yaml

/-- What a node says it is. -/
inductive Tag where
  | null : Tag
  | bool : Tag
  | int : Tag
  | real : Tag
  | binary : Tag
  | moment : Tag
  | omap : Tag
  | pairs : Tag
  | set : Tag
  | text : Tag
  | seq : Tag
  | map : Tag
  | merge : Tag
  | value : Tag
  | other : String → Tag
  deriving DecidableEq, Repr

namespace Tag

def isCollection : Tag → Bool
  | seq => true
  | map => true
  | set => true
  | omap => true
  | pairs => true
  | _ => false

def isScalar : Tag → Bool
  | null => true
  | bool => true
  | int => true
  | real => true
  | binary => true
  | moment => true
  | text => true
  | _ => false

def standard : String := "tag:yaml.org,2002:"

/-- The standard tags by the last part of their address. -/
def names : List (String × Tag) :=
  [("null", .null), ("bool", .bool), ("int", .int), ("float", .real), ("binary", .binary),
   ("timestamp", .moment), ("omap", .omap), ("pairs", .pairs), ("set", .set), ("str", .text),
   ("seq", .seq), ("map", .map), ("merge", .merge), ("value", .value)]

def ofAddress (address : String) : Tag :=
  match Text.dropStart? standard.toList address.toList with
  | some rest => ((names.find? fun e => e.1.toList == rest).map (·.2)).getD (.other address)
  | none => .other address

/-- The words for truth values, in the spellings that count without a tag. -/
def truthWords : List (String × Bool) :=
  [("yes", true), ("no", false), ("true", true), ("false", false), ("on", true), ("off", false)]

def spellings (w : String) : List (List Char) :=
  let cs := w.toList
  [cs, (cs.take 1).map Char.toUpper ++ cs.drop 1, cs.map Char.toUpper]

def looksBool (cs : List Char) : Bool := truthWords.any fun w => (spellings w.1).contains cs

/-- Null: nothing, a tilde, or the word. -/
def looksNull (cs : List Char) : Bool := cs.isEmpty || cs == ['~'] || (spellings "null").contains cs

def afterSign : List Char → List Char
  | c :: cs => if c = '-' ∨ c = '+' then cs else c :: cs
  | [] => []

def isDigitMark (c : Char) : Bool := c.isDigit || c == '_'

/-- Groups of a colon and a number below sixty; the result is what follows the
last group, and how many groups there were. -/
def sixties : List Char → Nat × List Char
  | ':' :: a :: b :: cs =>
    if a.isDigit && a ≤ '5' && b.isDigit then
      let (n, rest) := sixties cs
      (n + 1, rest)
    else if a.isDigit then
      let (n, rest) := sixties (b :: cs)
      (n + 1, rest)
    else (0, ':' :: a :: b :: cs)
  | ':' :: a :: [] => if a.isDigit then (1, []) else (0, [':', a])
  | cs => (0, cs)

/-- A whole number: binary, octal, decimal, hexadecimal, or in base sixty. -/
def looksInt (cs : List Char) : Bool :=
  match afterSign cs with
  | '0' :: 'b' :: r => !r.isEmpty && r.all fun c => c == '0' || c == '1' || c == '_'
  | '0' :: 'x' :: r =>
    !r.isEmpty && r.all fun c =>
      c.isDigit || ('a' ≤ c && c ≤ 'f') || ('A' ≤ c && c ≤ 'F') || c == '_'
  | '0' :: r => r.all fun c => ('0' ≤ c && c ≤ '7') || c == '_'
  | c :: r =>
    c.isDigit &&
      match r.dropWhile isDigitMark with
      | [] => true
      | rest => (sixties rest).2.isEmpty
  | [] => false

def looksExponent : List Char → Bool
  | [] => true
  | e :: s :: r =>
    (e == 'e' || e == 'E') && (s == '+' || s == '-') && !r.isEmpty && r.all Char.isDigit
  | _ => false

/-- A number with a point, or a word for infinity or not-a-number. -/
def looksReal (cs : List Char) : Bool :=
  let unsigned := afterSign cs
  match unsigned with
  | '.' :: r =>
    let fraction := match r with
      | d :: r => cs == unsigned && d.isDigit && looksExponent (r.dropWhile isDigitMark)
      | [] => false
    let word := (spellings "inf").contains r
    let nan := cs == unsigned && (r == "nan".toList || r == "NaN".toList || r == "NAN".toList)
    fraction || word || nan
  | c :: r =>
    c.isDigit &&
      match r.dropWhile isDigitMark with
      | '.' :: r => looksExponent (r.dropWhile isDigitMark)
      | ':' :: r =>
        match sixties (':' :: r) with
        | (0, _) => false
        | (_, '.' :: r) => r.all isDigitMark
        | _ => false
      | _ => false
  | [] => false

def looksMoment (cs : List Char) : Bool :=
  match WrittenMoment.read? cs with
  | some w => w.padded || w.time.isSome
  | none => false

/-- A mark that stands for itself alone. -/
def looksMark (cs : List Char) : Bool := cs == ['!'] || cs == ['&'] || cs == ['*']

def mark : Tag := .other (standard ++ "yaml")

/-- The tag of a plain scalar that carries none. A text that starts with a line
feed is text. -/
def ofPlain (cs : List Char) : Tag :=
  let is (look : List Char → Bool) : Bool :=
    look cs || (cs.getLast? == some '\n' && 1 < cs.length && look cs.dropLast)
  if is looksBool then .bool
  else if is looksReal then .real
  else if is looksInt then .int
  else if is (· == "<<".toList) then .merge
  else if is looksNull then .null
  else if is looksMoment then .moment
  else if is (· == "=".toList) then .value
  else if is looksMark then mark
  else .text

/-- The digits a decimal number without a mark of its base begins with. -/
theorem eq_of_leading_digit {c : Char} (h : c.isDigit = true) (hz : c ≠ '0') :
    c = '1' ∨ c = '2' ∨ c = '3' ∨ c = '4' ∨ c = '5' ∨ c = '6' ∨ c = '7' ∨ c = '8' ∨ c = '9' := by
  obtain ⟨hlow, hhigh⟩ := Char.isDigit_iff_toNat.mp h
  have hpos : c.toNat ≠ '0'.toNat := fun heq => hz (Char.toNat_inj.mp heq)
  have hrange : 49 ≤ c.toNat ∧ c.toNat ≤ 57 := ⟨Nat.lt_of_le_of_ne hlow (Ne.symm hpos), hhigh⟩
  rw [← Char.ofNat_toNat c]
  generalize c.toNat = n at hrange
  have hn : n = 49 ∨ n = 50 ∨ n = 51 ∨ n = 52 ∨ n = 53 ∨ n = 54 ∨ n = 55 ∨ n = 56 ∨ n = 57 := by
    omega
  rcases hn with rfl | rfl | rfl | rfl | rfl | rfl | rfl | rfl | rfl <;> decide

theorem dropWhile_digitMarks {cs : List Char} (h : ∀ c ∈ cs, isDigitMark c = true) :
    cs.dropWhile isDigitMark = [] := by
  induction cs with
  | nil => rfl
  | cons c cs ih => simp [h c (by simp), ih fun d hd => h d (by simp [hd])]

/-- A digit but zero, and digits and underscores behind it, are a whole number. -/
theorem ofPlain_of_decimal {c : Char} {cs : List Char} (hc : c.isDigit = true) (hz : c ≠ '0')
    (hcs : ∀ d ∈ cs, isDigitMark d = true) : ofPlain (c :: cs) = .int := by
  have hdrop := dropWhile_digitMarks hcs
  have hend : (c :: cs).getLast? ≠ some '\n' := by
    intro hlast
    rcases List.mem_cons.mp (List.mem_of_getLast? hlast) with rfl | hmem
    · exact absurd hc (by decide)
    · exact absurd (hcs _ hmem) (by decide)
  have hbool : looksBool (c :: cs) = false := by
    rcases eq_of_leading_digit hc hz with rfl | rfl | rfl | rfl | rfl | rfl | rfl | rfl | rfl <;>
      simp [looksBool, truthWords, spellings]
  have hreal : looksReal (c :: cs) = false := by
    rcases eq_of_leading_digit hc hz with rfl | rfl | rfl | rfl | rfl | rfl | rfl | rfl | rfl <;>
      simp [looksReal, afterSign, hdrop]
  have hint : looksInt (c :: cs) = true := by
    rcases eq_of_leading_digit hc hz with rfl | rfl | rfl | rfl | rfl | rfl | rfl | rfl | rfl <;>
      simp [looksInt, afterSign, hdrop]
  simp [ofPlain, hbool, hreal, hint, hend]

example : ofPlain "1_000".toList = .int := by decide

end Tag

end AgentRelay.Yaml
