import AgentRelay.Number.Binary64
import AgentRelay.Number.Whole

/-
  The shortest decimal text that reads back as the same number.

  `Shortest.digits` finds the fewest decimal digits that lie in the interval of
  reals rounding to the number, and of two such the nearer; it decides
  everything in natural numbers. `Layout` says how digits are laid out, and
  `Binary64.text` is the layout every printed number of this library uses.
-/

namespace AgentRelay.Number

namespace Shortest

/-- A decimal: `digits · 10 ^ exp`. -/
structure Decimal where
  digits : Nat
  exp : Int
  deriving DecidableEq, Repr

/-- The interval of reals that round to `m · 2 ^ q`, in quarter places: the
number is `4 m`, the ends are `low` and `high`, and they belong to it when
`closed`. The lower neighbour of a power of two is half as far away. -/
structure Interval where
  low : Nat
  mid : Nat
  high : Nat
  closed : Bool

def interval (m : Nat) (q : Int) : Interval :=
  let gap := if m = twoTo 52 ∧ q > -1074 then 1 else 2
  ⟨4 * m - gap, 4 * m, 4 * m + 2, m % 2 == 0⟩

/-- The place of the first decimal digit of `num / den`, `0` for the units. -/
def firstPlace (num den : Nat) : Int :=
  let est : Int := ((Nat.repr num).length : Int) - (Nat.repr den).length
  let reaches : Bool :=
    if est ≥ 0 then den * tenTo est.toNat ≤ num else den ≤ num * tenTo (-est).toNat
  if reaches then est else est - 1

/-- The decimal of the grid `10 ^ k` nearest to the number, if a point of that
grid rounds to it. `two` is the fraction a quarter place is worth. -/
def onGrid? (i : Interval) (twoNum twoDen : Nat) (k : Int) : Option Decimal :=
  let tenNum := if k ≥ 0 then tenTo k.toNat else 1
  let tenDen := if k ≥ 0 then 1 else tenTo (-k).toNat
  -- all in units of `twoNum * tenDen / (twoDen * tenNum)`
  let scale := twoNum * tenDen
  let unit := twoDen * tenNum
  let down := i.mid * scale / unit
  let inside (n : Nat) : Bool :=
    if i.closed then i.low * scale ≤ n * unit && n * unit ≤ i.high * scale
    else i.low * scale < n * unit && n * unit < i.high * scale
  let below := i.mid * scale - down * unit
  let above := (down + 1) * unit - i.mid * scale
  match inside down && down != 0, inside (down + 1) with
  | true, true =>
    if below < above ∨ (below = above ∧ down % 2 = 0) then some ⟨down, k⟩ else some ⟨down + 1, k⟩
  | true, false => some ⟨down, k⟩
  | false, true => some ⟨down + 1, k⟩
  | false, false => none

/-- The first grid with a point, from the coarsest; `fuel` counts the digits
that are still allowed. -/
def search (i : Interval) (twoNum twoDen : Nat) : Nat → Int → Decimal
  | 0, k => (onGrid? i twoNum twoDen k).getD ⟨i.mid, k⟩
  | fuel + 1, k =>
    match onGrid? i twoNum twoDen k with
    | some d => d
    | none => search i twoNum twoDen fuel (k - 1)

/-- Drops the zeros at the end of the digits, at most `fuel` of them. -/
def trim : Nat → Decimal → Decimal
  | 0, d => d
  | fuel + 1, d =>
    if d.digits % 10 = 0 ∧ d.digits ≠ 0 then trim fuel ⟨d.digits / 10, d.exp + 1⟩ else d

/-- The shortest decimal of `m · 2 ^ q`, `m` not zero. -/
def decimal (m : Nat) (q : Int) : Decimal :=
  let quarter := q - 2
  let twoNum := if quarter ≥ 0 then twoTo quarter.toNat else 1
  let twoDen := if quarter ≥ 0 then 1 else twoTo (-quarter).toNat
  let first := firstPlace (4 * m * twoNum) twoDen
  trim 20 (search (interval m q) twoNum twoDen 17 first)

end Shortest

/-- How the digits of a number are laid out. -/
structure Layout where
  lowest : Int
  highest : Int
  /-- The least number of digits of an exponent. -/
  exponentDigits : Nat
  infinity : List Char
  nan : List Char

/-- A number is positional from `0.0001` up to sixteen digits before the point
and keeps `.0`; an exponent carries a sign and has two digits at least. -/
def Layout.plain : Layout := ⟨-4, 16, 2, ['i', 'n', 'f'], ['n', 'a', 'n']⟩

def padLeft (width : Nat) (cs : List Char) : List Char :=
  List.replicate (width - cs.length) '0' ++ cs

/-- Digits with the point after place `point`, counted from the first digit. -/
def positional (digits : List Char) (point : Int) : List Char :=
  if point ≤ 0 then
    ['0', '.'] ++ List.replicate (-point).toNat '0' ++ digits
  else
    let n := point.toNat
    let whole := digits.take n ++ List.replicate (n - digits.length) '0'
    match digits.drop n with
    | [] => whole ++ ['.', '0']
    | fraction => whole ++ '.' :: fraction

def scientific (layout : Layout) (digits : List Char) (exp : Int) : List Char :=
  let coefficient :=
    match digits with
    | [] => []
    | [d] => [d]
    | d :: rest => d :: '.' :: rest
  let mark := if exp < 0 then '-' else '+'
  coefficient ++ 'e' :: mark :: padLeft layout.exponentDigits (digitsOf exp.natAbs)

def Layout.render (layout : Layout) (x : Binary64) : List Char :=
  if x.isNan then layout.nan
  else
    let sign := if x.negative then ['-'] else []
    if x.isInfinite then sign ++ layout.infinity
    else if x.isZero then sign ++ ['0', '.', '0']
    else
      let d := Shortest.decimal x.magnitude.1 x.magnitude.2
      let digits := digitsOf d.digits
      let point := d.exp + digits.length
      if layout.lowest < point ∧ point ≤ layout.highest then sign ++ positional digits point
      else sign ++ scientific layout digits (point - 1)

/-- The text of a number: the fewest digits that read back. -/
def Binary64.text (x : Binary64) : List Char := Layout.plain.render x

end AgentRelay.Number
