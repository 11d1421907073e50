/-
  Floating-point numbers of 64 bits, as data.

  A number is its bits. `magnitude` gives a finite number as `m · 2 ^ q`, and
  `ofRatio` rounds a quotient of naturals to the nearest number, a half going
  to the even neighbour. Arithmetic on the values themselves is the processor's.
-/

namespace AgentRelay.Number

def twoTo (k : Nat) : Nat := Nat.pow 2 k

def tenTo (k : Nat) : Nat := Nat.pow 10 k

/-- A 64-bit floating-point number, kept as its bits. -/
structure Binary64 where
  bits : UInt64
  deriving DecidableEq, Repr, Inhabited

namespace Binary64

def negative (x : Binary64) : Bool := x.bits.toNat / twoTo 63 == 1

def exponent (x : Binary64) : Nat := x.bits.toNat / twoTo 52 % twoTo 11

def fraction (x : Binary64) : Nat := x.bits.toNat % twoTo 52

def isNan (x : Binary64) : Bool := x.exponent == 2047 && x.fraction != 0

def isInfinite (x : Binary64) : Bool := x.exponent == 2047 && x.fraction == 0

def isZero (x : Binary64) : Bool := x.exponent == 0 && x.fraction == 0

/-- A finite number is `m · 2 ^ q` up to its sign; this is `(m, q)`. -/
def magnitude (x : Binary64) : Nat × Int :=
  if x.exponent = 0 then (x.fraction, -1074)
  else (x.fraction + twoTo 52, (x.exponent : Int) - 1075)

/-- The number with the given sign bit and the other bits `n`. -/
def ofParts (negative : Bool) (n : Nat) : Binary64 :=
  ⟨UInt64.ofNat (n + if negative then twoTo 63 else 0)⟩

/-- The not-a-number with this number among all of them. -/
def nanOf (n : Nat) : Binary64 := ofParts false (2047 * twoTo 52 + twoTo 51 + n)

def nan : Binary64 := nanOf 0
def infinity (negative : Bool) : Binary64 := ofParts negative (2047 * twoTo 52)
def zero (negative : Bool) : Binary64 := ofParts negative 0

/-- The nearest natural to `num / den`, a half going to the even neighbour. -/
def roundDiv (num den : Nat) : Nat :=
  let q := num / den
  let r := num % den
  if 2 * r < den then q
  else if 2 * r > den then q + 1
  else if q % 2 = 0 then q else q + 1

/-- The power of two of the last place of a quotient: 53 places are kept, fewer
below the smallest exponent. -/
def lastPlace (num den : Nat) : Int :=
  let k : Int := (num.log2 : Int) - den.log2
  let below : Bool := if k ≥ 0 then num < den * twoTo k.toNat else num * twoTo (-k).toNat < den
  max ((if below then k - 1 else k) - 52) (-1074)

/-- The number nearest to `num / den`, `den` not zero; too large is infinite. -/
def ofRatio (negative : Bool) (num den : Nat) : Binary64 :=
  if num = 0 then zero negative
  else
    let q := lastPlace num den
    let m :=
      if q ≥ 0 then roundDiv num (den * twoTo q.toNat)
      else roundDiv (num * twoTo (-q).toNat) den
    let n := m + (q + 1074).toNat * twoTo 52
    if n ≥ 2047 * twoTo 52 then infinity negative else ofParts negative n

/-- The number nearest to `digits · 10 ^ exp`. Far beyond the range the answer
is decided by the order of magnitude alone. -/
def ofDecimal (negative : Bool) (digits : Nat) (exp : Int) : Binary64 :=
  let order : Int := exp + (Nat.log2 digits : Int) * 30103 / 100000
  if digits = 0 then zero negative
  else if order > 400 then infinity negative
  else if order < -400 then zero negative
  else if exp ≥ 0 then ofRatio negative (digits * tenTo exp.toNat) 1
  else ofRatio negative digits (tenTo (-exp).toNat)

def ofInt (i : Int) : Binary64 := ofRatio (decide (i < 0)) i.natAbs 1

def toFloat (x : Binary64) : Float := Float.ofBits x.bits

/-- The bits of a processor's number; every not-a-number is the same one. -/
def ofFloat (f : Float) : Binary64 := if f.isNaN then nan else ⟨f.toBits⟩

def add (x y : Binary64) : Binary64 := ofFloat (x.toFloat + y.toFloat)

def mul (x y : Binary64) : Binary64 := ofFloat (x.toFloat * y.toFloat)

def neg (x : Binary64) : Binary64 := ofParts (!x.negative) (x.bits.toNat % twoTo 63)

/-- The number is this integer exactly. -/
def equalsInt (x : Binary64) (i : Int) : Bool :=
  if x.exponent = 2047 then false
  else
    let (m, q) := x.magnitude
    let signed : Int := if x.negative then -(m : Int) else m
    if q ≥ 0 then signed * (twoTo q.toNat : Int) = i
    else signed = i * (twoTo (-q).toNat : Int)

/-- The numbers are one key: they are equal as numbers, as both zeros are, or
they are one and the same not-a-number. -/
def same (x y : Binary64) : Bool := x.bits == y.bits || (x.isZero && y.isZero)

end Binary64

end AgentRelay.Number
