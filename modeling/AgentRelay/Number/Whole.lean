import AgentRelay.Text.Blank
import AgentRelay.Text.Digit

/-
  Reading whole numbers from text, and writing them in decimal.

  A number may stand between blanks and carry a sign, an underscore may stand
  between two digits or after the mark of the base, and digits of every script
  count as those of ASCII. Base 0 takes the base from the mark (`0x`, `0o`,
  `0b`, else ten) and then refuses a leading zero in front of another digit.

  Decimal numbers are neither read nor written beyond a number of digits; in
  bases that are powers of two there is no such bound.

  Main statement: what is written in decimal is read back (`readInt?_of_intText?`).
-/

namespace AgentRelay.Number

open AgentRelay.Text (isBlank isNarrowBlank digitValue?)

/-- Longest decimal number that is read or written; longer ones are refused. -/
def maxDecimalDigits : Nat := 4300

/-- The decimal digits of a number, most significant first. -/
def digitsOf (n : Nat) : List Char := (Nat.repr n).toList

def intText (i : Int) : List Char :=
  match i with
  | .ofNat n => digitsOf n
  | .negSucc n => '-' :: digitsOf (n + 1)

/-- An integer in decimal, `none` for one with too many digits. -/
def intText? (i : Int) : Option (List Char) :=
  if (digitsOf i.natAbs).length ≤ maxDecimalDigits then some (intText i) else none

/-- A character as numbers are read: a digit of any script is a digit of ASCII,
and a blank beyond ASCII is a space. -/
def narrowed (c : Char) : Char :=
  if c.toNat < 128 then c
  else if isBlank c then ' '
  else
    match digitValue? c with
    | some d => Char.ofNat (48 + d)
    | none => c

/-- The text of a number without the blanks around it. -/
def trimmed (cs : List Char) : List Char :=
  let inner := (cs.map narrowed).dropWhile isNarrowBlank
  (inner.reverse.dropWhile isNarrowBlank).reverse

def digitIn? (base : Nat) (c : Char) : Option Nat :=
  let v? :=
    if c.isDigit then some (c.toNat - 48)
    else if 'a' ≤ c ∧ c ≤ 'z' then some (c.toNat - 87)
    else if 'A' ≤ c ∧ c ≤ 'Z' then some (c.toNat - 55)
    else none
  v?.filter (· < base)

/-- Reads digits up to the end, an underscore only between two digits; `fresh`
says that the character before was no digit. -/
def digitsIn? (base : Nat) : Bool → Nat → List Char → Option Nat
  | fresh, acc, [] => if fresh then none else some acc
  | fresh, acc, c :: cs =>
    if c = '_' then
      if fresh then none else digitsIn? base true acc cs
    else match digitIn? base c with
      | some d => digitsIn? base false (acc * base + d) cs
      | none => none

def baseOfMark? : Char → Option Nat
  | 'x' | 'X' => some 16
  | 'o' | 'O' => some 8
  | 'b' | 'B' => some 2
  | _ => none

/-- The digits after the mark of a base, an underscore allowed behind the mark. -/
def markedDigits? (base : Nat) : List Char → Option Nat
  | '_' :: cs => digitsIn? base true 0 cs
  | cs => digitsIn? base true 0 cs

def magnitude? (base : Nat) (cs : List Char) : Option Nat :=
  let plain (b : Nat) : Option Nat :=
    if b = 10 ∧ (cs.filter (· ≠ '_')).length > maxDecimalDigits then none
    else digitsIn? b true 0 cs
  match cs with
  | '0' :: m :: rest =>
    match baseOfMark? m with
    | some b =>
      if base = 0 ∨ base = b then markedDigits? b rest
      else plain base
    | none =>
      if base = 0 then
        match plain 10 with
        | some 0 => some 0
        | _ => none
      else plain base
  | _ => plain (if base = 0 then 10 else base)

/-- Reads an integer in the given base; base 0 goes by the mark. -/
def readInt? (base : Nat) (cs : List Char) : Option Int :=
  match trimmed cs with
  | '-' :: rest => (magnitude? base rest).map fun n => -(n : Int)
  | '+' :: rest => (magnitude? base rest).map fun n => (n : Int)
  | rest => (magnitude? base rest).map fun n => (n : Int)

theorem ne_mark_of_isDigit {c : Char} (h : c.isDigit = true) : c ≠ '_' := by
  rintro rfl
  exact absurd h (by decide)

/-- Digits of ASCII are read as the number they spell, behind what was read before. -/
theorem digitsIn?_of_digits {cs : List Char} (h : ∀ c ∈ cs, c.isDigit = true) (fresh : Bool)
    (acc : Nat) (hend : cs = [] → fresh = false) :
    digitsIn? 10 fresh acc cs = some (Nat.ofDigitChars 10 cs acc) := by
  induction cs generalizing fresh acc with
  | nil => simp [digitsIn?, hend rfl]
  | cons c cs ih =>
    have hc : c.isDigit = true := h c (by simp)
    have hvalue : digitIn? 10 c = some (c.toNat - 48) := by
      have hlow : c.toNat - 48 < 10 := by
        have hnine : c.toNat ≤ 57 := (Char.isDigit_iff_toNat.mp hc).2
        omega
      simp [digitIn?, hc, hlow]
    rw [digitsIn?, if_neg (ne_mark_of_isDigit hc), hvalue, Nat.ofDigitChars_cons, Nat.mul_comm]
    exact ih (fun d hd => h d (by simp [hd])) false _ fun _ => rfl

/-- Digits of ASCII, not too many of them, are read in base ten. -/
theorem magnitude?_of_digits {cs : List Char} (h : ∀ c ∈ cs, c.isDigit = true) (hne : cs ≠ [])
    (hlen : cs.length ≤ maxDecimalDigits) :
    magnitude? 10 cs = some (Nat.ofDigitChars 10 cs 0) := by
  have hread := digitsIn?_of_digits h true 0 fun hnil => absurd hnil hne
  have hmarks : cs.filter (· ≠ '_') = cs :=
    List.filter_eq_self.mpr fun c hc => decide_eq_true (ne_mark_of_isDigit (h c hc))
  unfold magnitude?
  split
  · rename_i m rest
    -- The second character is a digit, so it marks no base.
    have hm : m.isDigit = true := h m (by simp)
    have hbase : baseOfMark? m = none := by
      unfold baseOfMark?
      split <;> first | rfl | exact absurd hm (by decide)
    simp only [hbase, hread, hmarks]
    rw [if_neg (by decide), if_neg fun hmany => Nat.not_lt.mpr hlen hmany.2]
  · have hten : (if 10 = 0 then 10 else 10) = 10 := rfl
    simp only [hten, hread, hmarks]
    rw [if_neg fun hmany => Nat.not_lt.mpr hlen hmany.2]

theorem dropWhile_of_no_blank {cs : List Char} (h : ∀ c ∈ cs, isNarrowBlank c = false) :
    cs.dropWhile isNarrowBlank = cs := by
  cases cs with
  | nil => rfl
  | cons c cs => simp [h c (by simp)]

/-- A text of ASCII without blanks is trimmed already. -/
theorem trimmed_of_plain {cs : List Char}
    (h : ∀ c ∈ cs, c.toNat < 128 ∧ isNarrowBlank c = false) : trimmed cs = cs := by
  have hsame : cs.map narrowed = cs :=
    (List.map_congr_left fun c hc => if_pos (h c hc).1).trans (List.map_id _)
  rw [trimmed, hsame, dropWhile_of_no_blank fun c hc => (h c hc).2,
    dropWhile_of_no_blank fun c hc => (h c (List.mem_reverse.mp hc)).2, List.reverse_reverse]

theorem plain_of_isDigit {c : Char} (h : c.isDigit = true) :
    c.toNat < 128 ∧ isNarrowBlank c = false := by
  obtain ⟨hlow, hhigh⟩ := Char.isDigit_iff_toNat.mp h
  have hzero : '0'.toNat = 48 := rfl
  have hnine : '9'.toNat = 57 := rfl
  refine ⟨by omega, ?_⟩
  have hnot : ∀ d : Char, d.toNat < 48 → c ≠ d := by
    rintro d hd rfl
    omega
  simp [isNarrowBlank, hnot]

theorem digitsOf_spec (n : Nat) :
    (∀ c ∈ digitsOf n, c.isDigit = true) ∧ digitsOf n ≠ [] ∧
      Nat.ofDigitChars 10 (digitsOf n) 0 = n := by
  rw [digitsOf, Nat.repr_eq_ofList_toDigits, String.toList_ofList]
  exact ⟨fun c => Nat.isDigit_of_mem_toDigits (by omega) (by omega), Nat.toDigits_ne_nil,
    Nat.ofDigitChars_ten_toDigits⟩

/-- A number that can be written in decimal is read back from its text. -/
theorem readInt?_of_intText? {i : Int} {cs : List Char} (h : intText? i = some cs) :
    readInt? 10 cs = some i := by
  obtain ⟨hlen, rfl⟩ : (digitsOf i.natAbs).length ≤ maxDecimalDigits ∧ intText i = cs := by
    simpa [intText?] using h
  cases i with
  | ofNat n =>
    obtain ⟨hdigits, hne, hvalue⟩ := digitsOf_spec n
    rw [intText, readInt?, trimmed_of_plain fun c hc => plain_of_isDigit (hdigits c hc)]
    split
    · rename_i rest hcs
      exact absurd (hdigits '-' (by simp [hcs])) (by decide)
    · rename_i rest hcs
      exact absurd (hdigits '+' (by simp [hcs])) (by decide)
    · rw [magnitude?_of_digits hdigits hne hlen, hvalue]
      rfl
  | negSucc n =>
    obtain ⟨hdigits, hne, hvalue⟩ := digitsOf_spec (n + 1)
    have hplain : ∀ c ∈ '-' :: digitsOf (n + 1), c.toNat < 128 ∧ isNarrowBlank c = false := by
      intro c hc
      rcases List.mem_cons.mp hc with rfl | hc
      · decide
      · exact plain_of_isDigit (hdigits c hc)
    rw [intText, readInt?, trimmed_of_plain hplain]
    simp only [magnitude?_of_digits hdigits hne hlen, hvalue]
    rfl

example : readInt? 10 "-12".toList = some (-12) := by decide

end AgentRelay.Number
