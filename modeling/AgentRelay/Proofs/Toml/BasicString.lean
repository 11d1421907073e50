import AgentRelay.Toml.Writer
import Mathlib.Algebra.Group.Nat.Defs

/-
  Texts as basic strings of TOML 1.0.

  Between the double quotes of a basic string stand characters that stand for themselves,
  and escapes (`Body`); a reader decodes them up to the quote that closes the string
  (`read?`). A written text is such a string, and what is read back is the text, whatever
  follows it (`read?_written`). So no text ends its string early, and different texts are
  written differently (`text_is_basicString`).

  The rules here are those of the format, not those of the reader for whole documents,
  which takes texts apart in another way.
-/

namespace AgentRelay.Toml.BasicString

open Writer (escape)

/-! ## The format -/

def isControl (c : Char) : Bool := c.toNat < 32 || c.toNat == 127

/-- The characters that stand for themselves. Of the control characters only the tab
does. -/
def isPlain (c : Char) : Bool := c == '\t' || !isControl c && c != '\x22' && c != '\\'

/-- What a letter behind a backslash stands for. -/
def letter? : Char → Option Char
  | 'b' => some '\x08'
  | 't' => some '\t'
  | 'n' => some '\n'
  | 'f' => some '\x0c'
  | 'r' => some '\r'
  | '\x22' => some '\x22'
  | '\\' => some '\\'
  | _ => none

def digit? (c : Char) : Option Nat :=
  if '0' ≤ c ∧ c ≤ '9' then some (c.toNat - 48)
  else if 'A' ≤ c ∧ c ≤ 'F' then some (c.toNat - 55)
  else if 'a' ≤ c ∧ c ≤ 'f' then some (c.toNat - 87)
  else none

/-- The number that hexadecimal digits give behind those of `n`. -/
def numberFrom? : Nat → List Char → Option Nat
  | n, [] => some n
  | n, c :: cs => (digit? c).bind fun d => numberFrom? (n * 16 + d) cs

/-- The character with a number; surrogates are no characters. -/
def numbered? (digits : List Char) : Option Char :=
  (numberFrom? 0 digits).bind fun n => if n.isValidChar then some (Char.ofNat n) else none

/-- A text that may stand between the quotes of a basic string. -/
inductive Body : List Char → Prop where
  | nil : Body []
  | plain {c : Char} {cs : List Char} : isPlain c = true → Body cs → Body (c :: cs)
  | letter {l : Char} {cs : List Char} : (letter? l).isSome = true → Body cs →
      Body ('\\' :: l :: cs)
  | short {digits cs : List Char} : digits.length = 4 → (numbered? digits).isSome = true →
      Body cs → Body ('\\' :: 'u' :: digits ++ cs)
  | long {digits cs : List Char} : digits.length = 8 → (numbered? digits).isSome = true →
      Body cs → Body ('\\' :: 'U' :: digits ++ cs)

/-- What stands in a basic string whose opening quote was read, and what follows the
quote that closes it. -/
def read? : List Char → Option (List Char × List Char)
  | '\x22' :: rest => some ([], rest)
  | '\\' :: 'u' :: a :: b :: c :: d :: cs =>
    (numbered? [a, b, c, d]).bind fun x => (read? cs).map fun p => (x :: p.1, p.2)
  | '\\' :: 'U' :: a :: b :: c :: d :: e :: f :: g :: h :: cs =>
    (numbered? [a, b, c, d, e, f, g, h]).bind fun x => (read? cs).map fun p => (x :: p.1, p.2)
  | '\\' :: l :: cs => (letter? l).bind fun x => (read? cs).map fun p => (x :: p.1, p.2)
  | c :: cs => if isPlain c then (read? cs).map fun p => (c :: p.1, p.2) else none
  | [] => none

/-! ## Numbers in digits -/

theorem digit?_hexDigit {n : Nat} (h : n < 16) : digit? (Literal.hexDigit n) = some n := by
  have : ∀ n < 16, digit? (Literal.hexDigit n) = some n := by decide
  exact this n h

theorem numberFrom?_append (n : Nat) (cs ds : List Char) :
    numberFrom? n (cs ++ ds) = (numberFrom? n cs).bind fun k => numberFrom? k ds := by
  induction cs generalizing n with
  | nil => rfl
  | cons c cs ih =>
    rw [List.cons_append, numberFrom?, numberFrom?]
    cases digit? c with
    | none => rfl
    | some d => exact ih _

/-- A number comes back from its digits, if they are enough. -/
theorem numberFrom?_hex (width acc n : Nat) (h : n < 16 ^ width) :
    numberFrom? acc (Literal.hex width n) = some (acc * 16 ^ width + n) := by
  induction width generalizing n with
  | zero =>
    obtain rfl : n = 0 := by simpa using h
    simp [Literal.hex, numberFrom?]
  | succ width ih =>
    have hquot : n / 16 < 16 ^ width := by
      rw [Nat.pow_succ] at h
      exact Nat.div_lt_of_lt_mul (by omega)
    rw [Literal.hex, numberFrom?_append, ih _ hquot, Option.bind_some, numberFrom?,
      digit?_hexDigit (Nat.mod_lt _ (by decide)), Option.bind_some, numberFrom?, Nat.pow_succ]
    congr 1
    have := Nat.div_add_mod n 16
    rw [Nat.add_mul, Nat.mul_assoc]
    omega

theorem numbered?_hex {c : Char} (h : c.toNat < 16 ^ 4) :
    numbered? (Literal.hex 4 c.toNat) = some c := by
  have hvalid : c.toNat.isValidChar := c.valid
  rw [numbered?, numberFrom?_hex 4 0 _ h, Option.bind_some]
  simp [hvalid]

theorem length_hex (width n : Nat) : (Literal.hex width n).length = width := by
  induction width generalizing n with
  | zero => rfl
  | succ width ih => rw [Literal.hex, List.length_append, ih, List.length_singleton]

/-! ## One character -/

/-- The ways in which a character is written: by a letter, by its number, or as it is. -/
theorem escape_cases (c : Char) :
    (∃ l, letter? l = some c ∧ isControl l = false ∧ escape c = ['\\', l]) ∨
    (c.toNat < 128 ∧ escape c = '\\' :: 'u' :: Literal.hex 4 c.toNat) ∨
    (isControl c = false ∧ c ≠ '\x22' ∧ c ≠ '\\' ∧ escape c = [c]) := by
  unfold escape
  split
  · subst c; exact Or.inl ⟨'b', by decide⟩
  split
  · subst c; exact Or.inl ⟨'t', by decide⟩
  split
  · subst c; exact Or.inl ⟨'n', by decide⟩
  split
  · subst c; exact Or.inl ⟨'f', by decide⟩
  split
  · subst c; exact Or.inl ⟨'r', by decide⟩
  split
  · subst c; exact Or.inl ⟨'\x22', by decide⟩
  split
  · subst c; exact Or.inl ⟨'\\', by decide⟩
  split
  · rename_i hcontrol
    exact Or.inr (Or.inl ⟨by omega, rfl⟩)
  · rename_i hquote hslash hcontrol
    refine Or.inr (Or.inr ⟨?_, hquote, hslash, rfl⟩)
    simpa [isControl] using hcontrol

theorem control_hex (width n : Nat) : ∀ c ∈ Literal.hex width n, isControl c = false := by
  have hdigit : ∀ k < 16, isControl (Literal.hexDigit k) = false := by decide
  induction width generalizing n with
  | zero => exact List.forall_mem_nil _
  | succ width ih =>
    intro c hc
    rcases List.mem_append.mp hc with hc | hc
    · exact ih _ c hc
    · rw [List.mem_singleton.mp hc]
      exact hdigit _ (Nat.mod_lt _ (by decide))

/-- A written character has no control character in it. -/
theorem control_escape (c : Char) : ∀ d ∈ escape c, isControl d = false := by
  rcases escape_cases c with ⟨l, -, hl, h⟩ | ⟨-, h⟩ | ⟨hc, -, -, h⟩
  · rw [h]
    simpa [hl] using (by decide : isControl '\\' = false)
  · rw [h]
    have hmark : isControl '\\' = false ∧ isControl 'u' = false := by decide
    simpa [hmark] using control_hex 4 c.toNat
  · simpa [h] using hc

theorem Body.escape (c : Char) {cs : List Char} (h : Body cs) : Body (escape c ++ cs) := by
  rcases escape_cases c with ⟨l, hl, -, he⟩ | ⟨hlt, he⟩ | ⟨hc, hquote, hslash, he⟩
  · rw [he]
    exact .letter (by rw [hl]; rfl) h
  · rw [he]
    exact .short (length_hex _ _) (by rw [numbered?_hex (by omega)]; rfl) h
  · rw [he]
    exact .plain (by simp [isPlain, hc, hquote, hslash]) h

/-- A written character is read as the character it was. -/
theorem read?_escape (c : Char) (cs : List Char) :
    read? (escape c ++ cs) = (read? cs).map fun p => (c :: p.1, p.2) := by
  rcases escape_cases c with ⟨l, hl, -, he⟩ | ⟨hlt, he⟩ | ⟨hc, hquote, hslash, he⟩
  · have hu : l ≠ 'u' ∧ l ≠ 'U' := by
      constructor <;> rintro rfl <;> exact nomatch hl
    rw [he]
    simp [read?, hu, hl]
  · have hnum := numbered?_hex (c := c) (by omega)
    rw [he]
    simp only [Literal.hex, List.nil_append, List.cons_append] at hnum ⊢
    simp [read?, hnum]
  · rw [he]
    simp [read?, isPlain, hc, hquote, hslash]

/-! ## Whole texts -/

theorem body_written (cs : List Char) : Body (cs.flatMap escape) := by
  induction cs with
  | nil => exact .nil
  | cons c cs ih =>
    rw [List.flatMap_cons]
    exact ih.escape c

/-- A written text is read back up to the quote that closes it, whatever follows. -/
theorem read?_written (cs rest : List Char) :
    read? (cs.flatMap escape ++ '\x22' :: rest) = some (cs, rest) := by
  induction cs with
  | nil => rfl
  | cons c cs ih => rw [List.flatMap_cons, List.append_assoc, read?_escape, ih, Option.map_some]

theorem text_injective {s t : String} (h : Writer.text s.toList = Writer.text t.toList) :
    s = t := by
  have hread := read?_written s.toList []
  rw [Writer.text_eq, Writer.text_eq, List.append_cancel_right_eq, List.cons.injEq] at h
  rw [h.2, read?_written, Option.some.injEq, Prod.mk.injEq] at hread
  exact (String.toList_inj.mp hread.1).symm

/-- A text is written as a basic string that stands for it. Between its quotes there are
only characters that stand for themselves, none of them a control character, and
escapes; the string ends at its last quote and nowhere before; and no other text is
written like it. -/
theorem text_is_basicString (s : String) : ∃ body,
    Writer.text s.toList = '\x22' :: body ++ ['\x22'] ∧ Body body ∧
    (∀ c ∈ body, isControl c = false) ∧
    (∀ rest, read? (body ++ '\x22' :: rest) = some (s.toList, rest)) ∧
    ∀ t : String, Writer.text t.toList = Writer.text s.toList → t = s := by
  refine ⟨s.toList.flatMap escape, Writer.text_eq _, body_written _, fun c hc => ?_,
    read?_written _, fun t => text_injective⟩
  obtain ⟨d, -, hd⟩ := List.mem_flatMap.mp hc
  exact control_escape d c hd

/-- A backslash in front of what looks like an escape stays apart from it. -/
example : Writer.text "\\u0041\x1b".toList = "\"\\\\u0041\\u001b\"".toList ∧
    read? "\\\\u0041\\u001b\"".toList = some ("\\u0041\x1b".toList, []) := by decide

end AgentRelay.Toml.BasicString
