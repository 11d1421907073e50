/-
  Taking texts apart and putting them together again: affixes, cuts at a
  separator, and replacement, all on lists of characters.

  Main statements: cutting at a character and joining with it gives the text
  back (`joinWith_splitOn`), `dropStart?` and `dropEnd?` succeed exactly on
  texts with that start or end (`dropStart?_eq_some_iff`,
  `dropEnd?_eq_some_iff`).
-/

namespace AgentRelay.Text

/-- What follows `start`, when the text begins with it. -/
def dropStart? : List Char → List Char → Option (List Char)
  | [], cs => some cs
  | _ :: _, [] => none
  | d :: ds, c :: cs => if c = d then dropStart? ds cs else none

/-- What precedes `tail`, when the text ends with it. -/
def dropEnd? (tail cs : List Char) : Option (List Char) :=
  (dropStart? tail.reverse cs.reverse).map List.reverse

def endsWith (tail cs : List Char) : Bool := (dropEnd? tail cs).isSome

def startsWith (start cs : List Char) : Bool := (dropStart? start cs).isSome

/-- The pieces between the separators `sep`; there is always one piece. -/
def splitOn (sep : Char) : List Char → List (List Char)
  | [] => [[]]
  | c :: cs =>
    if c = sep then [] :: splitOn sep cs
    else match splitOn sep cs with
      | [] => [[c]]
      | p :: ps => (c :: p) :: ps

def joinWith (glue : List Char) : List (List Char) → List Char
  | [] => []
  | [p] => p
  | p :: q :: ps => p ++ glue ++ joinWith glue (q :: ps)

/-- The pieces between the non-overlapping occurrences of `sep`, found from
the left; `fuel` bounds the number of steps. -/
def splitSeqFrom (sep : List Char) : Nat → List Char → List Char → List (List Char)
  | 0, acc, _ => [acc.reverse]
  | _ + 1, acc, [] => [acc.reverse]
  | fuel + 1, acc, c :: cs =>
    match dropStart? sep (c :: cs) with
    | some rest => acc.reverse :: splitSeqFrom sep fuel [] rest
    | none => splitSeqFrom sep fuel (c :: acc) cs

def splitSeq (sep cs : List Char) : List (List Char) :=
  splitSeqFrom sep (cs.length + 1) [] cs

/-- The pieces of at most `n` cuts at `sep`; the last piece keeps the rest. -/
def splitAtMost (sep : Char) : Nat → List Char → List (List Char)
  | 0, cs => [cs]
  | n + 1, cs =>
    match cs.dropWhile (· ≠ sep) with
    | [] => [cs]
    | _ :: rest => cs.takeWhile (· ≠ sep) :: splitAtMost sep n rest

def replaceChar (a b : Char) (cs : List Char) : List Char :=
  cs.map fun c => if c = a then b else c

def containsSeq (part : List Char) : List Char → Bool
  | [] => part.isEmpty
  | c :: cs => startsWith part (c :: cs) || containsSeq part cs

theorem dropStart?_eq_some_iff (start cs rest : List Char) :
    dropStart? start cs = some rest ↔ cs = start ++ rest := by
  induction start generalizing cs with
  | nil => simp [dropStart?]
  | cons d ds ih =>
    cases cs with
    | nil => simp [dropStart?]
    | cons c cs =>
      by_cases h : c = d
      · simp [dropStart?, h, ih]
      · simp [dropStart?, h]

theorem dropEnd?_eq_some_iff (tail cs rest : List Char) :
    dropEnd? tail cs = some rest ↔ cs = rest ++ tail := by
  simp only [dropEnd?, Option.map_eq_some_iff, dropStart?_eq_some_iff]
  constructor
  · rintro ⟨a, ha, rfl⟩
    have := congrArg List.reverse ha
    simpa using this
  · rintro rfl
    exact ⟨rest.reverse, by simp, by simp⟩

theorem splitOn_ne_nil (sep : Char) (cs : List Char) : splitOn sep cs ≠ [] := by
  cases cs with
  | nil => simp [splitOn]
  | cons c cs =>
    by_cases h : c = sep
    · simp [splitOn, h]
    · simp only [splitOn, h, if_false]
      split <;> simp

/-- Joining the pieces with the separator gives the text back. -/
theorem joinWith_splitOn (sep : Char) (cs : List Char) :
    joinWith [sep] (splitOn sep cs) = cs := by
  induction cs with
  | nil => rfl
  | cons c cs ih =>
    have hne := splitOn_ne_nil sep cs
    by_cases h : c = sep
    · subst h
      simp only [splitOn, if_true]
      cases hs : splitOn c cs with
      | nil => exact absurd hs hne
      | cons p ps => rw [hs] at ih; simp [joinWith, ih]
    · simp only [splitOn, h, if_false]
      cases hs : splitOn sep cs with
      | nil => exact absurd hs hne
      | cons p ps =>
        rw [hs] at ih
        cases ps with
        | nil => simp only [joinWith] at ih ⊢; rw [ih]
        | cons q qs => simp only [joinWith, List.cons_append] at ih ⊢; rw [ih]

end AgentRelay.Text
