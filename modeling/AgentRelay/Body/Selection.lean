import AgentRelay.Body.Segment

/-
  From the placeholders that patterns find in a text to the segments of the
  text.

  Every pattern searches the whole text on its own. What all of them find is
  ordered by where it starts, what was found first coming first among equals,
  and taken from the left: a find that starts before the end of the last one
  taken is dropped.

  Main statements: what is taken does not overlap (`Apart.of_take`), and the
  runs of the text together with the taken pieces give the text back
  (`restore_cut`).
-/

namespace AgentRelay.Body

/-- A placeholder found in a text, from place `start` up to place `stop`. -/
structure Found where
  start : Nat
  stop : Nat
  placeholder : Placeholder
  deriving DecidableEq, Repr

/-- A way to find placeholders in a text. -/
abbrev Pattern := List Char → List Found

def pool (patterns : List Pattern) (body : List Char) : List Found :=
  (patterns.flatMap fun p => p body).mergeSort fun a b => a.start ≤ b.start

/-- Takes finds from the left; `last` is the end of the one taken before. -/
def take (last : Nat) : List Found → List Found
  | [] => []
  | f :: fs => if last ≤ f.start then f :: take f.stop fs else take last fs

/-- A run of text as a segment, nothing when it is empty. -/
def run (cs : List Char) : List Segment := if cs.isEmpty then [] else [.text cs]

/-- The segments of the text `rest`, which starts at place `last`, around the
taken finds. -/
def cut (last : Nat) (rest : List Char) : List Found → List Segment
  | [] => run rest
  | f :: fs =>
    run (rest.take (f.start - last)) ++ .placeholder f.placeholder ::
      cut f.stop (rest.drop (f.stop - last)) fs

def parse (patterns : List Pattern) (body : List Char) : List Segment :=
  if body.isEmpty then [] else cut 0 body (take 0 (pool patterns body))

/-- Finds in order that do not overlap and do not start before `last`. -/
def Apart : Nat → List Found → Prop
  | _, [] => True
  | last, f :: fs => last ≤ f.start ∧ Apart f.stop fs

theorem Apart.of_take (last : Nat) (fs : List Found) : Apart last (take last fs) := by
  induction fs generalizing last with
  | nil => trivial
  | cons f fs ih =>
    by_cases h : last ≤ f.start
    · simp [take, h, Apart, ih]
    · simp [take, h, ih]

/-- What is taken was found. -/
theorem take_sublist (last : Nat) (fs : List Found) : (take last fs).Sublist fs := by
  induction fs generalizing last with
  | nil => exact List.Sublist.slnil
  | cons f fs ih =>
    by_cases h : last ≤ f.start
    · simp [take, h, ih]
    · simp only [take, h, if_false]
      exact (ih last).cons f

/-- The pieces of the text `rest` that `cut` makes, each find with the text it
stands for. -/
def pieces (last : Nat) (rest : List Char) : List Found → List (List Char)
  | [] => [rest]
  | f :: fs =>
    rest.take (f.start - last) ::
      (rest.drop (f.start - last)).take (f.stop - f.start) ::
        pieces f.stop (rest.drop (f.stop - last)) fs

/-- The pieces give the text back. -/
theorem restore_cut (last : Nat) (rest : List Char) (fs : List Found) (h : Apart last fs)
    (hs : ∀ f ∈ fs, f.start ≤ f.stop) : (pieces last rest fs).flatten = rest := by
  induction fs generalizing last rest with
  | nil => simp [pieces]
  | cons f fs ih =>
    have h1 := hs f (by simp)
    have h2 := h.1
    have e : f.stop - last = (f.start - last) + (f.stop - f.start) := by omega
    simp only [pieces, List.flatten_cons]
    rw [ih f.stop _ h.2 fun g hg => hs g (by simp [hg]), e, ← List.drop_drop,
      List.take_append_drop, List.take_append_drop]

end AgentRelay.Body
