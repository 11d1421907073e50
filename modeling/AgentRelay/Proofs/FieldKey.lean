import AgentRelay.FieldKey
import AgentRelay.Proofs.Text

/-
  Marked names and the names they stand for.

  A mark turns dashes into underscores, and taking it off turns underscores into dashes.
  Each direction loses the characters that the other one makes: a name comes back from
  its marked name exactly when it has no underscore, and a marked name from its plain
  one exactly when it has no dash behind the mark (`marks_reversible`).
-/

namespace AgentRelay.FieldKey

open AgentRelay.Text (dropStart? startsWith replaceChar)

/-- What stands behind the mark of a marked name. -/
def behindMark (key : String) : List Char := key.toList.drop start.length

/-- A marked name is the mark with something behind it. -/
theorem isMarked_iff {key : String} :
    isMarked key = true ↔ key.toList = start ++ behindMark key := by
  rw [isMarked, startsWith, Option.isSome_iff_exists, behindMark]
  constructor
  · rintro ⟨rest, hrest⟩
    rw [(Text.dropStart?_eq_some_iff _ _ _).mp hrest, List.drop_left]
  · intro h
    exact ⟨_, (Text.dropStart?_eq_some_iff _ _ _).mpr h⟩

theorem unmark_marked {key : String} (h : isMarked key = true) :
    unmark key = String.ofList (replaceChar '_' '-' (behindMark key)) := by
  have hdrop : dropStart? start key.toList = some (behindMark key) :=
    (Text.dropStart?_eq_some_iff _ _ _).mpr (isMarked_iff.mp h)
  simp only [unmark, hdrop]

/-- Marking a name and taking the mark off gives it back exactly when no underscore
could be taken for a dash. -/
theorem unmark_mark_iff (key : String) : unmark (mark key) = key ↔ '_' ∉ key.toList := by
  rw [unmark_mark_eq, ← String.toList_inj, String.toList_ofList]
  exact Text.replaceChar_back_iff (by decide)

/-- Taking the mark off and marking again gives a marked name back exactly when no dash
behind the mark could be taken for an underscore. -/
theorem mark_unmark_iff {key : String} (h : isMarked key = true) :
    mark (unmark key) = key ↔ '-' ∉ behindMark key := by
  rw [unmark_marked h, mark, ← String.toList_inj, String.toList_ofList, String.toList_ofList,
    isMarked_iff.mp h, List.append_cancel_left_eq]
  exact Text.replaceChar_back_iff (by decide)

/-- Where marks are reversible. Marking and taking the mark off gives back the names
without underscores and no others, and the other way round the marked names without
dashes behind the mark and no others. So marking tells names without underscores apart,
and of two marked names that stand for one name at least one has a dash behind the
mark. -/
theorem marks_reversible :
    (∀ key, unmark (mark key) = key ↔ '_' ∉ key.toList) ∧
    (∀ key, isMarked key = true → (mark (unmark key) = key ↔ '-' ∉ behindMark key)) ∧
    (∀ a b, '_' ∉ a.toList → '_' ∉ b.toList → mark a = mark b → a = b) ∧
    ∀ a b, isMarked a = true → isMarked b = true → a ≠ b → unmark a = unmark b →
      '-' ∈ behindMark a ∨ '-' ∈ behindMark b := by
  refine ⟨unmark_mark_iff, fun key => mark_unmark_iff, fun a b ha hb h => ?_,
    fun a b ha hb hne h => ?_⟩
  · calc
      a = unmark (mark a) := ((unmark_mark_iff a).mpr ha).symm
      _ = unmark (mark b) := by rw [h]
      _ = b := (unmark_mark_iff b).mpr hb
  · refine Decidable.byContradiction fun hdash => hne ?_
    rw [not_or] at hdash
    calc
      a = mark (unmark a) := ((mark_unmark_iff ha).mpr hdash.1).symm
      _ = mark (unmark b) := by rw [h]
      _ = b := (mark_unmark_iff hb).mpr hdash.2

/-- A field name with dashes comes back from its marked name and tells it apart from
others; a name with an underscore does not come back, nor does a marked name with a
dash, which stands for the same name as the one with an underscore. -/
theorem marks_of_tools :
    unmark (mark "allowed-tools") = "allowed-tools" ∧
    unmark (mark "allowed_tools") ≠ "allowed_tools" ∧
    mark (unmark "_claude_allowed_tools") = "_claude_allowed_tools" ∧
    mark (unmark "_claude_allowed-tools") ≠ "_claude_allowed-tools" ∧
    mark "allowed-tools" ≠ mark "argument-hint" ∧
    unmark "_claude_allowed-tools" = unmark "_claude_allowed_tools" ∧
    '-' ∈ behindMark "_claude_allowed-tools" := by
  obtain ⟨hback, hforth, hapart, hclash⟩ := marks_reversible
  have hsame : unmark "_claude_allowed-tools" = unmark "_claude_allowed_tools" := by decide
  refine ⟨(hback _).mpr (by decide), fun h => (hback _).mp h (by decide),
    (hforth _ (by decide)).mpr (by decide), fun h => (hforth _ (by decide)).mp h (by decide),
    fun h => ?_, hsame, ?_⟩
  · have := hapart _ _ (by decide) (by decide) h
    exact absurd this (by decide)
  · have hdash := hclash _ _ (by decide) (by decide) (by decide) hsame
    exact hdash.resolve_right (by decide)

end AgentRelay.FieldKey
