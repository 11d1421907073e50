import AgentRelay.Text.Phrase
import AgentRelay.Text.Pieces

/-
  Marked field names. A field that only one agent family understands travels
  through the others under a marked name in which dashes are underscores.

  Main statements: a marked name is marked (`isMarked_mark`), and taking the
  mark off a name without underscores gives the name back (`unmark_mark`).
-/

namespace AgentRelay.FieldKey

open AgentRelay.Text (dropStart? startsWith replaceChar)

def start : List Char := "_claude_".toList

def mark (key : String) : String := String.ofList (start ++ replaceChar '-' '_' key.toList)

/-- The field a marked name stands for; other names stand for themselves. -/
def unmark (key : String) : String :=
  match dropStart? start key.toList with
  | some rest => String.ofList (replaceChar '_' '-' rest)
  | none => key

def isMarked (key : String) : Bool := startsWith start key.toList

/-- The torn field that a marked torn name stands for. -/
def unmarkTorn? (key : Torn) : Option Torn :=
  (dropStart? start key.front).map fun rest =>
    { key with
      front := replaceChar '_' '-' rest
      back := key.back.map fun p => if p = .char '_' then .char '-' else p }

theorem isMarked_mark (key : String) : isMarked (mark key) = true := by
  simp only [isMarked, mark, startsWith, String.toList_ofList]
  rw [Option.isSome_iff_exists]
  exact ⟨_, (Text.dropStart?_eq_some_iff _ _ _).2 rfl⟩

theorem unmark_mark_eq (key : String) :
    unmark (mark key) = String.ofList (replaceChar '_' '-' (replaceChar '-' '_' key.toList)) := by
  have h : dropStart? start (mark key).toList = some (replaceChar '-' '_' key.toList) := by
    rw [Text.dropStart?_eq_some_iff, mark, String.toList_ofList]
  simp only [unmark, h]

/-- Taking the mark off a name without underscores gives the name back. -/
theorem unmark_mark (key : String) (h : '_' ∉ key.toList) : unmark (mark key) = key := by
  rw [unmark_mark_eq]
  have : replaceChar '_' '-' (replaceChar '-' '_' key.toList) = key.toList := by
    unfold replaceChar
    rw [List.map_map]
    conv => rhs; rw [← List.map_id key.toList]
    refine List.map_congr_left fun c hc => ?_
    have hne : c ≠ '_' := fun e => h (e ▸ hc)
    by_cases hd : c = '-'
    · simp [hd]
    · simp [hd, hne]
  rw [this, String.ofList_toList]

end AgentRelay.FieldKey
