import AgentRelay.Failure

/-
  Values as texts, and where a document came from as a list of texts.
-/

namespace AgentRelay

/-- A value as it is displayed. -/
def Value.displayed (v : Value) : Except Misfit String :=
  match v.display? with
  | some cs => .ok (String.ofList cs)
  | none => .error .tooLarge

/-- The text of a value, which is torn only where the value is a torn text. -/
def Value.shown (v : Value) : Except Misfit Phrase :=
  match v.phrase? with
  | some p => .ok p
  | none => v.displayed.map .whole

/-- A value as a text; null stays null. -/
def Value.asText (v : Value) : Except Misfit Value :=
  if v.isNull then .ok .null else v.shown.map Value.phrase

/-- The texts of the items of a list that are not null. -/
def itemTexts (xs : List Value) : Except Misfit (List Phrase) :=
  (xs.filter fun v => !v.isNull).mapM Value.shown

/-- The list, unless it is empty. -/
def nonempty? (xs : List Phrase) : Option (List Phrase) := if xs.isEmpty then none else some xs

/-- The history a value tells: a text that is not empty is a list of one, the
items of a list are taken as texts, and anything else tells nothing. -/
def provenance (v : Value) : Except Misfit (Option (List Phrase)) :=
  match v with
  | .text s => .ok (if s.isEmpty then none else some [.whole s])
  | .scalar (.torn t) => .ok (some [.torn t])
  | v =>
    match v.items? with
    | some xs => (itemTexts xs).map nonempty?
    | none => .ok none

def provenanceKey : String := "_from"

end AgentRelay
