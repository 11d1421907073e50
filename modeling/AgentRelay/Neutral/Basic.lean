import AgentRelay.Document.Basic
import AgentRelay.Document.Provenance
import AgentRelay.FieldKey

/-
  The form in which documents travel from one agent to another.

  Properties that several agents share have a place of their own; all other
  fields are extras. The background of a document is never written into
  another one.
-/

namespace AgentRelay

/-- Commands and skills. -/
inductive ContentKind where
  | command : ContentKind
  | skill : ContentKind
  deriving DecidableEq, Repr

namespace ContentKind

def name : ContentKind → String
  | command => "command"
  | skill => "skill"

def ofName? (s : String) : Option ContentKind := [command, skill].find? fun k => k.name == s

def complaint (s : String) : String := "Unknown content type " ++ String.ofList (Literal.text s)

end ContentKind

/-- The properties several agents share. A name or a description that is absent
is null. -/
structure Shared where
  description : Value
  name : Value
  invocation : Option Bool
  history : Option (List Phrase)
  deriving Repr

def Shared.none : Shared := ⟨.null, .null, Option.none, Option.none⟩

/-- What is known of a document besides its text and fields. -/
structure Background where
  path : String
  agent : Option String
  support : Option (List SupportFile)
  skillName : Value
  deriving Repr

/-- A document in the form in which it travels. -/
structure Neutral where
  kind : ContentKind
  body : List Body.Segment
  shared : Shared
  extras : Mapping
  background : Background
  deriving Repr

/-- The field that keeps the model from using a skill on its own. -/
def invocationKey : String := "disable-model-invocation"

def markedInvocationKey : String := FieldKey.mark invocationKey

/-- How documents are put into an agent's form: without the fields it does not
understand, and on top of the fields of a document that exists. -/
structure WriteOptions where
  removeForeign : Bool
  existing : Mapping

/-- Adds the history as a field, when there is one. -/
def addHistory (history : Option (List Phrase)) (m : Mapping) : Mapping :=
  match history with
  | some (h :: hs) =>
    Mapping.set m (.text provenanceKey) (Value.list ((h :: hs).map Value.phrase))
  | _ => m

/-- Adds a field, unless its value is null. -/
def addField (key : String) (v : Value) (m : Mapping) : Mapping :=
  if v.isNull then m else Mapping.set m (.text key) v

def bodyText (a : Agent) (body : List Body.Segment) : String := String.ofList (a.spelling.text body)

def bodyOf (a : Agent) (text : String) : List Body.Segment := a.spelling.read text.toList

end AgentRelay
