import AgentRelay.CommandName
import AgentRelay.Neutral.Hub

/-
  Commands on their way between agents.
-/

namespace AgentRelay

namespace Command

/-- The shared properties among the fields of a command; a description is taken
as a text. -/
def sharedOf (fields : Mapping) : Except Misfit Shared := do
  return { Shared.none with
    description := ← (Mapping.field fields descriptionKey).asText
    history := ← provenance (Mapping.field fields provenanceKey) }

def extrasOf (fields : Mapping) : Mapping :=
  (Mapping.without fields descriptionKey).without provenanceKey

/-- A command of an agent in the form in which it travels. -/
def neutralOf (a : Agent) (fields : Mapping) (content path : String) : Except Misfit Neutral := do
  return ⟨.command, bodyOf a content, ← sharedOf fields, extrasOf fields,
    ⟨path, some a.name, none, .null⟩⟩

def withDescription (description : Value) (fields : Mapping) : Mapping :=
  addField descriptionKey description fields

/-- A command of an agent in the form in which it travels to a destination. -/
def toNeutral (a : Agent) (destination : Option String) : Command → Except Misfit Neutral
  | markdown fields content path => do
    if a = Agent.hub then
      let n ← neutralOf a (Mapping.without fields Hub.sectionKey) content path
      return { n with extras := Hub.extrasFor destination fields n.extras }
    else neutralOf a fields content path
  | table prompt description fields path =>
    neutralOf a (withDescription description fields) prompt path
  | plain content path => neutralOf a [] content path

end Command

namespace Neutral

def keepsCommandExtra (a : Agent) (removeForeign : Bool) (key : Scalar) : Bool :=
  !(a.skippedCommandFields.any fun s => key.same (.text s)) &&
    !(removeForeign && a.foreignCommandFields.any fun s => key.same (.text s))

/-- Adds the extras an agent writes; a field that is there already stays. -/
def addCommandExtras (a : Agent) (removeForeign : Bool) (extras fields : Mapping) : Mapping :=
  extras.foldl (fun fields e =>
    if Mapping.contains fields e.1 || !keepsCommandExtra a removeForeign e.1 then fields
    else Mapping.set fields e.1 e.2) fields

def commandFields (a : Agent) (removeForeign : Bool) (n : Neutral) : Mapping :=
  addHistory n.shared.history
    (addCommandExtras a removeForeign n.extras (addField descriptionKey n.shared.description []))

def commandPath (a : Agent) (n : Neutral) : String :=
  String.ofList (replaceExtension n.background.path.toList a.extension)

def hubCommandFields (o : WriteOptions) (n : Neutral) : Mapping :=
  Hub.addSection n.background.agent n.extras o.existing
    (addHistory n.shared.history (addField descriptionKey n.shared.description []))

def toCommand (a : Agent) (o : WriteOptions) (n : Neutral) : Command :=
  let content := bodyText a n.body
  let path := n.commandPath a
  match a.format with
  | .plain => .plain content path
  | .table =>
    let fields := n.commandFields a o.removeForeign
    .table content (Mapping.field fields descriptionKey)
      ((Mapping.without fields promptKey).without descriptionKey) path
  | .markdown =>
    if a = Agent.hub then .markdown (n.hubCommandFields o) content path
    else .markdown (n.commandFields a o.removeForeign) content path

end Neutral

end AgentRelay
