import AgentRelay.Neutral.Command
import AgentRelay.Neutral.Skill
import AgentRelay.Sync.Report

/-
  Taking one item from an agent to another: it is read, put into the neutral
  form, put into the form of the destination, and written.

  An item of the hub that exists is read as well, because it keeps what the
  source does not know. Nothing is written when an item is skipped or only
  previewed.
-/

namespace AgentRelay.Sync

/-- The item is left alone because it exists. -/
def Order.skips (o : Order) (there : Bool) : Bool := there && o.keepExisting

/-- The kinds of placeholders in a body that an agent has no use for, in the
order in which they come first. -/
def missingIn (a : Agent) (body : List Body.Segment) : List Body.Kind :=
  ((Body.placeholders body).map Body.Placeholder.kind).foldl (fun seen k =>
    if a.missingKinds.contains k && !seen.contains k then seen ++ [k] else seen) []

/-- Prints a line for each kind of placeholder an agent has no use for. -/
def tellMissing (a : Agent) (body : List Body.Segment) (label : String) : Work Unit :=
  (missingIn a body).forM fun k =>
    World.say ("  ! " ++ label ++ ": " ++ k.name ++ " is not supported by " ++ a.title)

/-- The fields of the command at a path, where the hub is the destination and
the command exists. -/
def existingCommand (a : Agent) (target : Path) (there : Bool) : Work Mapping := do
  if a = Agent.hub ∧ there then return (← Command.read a 1 target.text).fields
  else return []

/-- The fields of the skill in a folder, where the hub is the destination and
the skill exists. -/
def existingSkill (a : Agent) (target : Path) (there : Bool) : Work Mapping := do
  if a = Agent.hub ∧ there then return (← Skill.read a 1 target.text).fields
  else return []

/-- Takes a command from a file of the source to a file of the destination. -/
def takeCommand (source destination : Agent) (o : Order) (file target : Path) :
    Work Operation := do
  let command ← Command.read source 0 file.text
  let neutral ← Work.ofExcept ((command.toNeutral source (some destination.name)).mapError .misfit)
  -- The source is read first: one that cannot be read fails even where it would be skipped.
  let w ← get
  let there := w.isFile target
  if o.skips there then return ⟨.skipped, target, o.preview⟩
  let existing ← existingCommand destination target there
  let text ← Work.ofExcept (neutral.toCommand destination ⟨o.removeForeign, existing⟩).text
  if o.verbose then tellMissing destination neutral.body file.text
  -- A preview has converted the item all the same, and fails where that fails.
  if o.preview then return .writing target there true
  Disk.folders target.parent
  Disk.writeWhole target (Command.whole? (Command.isTorn w source file) text)
  return .writing target there false

/-- Takes a skill from a folder of the source to a folder of the destination. -/
def takeSkill (source destination : Agent) (o : Order) (folder target : Path) :
    Work Operation := do
  let skill ← Skill.read source 0 folder.text
  let neutral ← Work.ofExcept ((skill.toNeutral source (some destination.name)).mapError .misfit)
  let there := Skill.isIn (← get) target
  if o.skips there then return ⟨.skipped, target, o.preview⟩
  let existing ← existingSkill destination target there
  let converted := neutral.toSkill destination ⟨o.removeForeign, existing⟩
  if o.verbose then tellMissing destination neutral.body folder.text
  if o.preview then return .writing target there true
  let _ ← Skill.write destination converted (some folder) target
  return .writing target there false

end AgentRelay.Sync
