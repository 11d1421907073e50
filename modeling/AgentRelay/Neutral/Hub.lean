import AgentRelay.Neutral.Basic

/-
  The section in which the hub keeps the extras of each agent.

  Writing replaces the block of the agent a document comes from and keeps the
  others. Reading for an agent puts that agent's block over the other extras.
-/

namespace AgentRelay.Hub

def sectionKey : String := "_chimera"

/-- The blocks of a section; anything but a mapping has none. -/
def blocks (v : Value) : Mapping := v.entries?.getD []

def sectionOf (fields : Mapping) : Value := Mapping.field fields sectionKey

/-- The block of an agent; anything but a mapping is none. -/
def block (agent : String) (fields : Mapping) : Mapping :=
  blocks (Mapping.field (blocks (sectionOf fields)) agent)

/-- The agent whose block counts for a destination: none for the hub itself. -/
def blockOwner? (agent : Option String) : Option String :=
  match agent with
  | none => none
  | some a => if a.isEmpty || a == Agent.hub.name then none else some a

/-- The extras read for a destination: its block over the other extras. -/
def extrasFor (destination : Option String) (fields extras : Mapping) : Mapping :=
  match blockOwner? destination with
  | none => extras
  | some d => Mapping.merge extras (block d fields)

/-- The section with the extras of an agent, when there are any, in its block. A
section that holds itself goes on doing so; anything but a mapping is an empty
section. -/
def updated (agent : Option String) (extras : Mapping) (section_ : Value) : Value :=
  let (origin, old) : Origin × Mapping :=
    match section_ with
    | .map o m => (o, m)
    | _ => (.own, [])
  match blockOwner? agent with
  | none => .map origin old
  | some a =>
    -- Without extras the block of an earlier document stays.
    if extras.clean.isEmpty then .map origin old
    else .map origin (Mapping.set old (.text a) (Value.mapping extras.clean))

/-- Adds the section of a document that exists, with the extras of an agent. -/
def addSection (agent : Option String) (extras existing fields : Mapping) : Mapping :=
  let next := updated agent extras (sectionOf existing)
  if next.truthy then Mapping.set fields (.text sectionKey) next else fields

end AgentRelay.Hub
