import AgentRelay.Location

/-
  How much each agent holds, and the report on it.

  An agent is detected when it has a command or a skill. The level of the hub is
  the number of agents detected, in the home folder or in the repository.
-/

namespace AgentRelay

def version : String := "0.1.0"

/-- What the agents other than the hub hold together. -/
structure Stats where
  commands : Nat
  skills : Nat
  /-- The agents with a command or a skill, in the order of the agents. -/
  detected : List Agent
  deriving DecidableEq, Repr

namespace Stats

def none : Stats := ⟨0, 0, []⟩

def agents (s : Stats) : Nat := s.detected.length

def add (s : Stats) (a : Agent) (commands skills : Nat) : Stats :=
  ⟨s.commands + commands, s.skills + skills,
    if commands + skills = 0 then s.detected else s.detected ++ [a]⟩

def collect (setup : Setup) (w : World) : Except Failure Stats :=
  Agent.spokes.foldlM (fun s a => do
    let commands := w.commandFiles a (← setup.commands a w) Option.none
    let skills := w.skillFolders (← setup.skills a w) Option.none
    return s.add a commands.length skills.length) none

def line (label : String) (s : Stats) : String :=
  label ++ " " ++ toString s.commands ++ " commands, " ++ toString s.skills ++ " skills (" ++
    toString s.agents ++ " agents)"

end Stats

def Agent.sortedByName (as : List Agent) : List Agent :=
  as.mergeSort fun a b => decide (a.name ≤ b.name)

namespace Status

def union (as bs : List Agent) : List Agent := as ++ bs.filter fun b => !as.contains b

/-- Where a report looks: in the repository, or in the home folder alone. -/
def place (setup : Setup) : String :=
  match setup.repository with
  | some top => if setup.everywhere then "global" else "project: " ++ top.text
  | none => "global"

/-- Prints the lines on what the user and the project hold. The answer is the
list of agents detected. -/
def showStats (setup : Setup) : Work (List Agent) := do
  let w ← get
  let user ← Work.ofExcept (Stats.collect ⟨setup.custom, none, true⟩ w)
  match setup.repository with
  | none => do
    World.say (user.line "  User:")
    return user.detected
  | some top => do
    let project ← Work.ofExcept (Stats.collect ⟨setup.custom, some top, false⟩ w)
    World.say (user.line "  User:   ")
    World.say (project.line "  Project:")
    return union user.detected project.detected

def report (setup : Setup) : Work Nat := do
  World.say ("acs v" ++ version ++ " [" ++ place setup ++ "]")
  World.say ""
  let detected ← showStats setup
  World.say ""
  World.say ("Hub level: " ++ toString detected.length)
  if detected.isEmpty then
    World.say "  No agents detected yet. Run \x60acs import <agent>\x60 to start."
  else
    World.say ("  Agents: " ++ ", ".intercalate ((Agent.sortedByName detected).map Agent.title))
  return detected.length

end Status

end AgentRelay
