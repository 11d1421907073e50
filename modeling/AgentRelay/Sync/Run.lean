import AgentRelay.Sync.Item

/-
  A run: every item of the source is taken to the destination, and items of the
  destination without a source are deleted when that is asked for.

  A failure about one item is reported and the run goes on; any other failure
  ends it. Only one run may write at a time.
-/

namespace AgentRelay.Sync

/-- Work on one item: a failure about the item becomes part of the result. -/
def collected {α : Type} (x : Work α) : Work (Except Failure α) := do
  match ← x.attempt with
  | .ok a => return .ok a
  | .error e => if e.isCollected then return .error e else throw e

/-- The reports on the items of a list, one after the other. -/
def reports {α : Type} (report : α → Work Report) : List α → Work Report
  | [] => return Report.empty
  | x :: xs => do
    let first ← report x
    return first.append (← reports report xs)

/-- The target of a command: the file of the same name with the extension of the
destination. -/
def commandTarget (source destination : Agent) (sourceFolder targetFolder file : Path) :
    Except Failure Path :=
  match commandName? file sourceFolder (some source.extension) with
  | some name => .ok (commandFile name targetFolder destination.extension)
  | none => .error .outside

def reportCommand (source destination : Agent) (o : Order) (sourceFolder targetFolder file : Path) :
    Work Report := do
  let target ← Work.ofExcept (commandTarget source destination sourceFolder targetFolder file)
  return Report.ofItem (← collected (takeCommand source destination o file target))

/-- Deletes something, unless this is a preview. -/
def delete (o : Order) (path : Path) (remove : Path → Work Unit) : Work Operation := do
  if !o.preview then remove path
  return ⟨.deleted, path, o.preview⟩

/-- The report on something without a source. -/
def reportOrphan (o : Order) (remove : Path → Work Unit) (path : Path) : Work Report := do
  return Report.ofOrphan (← collected (delete o path remove))

def Order.sweeps (o : Order) : Bool := o.deleteOrphans && !o.isSingle

def tellFound (o : Order) (n : Nat) (a : Agent) (what : String) (folder : Path) : Work Unit := do
  if o.verbose then
    World.say ("Found " ++ toString n ++ " " ++ a.title ++ " " ++ what ++ "(s) in " ++ folder.text)

def runCommands (source destination : Agent) (o : Order) : Work Report := do
  let w ← get
  let sourceFolder ← Work.ofExcept (o.setup.commands source w)
  let targetFolder ← Work.ofExcept (o.setup.commands destination w)
  let files := w.commandFiles source sourceFolder o.only
  tellFound o files.length source "command" sourceFolder
  let report ← reports (reportCommand source destination o sourceFolder targetFolder) files
  if !o.sweeps then return report
  -- The target of a command that failed is no orphan.
  let expected := files.filterMap fun file =>
    (commandTarget source destination sourceFolder targetFolder file).toOption
  let present := (← get).commandFiles destination targetFolder none
  let orphans := present.filter fun p => !expected.contains p
  return report.append (← reports (reportOrphan o Disk.removeFile) orphans)

def runSkills (source destination : Agent) (o : Order) : Work Report := do
  let w ← get
  let targetFolder ← Work.ofExcept (o.setup.skills destination w)
  let sourceFolder ← Work.ofExcept (o.setup.skills source w)
  let folders := w.skillFolders sourceFolder o.only
  tellFound o folders.length source "skill" sourceFolder
  let report ← reports (fun folder => do
    let target := targetFolder.append folder.name
    return Report.ofItem (← collected (takeSkill source destination o folder target))) folders
  if !o.sweeps then return report
  let present := (← get).skillFolders targetFolder none
  -- Skills belong together by the names of their folders.
  let orphans := present.filter fun p => !(folders.map Path.name).contains p.name
  return report.append (← reports (reportOrphan o Disk.removeFolder) orphans)

def runAll (source destination : Agent) (o : Order) : Work Report := do
  let commands ←
    if o.contents.hasCommands then runCommands source destination o else pure Report.empty
  let skills ← if o.contents.hasSkills then runSkills source destination o else pure Report.empty
  return commands.append skills

def lockName : String := "sync.lock"

/-- Takes the lock in the base folder of the hub; the folder and the file of the
lock are made when they are not there, and they stay. A lock that somebody else
holds is a failure, and so is a folder in the place of the lock. -/
def takeLock (setup : Setup) : Work Unit := do
  let folder ← Work.ofExcept (setup.base Agent.hub (← get))
  Disk.folders folder
  let lock := folder.append lockName
  Disk.makeLock lock
  let w ← get
  match w.locate lock, w.held with
  | .ok place, some held => if place = held then throw (.locked lock)
  | _, _ => pure ()

/-- A run from one agent to another. A preview needs no lock. -/
def run (source destination : Agent) (o : Order) : Work Report := do
  if !o.preview then takeLock o.setup
  runAll source destination o

def known (name : String) : Except Failure Agent :=
  match Agent.ofName? name with
  | some a => .ok a
  | none => .error (.unknownAgent name)

/-- What a run is for, from the names of the agents and of the contents. -/
def check (source destination contents : String) : Except Failure (Agent × Agent × Contents) := do
  if source = destination then throw (.sameAgents source)
  match Contents.ofName? contents with
  | none => throw (.badContent contents)
  | some c => return (← known source, ← known destination, c)

/-- A run for the names of the agents and of the contents; the contents of the
order itself are not looked at. -/
def runNamed (source destination contents : String) (o : Order) : Work Report := do
  let (s, d, c) ← Work.ofExcept (check source destination contents)
  run s d { o with contents := c }

end AgentRelay.Sync
