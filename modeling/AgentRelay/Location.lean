import AgentRelay.CommandName
import AgentRelay.Document.SkillFolder

/-
  Where the documents of an agent lie.

  A base folder chosen by hand counts before all others; otherwise the base
  folder lies in the repository or, without one, in the home folder. Commands
  and skills have a folder each below the base folder.
-/

namespace AgentRelay

/-- What decides where agents keep their documents. -/
structure Setup where
  custom : List (Agent × String)
  repository : Option Path
  everywhere : Bool
  deriving DecidableEq, Repr

def Setup.plain : Setup := ⟨[], none, false⟩

namespace Path

/-- One name behind a list of names; two points take a name away. -/
def step (parts : List String) (name : String) : List String :=
  if name = ".." then parts.dropLast else parts ++ [name]

/-- The path from the root, without two points, for a working folder. -/
def resolved (here p : Path) : Path := ⟨1, (here.join p).parts.foldl step []⟩

/-- A path in which a tilde in front stands for the home folder. -/
def expanded (home p : Path) : Except Failure Path :=
  match p.root, p.parts with
  | 0, "~" :: names => .ok (home.join ⟨0, names⟩)
  | 0, name :: _ => if name.startsWith "~" then .error .noHome else .ok p
  | _, _ => .ok p

end Path

namespace Setup

def chosen? (s : Setup) (a : Agent) : Option String :=
  (s.custom.find? fun e => e.1 = a).bind fun e => if e.2.isEmpty then none else some e.2

def base (s : Setup) (a : Agent) (w : World) : Except Failure Path :=
  match s.chosen? a with
  | some text => (Path.expanded w.home (Path.ofText text)).map (Path.resolved w.here)
  | none =>
    match s.repository with
    | some top => .ok (if s.everywhere then w.home.append a.homeBase else top.append a.projectBase)
    | none => .ok (w.home.append a.homeBase)

def commands (s : Setup) (a : Agent) (w : World) : Except Failure Path :=
  (s.base a w).map (·.append a.commandFolder)

def skills (s : Setup) (a : Agent) (w : World) : Except Failure Path :=
  (s.base a w).map (·.append a.skillFolder)

end Setup

namespace World

/-- The file of the command with a name in a folder, when there is one. The name
may have the extension of the agent. -/
def commandNamed (w : World) (a : Agent) (folder : Path) (name : String) : List Path :=
  let stem := stripExtension name.toList a.extension
  let file := folder.append (String.ofList (stem ++ a.extension))
  if w.isFile file then [file] else []

/-- The files of an agent's commands anywhere below a folder, in order. -/
def commandsBelow (w : World) (a : Agent) (folder : Path) : List Path :=
  (w.filesBelow folder).filter fun p => Text.endsWith a.extension p.name.toList

/-- The commands in a folder: all, or the one with a name. An empty name is
none. -/
def commandFiles (w : World) (a : Agent) (folder : Path) (only : Option String) : List Path :=
  if !w.isFolder folder then []
  else
    match only.filter fun name => !name.isEmpty with
    | some name => w.commandNamed a folder name
    | none => w.commandsBelow a folder

/-- The skills in a folder: all, or the one with a name. An empty name is
none. -/
def skillFolders (w : World) (folder : Path) (only : Option String) : List Path :=
  if !w.isFolder folder then []
  else
    match only.filter fun name => !name.isEmpty with
    | some name => [folder.append name].filter (Skill.isIn w)
    | none => (w.entries folder).filter fun p => w.isFolder p && Skill.isIn w p

end World

/-- What asking for the top folder of a repository gives. -/
inductive Lookup where
  | answered (status : Int) (output : String) : Lookup
  | failed : Lookup
  deriving DecidableEq, Repr

/-- The top folder of the repository, when there is one. -/
def Lookup.repository? : Lookup → Option Path
  | answered status output =>
    if status != 0 || Text.isBlankText output then none
    else some (Path.ofText (Text.strip output))
  | failed => none

end AgentRelay
