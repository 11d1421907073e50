import AgentRelay.Document.CommandFile

/-
  Skills in folders.

  A folder is a skill when it holds the skill's own file. The files beside it
  are found below the folder, at any depth; binary ones are not read but copied
  from folder to folder. One agent has a configuration besides.
-/

namespace AgentRelay

namespace Skill

def noun : String := "skill"

def ownFile : String := "SKILL.md"

def configFolder : String := "agents"

def configFile : String := "openai.yaml"

def configPath (folder : Path) : Path := (folder.append configFolder).append configFile

/-- An agent keeps a configuration. -/
def hasConfig (a : Agent) : Bool := a == .codex

def isIn (w : World) (folder : Path) : Bool := w.isFile (folder.append ownFile)

def reserved (a : Agent) : List String :=
  if hasConfig a then [ownFile, configFolder ++ "/" ++ configFile] else [ownFile]

/-- The support files below a folder, not read yet. -/
def supportIn (w : World) (a : Agent) (folder : Path) : List SupportFile :=
  let ways := (w.filesBelow folder).filterMap fun p => (folder.below? p).map Path.text
  (ways.filter fun way => !(reserved a).contains way).map fun way =>
    ⟨way, SupportKind.ofPath (Path.ofText way), none⟩

/-- Reads a support file, unless it is binary; one that cannot be read gives a
warning. -/
def load (folder : Path) (f : SupportFile) : Work SupportFile := do
  if f.kind = .binary then return f
  let path := folder.append f.path
  match ← (Disk.text path).attempt with
  | .ok text => return { f with content := some text }
  | .error e =>
    match e.cause? with
    | some cause => do
      World.warn (.support path cause)
      return f
    | none => throw e

/-- The configuration of the skill in a folder; one that cannot be read gives a
warning, and anything but a mapping is none. -/
def readConfig (folder : Path) : Work (Option Mapping) := do
  let path := configPath folder
  if !(← get).isFile path then return none
  let read : Work Value := do
    Work.ofExcept ((Yaml.readValue 2 (← Disk.text path)).mapError .yaml)
  match ← read.attempt with
  | .ok v => return v.entries?
  | .error e =>
    match e.cause? with
    | some cause => do
      World.warn (.toolConfig path cause)
      return none
    | none => throw e

/-- The fields, the content and the support files of the skill in a folder. -/
def readParts (a : Agent) (doc : Nat) (folder : String) :
    Work (Mapping × String × List SupportFile) := do
  let path := Path.ofText folder
  if !isIn (← get) path then throw (.system .noSkillFile)
  let text ← Disk.text (path.append ownFile)
  let (fields, content) ←
    Work.ofExcept ((Frontmatter.split doc text).mapError (·.about a noun folder))
  let support ← (supportIn (← get) a path).mapM (load path)
  return (fields, content, support)

/-- The skill of an agent in a folder; `doc` is the number of the document. -/
def read (a : Agent) (doc : Nat) (folder : String) : Work Skill := do
  let (fields, content, support) ← (readParts a doc folder).explain (·.about a noun folder)
  let path := Path.ofText folder
  let name := Mapping.field fields nameKey
  let config ← if hasConfig a then readConfig path else pure none
  return ⟨if name.truthy then name else .text path.name, content, folder, support, fields, config⟩

/-- Writes one support file below a folder; a binary one is copied from the
folder it comes from. The answer is the path written. -/
def writeSupport (source : Option Path) (target : Path) (f : SupportFile) :
    Work (Option Path) := do
  let path := target.append f.path
  Disk.folders path.parent
  if f.kind = .binary then
    match source with
    | none => return none
    | some folder =>
      let origin := folder.append f.path
      if (← get).isFile origin then
        Disk.copy origin path
        return some path
      else return none
  else
    match f.content with
    | none => return none
    | some text =>
      Disk.write path text
      return some path

/-- Removes a configuration that an earlier run left, and its folder when
nothing else is in it. -/
def removeConfig (folder : Path) : Work Unit := do
  if (← get).isFile (configPath folder) then
    Disk.removeFile (configPath folder)
    let place := folder.append configFolder
    if ((← get).entries place).isEmpty then Disk.removeFolder place

def writeConfig (folder : Path) (config : Mapping) : Work Path := do
  Disk.folders (folder.append configFolder)
  let text ← Work.ofExcept ((Yaml.write config).mapError Draft.fieldsFailure)
  Disk.write (configPath folder) text
  return configPath folder

/-- The configuration of a skill, unless it is empty. -/
def fullConfig? (s : Skill) : Option Mapping := s.config.filter fun m => !m.isEmpty

/-- Writes a skill into a folder. The answer is the list of paths written. -/
def write (a : Agent) (s : Skill) (source : Option Path) (target : Path) : Work (List Path) := do
  let text ← Work.ofExcept s.text
  Disk.folders target
  let own := target.append ownFile
  Disk.write own text
  let support ← s.support.filterMapM (writeSupport source target)
  if hasConfig a then
    match s.fullConfig? with
    | some config => return own :: support ++ [← writeConfig target config]
    -- A configuration of an earlier run would speak for the new skill.
    | none => do
      removeConfig target
      return own :: support
  else return own :: support

end Skill

end AgentRelay
