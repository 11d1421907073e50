import AgentRelay.Document.SkillFolder
import AgentRelay.Settings.Check
import AgentRelay.Yaml.Stream

/-
  The settings in effect: the defaults, over them the settings of the user, and
  over these the settings of the project.

  A file that cannot be opened or is no YAML gives a warning and no settings.
-/

namespace AgentRelay

/-- The kinds of content a run can take. -/
inductive Contents where
  | skills : Contents
  | commands : Contents
  | both : Contents
  deriving DecidableEq, Repr

namespace Contents

def all : List Contents := [skills, commands, both]

def name : Contents → String
  | skills => "skills"
  | commands => "commands"
  | both => "both"

def ofName? (s : String) : Option Contents := all.find? fun c => c.name == s

def hasCommands (c : Contents) : Bool := c != skills

def hasSkills (c : Contents) : Bool := c != commands

end Contents

namespace Settings

def runKey : String := "sync"

def foldersKey : String := "dirs"

def contentKey : String := "content_type"

/-- The setting that drops what the destination does not understand. -/
def removeForeignKey : String := "remove_unsupported"

/-- The setting that keeps files that exist. -/
def keepExistingKey : String := "no_overwrite"

def deleteOrphansKey : String := "sync_delete"

def runDefaults : Mapping :=
  [(.text contentKey, .text Contents.skills.name), (.text removeForeignKey, .bool false),
   (.text keepExistingKey, .bool false), (.text deleteOrphansKey, .bool false)]

/-- The default base folders: none is chosen. -/
def folderDefaults : Mapping := Agent.all.map fun a => (.text a.name, .null)

def defaults : Mapping :=
  [(.text runKey, Value.mapping runDefaults), (.text foldersKey, Value.mapping folderDefaults)]

/-- Settings with what they are made of. -/
structure Effective where
  settings : Mapping
  /-- The files with settings that count. -/
  sources : List Path
  warnings : List String
  hasUser : Bool
  hasProject : Bool

def fileName : String := "config.yaml"

/-- The settings in a file: none when there is no file, when it cannot be read,
or when it holds no mapping. The document has the number `doc`. -/
def load (doc : Nat) (path : Path) : Work (Option Mapping) := do
  if !(← get).isThere path then return none
  let read : Work Value := do
    Work.ofExcept ((Yaml.readSource doc (.ofBytes (← Disk.bytes path))).mapError .yaml)
  match ← read.attempt with
  | .ok v => return v.entries?
  | .error e =>
    match e.cause? with
    | some cause => do
      World.warn (.settings path cause)
      return none
    | none => throw e

def userFile (w : World) : Path := (w.home.append Agent.hub.homeBase).append fileName

/-- The file of a project's settings; without a project that of the working
folder. -/
def projectFile (w : World) (project : Option Path) : Path :=
  ((project.getD w.here).append Agent.hub.projectBase).append fileName

def Effective.withFile (e : Effective) (path : Path) : Option Mapping → Except Failure Effective
  | none => .ok e
  | some m => do
    if m.isEmpty then return e
    let found ← (complaints m defaults).mapError .misfit
    match layered? e.settings m with
    | none => throw .tooDeep
    | some settings =>
      return { e with
        settings := settings
        sources := e.sources ++ [path]
        warnings := e.warnings ++ found }

/-- A mapping stands at a key; otherwise the default is put there. -/
def withMapping (key : String) (standard settings : Mapping) : Mapping :=
  if (Mapping.field settings key).isMapping then settings
  else Mapping.set settings (.text key) (Value.mapping standard)

def run (settings : Mapping) : Mapping := ((Mapping.field settings runKey).entries?).getD []

def isContents (v : Value) : Bool :=
  match v with
  | .text s => (Contents.ofName? s).isSome
  | _ => false

mutual

/-- The value with the entries of a mapping changed, wherever that mapping
stands in it. -/
def changed (o : Origin) (f : Mapping → Mapping) : Value → Value
  | .scalar s => .scalar s
  | .seq p xs => .seq p (changedItems o f xs)
  | .tuple p xs => .tuple p (changedItems o f xs)
  | .set p xs => .set p xs
  | .map p m => .map p (if p = o then f (changedEntries o f m) else changedEntries o f m)
  | .loop s p => .loop s p

def changedItems (o : Origin) (f : Mapping → Mapping) : List Value → List Value
  | [] => []
  | x :: xs => changed o f x :: changedItems o f xs

/-- The entries with the entries of a mapping changed in their values. -/
def changedEntries (o : Origin) (f : Mapping → Mapping) :
    List (Scalar × Value) → List (Scalar × Value)
  | [] => []
  | (k, x) :: m => (k, changed o f x) :: changedEntries o f m

end

/-- A choice of contents stands where it should; otherwise the default is put
there, with a warning. A mapping that a file names twice is one mapping, and
shows the default in both places. -/
def Effective.withContents (e : Effective) : Except Failure Effective := do
  let chosen := Mapping.field (run e.settings) contentKey
  if isContents chosen then return e
  match chosen.literal? with
  | none => throw (.misfit .tooLarge)
  | some text =>
    let fallback := Contents.skills.name
    let fix (m : Mapping) : Mapping := Mapping.set m (.text contentKey) (.text fallback)
    let settings :=
      match Mapping.field e.settings runKey with
      | .map o m =>
        if Value.isNode o then changedEntries o fix e.settings
        else Mapping.set e.settings (.text runKey) (.map o (fix m))
      | _ => e.settings
    return { e with
      settings := settings
      warnings := e.warnings ++ ["Invalid value for '" ++ runKey ++ "." ++ contentKey ++ "': " ++
        String.ofList text ++ ", using '" ++ fallback ++ "'"] }

/-- The settings with every part that must be there put in its place. -/
def Effective.completed (e : Effective) : Except Failure Effective :=
  let settings := withMapping runKey runDefaults e.settings
  Effective.withContents { e with settings := withMapping foldersKey folderDefaults settings }

def Effective.start : Effective := ⟨defaults, [], [], false, false⟩

def effective (project : Option Path) : Work Effective := do
  let w ← get
  let userPath := userFile w
  let projectPath := projectFile w project
  let user ← load 0 userPath
  let e ← Work.ofExcept (Effective.start.withFile userPath user)
  -- One file counts once.
  let own ← if projectPath = userPath then pure none else load 1 projectPath
  let e ← Work.ofExcept (e.withFile projectPath own)
  Work.ofExcept { e with hasUser := user.isSome, hasProject := own.isSome }.completed

/-- The entries of the mapping of base folders; a value that counts as absent
has none. -/
def folderEntries (settings : Mapping) : Except Misfit Mapping :=
  let v := Mapping.field settings foldersKey
  match v.entries? with
  | some m => .ok m
  | none => if v.truthy then .error .unable else .ok []

def chosenFolder? (e : Scalar × Value) : Option (Agent × String) :=
  match e with
  | (.text name, .text path) =>
    if path.isEmpty then none else (Agent.ofName? name).map fun a => (a, path)
  | (.text name, .scalar (.torn path)) => (Agent.ofName? name).map fun a => (a, path.shown)
  | _ => none

def chosenFolders (settings : Mapping) : Except Misfit (List (Agent × String)) :=
  (folderEntries settings).map (·.filterMap chosenFolder?)

end Settings

end AgentRelay
