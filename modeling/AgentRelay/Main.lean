import AgentRelay.CommandLine.Program

/-
  The command line itself: the folders an agent's documents can lie in are read
  from the disk, the program runs on what was read, and what it changed is
  written back.
-/

namespace AgentRelay.Shell

partial def load (place : Files.Place) : IO Files.Tree := do
  let path := (← IO.currentDir) / ("/" ++ "/".intercalate place)
  if ← path.isDir then
    let names := (← path.readDir).toList.map fun e => e.fileName
    return (place, .folder) :: (← names.flatMapM fun n => load (place ++ [n]))
  else if ← path.pathExists then return [(place, .file (← IO.FS.readBinFile path))]
  else return []

/-- The folders a place lies in, as far as they are there. -/
def loadAbove (place : Files.Place) : IO Files.Tree := do
  let above := (List.range place.length).map fun n => place.take n
  above.filterMapM fun p => do
    let path := (← IO.currentDir) / ("/" ++ "/".intercalate p)
    return if ← path.isDir then some (p, .folder) else none

def read (places : List Files.Place) (t : Files.Tree) : IO Files.Tree := do
  let found ← places.flatMapM fun p => return (← loadAbove p) ++ (← load p)
  return found.foldl (fun t e => if e.1.isEmpty then t else t.put e.1 e.2) t

/-- The places of an agent's documents, and of the settings in its base
folder. -/
def places (setup : Setup) (w : World) : List Files.Place :=
  Agent.all.flatMap fun a =>
    match setup.base a w with
    | .error _ => []
    | .ok base =>
      [a.commandFolder, a.skillFolder, Settings.fileName].map fun n => (base.append n).parts

/-- Writes what has changed, folders first, and removes what is gone, files
first. -/
def write (before after : Files.Tree) : IO Unit := do
  let text (p : Files.Place) : String := "/" ++ "/".intercalate p
  let changed := after.filter fun e => before.get? e.1 != some e.2
  for (p, e) in changed.mergeSort fun a b => a.1.length ≤ b.1.length do
    match e with
    | .folder => IO.FS.createDirAll (text p)
    | .file b => IO.FS.writeBinFile (text p) b
    | .lock => IO.FS.writeFile (text p) ""
  let gone := before.filter fun e => (after.get? e.1).isNone
  for (p, e) in gone.mergeSort fun a b => a.1.length ≥ b.1.length do
    match e with
    | .folder => IO.FS.removeDir (text p)
    | .file _ => IO.FS.removeFile (text p)
    | .lock => IO.FS.removeFile (text p)

/-- The top folder of the repository around a folder; `fuel` bounds the way
up. -/
def repositoryAbove : Nat → Path → IO (Option Path)
  | 0, _ => return none
  | fuel + 1, p => do
    if ← ((← IO.currentDir) / (p.append ".git").text).pathExists then return some p
    else if p.parts.isEmpty then return none
    else repositoryAbove fuel p.parent

/-- What readers of a notation say when they give up. -/
def wording : Wording :=
  ⟨"not encoded as UTF-8", "not valid YAML", "not valid TOML", "a value of the wrong kind",
    "a value that cannot be written"⟩

def usage : String :=
  "usage: acs sync <source> <destination> [options]\n" ++
  "       acs (import | drift | apply | plan) <agent> [options]\n" ++
  "       acs (status | agents | version) [options]"

def emptyWorld : IO World := do
  let here := Path.ofText (← IO.currentDir).toString
  let home := Path.ofText ((← IO.getEnv "HOME").getD "/")
  let repository ← repositoryAbove (here.parts.length + 1) here
  return ⟨[], home, here, repository, none, [], []⟩

/-- The base folders chosen by the command line and the settings in a world. -/
def chosenIn (words : List String) (w : World) : List (Agent × String) :=
  match CommandLine.Request.ofWords words with
  | .subcommand _ a =>
    match ((Settings.effective (CommandLine.repository a w)).run w).1 with
    | .ok e => (CommandLine.chosenFolders a e.settings).toOption.getD []
    | .error _ => []
  | _ => []

/-- Runs the program on the disk. The answer is the exit status. -/
def run (words : List String) : IO UInt32 := do
  let w ← emptyWorld
  let usual := places ⟨[], none, true⟩ w ++ places ⟨[], w.repository, false⟩ w
  let w := { w with tree := ← read usual w.tree }
  let before ← read (places ⟨chosenIn words w, w.repository, false⟩ w) w.tree
  let (result, after) := (CommandLine.program wording words).run { w with tree := before }
  write before after.tree
  after.warnings.forM fun m => IO.eprintln ("WARNING: " ++ m.text wording)
  after.printed.forM IO.print
  match result with
  | .ok (.usage status) =>
    IO.println usage
    return status.toUInt32
  | .ok (.done status) => return status.toUInt32
  | .ok (.complaint text) =>
    IO.eprintln text
    return 1
  | .error e =>
    IO.eprintln ("Error: " ++ (e.text? wording).getD "the document cannot be used")
    return 1

end AgentRelay.Shell

def main (words : List String) : IO UInt32 := AgentRelay.Shell.run words
