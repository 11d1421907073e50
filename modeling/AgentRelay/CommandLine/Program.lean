import AgentRelay.CommandLine.Request
import AgentRelay.Status
import AgentRelay.Sync.Run

/-
  The program: a request is carried out, and its results are printed.

  What the command line leaves open is taken from the settings. A failure to
  start, a failed look-up and a refusal of the file system end the program with
  a complaint; the failures of single items are listed with the results.
-/

namespace AgentRelay.CommandLine

/-- How the program ends. -/
inductive Outcome where
  | usage (status : Nat) : Outcome
  | done (status : Nat) : Outcome
  | complaint (text : String) : Outcome
  deriving DecidableEq, Repr

/-- The base folders chosen by the settings and by the command line, which
counts before them. -/
def chosenFolders (a : Arguments) (settings : Mapping) :
    Except Failure (List (Agent × String)) := do
  let own := Agent.all.filterMap fun x =>
    (((a.value? (.folder x)).bind Given.text?).filter fun s => !s.isEmpty).map fun s => (x, s)
  return own ++ (← (Settings.chosenFolders settings).mapError .misfit)

/-- The top folder of the repository, unless the home folder is asked for. -/
def repository (a : Arguments) (w : World) : Option Path :=
  if a.has .everywhere then none else w.repository

def setup (a : Arguments) (w : World) (settings : Mapping) : Except Failure Setup := do
  return ⟨← chosenFolders a settings, repository a w, a.has .everywhere⟩

/-- A setting for runs counts as chosen or not. -/
def setting (settings : Mapping) (key : String) : Except Failure Bool :=
  match Mapping.get? (Settings.run settings) (.text key) with
  | some v => .ok v.truthy
  | none => .error (.noSetting key)

def chosen (a : Arguments) (c : Choice) (settings : Mapping) (key : String) :
    Except Failure Bool := do
  let standard ← setting settings key
  return a.has c || standard

def contents (a : Arguments) (settings : Mapping) : Except Failure Contents :=
  let name := ((a.value? .contents).map Given.shown).getD
    (((Mapping.field (Settings.run settings) Settings.contentKey).text?).getD "")
  match Contents.ofName? name with
  | some c => .ok c
  | none => .error (.badChoice name)

/-- The order a command line gives. A preview by its name deletes nothing that
the command line does not name. -/
def order (c : Subcommand) (a : Arguments) (w : World) (settings : Mapping) :
    Except Failure Sync.Order := do
  let contents ← contents a settings
  let removeForeign ← chosen a .removeForeign settings Settings.removeForeignKey
  let keepExisting ← chosen a .keepExisting settings Settings.keepExistingKey
  let deleteOrphans ←
    -- The setting counts for runs, not for what is a preview by its name.
    if c.isPreview then pure (a.has .deleteOrphans)
    else chosen a .deleteOrphans settings Settings.deleteOrphansKey
  let setup ← setup a w settings
  return ⟨contents, removeForeign, keepExisting, deleteOrphans, (a.value? .only).bind Given.text?,
    c.isPreview || a.has .preview, a.has .verbose, setup⟩

def ends (c : Subcommand) (a : Arguments) : Given × Given :=
  let first := a.words.getD 0 .nothing
  let hub := Given.text Agent.hub.name
  match c with
  | .sync => (first, a.words.getD 1 .nothing)
  | .gather => (first, hub)
  | .drift => (first, hub)
  | _ => (hub, first)

/-- The agent that is given by its name. An empty list cannot be looked up. -/
def agent : Given → Except Failure Agent
  | .text s => Sync.known s
  | .nothing => .error (.misfit .wrongKind)

def operationLine (op : Sync.Operation) : String :=
  "[" ++ op.change.letter ++ "] " ++ op.path.text ++ " - " ++ op.description

/-- The line on the number of operations of a kind, unless there are none. -/
def countLine (label : String) (n : Nat) : List String :=
  if n = 0 then [] else ["  " ++ label ++ ": " ++ toString n]

def failureLines (w : Wording) : Nat → List Failure → List String
  | _, [] => []
  | number, e :: es =>
    ("  " ++ toString number ++ ". " ++ (e.text? w).getD "") :: failureLines w (number + 1) es

def resultLines (w : Wording) (r : Sync.Report) (preview : Bool) : List String :=
  ["\nResults:"] ++
    (if r.operations.isEmpty then ["No operations performed."] else []) ++
    r.operations.map operationLine ++
    ["\nSummary:", "  Processed: " ++ toString r.processed] ++
    countLine "Created" (r.count .created) ++ countLine "Modified" (r.count .modified) ++
    countLine "Deleted" (r.count .deleted) ++ countLine "Skipped" (r.count .skipped) ++
    (if r.success then [] else "\nErrors:" :: failureLines w 1 r.failures) ++
    if preview then ["\nThis was a dry run. Run without --noop to apply changes."]
    else if r.success then ["\nSync completed successfully."]
    else []

def runSync (w : Wording) (c : Subcommand) (a : Arguments) : Work Nat := do
  let source := (← Work.ofExcept (agent (ends c a).1)).name
  let destination := (← Work.ofExcept (agent (ends c a).2)).name
  let effective ← Settings.effective (repository a (← get))
  effective.warnings.forM fun m => World.warn (.setting m)
  let o ← Work.ofExcept (order c a (← get) effective.settings)
  World.say ("Starting " ++ source ++ " -> " ++ destination ++ " conversion (" ++
    o.contents.name ++ ")...")
  if o.preview then World.say "DRY RUN MODE - No files will be modified"
  let report ← Sync.runNamed source destination o.contents.name o
  (resultLines w report o.preview).forM World.say
  return if report.success then 0 else 1

def padded (width : Nat) (s : String) : String := s.pushn ' ' (width - s.length)

def agentLine (a : Agent) : String :=
  "  " ++ padded 10 a.name ++ "  " ++ padded 16 a.title ++ " " ++
    if a = Agent.hub then "hub" else String.ofList a.extension

def carryOut (w : Wording) (c : Subcommand) (a : Arguments) : Work Nat := do
  match c with
  | .agents =>
    World.say "Available agents:\n"
    (Agent.all.map agentLine).forM World.say
    World.say ""
    return 0
  | .version =>
    World.say ("acs " ++ version)
    return 0
  | .status =>
    let effective ← Settings.effective (repository a (← get))
    let setup ← Work.ofExcept (setup a (← get) effective.settings)
    let _ ← Status.report setup
    return 0
  | c => runSync w c a

/-- A failure that the program complains about; any other one escapes. -/
def complains (e : Failure) : Bool :=
  e.isLookup || e.isStart ||
    match e with
    | .system _ => true
    | _ => false

def carryOutRequest (w : Wording) : Request → Work Outcome
  | .help => return .usage 0
  | .misuse => return .usage 2
  | .nothing => return .usage 1
  | .subcommand c a => do
    match ← (carryOut w c a).attempt with
    | .ok status => return .done status
    | .error e =>
      if complains e then return .complaint ("Error: " ++ (e.text? w).getD "") else throw e

def program (w : Wording) (words : List String) : Work Outcome :=
  carryOutRequest w (Request.ofWords words)

end AgentRelay.CommandLine
