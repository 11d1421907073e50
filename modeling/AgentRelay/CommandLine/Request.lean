import AgentRelay.CommandLine.Arguments

/-
  What a command line asks for.

  The subcommand is the first plain word. Options in front of it are those of
  the program itself, which knows only the one for help.
-/

namespace AgentRelay.CommandLine

/-- The subcommands. -/
inductive Subcommand where
  | sync : Subcommand
  | gather : Subcommand
  | drift : Subcommand
  | apply : Subcommand
  | plan : Subcommand
  | status : Subcommand
  | agents : Subcommand
  | version : Subcommand
  deriving DecidableEq, Repr

namespace Subcommand

def all : List Subcommand := [sync, gather, drift, apply, plan, status, agents, version]

def name : Subcommand → String
  | sync => "sync"
  | gather => "import"
  | drift => "drift"
  | apply => "apply"
  | plan => "plan"
  | status => "status"
  | agents => "agents"
  | version => "version"

def ofName? (s : String) : Option Subcommand := all.find? fun c => c.name == s

def slots : Subcommand → Nat
  | sync => 2
  | gather => 1
  | drift => 1
  | apply => 1
  | plan => 1
  | _ => 0

def isRun : Subcommand → Bool
  | status => false
  | agents => false
  | version => false
  | _ => true

def canDelete : Subcommand → Bool
  | sync => true
  | apply => true
  | plan => true
  | _ => false

/-- The subcommand is a preview by itself. -/
def isPreview : Subcommand → Bool
  | drift => true
  | plan => true
  | _ => false

def helpOptions : Options := [("-h".toList, .help), ("--help".toList, .help)]

def placeOptions : Options :=
  ("--global".toList, .everywhere) :: ("-g".toList, .everywhere) ::
    Agent.all.map fun a => (("--" ++ a.name ++ "-dir").toList, .folder a)

def runOptions (c : Subcommand) : Options :=
  [("--type".toList, .contents), ("-t".toList, .contents),
   ("--remove-unsupported".toList, .removeForeign), ("--no-overwrite".toList, .keepExisting)] ++
    (if c.canDelete then [("--sync-delete".toList, .deleteOrphans)] else []) ++
    [("--file".toList, .only), ("-f".toList, .only)] ++
    (if c = sync then [("--noop".toList, .preview), ("-n".toList, .preview)] else []) ++
    [("--verbose".toList, .verbose), ("-v".toList, .verbose)]

def options (c : Subcommand) : Options :=
  helpOptions ++ (if c.isRun then c.runOptions else []) ++
    if c.isRun || c = status then placeOptions else []

end Subcommand

/-- What a command line asks for. -/
inductive Request where
  | help : Request
  | misuse : Request
  | nothing : Request
  | subcommand (c : Subcommand) (a : Arguments) : Request
  deriving DecidableEq, Repr

namespace Request

/-- The request for a subcommand; `stray` says that something in front of the
subcommand is left over. -/
def ofSubcommand (stray : Bool) (name : List Char) (words : List (List Char)) : Request :=
  match Subcommand.ofName? (String.ofList name) with
  | none => .misuse
  | some c =>
    match arguments c.options c.slots words with
    | .error .help => .help
    | .error .misuse => .misuse
    | .ok a => if stray then .misuse else .subcommand c a

def ofTokens (stray : Bool) : List Token → List (List Char) → Request
  | .unknown :: tokens, _ :: words => ofTokens true tokens words
  | .option c isLong tail :: _, _ =>
    match Bundle.ofWord Subcommand.helpOptions c isLong tail with
    | .ok _ => .help
    | .error _ => .misuse
  | .word cs :: _, _ :: words => ofSubcommand stray cs words
  | [], _ => if stray then .misuse else .nothing
  | _, _ => .misuse

def ofWords (words : List String) : Request :=
  let words := words.map String.toList
  match Token.ofWords? Subcommand.helpOptions words with
  | none => .misuse
  | some tokens => ofTokens false tokens words

end Request

end AgentRelay.CommandLine
