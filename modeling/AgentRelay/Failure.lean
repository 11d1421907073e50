import AgentRelay.Agent
import AgentRelay.Files.Tree
import AgentRelay.Toml.Lines
import AgentRelay.Yaml.Token

/-
  What can go wrong, as causes, and the texts of the complaints.

  Complaints about bytes and about documents written in a notation of their own
  quote what the reader of that notation says; those words are a parameter.
-/

namespace AgentRelay

/-- A refusal of the file system, with the path it is about. -/
inductive SystemError where
  | refused (r : Files.Refusal) (path : Path) : SystemError
  /-- A folder without the file that makes it a skill. -/
  | noSkillFile : SystemError
  /-- A file would be copied onto itself. -/
  | sameFile (source target : Path) : SystemError
  deriving DecidableEq, Repr

/-- A value that an operation cannot use. -/
inductive Misfit where
  /-- The value does not know the operation. -/
  | unable : Misfit
  /-- The operation does not take values of this kind. -/
  | wrongKind : Misfit
  /-- The value is too large to have a text: a number with too many digits, or a
  moment whose offset is a day or more. -/
  | tooLarge : Misfit
  deriving DecidableEq, Repr

/-- Why a document cannot be read or written. -/
inductive Cause where
  | system : SystemError → Cause
  | undecodable : Cause
  /-- The block of fields is not YAML. -/
  | badBlock : Cause
  | notYaml : Cause
  | notMapping (kind : String) : Cause
  | notToml : Cause
  | wrongKind : Cause
  | badValue : Cause
  deriving DecidableEq, Repr

/-- Everything that ends a piece of work. -/
inductive Failure where
  | unread (agent : Agent) (what path : String) (cause : Cause) : Failure
  | unwritten (path : String) (cause : Cause) : Failure
  | system : SystemError → Failure
  | sameAgents (name : String) : Failure
  | badContent (name : String) : Failure
  | badChoice (text : String) : Failure
  | locked (path : Path) : Failure
  | unknownAgent (name : String) : Failure
  | noSetting (name : String) : Failure
  | badKey (name : String) : Failure
  | badName : Failure
  | yaml : Yaml.Fault → Failure
  | toml : Toml.Fault → Failure
  | undecodable : Failure
  /-- A text with halves, for which no bytes stand. -/
  | unencodable : Failure
  | misfit : Misfit → Failure
  /-- A value without a written form. -/
  | unwritable : Failure
  /-- Values that stand too deep in one another, or inside themselves where that
  has no end. -/
  | tooDeep : Failure
  | noHome : Failure
  /-- A file that does not lie in the folder it should lie in. -/
  | outside : Failure
  deriving DecidableEq, Repr

/-- What a run tells besides its result. -/
inductive Warning where
  | support (path : Path) (cause : Cause) : Warning
  | toolConfig (path : Path) (cause : Cause) : Warning
  | settings (path : Path) (cause : Cause) : Warning
  /-- A setting is not what it should be. -/
  | setting (message : String) : Warning
  deriving DecidableEq, Repr

/-- What readers and writers of a notation say. -/
structure Wording where
  encoding : String
  yaml : String
  toml : String
  wrongKind : String
  badValue : String

namespace SystemError

def quoted (p : Path) : String := String.ofList (Literal.text p.text)

def text : SystemError → String
  | refused r p => "[Errno " ++ toString r.number ++ "] " ++ r.words ++ ": " ++ quoted p
  | noSkillFile => "Not a valid skill directory: missing SKILL.md"
  | sameFile a b => "PosixPath(" ++ quoted a ++ ") and PosixPath(" ++ quoted b ++
      ") are the same file"

end SystemError

def Cause.text (w : Wording) : Cause → String
  | system e => e.text
  | undecodable => w.encoding
  | badBlock => "Invalid YAML frontmatter: " ++ w.yaml
  | notYaml => w.yaml
  | notMapping k => "Frontmatter must be a mapping, got " ++ k
  | notToml => w.toml
  | wrongKind => w.wrongKind
  | badValue => w.badValue

def Warning.text (w : Wording) : Warning → String
  | support p c => "Could not read support file " ++ p.text ++ ": " ++ c.text w
  | toolConfig p c => "Ignoring unreadable " ++ p.text ++ ": " ++ c.text w
  | settings p c => "Ignoring unreadable config " ++ p.text ++ ": " ++ c.text w
  | setting m => m

namespace Failure

/-- The cause of a failure to get at a file or its text. -/
def cause? : Failure → Option Cause
  | system e => some (.system e)
  | undecodable => some .undecodable
  | yaml .malformed => some .notYaml
  | _ => none

/-- A complaint with the path it is about, unless that is empty. -/
def withPath (message path : String) : String :=
  if path.isEmpty then message else message ++ " (" ++ path ++ ")"

def unknownAgentText (name : String) : String :=
  "Unknown agent '" ++ name ++ "'. Available agents: " ++
    ", ".intercalate (Agent.all.map Agent.name)

def text? (w : Wording) : Failure → Option String
  | unread a what path cause =>
    some (withPath ("Failed to parse " ++ a.title ++ " " ++ what ++ ": " ++ cause.text w) path)
  | unwritten path cause =>
    some (withPath ("Failed to stringify Gemini command: " ++ cause.text w) path)
  | system e => some e.text
  | sameAgents n => some ("Source and destination must differ (both are '" ++ n ++ "')")
  | badContent n =>
    some ("Invalid content type: '" ++ n ++ "' (expected skills, commands or both)")
  | badChoice t => some ("Invalid type '" ++ t ++ "'. Choose from: skills, commands, both")
  | locked p => some ("Another sync is running (lock held: " ++ p.text ++ ")")
  | unknownAgent n => some (unknownAgentText n)
  | noSetting n => some n
  | badKey n => some n
  | yaml (.badTruth word) => some word
  | _ => none

/-- A failure that concerns one item of a run and does not stop the others. -/
def isCollected : Failure → Bool
  | unread _ _ _ _ => true
  | unwritten _ _ => true
  | system _ => true
  | _ => false

def isLookup : Failure → Bool
  | unknownAgent _ => true
  | noSetting _ => true
  | badKey _ => true
  | yaml (.badTruth _) => true
  | _ => false

/-- A failure that says why a run could not start. -/
def isStart : Failure → Bool
  | sameAgents _ => true
  | badContent _ => true
  | badChoice _ => true
  | locked _ => true
  | _ => false

end Failure

end AgentRelay
