import AgentRelay.Document.Basic
import AgentRelay.Document.Provenance
import AgentRelay.Files.Disk
import AgentRelay.Toml.Document

/-
  Commands in files.

  A file that cannot be opened, or that is not written in the format of its
  agent, is a failure about that file; the failures that a value of a document
  causes are passed on as they are.
-/

namespace AgentRelay

/-- A failure to get at a document, as a failure about the document. -/
def Failure.about (a : Agent) (what path : String) : Failure → Failure
  | system e => unread a what path (.system e)
  | undecodable => unread a what path .undecodable
  | f => f

/-- A block of fields that cannot be read, as a failure about its document. -/
def Frontmatter.Error.about (a : Agent) (what path : String) : Frontmatter.Error → Failure
  | unreadable .malformed => .unread a what path .badBlock
  | unreadable f => .yaml f
  | notMapping k => .unread a what path (.notMapping k)

namespace Command

def noun : String := "command file"

/-- A table that cannot be read, as a failure about its document. -/
def tableFailure (a : Agent) (path : String) : Toml.Fault → Failure
  | .malformed => .unread a noun path .notToml
  | f => .toml f

/-- The command a table describes; a prompt that is no text is empty, and the
description is taken as a text. Placeholders are looked for in the prompt with its halves as
they are shown. -/
def ofTable (path : String) (fields : Mapping) : Except Failure Command := do
  let description ← (Mapping.field fields descriptionKey).asText.mapError .misfit
  return .table (((Mapping.field fields promptKey).phrase?.map Phrase.shown).getD "") description
    ((Mapping.without fields promptKey).without descriptionKey) path

/-- The command of an agent in a text; `doc` is the number of the document. -/
def ofText (a : Agent) (doc : Nat) (path text : String) : Except Failure Command :=
  match a.format with
  | .plain => .ok (.plain (Text.strip text) path)
  | .table => do ofTable path (← (Toml.readDocument text).mapError (tableFailure a path))
  | .markdown =>
    ((Frontmatter.split doc text).mapError (·.about a noun path)).map fun (fields, content) =>
      .markdown fields (if a.stripsContent then Text.strip content else content) path

def read (a : Agent) (doc : Nat) (path : String) : Work Command := do
  let text ← (Disk.text (Path.ofText path)).explain (·.about a noun path)
  Work.ofExcept (ofText a doc path text)

/-- The prompt of the command in a text is torn. Only tables spell prompts with escapes. -/
def hasTornPrompt (a : Agent) (text : String) : Bool :=
  match a.format, Toml.readDocument text with
  | .table, .ok fields =>
    match Mapping.field fields promptKey with
    | .scalar (.torn _) => true
    | _ => false
  | _, _ => false

/-- The prompt of the command in a file is torn. A command keeps its prompt with the halves as
they are shown, so that this has to be seen in the file. -/
def isTorn (w : World) (a : Agent) (file : Path) : Bool :=
  ((Disk.text file).run w).1.toOption.any (hasTornPrompt a)

/-- The text of a command for a file, `none` when it or the prompt it comes from is torn. -/
def whole? (torn : Bool) (text : Phrase) : Option String := if torn then none else text.whole?

end Command

end AgentRelay
