import AgentRelay.Document.Basic
import AgentRelay.Value.Json

/-
  What is wrong with a document, part by part. Nothing depends on it but the
  report: a document with complaints is converted all the same.
-/

namespace AgentRelay

/-- A complaint about a part of a document, with the value found there. -/
structure Complaint where
  field : String
  message : String
  value : Value
  deriving Repr

namespace Complaint

/-- The complaint, when the condition holds. -/
def onlyIf (b : Bool) (field message : String) (value : Value) : List Complaint :=
  if b then [⟨field, message, value⟩] else []

/-- A text that is not empty. -/
def isFullText (v : Value) : Bool :=
  match v with
  | .text s => !s.isEmpty
  | .scalar (.torn _) => true
  | _ => false

def isText (v : Value) : Bool := v.phrase?.isSome

/-- A field that must be a text when it is present. -/
def optionalText (fields : Mapping) (key : String) : List Complaint :=
  let v := Mapping.field fields key
  onlyIf (!v.isNull && !isText v) ("frontmatter." ++ key) (key ++ " must be a string") v

/-- A description must be a text with more than blanks, when it is present. -/
def description (field : String) (v : Value) : List Complaint :=
  match v with
  | .null => []
  | .text s => onlyIf (Text.isBlankText s) field "description cannot be empty" v
  | .scalar (.torn _) => []
  | v => [⟨field, "description must be a string", v⟩]

def modelNames : List String := ["opus", "sonnet", "haiku"]

/-- A model is named by a short name, or by a long one with a dash. -/
def model (v : Value) : List Complaint :=
  match v.phrase? with
  | some p =>
    onlyIf (!modelNames.contains p.shown && !p.shown.toList.contains '-') "frontmatter.model"
      ("model must be one of: " ++ ", ".intercalate modelNames ++ " or a specific model string") v
  | none => onlyIf (!v.isNull) "frontmatter.model" "model must be a string" v

def filePath (v : Value) : List Complaint :=
  onlyIf (!isFullText v) "filePath" "File path is required and must be a string" v

def content (v : Value) : List Complaint :=
  onlyIf (!isText v) "content" "Content must be a string" v

def fields (v : Value) : List Complaint :=
  match v with
  | .map _ m =>
    optionalText m "allowed-tools" ++ optionalText m "argument-hint" ++
      description "frontmatter.description" (Mapping.field m "description") ++
      model (Mapping.field m "model")
  | v => [⟨"frontmatter", "Frontmatter is required and must be a mapping", v⟩]

def prompt (v : Value) : List Complaint :=
  if !v.truthy then [⟨"prompt", "prompt is required", v⟩]
  else
    match v with
    | .text s => onlyIf (Text.isBlankText s) "prompt" "prompt cannot be empty" v
    | .scalar (.torn _) => []
    | v => [⟨"prompt", "prompt must be a string", v⟩]

def ofCommand (a : Agent) : Draft → List Complaint
  | .markdown f c p => if a = .claude then filePath p ++ fields f ++ content c else content c
  | .table t d _ p => filePath p ++ prompt t ++ description "description" d
  | .plain c _ => content c

/-- The command counts as valid. The hub asks for texts alone. -/
def commandIsValid (a : Agent) (d : Draft) : Bool :=
  match a, d with
  | .chimera, .markdown _ c p => isText c && isText p
  | a, d => (ofCommand a d).isEmpty

def ofSkill (name content : Value) : List Complaint :=
  onlyIf (!isFullText content) "content" "Skill content is required" content ++
    onlyIf (!isFullText name) "name" "Skill name is required" name

/-- Parts that a path had better not have. -/
def dangerousParts : List String := ["..", "<", ">", "|", "?", "*"]

def ofPath (v : Value) : List Complaint :=
  match v.phrase? with
  | some p =>
    if p.shown.isEmpty then [⟨"filePath", "File path must be a non-empty string", v⟩]
    else
      dangerousParts.flatMap fun part =>
        onlyIf (Text.containsSeq part.toList p.shown.toList) "filePath"
          ("File path contains dangerous character: " ++ part) v
  | none => [⟨"filePath", "File path must be a non-empty string", v⟩]

def line (number : Nat) (c : Complaint) : Except Json.Refusal String := do
  let start := toString number ++ ". " ++ c.field ++ ": " ++ c.message
  if c.value.isNull then return start
  else return start ++ " (got: " ++ String.ofList (← c.value.json) ++ ")"

def lines : Nat → List Complaint → Except Json.Refusal (List String)
  | _, [] => .ok []
  | number, c :: cs => do
    let first ← line number c
    return first :: (← lines (number + 1) cs)

def report (cs : List Complaint) : Except Json.Refusal String :=
  if cs.isEmpty then .ok "No validation errors"
  else do
    let ls ← lines 1 cs
    return "Validation failed with " ++ toString cs.length ++ " error(s):\n" ++ "\n".intercalate ls

end Complaint

end AgentRelay
