import AgentRelay.Yaml.Value
import AgentRelay.Yaml.Writer

/-
  A document with a block of fields in front of its text.

  The block starts on the first line with three dashes and ends at the first
  later line of three dashes; blanks may follow the dashes. A text without such
  a block has no fields and is all content.
-/

namespace AgentRelay.Frontmatter

open AgentRelay.Text (dropStart? endsWith)

/-- Why a block of fields cannot be read. -/
inductive Error where
  /-- The block is not readable as YAML. -/
  | unreadable : Yaml.Fault → Error
  | notMapping (kind : String) : Error
  deriving DecidableEq, Repr

/-- The characters behind a line of three dashes; the line may be the last one
without a line end only where `last` allows it. -/
def afterRule (last : Bool) (cs : List Char) : Option (List Char) :=
  match dropStart? ['-', '-', '-'] cs with
  | none => none
  | some rest =>
    match rest.dropWhile fun c => c == ' ' || c == '\t' with
    | [] => if last then some [] else none
    | '\n' :: rest => some rest
    | '\r' :: '\n' :: rest => some rest
    | _ => none

/-- Cuts at the first line of three dashes: what stands in front of it, and
what stands behind. The flag says that a line starts here. -/
def cutAtRule : Bool → List Char → Option (List Char × List Char)
  | _, [] => none
  | lineStart, c :: cs =>
    match if lineStart then afterRule true (c :: cs) else none with
    | some rest => some ([], rest)
    | none => (cutAtRule (c == '\n') cs).map fun (block, rest) => (c :: block, rest)

/-- The block of fields and the content behind it, for a text that has a block. -/
def block? (cs : List Char) : Option (List Char × List Char) :=
  (afterRule false cs).bind (cutAtRule true)

/-- The fields of a block; `doc` is the number of the document. -/
def fields (doc : Nat) (block : String) : Except Error Mapping :=
  match Yaml.readValue doc block with
  | .error f => .error (.unreadable f)
  | .ok .null => .ok []
  | .ok v =>
    match v.entries? with
    | some m => .ok m
    | none => .error (.notMapping v.kindName)

def split (doc : Nat) (text : String) : Except Error (Mapping × String) :=
  match block? text.toList with
  | none => .ok ([], text)
  | some (block, content) =>
    (fields doc (String.ofList block)).map fun m => (m, String.ofList content)

def rule : String := "---\n"

def ended (content : String) : String :=
  if endsWith ['\n'] content.toList then content else content ++ "\n"

/-- Fields and content as a text; null fields are left out. -/
def join (data : Mapping) (content : String) : Except Yaml.Unwritable String :=
  let data := data.clean
  if data.isEmpty then .ok content
  else (Yaml.write data).map fun block => rule ++ block ++ rule ++ ended content

end AgentRelay.Frontmatter
