import AgentRelay.Document.Support
import AgentRelay.Failure
import AgentRelay.Frontmatter
import AgentRelay.Toml.Writer

/-
  Commands and skills, as an agent holds them, and the text of each.

  A draft is a command whose parts are values of any kind, as it comes from
  outside. It becomes a command when every part is of the kind it should be.
-/

namespace AgentRelay

def descriptionKey : String := "description"

def nameKey : String := "name"

def promptKey : String := "prompt"

/-- A command. -/
inductive Command where
  | markdown (fields : Mapping) (content path : String) : Command
  /-- A table of fields; the description may be null. -/
  | table (prompt : String) (description : Value) (fields : Mapping) (path : String) : Command
  | plain (content path : String) : Command
  deriving Repr

/-- A skill. The tool configuration is kept by the one agent that has it. -/
structure Skill where
  name : Value
  content : String
  folder : String
  support : List SupportFile
  fields : Mapping
  config : Option Mapping
  deriving Repr

/-- A command whose parts may be of any kind. -/
inductive Draft where
  | markdown (fields content path : Value) : Draft
  | table (prompt description fields path : Value) : Draft
  | plain (content path : Value) : Draft
  deriving Repr

namespace Command

def path : Command → String
  | markdown _ _ p => p
  | table _ _ _ p => p
  | plain _ p => p

def draft : Command → Draft
  | markdown f c p => .markdown (Value.mapping f) (.text c) (.text p)
  | table prompt d f p => .table (.text prompt) d (Value.mapping f) (.text p)
  | plain c p => .plain (.text c) (.text p)

/-- The fields in front of a command's text; other commands have none. -/
def fields : Command → Mapping
  | markdown f _ _ => f
  | _ => []

end Command

namespace Draft

/-- The entries of a value used as a mapping; a value that counts as absent has
none. -/
def entriesOrNone (v : Value) : Except Misfit Mapping :=
  match v.entries? with
  | some m => .ok m
  | none => if v.truthy then .error .unable else .ok []

/-- The text of a body; a value that counts as absent is empty. -/
def bodyText (v : Value) : Except Misfit String :=
  match v with
  | .text s => .ok s
  | .scalar (.torn t) => .ok t.shown
  | v => if v.truthy then .error .wrongKind else .ok ""

/-- A path; anything but a text is none. -/
def pathText (v : Value) : String := (v.phrase?.map Phrase.shown).getD ""

def command? : Draft → Except Misfit Command
  | markdown f c p => do
    let f ← entriesOrNone f
    return .markdown f (← bodyText c) (pathText p)
  | table prompt d f p => do
    match f.entries? with
    | some m => return .table (← bodyText prompt) d m (pathText p)
    | none => throw .wrongKind
  | plain c p => do return .plain (← bodyText c) (pathText p)

def describes : Value → Except Misfit Bool
  | .null => .ok false
  | .text s => .ok (!Text.isBlankText s)
  | .scalar (.torn _) => .ok true
  | .scalar (.bytes bs) => .ok (!(bs.all fun b => Text.isNarrowBlank (Char.ofNat b.toNat)))
  | _ => .error .unable

/-- The table a command is written as: the description, the other fields that
are not null, and the prompt. -/
def tableOf (prompt description : Value) (fields : Mapping) : Except Misfit Mapping := do
  let start : Mapping :=
    if ← describes description then [(.text descriptionKey, description)] else []
  let rest := fields.clean.filter fun e =>
    !(e.1.same (.text descriptionKey) || e.1.same (.text promptKey))
  return Mapping.set (Mapping.merge start rest) (.text promptKey) prompt

/-- The failure of a table without a written form. -/
def tableFailure (path : String) : Toml.Unwritable → Failure
  | .noForm => .unwritten path .wrongKind
  | .badValue => .unwritten path .badValue
  | .endless => .tooDeep
  | .badKey name => .badKey name
  | .badName => .badName

/-- The failure of fields without a written form. -/
def fieldsFailure : Yaml.Unwritable → Failure
  | .noForm => .unwritable
  | .tooLarge => .misfit .tooLarge
  | .tooDeep => .tooDeep

def joined (fields : Mapping) (content : String) : Except Failure String :=
  (Frontmatter.join fields content).mapError fieldsFailure

/-- The text of a draft; where nothing stands in front of it, the content is the
answer whatever it is. -/
def text : Draft → Except Failure Value
  | markdown f c _ => do
    let fields := (← (entriesOrNone f).mapError .misfit).clean
    if fields.isEmpty then return c
    else
      match c with
      | .text s => return .text (← joined fields s)
      | .scalar (.torn t) => return .text (← joined fields t.shown)
      | .scalar (.bytes _) => throw (.misfit .wrongKind)
      | _ => throw (.misfit .unable)
  | table prompt d f p => do
    match f.entries? with
    | some m =>
      let t ← (tableOf prompt d m).mapError .misfit
      return .phrase (← (Toml.write t).mapError (tableFailure (pathText p)))
    | none => throw (.misfit .unable)
  | plain c _ => .ok c

end Draft

/-- The text of a command, which is torn where a value of a table is. -/
def Command.text : Command → Except Failure Phrase
  | markdown f c _ => (Draft.joined f c).map .whole
  | table prompt d f p => do
    let t ← (Draft.tableOf (.text prompt) d f).mapError .misfit
    (Toml.write t).mapError (Draft.tableFailure p)
  | plain c _ => .ok c

def Skill.text (s : Skill) : Except Failure String := Draft.joined s.fields s.content

end AgentRelay
