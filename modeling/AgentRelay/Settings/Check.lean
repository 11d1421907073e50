import AgentRelay.Document.Provenance
import AgentRelay.Settings.Merge

/-
  What is wrong with settings, compared with the settings that are known.

  A key is known when the defaults have it, and its value should be of the kind
  of the default value. Where nothing is set by default, a text is expected. A
  key that is too large to have a text cannot be complained about.
-/

namespace AgentRelay.Settings

/-- The text of a key, unless it is too large. -/
def keyText (key : Scalar) : Except Misfit String := (Value.scalar key).displayed

/-- The full name of a key: the names of the mappings it lies in, with points
between them. An empty name in front is left out. -/
def fullKey (outer key : Scalar) : Except Misfit Scalar := do
  if (Value.scalar outer).truthy then
    return .text ((← keyText outer) ++ "." ++ (← keyText key))
  else return key

def quoted (key : Scalar) : Except Misfit String :=
  (keyText key).map fun s => "'" ++ s ++ "'"

def unknownKey (key : Scalar) : Except Misfit String :=
  (quoted key).map fun s => "Unknown config key: " ++ s

/-- The name of the kind expected where a value stands by default. -/
def expectedKind (known : Value) : String := if known.isNull then "str" else known.kindName

/-- A value of one kind counts as one of another: a truth value is a number, and
a moment is a day. -/
def fits (kind expected : String) : Bool :=
  kind == expected || (kind == "bool" && expected == "int") ||
    (kind == "datetime" && expected == "date")

/-- The complaint about the kind of a value, if there is one. -/
def kindComplaint (key : Scalar) (v known : Value) : Except Misfit (List String) := do
  let expected := expectedKind known
  if fits v.kindName expected then return []
  else
    return ["Invalid type for " ++ (← quoted key) ++ ": expected " ++ expected ++ ", got " ++
      v.kindName]

mutual

def complaintsUnder (outer : Scalar) : List (Scalar × Value) → Mapping → Except Misfit (List String)
  | [], _ => .ok []
  | (k, v) :: m, known => do
    let first ← complaintsAbout (← fullKey outer k) v (Mapping.get? known k)
    return first ++ (← complaintsUnder outer m known)

def complaintsAbout (key : Scalar) : Value → Option Value → Except Misfit (List String)
  | _, none => (unknownKey key).map fun c => [c]
  | .map _ m, some (.map _ known) => complaintsUnder key m known
  | v, some known => if v.isNull then .ok [] else kindComplaint key v known

end

/-- The complaints about settings, in the order of the settings. Mappings are
compared no deeper than the known ones go. -/
def complaints (settings known : Mapping) : Except Misfit (List String) :=
  complaintsUnder (.text "") (spread (depth known + 1) settings) known

end AgentRelay.Settings
