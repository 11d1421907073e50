/-
  The body of a prompt: literal text with placeholders in between.
-/

namespace AgentRelay.Body

/-- The kinds of placeholders. -/
inductive Kind where
  | arguments : Kind
  | argument : Kind
  | shell : Kind
  | file : Kind
  deriving DecidableEq, Repr

namespace Kind

def name : Kind → String
  | arguments => "arguments"
  | argument => "individual-argument"
  | shell => "shell-command"
  | file => "file-reference"

def all : List Kind := [arguments, argument, shell, file]

end Kind

/-- What a prompt leaves open until it is used. -/
inductive Placeholder where
  | arguments : Placeholder
  | argument (position : Nat) : Placeholder
  | shell (command : List Char) : Placeholder
  | file (path : List Char) : Placeholder
  deriving DecidableEq, Repr

namespace Placeholder

def kind : Placeholder → Kind
  | arguments => .arguments
  | argument _ => .argument
  | shell _ => .shell
  | file _ => .file

/-- The argument at a position, if there is such a position. -/
def argument? (position : Int) : Option Placeholder :=
  if 1 ≤ position ∧ position ≤ 9 then some (.argument position.toNat) else none

end Placeholder

/-- A piece of a body. -/
inductive Segment where
  | text (run : List Char) : Segment
  | placeholder : Placeholder → Segment
  deriving DecidableEq, Repr

namespace Segment

def placeholder? : Segment → Option Placeholder
  | text _ => none
  | placeholder p => some p

end Segment

def placeholders (segments : List Segment) : List Placeholder :=
  segments.filterMap Segment.placeholder?

def unsupportedNote (k : Kind) : String :=
  "Placeholder '" ++ k.name ++
    "' is not natively supported by target format (serialized as best-effort)"

/-- The notes on a body that goes to a format without the kinds `missing`. -/
def notes (missing : List Kind) (segments : List Segment) : List String :=
  ((placeholders segments).filter fun p => missing.contains p.kind).map fun p =>
    unsupportedNote p.kind

end AgentRelay.Body
