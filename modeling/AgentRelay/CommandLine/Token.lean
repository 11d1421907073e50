import AgentRelay.Agent
import AgentRelay.Text.Digit

/-
  The words of a command line: options, the two dashes that end them, and plain
  words.

  The name of a long option may be cut short where that leaves one option only.
  A short option may have its value, or further short options, behind it in the
  same word, with or without an equals sign in between.
  A negative number is a plain word, and so is a text with a space that names no
  option.
-/

namespace AgentRelay.CommandLine

/-- What an option stands for. -/
inductive Choice where
  | help : Choice
  | contents : Choice
  | only : Choice
  | folder (a : Agent) : Choice
  | removeForeign : Choice
  | keepExisting : Choice
  | deleteOrphans : Choice
  | preview : Choice
  | verbose : Choice
  | everywhere : Choice
  deriving DecidableEq, Repr

def Choice.takesValue : Choice → Bool
  | contents => true
  | only => true
  | folder _ => true
  | _ => false

/-- The options a subcommand knows, by name. -/
abbrev Options := List (List Char × Choice)

/-- The option with exactly this name. -/
def Options.named? (options : Options) (name : List Char) : Option Choice := options.lookup name

/-- A word of a command line, as the options make it. -/
inductive Token where
  | word : List Char → Token
  | dashes : Token
  | option (c : Choice) (isLong : Bool) (tail : Option (List Char)) : Token
  /-- A word that looks like an option and is none. -/
  | unknown : Token
  deriving DecidableEq, Repr

namespace Token

def isLongName : List Char → Bool
  | '-' :: '-' :: _ => true
  | _ => false

/-- What is in front of the first equals sign, and what is behind it. -/
def cutAtEquals (cs : List Char) : List Char × Option (List Char) :=
  (cs.takeWhile (· != '='), (cs.dropWhile (· != '=')).tail?)

/-- The options that a word may stand for without naming one exactly. -/
def candidates (options : Options) (cs : List Char) : List Token :=
  if isLongName cs then
    let (name, tail) := cutAtEquals cs
    (options.filter fun o => Text.startsWith name o.1).map fun o => .option o.2 true tail
  else
    (options.filter fun o => o.1 == cs.take 2).map fun o => .option o.2 false (some (cs.drop 2))

def areDigits (cs : List Char) : Bool := !cs.isEmpty && cs.all Text.isDigit

/-- A text without a line feed at its end. -/
def withoutLineFeed (cs : List Char) : List Char := (Text.dropEnd? ['\n'] cs).getD cs

def isNegativeNumber : List Char → Bool
  | '-' :: cs =>
    let cs := withoutLineFeed cs
    areDigits cs ||
      match cs.dropWhile Text.isDigit with
      | '.' :: fraction => areDigits fraction
      | _ => false
  | _ => false

/-- The option a word names exactly, with its value behind an equals sign. -/
def named? (options : Options) (cs : List Char) : Option Token :=
  match options.named? cs with
  | some c => some (.option c (isLongName cs) none)
  | none =>
    match cutAtEquals cs with
    | (_, none) => none
    | (name, tail) => (options.named? name).map fun c => .option c (isLongName name) tail

/-- What a word that starts with a dash is; `none` when it may stand for several
options. -/
def ofDashed? (options : Options) (cs : List Char) : Option Token :=
  match named? options cs with
  | some t => some t
  | none =>
    match candidates options cs with
    | [t] => some t
    | _ :: _ :: _ => none
    | [] =>
      if isNegativeNumber cs || cs.contains ' ' then some (.word cs) else some .unknown

def ofWord? (options : Options) (cs : List Char) : Option Token :=
  match cs with
  | '-' :: _ :: _ => ofDashed? options cs
  | _ => some (.word cs)

/-- The words of a command line; `none` when one may stand for several
options. -/
def ofWords? (options : Options) : List (List Char) → Option (List Token)
  | [] => some []
  | cs :: rest =>
    if cs = ['-', '-'] then some (.dashes :: rest.map Token.word)
    else do return (← ofWord? options cs) :: (← ofWords? options rest)

end Token

end AgentRelay.CommandLine
