import AgentRelay.CommandLine.Token

/-
  The arguments of a subcommand: its plain words, and its options with their
  values.

  A request for help counts as soon as it is met; what is missing or left over
  is noticed at the end.

  The two dashes are no value. Where they stand in the place of one they are
  dropped, and an empty list is left in its place.
-/

namespace AgentRelay.CommandLine

/-- Why there are no arguments. -/
inductive Stop where
  | help : Stop
  | misuse : Stop
  deriving DecidableEq, Repr

/-- What is given for a plain word or for the value of an option. -/
inductive Given where
  | text (s : String) : Given
  /-- The empty list that is left of the two dashes. -/
  | nothing : Given
  deriving DecidableEq, Repr

namespace Given

def ofChars (cs : List Char) : Given :=
  if cs = ['-', '-'] then nothing else text (String.ofList cs)

/-- The text, if one is given. -/
def text? : Given → Option String
  | text s => some s
  | nothing => none

def shown : Given → String
  | text s => s
  | nothing => "[]"

end Given

/-- The arguments found. -/
structure Arguments where
  words : List Given
  options : List (Choice × Given)
  /-- Something is left over. -/
  stray : Bool
  deriving DecidableEq, Repr

namespace Arguments

def none : Arguments := ⟨[], [], false⟩

/-- The last value of an option. -/
def value? (a : Arguments) (c : Choice) : Option Given :=
  ((a.options.filter fun o => o.1 = c).getLast?).map (·.2)

def has (a : Arguments) (c : Choice) : Bool := (a.value? c).isSome

def addWord (a : Arguments) (g : Given) : Arguments := { a with words := a.words ++ [g] }

/-- Something is left over. -/
def leave (a : Arguments) : Arguments := { a with stray := true }

def addOption (a : Arguments) (o : Choice × List Char) : Except Stop Arguments :=
  if o.1 = .help then .error .help
  else .ok { a with options := a.options ++ [(o.1, Given.ofChars o.2)] }

end Arguments

/-- The options written in one word. -/
structure Bundle where
  options : List (Choice × List Char)
  last : Option Choice

namespace Bundle

/-- A single option without a value of its own. -/
def single (c : Choice) : Bundle :=
  if c.takesValue then ⟨[], some c⟩ else ⟨[(c, [])], none⟩

/-- Puts an option without a value in front. -/
def cons (c : Choice) (b : Bundle) : Bundle := { b with options := (c, []) :: b.options }

/-- The options of a word that has characters behind the name of an option: a
value, or else the letters of further options. -/
def ofTail (options : Options) : Choice → (isLong : Bool) → List Char → Except Stop Bundle
  | c, isLong, cs =>
    if c.takesValue then .ok ⟨[(c, cs)], none⟩
    else if isLong then .error .misuse
    else
      match cs with
      | [] => .error .misuse
      | x :: rest =>
        match options.named? ['-', x], rest with
        | none, _ => .error .misuse
        | some next, [] => .ok (cons c (single next))
        | some next, rest => (ofTail options next false rest).map (cons c)
termination_by _ _ cs => cs.length

def ofWord (options : Options) (c : Choice) (isLong : Bool) :
    Option (List Char) → Except Stop Bundle
  | none => .ok (single c)
  | some cs => ofTail options c isLong cs

def addTo (b : Bundle) (a : Arguments) : Except Stop Arguments :=
  b.options.foldlM Arguments.addOption a

/-- Adds the options of a word to the arguments, with the value that the last
one lacks. -/
def addWith (b : Bundle) (c : Choice) (value : List Char) (a : Arguments) :
    Except Stop Arguments := do
  (← b.addTo a).addOption (c, value)

end Bundle

/-- Goes through the words of a subcommand. `slots` plain words are wanted, and
`afterWord` says that one of them has just been met: the two dashes belong to
it or else to the next one, and are left over where there is neither. -/
def read (options : Options) :
    List Token → (slots : Nat) → (afterWord : Bool) → Arguments → Except Stop Arguments
  | [], slots, _, a => if slots = 0 then .ok a else .error .misuse
  -- A word with two dashes of its own may be two dashes itself.
  | .dashes :: .word cs :: rest, slots + 1, false, a =>
    read options rest slots true (a.addWord (.text (String.ofList cs)))
  | .word cs :: rest, slots + 1, _, a => read options rest slots true (a.addWord (.ofChars cs))
  | .word _ :: rest, 0, _, a => read options rest 0 false a.leave
  | .dashes :: rest, slots, afterWord, a =>
    read options rest slots false (if afterWord then a else a.leave)
  | .unknown :: rest, slots, _, a => read options rest slots false a.leave
  | .option c isLong tail :: .word cs :: rest, slots, _, a => do
    let b ← Bundle.ofWord options c isLong tail
    match b.last with
    | some last => read options rest slots false (← b.addWith last cs a)
    | none => read options (.word cs :: rest) slots false (← b.addTo a)
  | .option c isLong tail :: rest, slots, _, a => do
    let b ← Bundle.ofWord options c isLong tail
    if b.last.isSome then throw .misuse
    read options rest slots false (← b.addTo a)
termination_by tokens => tokens.length

/-- The arguments of a subcommand that wants a number of plain words. -/
def arguments (options : Options) (slots : Nat) (words : List (List Char)) :
    Except Stop Arguments := do
  match Token.ofWords? options words with
  | none => throw .misuse
  | some tokens =>
    let a ← read options tokens slots false Arguments.none
    if a.stray then throw .misuse
    return a

end AgentRelay.CommandLine
