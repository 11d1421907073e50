import AgentRelay.Path

/-
  File extensions and the names of commands.

  A command is named by the way from its directory to its file, without the
  extension and with colons in the place of slashes. A converted command keeps
  its path but for the extension.
-/

namespace AgentRelay

open AgentRelay.Text (dropEnd? endsWith)

def promptExtension : List Char := ".prompt.md".toList

/-- A text without the extension behind its last point: the extension is not
empty and reaches over no slash. -/
def dropExtension (cs : List Char) : List Char :=
  let tail := (cs.reverse.takeWhile (· != '.')).reverse
  if tail.length == cs.length || tail.isEmpty || tail.contains '/' || tail.contains '\\' then cs
  else cs.take (cs.length - tail.length - 1)

/-- A path with the given extension in the place of its own. -/
def replaceExtension (path extension : List Char) : List Char :=
  if path.isEmpty then path
  else
    match dropEnd? promptExtension path with
    | some stem => if extension = promptExtension then path else stem ++ extension
    | none => if endsWith extension path then path else dropExtension path ++ extension

/-- A file name without the given extension; of the empty extension everything
is part. -/
def stripExtension (fileName extension : List Char) : List Char :=
  if extension.isEmpty then [] else (dropEnd? extension fileName).getD fileName

/-- A text up to its last point, when no slash follows the point. -/
def dropLastPoint (cs : List Char) : List Char :=
  let tail := (cs.reverse.takeWhile (· != '.')).reverse
  if tail.length == cs.length || tail.contains '/' then cs
  else cs.take (cs.length - tail.length - 1)

/-- The name of the command in a file; `none` when the file does not lie in the
directory. -/
def commandName? (file base : Path) (extension : Option (List Char)) : Option (List Char) :=
  (base.below? file).map fun way =>
    let cs := way.chars
    let stem :=
      match extension with
      | some e =>
        if e.isEmpty then none else dropEnd? e cs
      | none => none
    let stem :=
      match stem with
      | some stem => stem
      | none => (dropEnd? promptExtension cs).getD (dropLastPoint cs)
    Text.replaceChar '/' ':' stem

def commandFile (name : List Char) (base : Path) (extension : List Char) : Path :=
  base.join (Path.ofChars (Text.replaceChar ':' '/' name ++ extension))

end AgentRelay
