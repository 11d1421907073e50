import AgentRelay.Path
import AgentRelay.Text.Lower

/-
  The files beside a skill's text.

  The kind of a file goes by its name: extensions of binary formats, in any
  case, then the names of configuration files; everything else is text. The
  content of a binary file is never looked at.
-/

namespace AgentRelay

/-- The kinds of support files. -/
inductive SupportKind where
  | text : SupportKind
  | binary : SupportKind
  | config : SupportKind
  deriving DecidableEq, Repr

namespace SupportKind

def name : SupportKind → String
  | text => "text"
  | binary => "binary"
  | config => "config"

def ofName? (s : String) : Option SupportKind := [text, binary, config].find? fun k => k.name == s

def complaint (s : String) : String :=
  "Unknown support file type " ++ String.ofList (Literal.text s)

def binaryExtensions : List String :=
  [".png", ".jpg", ".jpeg", ".gif", ".bmp", ".ico", ".webp", ".tiff",
   ".pdf", ".zip", ".gz", ".tar", ".tgz", ".bz2", ".xz", ".7z", ".jar",
   ".woff", ".woff2", ".ttf", ".otf", ".eot",
   ".mp3", ".mp4", ".wav", ".ogg", ".mov", ".avi", ".webm",
   ".exe", ".dll", ".so", ".dylib", ".bin", ".wasm", ".pyc", ".class",
   ".sqlite", ".db"]

def configNames : List String :=
  ["package.json", "tsconfig.json", "pyproject.toml", "requirements.txt",
   "setup.cfg", "Makefile", "Dockerfile", ".gitignore", ".editorconfig",
   ".prettierrc", ".eslintrc", ".eslintrc.json", "config.json", "config.yaml",
   "config.yml", "settings.json"]

def ofPath (p : Path) : SupportKind :=
  if binaryExtensions.contains (String.ofList (Text.lower p.extension)) then binary
  else if configNames.contains p.name then config
  else text

end SupportKind

/-- A file beside a skill's text: the way to it, its kind, and its content when
that was read. -/
structure SupportFile where
  path : String
  kind : SupportKind
  content : Option String
  deriving DecidableEq, Repr

end AgentRelay
