import AgentRelay.Failure
import AgentRelay.Text.Newline
import AgentRelay.Text.Utf8

/-
  Work on a tree of files: reading, writing, listing and removing, with the
  refusals of a file system.

  What was written before a failure stays written.
-/

namespace AgentRelay

/-- What a piece of work sees and changes. -/
structure World where
  tree : Files.Tree
  home : Path
  here : Path
  repository : Option Path
  held : Option Files.Place
  printed : List String
  warnings : List Warning

/-- A piece of work. -/
abbrev Work (α : Type) := ExceptT Failure (StateM World) α

namespace World

def herePlace (w : World) : Files.Place := w.here.parts

def locate (w : World) (p : Path) : Except Files.Refusal Files.Place :=
  Files.locate w.tree w.herePlace p

def stat (w : World) (p : Path) : Except Files.Refusal (Files.Place × Files.Entry) :=
  Files.stat w.tree w.herePlace p

def isFile (w : World) (p : Path) : Bool :=
  match w.stat p with
  | .ok (_, .file _) => true
  | _ => false

def isFolder (w : World) (p : Path) : Bool :=
  match w.stat p with
  | .ok (_, .folder) => true
  | _ => false

def isThere (w : World) (p : Path) : Bool :=
  match w.stat p with
  | .ok _ => true
  | .error _ => false

def entries (w : World) (p : Path) : List Path :=
  match w.stat p with
  | .ok (place, .folder) =>
    Path.sorted ((w.tree.children place).map fun q => ⟨p.root, p.parts ++ q.drop place.length⟩)
  | _ => []

def filesBelow (w : World) (p : Path) : List Path :=
  match w.stat p with
  | .ok (place, .folder) =>
    let files := (w.tree.descendants place).filter fun q => (w.tree.bytes? q).isSome
    Path.sorted (files.map fun q => ⟨p.root, p.parts ++ q.drop place.length⟩)
  | _ => []

end World

namespace Disk

def refuse {α : Type} (p : Path) (r : Files.Refusal) : Work α :=
  throw (.system (.refused r p))

def put (place : Files.Place) (e : Files.Entry) : Work Unit :=
  modify fun w => { w with tree := w.tree.put place e }

def bytes (p : Path) : Work ByteArray := do
  match (← get).stat p with
  | .ok (_, .file b) => return b
  | .ok (_, .folder) => refuse p .isFolder
  | .ok (_, .lock) => refuse p .missing
  | .error r => refuse p r

/-- The text of a file, every line end read as a line feed. -/
def text (p : Path) : Work String := do
  match Text.decode? (← bytes p) with
  | some s => return String.ofList (Text.unifyNewlines s.toList)
  | none => throw .undecodable

def writeBytes (p : Path) (b : ByteArray) : Work Unit := do
  let w ← get
  match w.locate p with
  | .error r => refuse p r
  | .ok place =>
    match w.tree.get? place with
    | some .folder => refuse p .isFolder
    | _ => put place (.file b)

def write (p : Path) (s : String) : Work Unit := writeBytes p (Text.encode s)

/-- Writes a text, `none` for one that has no bytes. The file is opened before its bytes are
asked for, so that it is left empty then. -/
def writeWhole (p : Path) (text : Option String) : Work Unit := do
  match text with
  | some s => write p s
  | none => do
    write p ""
    throw .unencodable

/-- Makes the file of a lock, unless a file is there. -/
def makeLock (p : Path) : Work Unit := do
  let w ← get
  match w.locate p with
  | .error r => refuse p r
  | .ok place =>
    match w.tree.get? place with
    | some .folder => refuse p .isFolder
    | some _ => return ()
    | none => put place .lock

/-- Makes one folder: the refusal, when there is one. -/
def tryFolder (p : Path) : Work (Option Files.Refusal) := do
  let w ← get
  match w.locate p with
  | .error r => return some r
  | .ok place =>
    match w.tree.get? place with
    | some _ => return some .taken
    | none => do
      put place .folder
      return none

/-- Refuses unless a folder stands at the path after all. -/
def unlessFolder (p : Path) (r : Files.Refusal) : Work Unit := do
  if (← get).isFolder p then return () else refuse p r

/-- Makes a folder together with those it lies in; `fuel` bounds their number. -/
def foldersFrom : Nat → Path → Work Unit
  | 0, p => refuse p .missing
  | fuel + 1, p => do
    match ← tryFolder p with
    | none => return ()
    | some .missing =>
      if p.parent = p then refuse p .missing
      else
        -- The folder above is made first, then this one is tried again.
        foldersFrom fuel p.parent
        match ← tryFolder p with
        | none => return ()
        | some r => unlessFolder p r
    | some r => unlessFolder p r

/-- Makes a folder together with those it lies in; it may be there already. -/
def folders (p : Path) : Work Unit := foldersFrom (p.parts.length + 1) p

def removeFile (p : Path) : Work Unit := do
  match (← get).stat p with
  | .error r => refuse p r
  | .ok (_, .folder) => refuse p .isFolder
  | .ok (_, .lock) => refuse p .missing
  | .ok (place, .file _) => modify fun w => { w with tree := w.tree.remove place }

def removeFolder (p : Path) : Work Unit := do
  match (← get).stat p with
  | .error r => refuse p r
  | .ok (_, .file _) => refuse p .notFolder
  | .ok (_, .lock) => refuse p .notFolder
  | .ok (place, .folder) => modify fun w => { w with tree := w.tree.remove place }

def copy (source target : Path) : Work Unit := do
  let w ← get
  match w.stat source, w.stat target with
  | .ok (a, _), .ok (b, _) =>
    if a = b then throw (.system (.sameFile source target))
  | _, _ => pure ()
  writeBytes target (← bytes source)

end Disk

namespace World

def say (line : String) : Work Unit :=
  modify fun w => { w with printed := w.printed ++ [line ++ "\n"] }

def warn (message : Warning) : Work Unit :=
  modify fun w => { w with warnings := w.warnings ++ [message] }

end World

namespace Work

/-- The result of a piece of work, or its failure, without ending the work
around it. -/
def attempt {α : Type} (x : Work α) : Work (Except Failure α) := ExceptT.mk (Except.ok <$> x.run)

def explain {α : Type} (f : Failure → Failure) (x : Work α) : Work α :=
  ExceptT.mk (Except.mapError f <$> x.run)

def ofExcept {α : Type} : Except Failure α → Work α
  | .ok a => pure a
  | .error e => throw e

end Work

end AgentRelay
