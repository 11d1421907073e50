import AgentRelay.Path

/-
  A tree of files.

  A place is the list of names from the root to it; the root is a folder. What
  is put at one place leaves every other place as it is (`get?_put_of_ne`), and
  what was put is found (`get?_put_same`).
-/

namespace AgentRelay.Files

/-- A place in a tree: the names from the root to it. -/
abbrev Place := List String

/-- What a place holds. -/
inductive Entry where
  | file : ByteArray → Entry
  | folder : Entry
  /-- The file of a lock. It takes up its place, and otherwise no file is there. -/
  | lock : Entry

/-- Files are equal when they hold the same bytes. -/
instance : DecidableEq Entry
  | .file a, .file b =>
    if h : a.data = b.data then .isTrue (congrArg Entry.file (ByteArray.ext h))
    else .isFalse fun e => h (congrArg ByteArray.data (Entry.file.inj e))
  | .folder, .folder => .isTrue rfl
  | .lock, .lock => .isTrue rfl
  | .file _, .folder => .isFalse nofun
  | .file _, .lock => .isFalse nofun
  | .folder, .file _ => .isFalse nofun
  | .folder, .lock => .isFalse nofun
  | .lock, .file _ => .isFalse nofun
  | .lock, .folder => .isFalse nofun

/-- A tree: what each of its places holds. -/
abbrev Tree := List (Place × Entry)

namespace Tree

def get? (t : Tree) (p : Place) : Option Entry := if p = [] then some .folder else List.lookup p t

def put (t : Tree) (p : Place) (e : Entry) : Tree := (p, e) :: t.filter fun x => x.1 != p

def isWithin (outer p : Place) : Bool := p.take outer.length == outer

def remove (t : Tree) (p : Place) : Tree := t.filter fun x => !isWithin p x.1

def children (t : Tree) (p : Place) : List Place :=
  (t.map (·.1)).filter fun q => isWithin p q && q.length == p.length + 1

def descendants (t : Tree) (p : Place) : List Place :=
  (t.map (·.1)).filter fun q => isWithin p q && p.length < q.length

def isFolder (t : Tree) (p : Place) : Bool := get? t p == some .folder

def bytes? (t : Tree) (p : Place) : Option ByteArray :=
  match get? t p with
  | some (.file b) => some b
  | _ => none

theorem lookup_filter_ne (t : Tree) (p q : Place) (h : q ≠ p) :
    List.lookup q (t.filter fun x => x.1 != p) = List.lookup q t := by
  induction t with
  | nil => rfl
  | cons x t ih =>
    obtain ⟨k, e⟩ := x
    by_cases hk : k = p
    · have hq : (q == k) = false := by simpa [hk] using h
      have hf : ((k, e) :: t).filter (fun x => x.1 != p) = t.filter fun x => x.1 != p := by
        simp [hk]
      rw [hf, ih, List.lookup_cons, hq]
    · have hf : ((k, e) :: t).filter (fun x => x.1 != p) =
          (k, e) :: t.filter fun x => x.1 != p := by simp [hk]
      rw [hf, List.lookup_cons, List.lookup_cons, ih]

theorem get?_put_same (t : Tree) (p : Place) (e : Entry) (h : p ≠ []) :
    get? (put t p e) p = some e := by
  simp [get?, put, h]

theorem get?_put_of_ne (t : Tree) (p q : Place) (e : Entry) (h : q ≠ p) :
    get? (put t p e) q = get? t q := by
  by_cases hq : q = []
  · simp [get?, hq]
  · have hb : (q == p) = false := by simpa using h
    simp only [get?, hq, if_false, put, List.lookup_cons, hb]
    exact lookup_filter_ne t p q h

end Tree

/-- Why the system refuses an operation on a path. -/
inductive Refusal where
  | missing : Refusal
  | taken : Refusal
  | notFolder : Refusal
  | isFolder : Refusal
  deriving DecidableEq, Repr

namespace Refusal

def number : Refusal → Nat
  | missing => 2
  | taken => 17
  | notFolder => 20
  | isFolder => 21

def words : Refusal → String
  | missing => "No such file or directory"
  | taken => "File exists"
  | notFolder => "Not a directory"
  | isFolder => "Is a directory"

end Refusal

/-- Walks along names from a place, through folders that exist; two points go
up. The last name need not exist. -/
def walk (t : Tree) (here : Place) : List String → Except Refusal Place
  | [] => .ok here
  | [name] =>
    if !t.isFolder here then refuse here
    else .ok (if name = ".." then here.dropLast else here ++ [name])
  | name :: next :: names =>
    if !t.isFolder here then refuse here
    else walk t (if name = ".." then here.dropLast else here ++ [name]) (next :: names)
where
  refuse (p : Place) : Except Refusal Place :=
    match t.get? p with
    | some _ => .error .notFolder
    | none => .error .missing

def locate (t : Tree) (here : Place) (p : Path) : Except Refusal Place :=
  walk t (if p.isAbsolute then [] else here) p.parts

def stat (t : Tree) (here : Place) (p : Path) : Except Refusal (Place × Entry) := do
  let place ← locate t here p
  match t.get? place with
  | some e => return (place, e)
  | none => throw .missing

end AgentRelay.Files
