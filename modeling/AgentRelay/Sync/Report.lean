import AgentRelay.Failure
import AgentRelay.Location
import AgentRelay.Settings.Cascade

/-
  What a run is asked to do and what it reports.

  An operation is one item created, changed, deleted or skipped. Failures of
  single items are kept beside the operations.
-/

namespace AgentRelay.Sync

/-- What a run is asked to do. -/
structure Order where
  contents : Contents
  removeForeign : Bool
  keepExisting : Bool
  deleteOrphans : Bool
  /-- The name of the only item to take; an empty name is none. -/
  only : Option String
  preview : Bool
  verbose : Bool
  setup : Setup
  deriving DecidableEq, Repr

def Order.isSingle (o : Order) : Bool :=
  match o.only with
  | some name => !name.isEmpty
  | none => false

/-- What happens to an item. -/
inductive Change where
  | created : Change
  | modified : Change
  | deleted : Change
  | skipped : Change
  deriving DecidableEq, Repr

def Change.letter : Change → String
  | created => "A"
  | modified => "M"
  | deleted => "D"
  | skipped => "-"

/-- An operation of a run. -/
structure Operation where
  change : Change
  path : Path
  /-- The operation was not carried out. -/
  preview : Bool
  deriving DecidableEq, Repr

namespace Operation

def description (op : Operation) : String :=
  match op.change, op.preview with
  | .created, false => "Created"
  | .created, true => "Would create"
  | .modified, false => "Modified"
  | .modified, true => "Would modify"
  | .deleted, false => "Deleted (orphaned)"
  | .deleted, true => "Would delete (orphaned)"
  | .skipped, _ => "Skipped (file exists and --no-overwrite specified)"

/-- The operation that writes an item, for an item that exists or not. -/
def writing (path : Path) (there preview : Bool) : Operation :=
  ⟨if there then .modified else .created, path, preview⟩

end Operation

/-- What a run reports. -/
structure Report where
  operations : List Operation
  failures : List Failure
  processed : Nat
  deriving DecidableEq, Repr

namespace Report

def empty : Report := ⟨[], [], 0⟩

def append (r s : Report) : Report :=
  ⟨r.operations ++ s.operations, r.failures ++ s.failures, r.processed + s.processed⟩

def ofItem : Except Failure Operation → Report
  | .ok op => ⟨[op], [], 1⟩
  | .error e => ⟨[], [e], 0⟩

/-- The report on an item without a source. -/
def ofOrphan : Except Failure Operation → Report
  | .ok op => ⟨[op], [], 0⟩
  | .error e => ⟨[], [e], 0⟩

def success (r : Report) : Bool := r.failures.isEmpty

def count (r : Report) (c : Change) : Nat := (r.operations.filter fun op => op.change = c).length

end Report

end AgentRelay.Sync
