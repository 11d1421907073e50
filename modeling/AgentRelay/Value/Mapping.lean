import AgentRelay.Value.Basic

/-
  Keys and mappings.

  Keys that are equal as numbers are one key: `1`, `1.0` and `true`. A mapping
  keeps its entries in the order in which the keys first came; setting a key
  that is present replaces its value in place and keeps the older spelling of
  the key.

  Main statements: what was set is found (`get?_set_same`), other keys are
  untouched (`get?_set_of_ne`), and text keys are the same exactly when
  they are equal (`same_text_iff`).
-/

namespace AgentRelay

namespace Scalar

def number? : Scalar → Option Int
  | .bool b => some (if b then 1 else 0)
  | .int i => some i
  | _ => none

def same : Scalar → Scalar → Bool
  | .null, .null => true
  | .text a, .text b => a == b
  | .torn a, .torn b => a == b
  | .bytes a, .bytes b => a == b
  | .date _ a, .date _ b => a == b
  | .time a, .time b => a == b
  | .moment _ a, .moment _ b => a.same b
  | .real x, .real y => x.same y
  | .real x, b => match b.number? with
    | some i => x.equalsInt i
    | none => false
  | a, .real y => match a.number? with
    | some i => y.equalsInt i
    | none => false
  | a, b => match a.number?, b.number? with
    | some i, some j => i == j
    | _, _ => false

@[simp] theorem same_text_text (a b : String) : same (.text a) (.text b) = (a == b) := rfl

theorem same_text_iff (a : String) (k : Scalar) : same k (.text a) = true ↔ k = .text a := by
  cases k <;> simp [same, number?]

theorem same_text_iff' (a : String) (k : Scalar) : same (.text a) k = true ↔ k = .text a := by
  cases k with
  | text s => exact ⟨fun h => congrArg Scalar.text (eq_of_beq h).symm, fun h => by cases h; simp⟩
  | _ => simp [same, number?]

theorem same_phrase_iff (p : Phrase) (k : Scalar) : same k (.phrase p) = true ↔ k = .phrase p := by
  cases p with
  | whole a => exact same_text_iff a k
  | torn t => cases k <;> simp [same, number?, phrase]

end Scalar

namespace Mapping

def get? : Mapping → Scalar → Option Value
  | [], _ => none
  | (k, v) :: m, key => if k.same key then some v else get? m key

def contains (m : Mapping) (key : Scalar) : Bool := (get? m key).isSome

/-- Sets a key: in place when it is present, at the end otherwise. -/
def set : Mapping → Scalar → Value → Mapping
  | [], key, v => [(key, v)]
  | (k, w) :: m, key, v => if k.same key then (k, v) :: m else (k, w) :: set m key v

def erase : Mapping → Scalar → Mapping
  | [], _ => []
  | (k, v) :: m, key => if k.same key then m else (k, v) :: erase m key

def merge (m other : Mapping) : Mapping := other.foldl (fun acc e => set acc e.1 e.2) m

/-- The mapping with these entries: a key that comes again replaces the value. -/
def ofList (entries : List (Scalar × Value)) : Mapping := merge [] entries

/-- The value of a text key, null when it is absent. -/
def field (m : Mapping) (key : String) : Value := (get? m (.text key)).getD .null

/-- The mapping without its null values, which no writer can express. -/
def clean (m : Mapping) : Mapping := m.filter fun e => !e.2.isNull

/-- The mapping without one text key. -/
def without (m : Mapping) (key : String) : Mapping := m.filter fun e => !e.1.same (.text key)

theorem get?_nil (key : Scalar) : get? [] key = none := rfl

theorem get?_cons (k : Scalar) (v : Value) (m : Mapping) (key : Scalar) :
    get? ((k, v) :: m) key = if k.same key then some v else get? m key := rfl

/-- A text key that was set is found. -/
theorem get?_set_same (m : Mapping) (key : String) (v : Value) :
    get? (set m (.text key) v) (.text key) = some v := by
  induction m with
  | nil => simp [set, get?]
  | cons e m ih =>
    obtain ⟨k, w⟩ := e
    by_cases h : k.same (.text key) = true
    · simp [set, get?, h]
    · simp [set, get?, h, ih]

/-- Setting a text key leaves every other text key as it is. -/
theorem get?_set_of_ne (m : Mapping) (key other : String) (v : Value) (hne : other ≠ key) :
    get? (set m (.text key) v) (.text other) = get? m (.text other) := by
  induction m with
  | nil => simp [set, get?, Ne.symm hne]
  | cons e m ih =>
    obtain ⟨k, w⟩ := e
    by_cases h : k.same (.text key) = true
    · have hk := (Scalar.same_text_iff key k).1 h
      subst hk
      simp [set, get?, Ne.symm hne]
    · simp [set, get?, h, ih]

end Mapping

end AgentRelay
