import AgentRelay.Body.Segment
import AgentRelay.Value.Display

/-
  The position of an argument, given as a value.
-/

namespace AgentRelay.Body

/-- The position a value names: a whole number from 1 to 9. -/
def position? : Value → Option Nat
  | .int i => if 1 ≤ i ∧ i ≤ 9 then some i.toNat else none
  | _ => none

/-- The text of the complaint about any other value, `none` for one that is too
large to have a text. -/
def positionComplaint? (v : Value) : Option String :=
  v.literal?.map fun cs => "Positional argument index must be in 1..9, got " ++ String.ofList cs

end AgentRelay.Body
