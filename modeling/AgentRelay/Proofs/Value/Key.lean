import AgentRelay.Proofs.Number.Binary64
import AgentRelay.Value.Mapping

/-
  What keys are compared by.

  Two keys are the same exactly when they are compared by the same thing (`same_iff`):
  truth values and numbers by their size, moments by what they name, and so on. So being
  the same key is an equivalence (`same_refl`, `same_comm`, `same_congr`).
-/

namespace AgentRelay

open Number (Binary64)
open Number.Binary64 (oneUnits)

/-- What a key is compared by. -/
inductive Scalar.Key where
  | null : Scalar.Key
  /-- A number, in units of the smallest one. -/
  | number : Int → Scalar.Key
  /-- Infinity, or a number that is none. -/
  | special : UInt64 → Scalar.Key
  | text : String → Scalar.Key
  | torn : Torn → Scalar.Key
  | bytes : List UInt8 → Scalar.Key
  | date : Date → Scalar.Key
  | time : TimeOfDay → Scalar.Key
  /-- A moment without an offset, by what the clock shows. -/
  | clock : Date → TimeOfDay → Scalar.Key
  | instant : Int → Scalar.Key

namespace Scalar

def key : Scalar → Key
  | .null => .null
  | .bool b => .number ((if b then 1 else 0) * oneUnits)
  | .int i => .number (i * oneUnits)
  | .real x => if x.IsFinite then .number x.units else .special x.bits
  | .text s => .text s
  | .torn t => .torn t
  | .bytes bs => .bytes bs
  | .date _ d => .date d
  | .time t => .time t
  | .moment _ m =>
    match m.offset with
    | none => .clock m.date m.time
    | some offset => .instant (m.instant offset)

theorem number_inj {i j : Int} : Key.number (i * oneUnits) = .number (j * oneUnits) ↔ i = j := by
  have hpos : (oneUnits : Int) ≠ 0 := Int.natCast_ne_zero.mpr (Nat.ne_of_gt (Number.twoTo_pos _))
  rw [Key.number.injEq, Int.mul_eq_mul_right_iff hpos]

theorem number_ne_special (i : Int) (b : UInt64) : Key.number i ≠ .special b := nofun

theorem real_same_real (x y : Binary64) :
    (Scalar.real x).same (.real y) = true ↔ (Scalar.real x).key = (Scalar.real y).key := by
  have hbits : x.bits = y.bits → x = y := fun h => by
    cases x
    cases y
    exact congrArg Binary64.mk h
  rw [same, Binary64.same_iff, key, key]
  by_cases hx : x.IsFinite <;> by_cases hy : y.IsFinite <;> simp only [hx, hy, if_true, if_false]
  · rw [Key.number.injEq]
    refine ⟨?_, fun h => Or.inr ⟨trivial, trivial, h⟩⟩
    rintro (h | ⟨-, -, h⟩)
    · rw [hbits h]
    · exact h
  · refine iff_of_false (fun h => ?_) (number_ne_special _ _)
    rcases h with h | h
    · exact hy (hbits h ▸ hx)
    · exact h.2.1
  · refine iff_of_false (fun h => ?_) (number_ne_special _ _).symm
    rcases h with h | h
    · exact hx (hbits h ▸ hy)
    · exact h.1
  · simp

theorem real_same_int {x : Binary64} {i : Int} :
    x.equalsInt i = true ↔ (Scalar.real x).key = .number (i * oneUnits) := by
  rw [Binary64.equalsInt_iff, key]
  by_cases hx : x.IsFinite
  · rw [if_pos hx, Key.number.injEq]
    exact and_iff_right hx
  · rw [if_neg hx]
    exact iff_of_false (fun h => hx h.1) (number_ne_special _ _).symm

theorem moment_same {o p : Origin} {m n : Moment} :
    (Scalar.moment o m).same (.moment p n) = true ↔
      (Scalar.moment o m).key = (Scalar.moment p n).key := by
  rw [same, Moment.same, key, key]
  cases m.offset <;> cases n.offset <;> simp

/-- The kinds of keys that are never the same. -/
def Key.kind : Key → Nat
  | .null => 0
  | .number _ => 1
  | .special _ => 1
  | .text _ => 2
  | .torn _ => 3
  | .bytes _ => 4
  | .date _ => 5
  | .time _ => 6
  | .clock _ _ => 7
  | .instant _ => 7

def kind : Scalar → Nat
  | .null => 0
  | .bool _ => 1
  | .int _ => 1
  | .real _ => 1
  | .text _ => 2
  | .torn _ => 3
  | .bytes _ => 4
  | .date _ _ => 5
  | .time _ => 6
  | .moment _ _ => 7

theorem kind_key (a : Scalar) : a.key.kind = a.kind := by
  cases a with
  | real x => rw [key]; split <;> rfl
  | moment o m => rw [key]; split <;> rfl
  | _ => rfl

/-- Two keys are the same when they are compared by the same thing. -/
theorem same_iff (a b : Scalar) : a.same b = true ↔ a.key = b.key := by
  cases a <;> cases b
  case null.null => exact iff_of_true rfl rfl
  case bool.bool | bool.int | int.bool | int.int => rw [key, key, number_inj]; simp [same, number?]
  case real.real x y => exact real_same_real x y
  case real.bool | real.int => exact real_same_int
  case bool.real | int.real => exact real_same_int.trans eq_comm
  case moment.moment => exact moment_same
  case text.text | torn.torn | bytes.bytes | date.date | time.time => simp [same, key]
  all_goals
    refine iff_of_false (by simp [same, number?]) fun h => ?_
    have hkind := congrArg Key.kind h
    rw [kind_key, kind_key] at hkind
    cases hkind

theorem same_refl (a : Scalar) : a.same a = true := (same_iff a a).mpr rfl

/-- Keys that are the same are compared alike. -/
theorem same_congr {a b : Scalar} (h : a.same b = true) (c : Scalar) : a.same c = b.same c := by
  rw [Bool.eq_iff_iff, same_iff, same_iff, (same_iff a b).mp h]

theorem same_comm (a b : Scalar) : a.same b = b.same a := by
  rw [Bool.eq_iff_iff, same_iff, same_iff, eq_comm]

end Scalar

end AgentRelay
