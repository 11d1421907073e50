import AgentRelay.Value.Mapping

/-
  Settings laid over settings.

  Where both hold a mapping the two are merged, key by key; everywhere else the
  upper layer counts. Layers that hold themselves at the same keys have no end,
  and are not merged.
-/

namespace AgentRelay.Settings

mutual

def layered : Mapping → List (Scalar × Value) → Mapping
  | lower, [] => lower
  | lower, (k, v) :: upper =>
    layered (Mapping.set lower k (layeredValue (Mapping.get? lower k) v)) upper

def layeredValue : Option Value → Value → Value
  | some (.map o lower), .map _ upper => .map o (layered lower upper)
  | _, v => v

end

mutual

def valueDepth : Value → Nat
  | .map _ m => depth m + 1
  | _ => 0

def depth : List (Scalar × Value) → Nat
  | [] => 0
  | (_, v) :: m => max (valueDepth v) (depth m)

end

/-- The mapping with its first `n` levels spread out: no mapping on them is
pointed at from inside. -/
def spread : Nat → Mapping → Mapping
  | 0, m => m
  | n + 1, m => m.map fun e =>
    match e.2 with
    | .map o _ => (e.1, .map o (spread n (e.2.entries?.getD [])))
    | v => (e.1, v)

mutual

/-- Two mappings hold, at one and the same place, mappings that are inside
themselves. -/
def clash (lower : Mapping) : List (Scalar × Value) → Bool
  | [] => false
  | (k, v) :: upper => clashAt (Mapping.get? lower k) v || clash lower upper

/-- Two values hold, at one and the same place, mappings that are inside
themselves. -/
def clashAt : Option Value → Value → Bool
  | some (.map _ lower), .map _ upper => clash lower upper
  | some (.loop .map _), v => v.isMapping
  | some v, .loop .map _ => v.isMapping
  | _, _ => false

end

/-- A mapping of settings with another one laid over it, `none` when that has no
end. -/
def layered? (lower upper : Mapping) : Option Mapping :=
  let levels := depth lower + depth upper + 1
  let lower := spread levels lower
  let upper := spread levels upper
  if clash lower upper then none else some (layered lower upper)

end AgentRelay.Settings
