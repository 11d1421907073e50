import AgentRelay.Proofs.Value.Closed
import AgentRelay.Proofs.Yaml.Value
import AgentRelay.Settings.Merge

/-
  Settings laid over settings, section by section.

  What stands under a name after one mapping was laid over another is known from what
  stands there in the two (`standing_laid`): it is what the upper one has, unless that has
  nothing there, or both have mappings, which then come together. So the entries of the
  lower mapping are lost as soon as one layer has something else in their place, whatever
  the layers over it have.
-/

namespace AgentRelay.Settings

/-! ## Keys -/

theorem keys_entries? {o : Origin} {m n : Mapping} (h : (Value.map o m).entries? = some n) :
    n.map (·.1) = m.map (·.1) := by
  obtain rfl := Option.some.inj h
  split
  · exact Yaml.keys_fillEntries _ _ _
  · rfl

/-- What a value becomes in settings that are spread out. -/
def spreadValue (n : Nat) : Value → Value
  | .map o m => .map o (spread n (((Value.map o m).entries?).getD []))
  | v => v

theorem spread_succ (n : Nat) (m : Mapping) :
    spread (n + 1) m = m.map fun e => (e.1, spreadValue n e.2) := by
  rw [spread]
  refine List.map_congr_left fun e _ => ?_
  cases h : e.2 <;> rfl

theorem keys_spread (n : Nat) (m : Mapping) : (spread n m).map (·.1) = m.map (·.1) := by
  cases n with
  | zero => rw [spread]
  | succ n =>
    rw [spread_succ, List.map_map]
    rfl

/-! ## What stands under a name -/

/-- What stands under a name, as far as a key is concerned. -/
inductive Standing where
  | nothing : Standing
  /-- A value that is no mapping. -/
  | other : Standing
  /-- A pointer out of the mapping. -/
  | pointer : Standing
  /-- A mapping, with or without the key. -/
  | mapping (has : Bool) : Standing
  deriving DecidableEq, Repr

namespace Standing

def ofValue (key : String) : Value → Standing
  | .map _ m => .mapping (Mapping.contains m (.text key))
  | .loop _ _ => .pointer
  | _ => .other

/-- What stands there after both layers. -/
def laid (lower upper : Standing) : Standing :=
  match lower, upper with
  | lower, .nothing => lower
  | .mapping a, .mapping b => .mapping (a || b)
  | _, upper => upper

end Standing

def standing (m : Mapping) (name key : String) : Standing :=
  match Mapping.get? m (.text name) with
  | none => .nothing
  | some v => .ofValue key v

/-! ## Layers over layers -/

section
variable {lower upper m : Mapping} (name key : String)

/-- A mapping with the settings of another one over it; no settings change nothing. -/
def laid? (lower upper : Mapping) : Option Mapping :=
  if upper.isEmpty then some lower else layered? lower upper

theorem contains_of_keys {m n : Mapping} (h : m.map (·.1) = n.map (·.1)) (k : Scalar) :
    Mapping.contains m k = Mapping.contains n k := by
  have hany : ∀ m : Mapping, Mapping.contains m k = (m.map (·.1)).any fun j => j.same k := by
    intro m
    induction m with
    | nil => rfl
    | cons e m ih =>
      rw [List.map_cons, List.any_cons, ← ih, Mapping.contains, Mapping.get?]
      cases e.1.same k <;> simp [Mapping.contains]
  rw [hany, hany, h]

theorem standing_spread (n : Nat) (m : Mapping) :
    standing (spread n m) name key = standing m name key := by
  cases n with
  | zero => rw [spread]
  | succ n =>
    rw [spread_succ, standing, Mapping.get?_map_value, standing]
    cases Mapping.get? m (.text name) with
    | none => rfl
    | some v =>
      cases v with
      | map o x =>
        exact congrArg Standing.mapping (contains_of_keys
          ((keys_spread n _).trans (keys_entries? rfl)) _)
      | _ => rfl

/-- What is found after one mapping was laid over another. -/
theorem get?_layered (hd : upper.Distinct) (k : Scalar) :
    Mapping.get? (layered lower upper) k =
      match Mapping.get? upper k with
      | some v => some (layeredValue (Mapping.get? lower k) v)
      | none => Mapping.get? lower k := by
  induction upper generalizing lower with
  | nil => rw [layered]; rfl
  | cons e upper ih =>
    obtain ⟨j, v⟩ := e
    obtain ⟨hfirst, hrest⟩ := Mapping.Distinct.cons_iff.mp hd
    rw [layered, ih hrest, Mapping.get?_cons, Mapping.get?_set]
    by_cases hj : j.same k = true
    · have hnone : Mapping.get? upper k = none := by
        refine Mapping.get?_eq_none_iff.mpr fun f hf => ?_
        rw [Scalar.same_comm, ← Scalar.same_congr hj]
        exact hfirst f hf
      rw [if_pos hj, if_pos hj, hnone, Mapping.get?_congr hj]
    · rw [if_neg hj, if_neg hj]

theorem contains_cons (k : Scalar) (v : Value) (m : Mapping) (j : Scalar) :
    Mapping.contains ((k, v) :: m) j = (k.same j || Mapping.contains m j) := by
  rw [Mapping.contains, Mapping.get?]
  cases k.same j <;> simp [Mapping.contains]

theorem contains_set (m : Mapping) (k : Scalar) (v : Value) :
    Mapping.contains (Mapping.set m k v) (.text key) =
      (k.same (.text key) || Mapping.contains m (.text key)) := by
  rw [Mapping.contains, Mapping.get?_set]
  cases k.same (.text key) <;> rfl

theorem contains_layered (lower upper : Mapping) :
    Mapping.contains (layered lower upper) (.text key) =
      (Mapping.contains lower (.text key) || Mapping.contains upper (.text key)) := by
  induction upper generalizing lower with
  | nil => rw [layered]; exact (Bool.or_false _).symm
  | cons e upper ih =>
    rw [layered, ih, contains_set, contains_cons]
    cases e.1.same (.text key) <;> simp

/-- Unless two mappings come together, the upper value counts. -/
theorem layeredValue_of_not_map {l : Option Value} {v : Value}
    (h : ∀ o m p n, l = some (.map o m) → v ≠ .map p n) : layeredValue l v = v := by
  rw [layeredValue.eq_def]
  split
  · rename_i o m p n
    exact absurd rfl (h o m p n rfl)
  · rfl

theorem ofValue_layeredValue (u v : Value) :
    Standing.ofValue key (layeredValue (some u) v) =
      (Standing.ofValue key u).laid (Standing.ofValue key v) := by
  by_cases hboth : ∃ o m p n, u = .map o m ∧ v = .map p n
  · obtain ⟨o, m, p, n, rfl, rfl⟩ := hboth
    rw [layeredValue]
    exact congrArg Standing.mapping (contains_layered key m n)
  · rw [layeredValue_of_not_map fun o m p n hu hv =>
      hboth ⟨o, m, p, n, Option.some.inj hu, hv⟩]
    cases v with
    | map p n =>
      cases u with
      | map o m => exact absurd ⟨o, m, p, n, rfl, rfl⟩ hboth
      | _ => rfl
    | _ => cases u <;> rfl

theorem standing_layered (hd : upper.Distinct) :
    standing (layered lower upper) name key =
      (standing lower name key).laid (standing upper name key) := by
  rw [standing, get?_layered hd, standing, standing]
  cases Mapping.get? upper (.text name) with
  | none => cases Mapping.get? lower (.text name) <;> rfl
  | some v =>
    cases Mapping.get? lower (.text name) with
    | none =>
      have halone : layeredValue none v = v := layeredValue_of_not_map fun _ _ _ _ => nofun
      dsimp only
      rw [halone]
      cases v <;> rfl
    | some u => exact ofValue_layeredValue key u v

/-- What stands under a name after a layer is known from what stands there in the two. -/
theorem standing_laid (hd : upper.Distinct) (h : laid? lower upper = some m) :
    standing m name key = (standing lower name key).laid (standing upper name key) := by
  unfold laid? at h
  split at h
  · rename_i hempty
    rw [List.isEmpty_iff.mp hempty, ← Option.some.inj h]
    cases standing lower name key <;> rfl
  · unfold layered? at h
    dsimp only at h
    split at h
    · cases h
    · obtain rfl := Option.some.inj h
      have hspread : Mapping.Distinct (spread (depth lower + depth upper + 1) upper) := by
        rw [Mapping.distinct_iff_keys, keys_spread]
        exact Mapping.distinct_iff_keys.mp hd
      rw [standing_layered name key hspread, standing_spread, standing_spread]

end

end AgentRelay.Settings
