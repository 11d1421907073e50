import Mathlib.Data.List.Perm.Basic
import AgentRelay.Value.SetOrder

/-
  A set has each of its members once, in whatever order.

  A table always has a free place, because it grows before it is full: `Roomy`
  is what holds between two members. So a member that is put into it pushes no
  other one out, and a set made of keys, and a copy of a set, is the list of its
  members in another order (`ofKeys_perm`, `copied_perm`).
-/

namespace AgentRelay

namespace SetOrder

variable {t : Table} {m : Member}

theorem members_set {i : Nat} (h : isFree t i = true) :
    (members (t.set i (some m))).Perm (m :: members t) := by
  induction t generalizing i with
  | nil => cases h
  | cons x t ih =>
    cases i with
    | zero =>
      cases x with
      | none => exact .refl _
      | some y => cases h
    | succ i =>
      cases x with
      | none => exact ih h
      | some y => exact ((ih h).cons y).trans (.swap m y _)

theorem isFree_of_placeFrom? {rounds rest i j : Nat} (h : placeFrom? t rounds rest i = some j) :
    isFree t j = true := by
  induction rounds generalizing rest i with
  | zero =>
    obtain ⟨hlt, hfree, -⟩ := List.findIdx?_eq_some_iff_getElem.mp h
    rw [isFree, List.getElem?_eq_getElem hlt]
    exact hfree
  | succ rounds ih =>
    rw [placeFrom?] at h
    split at h
    · rename_i hfound
      obtain rfl := Option.some.inj h
      exact List.find?_some hfound
    · exact ih h

theorem exists_placeFrom? (h : none ∈ t) (rounds rest i : Nat) :
    ∃ j, placeFrom? t rounds rest i = some j := by
  induction rounds generalizing rest i with
  | zero =>
    refine Option.isSome_iff_exists.mp ?_
    rw [placeFrom?, List.findIdx?_isSome, List.any_eq_true]
    exact ⟨none, h, rfl⟩
  | succ rounds ih =>
    rw [placeFrom?]
    split
    · exact ⟨_, rfl⟩
    · exact ih _ _

theorem none_mem_of_lt (h : (members t).length < t.length) : none ∈ t := by
  by_contra hfull
  have hall : ∀ x ∈ t, (id x : Option Member).isSome := by
    intro x hx
    cases x with
    | none => exact absurd hx hfull
    | some y => rfl
  rw [members, List.filterMap_length_eq_length.mpr hall] at h
  exact absurd h (Nat.lt_irrefl _)

theorem length_place (t : Table) (m : Member) : (place t m).length = t.length := by
  unfold place
  split
  · exact List.length_set
  · rfl

theorem members_place (h : (members t).length < t.length) :
    (members (place t m)).Perm (m :: members t) := by
  obtain ⟨i, hi⟩ := exists_placeFrom? (none_mem_of_lt h) (t.length + 13) m.hash (m.hash % t.length)
  have hplace : place t m = t.set i (some m) := by rw [place, hi]
  rw [hplace]
  exact members_set (isFree_of_placeFrom? hi)

theorem foldl_place (ms : List Member) (h : ms.length + (members t).length ≤ t.length) :
    (ms.foldl place t).length = t.length ∧
      (members (ms.foldl place t)).Perm (ms ++ members t) := by
  induction ms generalizing t with
  | nil => exact ⟨rfl, .refl _⟩
  | cons m ms ih =>
    rw [List.length_cons] at h
    have hput := members_place (m := m) (t := t) (by omega)
    have hlength : (members (place t m)).length = (members t).length + 1 := hput.length_eq
    obtain ⟨hsize, hperm⟩ := ih (t := place t m) (by rw [hlength, length_place]; omega)
    refine ⟨hsize.trans (length_place t m), hperm.trans ?_⟩
    exact (hput.append_left ms).trans List.perm_middle

theorem members_unused (size : Nat) : members (unused size) = [] := by
  induction size with
  | zero => rfl
  | succ size ih => exact ih

theorem lt_sizeAbove (n : Nat) : n < sizeAbove n := by
  have h : n < 2 ^ (n.log2 + 1) := Nat.lt_log2_self
  exact Nat.lt_of_lt_of_le h (Nat.le_max_right _ _)

theorem resized_perm {n : Nat} (h : (members t).length ≤ n) :
    (resized t n).length = sizeAbove n ∧ (members (resized t n)).Perm (members t) := by
  have hsize : (unused (sizeAbove n)).length = sizeAbove n := List.length_replicate
  obtain ⟨hlength, hperm⟩ := foldl_place (t := unused (sizeAbove n)) (members t) (by
    rw [members_unused, hsize, List.length_nil]
    exact Nat.le_trans h (Nat.le_of_lt (lt_sizeAbove n)))
  rw [members_unused, List.append_nil] at hperm
  exact ⟨hlength.trans hsize, hperm⟩

/-- Less than three fifths of the places are taken. -/
def Roomy (t : Table) : Prop := (members t).length * 5 < (t.length - 1) * 3

theorem Roomy.add (h : Roomy t) (m : Member) :
    Roomy (add t m) ∧ (members (SetOrder.add t m)).Perm (m :: members t) := by
  unfold Roomy at h
  have hput := members_place (m := m) (t := t) (by omega)
  have hlength : (members (place t m)).length = (members t).length + 1 := hput.length_eq
  unfold SetOrder.add
  dsimp only
  split
  · rename_i hroomy
    exact ⟨hroomy, hput⟩
  · -- The new table has more than twice as many places as members.
    generalize hn : (if (members (place t m)).length > 50000 then (members (place t m)).length * 2
      else (members (place t m)).length * 4) = n
    have htwice : (members (place t m)).length * 2 ≤ n := by split at hn <;> omega
    obtain ⟨hsize, hperm⟩ := resized_perm (t := place t m) (n := n) (by omega)
    have habove := lt_sizeAbove n
    refine ⟨?_, hperm.trans hput⟩
    rw [Roomy, hperm.length_eq, hsize]
    omega

theorem Roomy.foldl_add (h : Roomy t) (ms : List Member) :
    (members (ms.foldl SetOrder.add t)).Perm (ms ++ members t) := by
  induction ms generalizing t with
  | nil => exact .refl _
  | cons m ms ih =>
    obtain ⟨hroomy, hperm⟩ := h.add m
    exact (ih hroomy).trans ((hperm.append_left ms).trans List.perm_middle)

theorem key_of_member? {ks : List Scalar} {ms : List Member} (h : ks.mapM member? = some ms) :
    ms.map (·.key) = ks := by
  induction ks generalizing ms with
  | nil =>
    obtain rfl := Option.some.inj h
    rfl
  | cons k ks ih =>
    rw [List.mapM_cons] at h
    obtain ⟨m, hm, h⟩ := Option.bind_eq_some_iff.mp h
    obtain ⟨rest, hrest, h⟩ := Option.bind_eq_some_iff.mp h
    obtain rfl := Option.some.inj h
    obtain ⟨x, -, rfl⟩ := Option.map_eq_some_iff.mp hm
    rw [List.map_cons, ih hrest]

theorem inTable_perm (h : Roomy t) (hnew : members t = []) (ks : List Scalar) :
    (inTable t ks).Perm ks := by
  unfold inTable
  split
  · rename_i ms hms
    have hperm := (h.foldl_add ms).map (·.key)
    rwa [hnew, List.append_nil, key_of_member? hms] at hperm
  · exact .refl _

theorem inTableFor_perm (n : Nat) (ks : List Scalar) : (inTable (tableFor n) ks).Perm ks := by
  refine inTable_perm (t := tableFor n) ?_ (members_unused _) ks
  have hsize : 8 ≤ (tableFor n).length := by
    rw [tableFor, unused, List.length_replicate]
    split
    · exact Nat.le_refl 8
    · exact Nat.le_max_left _ _
  have hnone : (members (tableFor n)).length = 0 := congrArg List.length (members_unused _)
  unfold Roomy
  omega

/-- A set made of the keys of a mapping has these keys as its members. -/
theorem ofKeys_perm (ks : List Scalar) : (ofKeys ks).Perm ks := inTableFor_perm _ _

/-- A copy of a set has the members of the set. -/
theorem copied_perm (ks : List Scalar) : (copied ks).Perm ks := inTableFor_perm _ _

/-- They need not stand in the same order, and neither need the members of a copy of what is
read from the copy. -/
example : ofKeys [.int 30, .int 15, .int 46] = [.int 46, .int 30, .int 15] ∧
    copied [.int 46, .int 30, .int 15] = [.int 15, .int 46, .int 30] := by decide +kernel

/-- The members are in the same order in every run. -/
def isSteady (ks : List Scalar) : Bool := ks.length ≤ 1 || ks.all fun k => (hash? k).isSome

end SetOrder

namespace Value

mutual

/-- Every set in the value has its members in the same order in every run. -/
def steady : Value → Bool
  | .scalar _ => true
  | .seq _ xs => steadyAll xs
  | .tuple _ xs => steadyAll xs
  | .set _ ks => SetOrder.isSteady ks
  | .map _ m => steadyEntries m
  | .loop _ _ => true

def steadyAll : List Value → Bool
  | [] => true
  | x :: xs => x.steady && steadyAll xs

def steadyEntries : List (Scalar × Value) → Bool
  | [] => true
  | (_, x) :: m => x.steady && steadyEntries m

end

end Value

end AgentRelay
