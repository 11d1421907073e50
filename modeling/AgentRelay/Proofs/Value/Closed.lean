import AgentRelay.Proofs.Mapping

/-
  Closed values.

  A value is sealed from a collection when no loop in it points at that collection around
  it. Such a value has no place for the collection to fill (`fill_of_sealed`), and the
  collection that fills the places for it leaves none (`sealed_fill`).
-/

namespace AgentRelay

mutual

/-- No loop in the value points at a collection `o` around it. -/
def Value.sealedFrom (o : Origin) : Value → Bool
  | .scalar _ => true
  | .seq p xs => p = o || sealedAll o xs
  | .tuple p xs => p = o || sealedAll o xs
  | .set _ _ => true
  | .map p m => p = o || sealedEntries o m
  | .loop _ p => p ≠ o

/-- No loop in the items points at a collection around them. -/
def Value.sealedAll (o : Origin) : List Value → Bool
  | [] => true
  | x :: xs => x.sealedFrom o && sealedAll o xs

/-- No loop in the entries points at a collection around them. -/
def Value.sealedEntries (o : Origin) : List (Scalar × Value) → Bool
  | [] => true
  | (_, x) :: m => x.sealedFrom o && sealedEntries o m

end

/-- The mapping stands alone: every loop in it has its collection around it. -/
def Mapping.Sealed (m : Mapping) : Prop := ∀ o, Value.sealedEntries o m = true

mutual

/-- A closed value has no place to fill. -/
theorem Value.fill_of_sealed (o : Origin) (v : Value) :
    ∀ x : Value, x.sealedFrom o = true → fill o v x = x
  | .scalar _, _ => rfl
  | .seq p xs, h => by
    by_cases hp : p = o
    · simp [fill, hp]
    · simp only [sealedFrom, hp, decide_false, Bool.false_or] at h
      simp [fill, hp, fillAll_of_sealed o v xs h]
  | .tuple p xs, h => by
    by_cases hp : p = o
    · simp [fill, hp]
    · simp only [sealedFrom, hp, decide_false, Bool.false_or] at h
      simp [fill, hp, fillAll_of_sealed o v xs h]
  | .set _ _, _ => rfl
  | .map p m, h => by
    by_cases hp : p = o
    · simp [fill, hp]
    · simp only [sealedFrom, hp, decide_false, Bool.false_or] at h
      simp [fill, hp, fillEntries_of_sealed o v m h]
  | .loop s p, h => by
    have hp : p ≠ o := by simpa [sealedFrom] using h
    simp [fill, hp]

theorem Value.fillAll_of_sealed (o : Origin) (v : Value) :
    ∀ xs : List Value, sealedAll o xs = true → fillAll o v xs = xs
  | [], _ => rfl
  | x :: xs, h => by
    simp only [sealedAll, Bool.and_eq_true] at h
    rw [fillAll, fill_of_sealed o v x h.1, fillAll_of_sealed o v xs h.2]

theorem Value.fillEntries_of_sealed (o : Origin) (v : Value) :
    ∀ m : List (Scalar × Value), sealedEntries o m = true → fillEntries o v m = m
  | [], _ => rfl
  | (k, x) :: m, h => by
    simp only [sealedEntries, Bool.and_eq_true] at h
    rw [fillEntries, fill_of_sealed o v x h.1, fillEntries_of_sealed o v m h.2]

end

theorem Value.sealedEntries_iff {o : Origin} {m : Mapping} :
    sealedEntries o m = true ↔ ∀ e ∈ m, e.2.sealedFrom o = true := by
  induction m with
  | nil => simp [sealedEntries]
  | cons e m ih =>
    obtain ⟨k, x⟩ := e
    simp [sealedEntries, ih]

theorem Mapping.Sealed.filter {m : Mapping} (h : m.Sealed) (p : Scalar × Value → Bool) :
    Sealed (m.filter p) := by
  intro o
  have hm := Value.sealedEntries_iff.mp (h o)
  exact Value.sealedEntries_iff.mpr fun e he => hm e (List.mem_filter.mp he).1

mutual

/-- The collection that fills the places for it leaves none of them, and brings no
places for another collection that were not there. -/
theorem Value.sealed_fill {o p : Origin} {w : Value} (hw : w.sealedFrom o = true) :
    ∀ x : Value, (o = p ∨ x.sealedFrom o = true) → (fill p w x).sealedFrom o = true
  | .scalar _, _ => rfl
  | .seq q xs, h => by
    by_cases hq : q = o
    · simp [fill, sealedFrom, hq]
    · have hxs : o = p ∨ sealedAll o xs = true := by simpa [sealedFrom, hq] using h
      by_cases hp : q = p
      · have hne : o ≠ p := fun he => hq (hp.trans he.symm)
        simp [fill, sealedFrom, hp, hxs.resolve_left hne]
      · simp [fill, sealedFrom, hp, hq, sealed_fillAll hw xs hxs]
  | .tuple q xs, h => by
    by_cases hq : q = o
    · simp [fill, sealedFrom, hq]
    · have hxs : o = p ∨ sealedAll o xs = true := by simpa [sealedFrom, hq] using h
      by_cases hp : q = p
      · have hne : o ≠ p := fun he => hq (hp.trans he.symm)
        simp [fill, sealedFrom, hp, hxs.resolve_left hne]
      · simp [fill, sealedFrom, hp, hq, sealed_fillAll hw xs hxs]
  | .set _ _, _ => rfl
  | .map q m, h => by
    by_cases hq : q = o
    · simp [fill, sealedFrom, hq]
    · have hm : o = p ∨ sealedEntries o m = true := by simpa [sealedFrom, hq] using h
      by_cases hp : q = p
      · have hne : o ≠ p := fun he => hq (hp.trans he.symm)
        simp [fill, sealedFrom, hp, hm.resolve_left hne]
      · simp [fill, sealedFrom, hp, hq, sealed_fillEntries hw m hm]
  | .loop s q, h => by
    by_cases hp : q = p
    · simpa [fill, hp] using hw
    · rcases h with rfl | h
      · simp [fill, hp, sealedFrom]
      · simpa [fill, hp] using h

theorem Value.sealed_fillAll {o p : Origin} {w : Value} (hw : w.sealedFrom o = true) :
    ∀ xs : List Value, (o = p ∨ sealedAll o xs = true) → sealedAll o (fillAll p w xs) = true
  | [], _ => rfl
  | x :: xs, h => by
    simp only [sealedAll, Bool.and_eq_true] at h
    simp [fillAll, sealedAll, sealed_fill hw x (h.imp_right And.left),
      sealed_fillAll hw xs (h.imp_right And.right)]

theorem Value.sealed_fillEntries {o p : Origin} {w : Value} (hw : w.sealedFrom o = true) :
    ∀ m : List (Scalar × Value), (o = p ∨ sealedEntries o m = true) →
      sealedEntries o (fillEntries p w m) = true
  | [], _ => rfl
  | (k, x) :: m, h => by
    simp only [sealedEntries, Bool.and_eq_true] at h
    simp [fillEntries, sealedEntries, sealed_fill hw x (h.imp_right And.left),
      sealed_fillEntries hw m (h.imp_right And.right)]

end

theorem Value.fillEntries_eq_map (o : Origin) (v : Value) (m : Mapping) :
    fillEntries o v m = m.map fun e => (e.1, fill o v e.2) := by
  induction m with
  | nil => rfl
  | cons e m ih =>
    obtain ⟨k, x⟩ := e
    simp [fillEntries, ih]

theorem Mapping.get?_fillEntries (o : Origin) (v : Value) (m : Mapping) (k : Scalar) :
    get? (Value.fillEntries o v m) k = (get? m k).map (Value.fill o v) := by
  rw [Value.fillEntries_eq_map, get?_map_value]

/-- A closed mapping has the entries it is written with. -/
theorem Value.entries?_map_of_sealed {o : Origin} {m : Mapping} (h : m.Sealed) :
    (Value.map o m).entries? = some m := by
  rw [entries?, fillEntries_of_sealed o _ m (h o), ite_self]

end AgentRelay
