import AgentRelay.Proofs.Value.Key

/-
  Laws of mappings.

  The view of a mapping is its look-up `get?`, which a key that is set changes under all
  of its spellings and nowhere else (`get?_congr`, `get?_set`); two mappings are equal as
  mappings when they have the same entries in any order (`Alike`). A mapping
  that was built key by key has distinct keys (`Distinct`), and laying such a
  mapping over nothing gives it back (`merge_nil_of_distinct`).
-/

namespace AgentRelay.Mapping

/-- No two entries have the same key. -/
def Distinct (m : Mapping) : Prop := m.Pairwise fun e f => e.1.same f.1 = false

instance : DecidablePred Distinct := fun m => inferInstanceAs (Decidable (m.Pairwise _))

/-- Equal as mappings: the order of the entries does not count. -/
def Alike (m n : Mapping) : Prop := m.Perm n

/-- No key of the mapping is this key. -/
def Lacks (m : Mapping) (key : Scalar) : Prop := ∀ e ∈ m, e.1.same key = false

/-! ## Look-ups -/

theorem get?_append (m n : Mapping) (key : Scalar) :
    get? (m ++ n) key = (get? m key).or (get? n key) := by
  induction m with
  | nil => simp [get?]
  | cons e m ih =>
    by_cases h : e.1.same key = true
    · simp [get?, h]
    · simp [get?, h, ih]

theorem get?_eq_none_iff {m : Mapping} {key : Scalar} : get? m key = none ↔ m.Lacks key := by
  unfold Lacks
  induction m with
  | nil => simp [get?]
  | cons e m ih =>
    by_cases h : e.1.same key = true
    · simp [get?, h]
    · simp [get?, h, ih]

theorem contains_eq_false_iff {m : Mapping} {key : Scalar} :
    contains m key = false ↔ m.Lacks key := by
  rw [contains, ← get?_eq_none_iff, Option.isSome_eq_false_iff, Option.isNone_iff_eq_none]

/-- What is found stands in the mapping, under the same key. -/
theorem mem_of_get? {m : Mapping} {key : Scalar} {v : Value} (h : get? m key = some v) :
    ∃ k, (k, v) ∈ m ∧ k.same key = true := by
  induction m with
  | nil => simp [get?] at h
  | cons e m ih =>
    by_cases hk : e.1.same key = true
    · simp only [get?, hk, if_true, Option.some.injEq] at h
      exact ⟨e.1, by simp [← h], hk⟩
    · simp only [get?, hk] at h
      obtain ⟨k, hm, hs⟩ := ih h
      exact ⟨k, List.mem_cons_of_mem _ hm, hs⟩

theorem field_of_lacks {m : Mapping} {key : String} (h : m.Lacks (.text key)) :
    field m key = .null := by
  rw [field, get?_eq_none_iff.mpr h]; rfl

theorem get?_congr {k j : Scalar} (h : k.same j = true) (m : Mapping) : get? m k = get? m j := by
  induction m with
  | nil => rfl
  | cons e m ih =>
    have hsame : e.1.same k = e.1.same j := by
      rw [Scalar.same_comm, Scalar.same_congr h, Scalar.same_comm]
    rw [get?_cons, get?_cons, hsame, ih]

/-- A key that was set is the only key that changed. -/
theorem get?_set (m : Mapping) (k : Scalar) (v : Value) (j : Scalar) :
    get? (set m k v) j = if k.same j then some v else get? m j := by
  induction m with
  | nil => rfl
  | cons e m ih =>
    obtain ⟨i, w⟩ := e
    rw [set]
    by_cases hi : i.same k = true
    · rw [if_pos hi, get?_cons, get?_cons, Scalar.same_congr hi]
      split <;> rfl
    · rw [if_neg hi, get?_cons, get?_cons, ih]
      by_cases hk : k.same j = true
      · have hij : ¬ i.same j = true := by
          rwa [Scalar.same_comm, ← Scalar.same_congr hk, Scalar.same_comm]
        rw [if_neg hij, if_pos hk, if_pos hk]
      · rw [if_neg hk, if_neg hk]

/-- Setting a key to what it has changes nothing. -/
theorem set_eq_self {m : Mapping} {k : Scalar} {v : Value} (h : get? m k = some v) :
    set m k v = m := by
  induction m with
  | nil => cases h
  | cons e m ih =>
    obtain ⟨i, w⟩ := e
    rw [get?_cons] at h
    rw [set]
    split
    · rename_i hi
      rw [if_pos hi, Option.some.injEq] at h
      rw [h]
    · rename_i hi
      rw [if_neg hi] at h
      rw [ih h]

/-- A text key that was set is the only key that changed. -/
theorem get?_set_text (m : Mapping) (a : String) (v : Value) (key : Scalar) :
    get? (set m (.text a) v) key = if key = .text a then some v else get? m key := by
  simp only [get?_set, Scalar.same_text_iff']

/-- A text key that was taken away is the only key that changed. -/
theorem get?_without (m : Mapping) (a : String) (key : Scalar) :
    get? (m.without a) key = if key = .text a then none else get? m key := by
  induction m with
  | nil => simp [without, get?]
  | cons e m ih =>
    obtain ⟨k, w⟩ := e
    unfold without at ih ⊢
    by_cases h : k.same (.text a) = true
    · obtain rfl := (Scalar.same_text_iff a k).mp h
      by_cases hk : key = .text a
      · subst hk
        simpa using ih
      · simp [get?, Scalar.same_text_iff', hk, ih]
    · by_cases hk : key = .text a
      · subst hk
        simp [get?, h, ih]
      · simp [get?, h, ih, hk]

/-- Without a text key it does not matter what was set under it. -/
theorem without_set (m : Mapping) (a : String) (v : Value) :
    without (set m (.text a) v) a = without m a := by
  induction m with
  | nil => simp [set, without]
  | cons e m ih =>
    obtain ⟨k, w⟩ := e
    unfold without at ih ⊢
    by_cases h : k.same (.text a) = true
    · simp [set, h]
    · simp [set, h, ih]

/-- Values of two text keys can be set in any order. -/
theorem set_set_alike (m : Mapping) {a b : String} (hne : a ≠ b) (v w : Value) :
    Alike (set (set m (.text a) v) (.text b) w) (set (set m (.text b) w) (.text a) v) := by
  have hab : (Scalar.text a).same (.text b) = false := by simpa using hne
  have hba : (Scalar.text b).same (.text a) = false := by simpa using hne.symm
  induction m with
  | nil =>
    simp only [set, hab, hba, Bool.false_eq_true, if_false]
    exact List.Perm.swap _ _ _
  | cons e m ih =>
    obtain ⟨k, x⟩ := e
    by_cases ha : k.same (.text a) = true
    · obtain rfl := (Scalar.same_text_iff a k).mp ha
      simp only [set, ha, hab, Bool.false_eq_true, if_true, if_false]
      exact List.Perm.refl _
    · by_cases hb : k.same (.text b) = true
      · obtain rfl := (Scalar.same_text_iff b k).mp hb
        simp only [set, hb, hba, Bool.false_eq_true, if_true, if_false]
        exact List.Perm.refl _
      · simp only [set, ha, hb, Bool.false_eq_true, if_false]
        exact ih.cons _

theorem without_append (m n : Mapping) (key : String) :
    without (m ++ n) key = without m key ++ without n key :=
  List.filter_append m n

/-- Entries of other keys that are taken away do not count. -/
theorem get?_filter {m : Mapping} {key : Scalar} {p : Scalar × Value → Bool}
    (h : ∀ e ∈ m, e.1.same key = true → p e = true) : get? (m.filter p) key = get? m key := by
  induction m with
  | nil => rfl
  | cons e m ih =>
    have hm : get? (m.filter p) key = get? m key :=
      ih fun f hf => h f (List.mem_cons_of_mem _ hf)
    by_cases hk : e.1.same key = true
    · simp [get?, h e (by simp) hk, hk]
    · cases hp : p e <;> simp [get?, hp, hk, hm]

theorem get?_map_value (f : Value → Value) (m : Mapping) (key : Scalar) :
    get? (m.map fun e => (e.1, f e.2)) key = (get? m key).map f := by
  induction m with
  | nil => rfl
  | cons e m ih =>
    by_cases h : e.1.same key = true
    · simp [get?, h]
    · simp [get?, h, ih]

/-! ## Distinct keys -/

theorem Distinct.cons_iff {e : Scalar × Value} {m : Mapping} :
    Distinct (e :: m) ↔ (∀ f ∈ m, e.1.same f.1 = false) ∧ Distinct m :=
  List.pairwise_cons

/-- The values do not count. -/
theorem distinct_iff_keys {m : Mapping} :
    m.Distinct ↔ (m.map (·.1)).Pairwise fun a b => a.same b = false := by
  rw [List.pairwise_map]
  rfl

theorem Distinct.filter {m : Mapping} (h : m.Distinct) (p : Scalar × Value → Bool) :
    Distinct (m.filter p) :=
  List.Pairwise.filter p h

theorem Distinct.clean {m : Mapping} (h : m.Distinct) : m.clean.Distinct := h.filter _

/-- A key of a mapping with distinct keys is found. -/
theorem get?_of_entry {m : Mapping} (h : m.Distinct) {e : Scalar × Value} (he : e ∈ m) :
    get? m e.1 = some e.2 := by
  induction m with
  | nil => exact absurd he List.not_mem_nil
  | cons f m ih =>
    obtain ⟨hf, hm⟩ := Distinct.cons_iff.mp h
    rcases List.mem_cons.mp he with rfl | he
    · rw [get?_cons, if_pos (Scalar.same_refl _)]
    · rw [get?_cons, if_neg (by simp [hf e he]), ih hm he]

/-- A text key of a mapping with distinct keys is found. -/
theorem get?_of_mem {m : Mapping} (h : m.Distinct) {e : Scalar × Value} {a : String} (he : e ∈ m)
    (ha : e.1 = .text a) : get? m (.text a) = some e.2 :=
  ha ▸ get?_of_entry h he

/-- Setting a key brings no other key. -/
theorem key_of_mem_set {m : Mapping} {key : Scalar} {v : Value} {e : Scalar × Value}
    (h : e ∈ set m key v) : e.1 = key ∨ ∃ f ∈ m, e.1 = f.1 := by
  induction m with
  | nil =>
    obtain rfl := List.mem_singleton.mp h
    exact Or.inl rfl
  | cons f m ih =>
    unfold set at h
    split at h
    · rcases List.mem_cons.mp h with rfl | h
      · exact Or.inr ⟨f, by simp, rfl⟩
      · exact Or.inr ⟨e, List.mem_cons_of_mem _ h, rfl⟩
    · rcases List.mem_cons.mp h with rfl | h
      · exact Or.inr ⟨f, by simp, rfl⟩
      · rcases ih h with hk | ⟨g, hg, hk⟩
        · exact Or.inl hk
        · exact Or.inr ⟨g, List.mem_cons_of_mem _ hg, hk⟩

/-- Laying a mapping over another one brings no keys but those of the two. -/
theorem key_of_mem_merge {m n : Mapping} {e : Scalar × Value} (h : e ∈ merge m n) :
    ∃ f ∈ m ++ n, e.1 = f.1 := by
  unfold merge at h
  induction n generalizing m with
  | nil => exact ⟨e, by simpa using h, rfl⟩
  | cons g n ih =>
    obtain ⟨f, hf, hk⟩ := ih h
    rcases List.mem_append.mp hf with hf | hf
    · rcases key_of_mem_set hf with hg | ⟨f', hf', hg⟩
      · exact ⟨g, by simp, hk.trans hg⟩
      · exact ⟨f', List.mem_append_left _ hf', hk.trans hg⟩
    · exact ⟨f, List.mem_append_right _ (List.mem_cons_of_mem _ hf), hk⟩

/-- Setting a key keeps the keys distinct. -/
theorem Distinct.set {m : Mapping} (h : m.Distinct) (key : Scalar) (v : Value) :
    (Mapping.set m key v).Distinct := by
  induction m with
  | nil => simp [Mapping.set, Distinct]
  | cons f m ih =>
    obtain ⟨hf, hm⟩ := Distinct.cons_iff.mp h
    unfold Mapping.set
    split
    · exact Distinct.cons_iff.mpr ⟨hf, hm⟩
    · rename_i hne
      refine Distinct.cons_iff.mpr ⟨fun e he => ?_, ih hm⟩
      rcases key_of_mem_set he with hk | ⟨g, hg, hk⟩
      · rw [hk]; exact Bool.eq_false_iff.mpr hne
      · rw [hk]; exact hf g hg

/-- A key that is not there is set behind all others. -/
theorem set_of_lacks {m : Mapping} {key : Scalar} (h : m.Lacks key) (v : Value) :
    set m key v = m ++ [(key, v)] := by
  induction m with
  | nil => rfl
  | cons e m ih =>
    have he : e.1.same key = false := h e (by simp)
    have hm : Lacks m key := fun f hf => h f (List.mem_cons_of_mem _ hf)
    simp [set, he, ih hm]

/-- Laying a mapping over one that shares no key with it puts it behind. -/
theorem merge_of_distinct {m n : Mapping} (hn : n.Distinct)
    (h : ∀ e ∈ n, m.Lacks e.1) : merge m n = m ++ n := by
  unfold merge
  induction n generalizing m with
  | nil => simp
  | cons e n ih =>
    obtain ⟨he, hn⟩ := Distinct.cons_iff.mp hn
    have hl : ∀ f ∈ n, Lacks (m ++ [e]) f.1 := by
      intro f hf g hg
      rcases List.mem_append.mp hg with hg | hg
      · exact h f (List.mem_cons_of_mem _ hf) g hg
      · obtain rfl := List.mem_singleton.mp hg
        exact he f hf
    rw [List.foldl_cons, set_of_lacks (h e (by simp)), ih hn hl]
    simp

theorem merge_nil_of_distinct {m : Mapping} (h : m.Distinct) : merge [] m = m := by
  rw [merge_of_distinct h (fun _ _ _ hf => absurd hf List.not_mem_nil)]
  rfl

theorem clean_eq_self {m : Mapping} (h : ∀ e ∈ m, e.2.isNull = false) : m.clean = m := by
  refine List.filter_eq_self.mpr fun e he => ?_
  simp [h e he]

theorem set_ne_nil (m : Mapping) (key : Scalar) (v : Value) : set m key v ≠ [] := by
  cases m with
  | nil => exact List.cons_ne_nil _ _
  | cons e m =>
    unfold set
    split <;> exact List.cons_ne_nil _ _

theorem merge_nil_eq_nil_iff {m : Mapping} : merge [] m = [] ↔ m = [] := by
  constructor
  · intro h
    rcases List.eq_nil_or_concat m with rfl | ⟨n, e, rfl⟩
    · rfl
    · rw [List.concat_eq_append, merge, List.foldl_append] at h
      exact absurd h (set_ne_nil _ _ _)
  · rintro rfl; rfl

/-- The entry of a text key, taken out of a mapping with distinct keys. -/
theorem filter_text_of_distinct {m : Mapping} (h : m.Distinct) (a : String) :
    m.filter (fun e => e.1.same (.text a)) =
      match get? m (.text a) with
      | some v => [(.text a, v)]
      | none => [] := by
  induction m with
  | nil => rfl
  | cons e m ih =>
    obtain ⟨k, v⟩ := e
    obtain ⟨hk, hm⟩ := Distinct.cons_iff.mp h
    by_cases hs : k.same (.text a) = true
    · obtain rfl := (Scalar.same_text_iff a k).mp hs
      have hnone : m.filter (fun e => e.1.same (.text a)) = [] := by
        refine List.filter_eq_nil_iff.mpr fun f hf hsf => ?_
        have hne := hk f hf
        rw [(Scalar.same_text_iff a f.1).mp hsf] at hne
        simp at hne
      simp [get?, hnone]
    · simp [get?, hs, ih hm]

end AgentRelay.Mapping
