import AgentRelay.Files.Tree

/-
  Trees of files as they come about: every place is listed once, under names
  that can be told apart, and lies in a folder (`Sound`).

  In a sound tree a place is found exactly when it is listed (`get?_eq_some_iff`),
  and everything above it is a folder (`folder_above`). Putting a file or a
  folder into a folder keeps a tree sound (`Sound.put`), and so does removing a
  place with all below it (`Sound.remove`).
-/

namespace AgentRelay.Files

/-- The name of a place within its folder. -/
def ValidName (n : String) : Prop := n ≠ "" ∧ n ≠ "." ∧ n ≠ ".." ∧ '/' ∉ n.toList

instance (n : String) : Decidable (ValidName n) := inferInstanceAs (Decidable (_ ∧ _))

namespace Tree

/-- Every place is listed once and lies in a folder. -/
structure Sound (t : Tree) : Prop where
  distinct : (t.map Prod.fst).Nodup
  rooted : ∀ x ∈ t, x.1 ≠ []
  names : ∀ x ∈ t, ∀ n ∈ x.1, ValidName n
  nested : ∀ x ∈ t, t.get? x.1.dropLast = some .folder

theorem isWithin_iff {outer p : Place} : isWithin outer p = true ↔ outer <+: p := by
  rw [isWithin, beq_iff_eq, List.prefix_iff_eq_take]
  exact eq_comm

/-! ## Look-ups -/

theorem mem_of_lookup {t : Tree} {p : Place} {e : Entry} (h : t.lookup p = some e) :
    (p, e) ∈ t := by
  induction t with
  | nil => exact nomatch h
  | cons x t ih =>
    obtain ⟨k, v⟩ := x
    rw [List.lookup_cons] at h
    split at h
    · rename_i hk
      obtain rfl : p = k := by simpa using hk
      obtain rfl := Option.some.inj h
      exact List.mem_cons_self
    · exact List.mem_cons_of_mem _ (ih h)

theorem lookup_of_mem {t : Tree} (hd : (t.map Prod.fst).Nodup) {p : Place} {e : Entry}
    (h : (p, e) ∈ t) : t.lookup p = some e := by
  induction t with
  | nil => exact absurd h List.not_mem_nil
  | cons x t ih =>
    obtain ⟨k, v⟩ := x
    rw [List.map_cons, List.nodup_cons] at hd
    rw [List.lookup_cons]
    rcases List.mem_cons.mp h with heq | hmem
    · obtain ⟨rfl, rfl⟩ := Prod.mk.inj heq
      simp
    · have hne : (p == k) = false := by
        refine beq_eq_false_iff_ne.mpr fun hpk => hd.1 ?_
        exact List.mem_map.mpr ⟨(p, e), hmem, hpk⟩
      rw [hne]
      exact ih hd.2 hmem

namespace Sound

variable {t : Tree}

/-- A place is found exactly when it is listed. -/
theorem get?_eq_some_iff (h : t.Sound) {p : Place} (hp : p ≠ []) {e : Entry} :
    t.get? p = some e ↔ (p, e) ∈ t := by
  rw [get?, if_neg hp]
  exact ⟨mem_of_lookup, lookup_of_mem h.distinct⟩

theorem get?_ne_none_iff (h : t.Sound) {p : Place} (hp : p ≠ []) :
    t.get? p ≠ none ↔ p ∈ t.map Prod.fst := by
  rw [Option.ne_none_iff_exists', List.mem_map]
  constructor
  · rintro ⟨e, he⟩
    exact ⟨(p, e), (h.get?_eq_some_iff hp).mp he, rfl⟩
  · rintro ⟨⟨q, e⟩, he, rfl⟩
    exact ⟨e, (h.get?_eq_some_iff hp).mpr he⟩

theorem names_of_get? (h : t.Sound) {p : Place} {e : Entry} (hp : t.get? p = some e) :
    ∀ n ∈ p, ValidName n := by
  by_cases hnil : p = []
  · simp [hnil]
  · exact h.names _ ((h.get?_eq_some_iff hnil).mp hp)

/-- What lies above a place that is there is a folder. -/
theorem parent (h : t.Sound) {p : Place} {e : Entry} (hp : p ≠ []) (he : t.get? p = some e) :
    t.get? p.dropLast = some .folder :=
  h.nested _ ((h.get?_eq_some_iff hp).mp he)

theorem folder_above (h : t.Sound) {p q : Place} {e : Entry} (he : t.get? q = some e)
    (hpq : p <+: q) (hne : p ≠ q) : t.get? p = some .folder := by
  obtain ⟨r, rfl⟩ := hpq
  -- By induction on how far below `p` the other place lies: its parent is there too.
  induction hlen : r.length generalizing r e with
  | zero =>
    rw [List.length_eq_zero_iff.mp hlen, List.append_nil] at hne
    exact absurd rfl hne
  | succ n ih =>
    have hr : r ≠ [] := fun hnil => by simp [hnil] at hlen
    have hup := h.parent (List.append_ne_nil_of_right_ne_nil p hr) he
    rw [List.dropLast_append_of_ne_nil hr] at hup
    by_cases hdrop : p = p ++ r.dropLast
    · rwa [← hdrop] at hup
    · exact ih _ hup hdrop (by rw [List.length_dropLast, hlen]; rfl)

/-- Nothing lies below a file. -/
theorem nothing_below_file (h : t.Sound) {p q : Place} {b : ByteArray}
    (hp : t.get? p = some (.file b)) (hpq : p <+: q) (hne : p ≠ q) : t.get? q = none := by
  cases hq : t.get? q with
  | none => rfl
  | some e =>
    have hfolder := h.folder_above hq hpq hne
    rw [hp] at hfolder
    exact nomatch hfolder

end Sound

/-! ## Putting and removing -/

theorem get?_put {t : Tree} {p q : Place} (hp : p ≠ []) (e : Entry) :
    (t.put p e).get? q = if q = p then some e else t.get? q := by
  by_cases hq : q = p
  · rw [if_pos hq, hq, get?_put_same t p e hp]
  · rw [if_neg hq, get?_put_of_ne t p q e hq]

theorem lookup_filter (t : Tree) (keep : Place → Bool) (q : Place) :
    List.lookup q (t.filter fun x => keep x.1) = if keep q then List.lookup q t else none := by
  induction t with
  | nil => simp
  | cons x t ih =>
    obtain ⟨k, e⟩ := x
    by_cases hq : q = k
    · subst hq
      by_cases hk : keep q = true
      · simp [hk]
      · simp [hk, ih]
    · have hb : (q == k) = false := by simpa using hq
      by_cases hk : keep k = true
      · simp [hk, List.lookup_cons, hb, ih]
      · simp [hk, List.lookup_cons, hb, ih]

theorem get?_remove {t : Tree} {p q : Place} (hp : p ≠ []) :
    (t.remove p).get? q = if p <+: q then none else t.get? q := by
  by_cases hq : q = []
  · have hno : ¬ p <+: [] := fun h => hp (List.prefix_nil.mp h)
    rw [hq, if_neg hno]
    rfl
  · have hf := lookup_filter t (fun x => !isWithin p x) q
    rw [get?, get?, if_neg hq, if_neg hq, remove, hf]
    by_cases hw : p <+: q
    · rw [if_pos hw, isWithin_iff.mpr hw]
      rfl
    · have hb : isWithin p q = false := Bool.eq_false_iff.mpr fun h => hw (isWithin_iff.mp h)
      rw [if_neg hw, hb]
      rfl

/-- Putting something where no folder is, in a folder. -/
theorem Sound.put {t : Tree} (h : t.Sound) {p : Place} (hp : p ≠ []) (hn : ∀ n ∈ p, ValidName n)
    (hup : t.get? p.dropLast = some .folder) (hthere : t.get? p ≠ some .folder) (e : Entry) :
    (t.put p e).Sound := by
  have hup' : p.dropLast ≠ p := by
    intro heq
    rw [heq] at hup
    exact hthere hup
  constructor
  · rw [Tree.put, List.map_cons, List.nodup_cons]
    constructor
    · intro hmem
      obtain ⟨x, hx, hxp⟩ := List.mem_map.mp hmem
      have := (List.mem_filter.mp hx).2
      simp [hxp] at this
    · exact h.distinct.sublist (List.filter_sublist.map _)
  · intro x hx
    rcases List.mem_cons.mp hx with rfl | hx
    · exact hp
    · exact h.rooted x (List.mem_filter.mp hx).1
  · intro x hx
    rcases List.mem_cons.mp hx with rfl | hx
    · exact hn
    · exact h.names x (List.mem_filter.mp hx).1
  · intro x hx
    rw [get?_put hp]
    rcases List.mem_cons.mp hx with rfl | hx
    · rw [if_neg hup', hup]
    · have hnested := h.nested x (List.mem_filter.mp hx).1
      have hne : x.1.dropLast ≠ p := fun heq => hthere (heq ▸ hnested)
      rw [if_neg hne, hnested]

/-- Removing a place with all below it. -/
theorem Sound.remove {t : Tree} (h : t.Sound) {p : Place} (hp : p ≠ []) : (t.remove p).Sound := by
  have hmem : ∀ x ∈ t.remove p, x ∈ t ∧ ¬ p <+: x.1 := by
    intro x hx
    obtain ⟨hx, hw⟩ := List.mem_filter.mp hx
    refine ⟨hx, fun hpre => ?_⟩
    rw [isWithin_iff.mpr hpre] at hw
    exact nomatch hw
  constructor
  · exact h.distinct.sublist (List.filter_sublist.map _)
  · exact fun x hx => h.rooted x (hmem x hx).1
  · exact fun x hx => h.names x (hmem x hx).1
  · intro x hx
    obtain ⟨hx, hw⟩ := hmem x hx
    have hup : ¬ p <+: x.1.dropLast := fun hpre => hw (hpre.trans (List.dropLast_prefix _))
    rw [get?_remove hp, if_neg hup, h.nested x hx]

/-! ## Listings -/

theorem bytes?_eq_some_iff {t : Tree} {p : Place} {b : ByteArray} :
    t.bytes? p = some b ↔ t.get? p = some (.file b) := by
  unfold bytes?
  cases t.get? p with
  | none => simp
  | some e => cases e <;> simp

theorem bytes?_eq_none_of_get? {t : Tree} {p : Place}
    (h : t.get? p = none ∨ t.get? p = some .folder) : t.bytes? p = none := by
  unfold bytes?
  rcases h with h | h <;> rw [h]

theorem isFolder_iff {t : Tree} {p : Place} : t.isFolder p = true ↔ t.get? p = some .folder := by
  rw [isFolder, beq_iff_eq]

theorem mem_descendants {t : Tree} {p q : Place} :
    q ∈ t.descendants p ↔ q ∈ t.map Prod.fst ∧ p <+: q ∧ p.length < q.length := by
  rw [descendants, List.mem_filter, Bool.and_eq_true, isWithin_iff, decide_eq_true_eq]

theorem mem_children {t : Tree} {p q : Place} :
    q ∈ t.children p ↔ q ∈ t.map Prod.fst ∧ p <+: q ∧ q.length = p.length + 1 := by
  rw [children, List.mem_filter, Bool.and_eq_true, isWithin_iff, beq_iff_eq]

/-- The files below a place, as a listing finds them. -/
theorem Sound.mem_files {t : Tree} (h : t.Sound) {p q : Place} :
    q ∈ (t.descendants p).filter (fun q => (t.bytes? q).isSome) ↔
      p <+: q ∧ p ≠ q ∧ (t.bytes? q).isSome = true := by
  rw [List.mem_filter, mem_descendants]
  constructor
  · rintro ⟨⟨-, hpre, hlen⟩, hb⟩
    exact ⟨hpre, fun heq => by simp [heq] at hlen, hb⟩
  · rintro ⟨hpre, hne, hb⟩
    have hlen : p.length < q.length := by
      rcases Nat.lt_or_ge p.length q.length with hlt | hge
      · exact hlt
      · exact absurd (hpre.eq_of_length_le hge) hne
    have hq : q ≠ [] := fun hnil => by simp [hnil] at hlen
    refine ⟨⟨(h.get?_ne_none_iff hq).mp fun hnone => ?_, hpre, hlen⟩, hb⟩
    rw [bytes?_eq_none_of_get? (Or.inl hnone)] at hb
    exact nomatch hb

end Tree

end AgentRelay.Files
