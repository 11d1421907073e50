import AgentRelay.Body.Selection

/-
  Which finds are taken.

  A find that is not taken starts inside one that is (`taken_or_held`). So finds
  that lie apart are the taken ones as soon as every other find starts strictly
  inside one of them (`take_eq_of_cover`), or where one of them starts and of a
  later pattern (`take_eq_of_cover_or_behind`, `pairwise_pool`).
-/

namespace AgentRelay.Body

/-- The finds are ordered by where they start. -/
def Ordered (fs : List Found) : Prop := fs.Pairwise fun f g => f.start ≤ g.start

theorem mem_pool {patterns : List Pattern} {body : List Char} {f : Found} :
    f ∈ pool patterns body ↔ ∃ p ∈ patterns, f ∈ p body := by
  simp [pool, List.mem_mergeSort]

theorem starts_trans (a b c : Found) (hab : decide (a.start ≤ b.start) = true)
    (hbc : decide (b.start ≤ c.start) = true) : decide (a.start ≤ c.start) = true := by
  simp only [decide_eq_true_eq] at *
  omega

theorem starts_total (a b : Found) :
    (decide (a.start ≤ b.start) || decide (b.start ≤ a.start)) = true := by
  simp only [Bool.or_eq_true, decide_eq_true_eq]
  omega

theorem ordered_mergeSort (fs : List Found) :
    Ordered (fs.mergeSort fun a b => a.start ≤ b.start) :=
  (List.pairwise_mergeSort starts_trans starts_total fs).imp fun hab => by simpa using hab

/-- Sorting leaves the finds of one place in their order. -/
theorem filter_mergeSort (fs : List Found) (place : Nat) :
    (fs.mergeSort fun a b => a.start ≤ b.start).filter (·.start = place) =
      fs.filter (·.start = place) := by
  have hequal : (fs.filter (·.start = place)).Pairwise fun a b =>
      decide (a.start ≤ b.start) = true := by
    refine List.pairwise_of_forall_mem_list fun a ha b hb => ?_
    have h1 : a.start = place := by simpa using (List.mem_filter.mp ha).2
    have h2 : b.start = place := by simpa using (List.mem_filter.mp hb).2
    simp [h1, h2]
  have hsub : (fs.filter (·.start = place)).Sublist
      ((fs.mergeSort fun a b => a.start ≤ b.start).filter (·.start = place)) := by
    have h := (List.sublist_mergeSort starts_trans starts_total hequal List.filter_sublist).filter
      fun f => decide (f.start = place)
    rwa [List.filter_filter, List.filter_congr fun f _ => Bool.and_self _] at h
  refine (hsub.eq_of_length ?_).symm
  exact ((List.mergeSort_perm fs fun a b => a.start ≤ b.start).filter _).length_eq.symm

theorem ordered_pool (patterns : List Pattern) (body : List Char) :
    Ordered (pool patterns body) := ordered_mergeSort _

/-- Among finds that start at the same place, those in front come first. -/
theorem pairwise_mergeSort_append (front back : List Found) :
    ((front ++ back).mergeSort fun a b => a.start ≤ b.start).Pairwise
      fun f g => f.start = g.start → f ∈ front ∨ g ∈ back := by
  induction front with
  | nil =>
    refine List.pairwise_iff_forall_sublist.mpr fun {f g} h _ => Or.inr ?_
    exact List.mem_mergeSort.mp (h.subset (by simp))
  | cons x front ih =>
    -- The first find goes in front of all that do not start before it.
    obtain ⟨before, behind, heq, hrest, hbefore⟩ :=
      List.mergeSort_cons starts_trans starts_total x (front ++ back)
    rw [hrest] at ih
    obtain ⟨h1, h2, h12⟩ := List.pairwise_append.mp ih
    rw [List.cons_append, heq, List.pairwise_append, List.pairwise_cons]
    have hmore : ∀ {f g : Found}, (f.start = g.start → f ∈ front ∨ g ∈ back) →
        f.start = g.start → f ∈ x :: front ∨ g ∈ back :=
      fun h hstart => (h hstart).imp_left (List.mem_cons_of_mem x)
    refine ⟨h1.imp hmore, ⟨fun g _ _ => Or.inl List.mem_cons_self, h2.imp hmore⟩, ?_⟩
    intro f hf g hg hstart
    rcases List.mem_cons.mp hg with rfl | hg
    · have hlt := hbefore f hf
      simp only [Bool.not_eq_true', decide_eq_false_iff_not] at hlt
      omega
    · exact hmore (h12 f hf g hg) hstart

/-- Of two finds that start at the same place, one of the first patterns comes
before one of the later patterns. -/
theorem pairwise_pool (first later : List Pattern) (body : List Char) :
    (pool (first ++ later) body).Pairwise
      fun f g => f.start = g.start → f ∈ pool first body ∨ g ∈ pool later body := by
  unfold pool
  rw [List.flatMap_append]
  refine (pairwise_mergeSort_append _ _).imp fun h hstart => ?_
  exact (h hstart).imp List.mem_mergeSort.mpr List.mem_mergeSort.mpr

/-- A find starts inside another one, or where that starts. -/
def Found.Holds (g f : Found) : Prop := g.start ≤ f.start ∧ f.start < g.stop

/-- A find that is not taken starts too early, or inside one that is taken. -/
theorem taken_or_held {fs : List Found} (hs : Ordered fs) (last : Nat) {f : Found} (hf : f ∈ fs) :
    f ∈ take last fs ∨ f.start < last ∨ ∃ g ∈ take last fs, g.Holds f := by
  induction fs generalizing last with
  | nil => exact absurd hf List.not_mem_nil
  | cons g fs ih =>
    obtain ⟨hg, hs⟩ := List.pairwise_cons.mp hs
    by_cases hlast : last ≤ g.start
    · simp only [take, hlast, if_true]
      rcases List.mem_cons.mp hf with rfl | hf
      · exact Or.inl (by simp)
      · have hgf := hg f hf
        rcases ih hs g.stop hf with h | h | ⟨x, hx, h⟩
        · exact Or.inl (List.mem_cons_of_mem _ h)
        · exact Or.inr (Or.inr ⟨g, by simp, hgf, h⟩)
        · exact Or.inr (Or.inr ⟨x, List.mem_cons_of_mem _ hx, h⟩)
    · simp only [take, hlast, if_false]
      rcases List.mem_cons.mp hf with rfl | hf
      · exact Or.inr (Or.inl (by omega))
      · exact ih hs last hf

/-- Finds that lie apart start behind the place they start from. -/
theorem Apart.le {last : Nat} {fs : List Found} (h : Apart last fs)
    (hlen : ∀ f ∈ fs, f.start < f.stop) : ∀ f ∈ fs, last ≤ f.start := by
  induction fs generalizing last with
  | nil => exact fun f hf => absurd hf List.not_mem_nil
  | cons g fs ih =>
    intro f hf
    have hg := hlen g (by simp)
    rcases List.mem_cons.mp hf with rfl | hf
    · exact h.1
    · have hrest := ih h.2 (fun f hf => hlen f (List.mem_cons_of_mem _ hf)) f hf
      have hstart := h.1
      omega

/-- Of finds that lie apart, one stops before the next one starts. -/
theorem Apart.stop_le {last : Nat} {fs : List Found} (h : Apart last fs)
    (hlen : ∀ f ∈ fs, f.start < f.stop) {f g : Found} (hf : f ∈ fs) (hg : g ∈ fs)
    (hlt : f.start < g.start) : f.stop ≤ g.start := by
  induction fs generalizing last with
  | nil => exact absurd hf List.not_mem_nil
  | cons x fs ih =>
    have hrest : ∀ y ∈ fs, y.start < y.stop := fun y hy => hlen y (List.mem_cons_of_mem _ hy)
    have hx := hlen x List.mem_cons_self
    rcases List.mem_cons.mp hf with rfl | hf'
    · rcases List.mem_cons.mp hg with rfl | hg'
      · exact absurd hlt (Nat.lt_irrefl _)
      · exact Apart.le h.2 hrest g hg'
    · rcases List.mem_cons.mp hg with rfl | hg'
      · have := Apart.le h.2 hrest f hf'
        omega
      · exact ih h.2 hrest hf' hg'

/-- Finds that lie apart are the ones that are taken, when every other find starts
inside one of them, or where one of them starts and behind it in the order. -/
theorem take_eq_of_cover_or_behind (behind : Found → Found → Prop) {fs sel : List Found}
    {last : Nat} (hs : Ordered fs)
    (hbehind : fs.Pairwise fun f g => f.start = g.start → ¬ behind f g)
    (hapart : Apart last sel) (hlen : ∀ f ∈ sel, f.start < f.stop) (hsub : ∀ f ∈ sel, f ∈ fs)
    (hcover : ∀ f ∈ fs, f ∈ sel ∨ f.start < last ∨
      (∃ g ∈ sel, g.start < f.start ∧ f.start < g.stop) ∨
      ∃ g ∈ sel, g.start = f.start ∧ behind f g) :
    take last fs = sel := by
  induction fs generalizing last sel with
  | nil => exact (List.eq_nil_iff_forall_not_mem.mpr fun f hf => by
      exact absurd (hsub f hf) List.not_mem_nil).symm
  | cons f fs ih =>
    obtain ⟨hfirst, hs⟩ := List.pairwise_cons.mp hs
    obtain ⟨hfront, hbehind⟩ := List.pairwise_cons.mp hbehind
    have hmin : ∀ g ∈ sel, f.start ≤ g.start := by
      intro g hg
      rcases List.mem_cons.mp (hsub g hg) with rfl | hg
      · exact Nat.le_refl _
      · exact hfirst g hg
    by_cases hlast : last ≤ f.start
    · -- The first find is one of those that lie apart, and so the first of them.
      have hmem : f ∈ sel := by
        rcases hcover f (by simp) with h | h | ⟨g, hg, h, -⟩ | ⟨g, hg, h, hb⟩
        · exact h
        · omega
        · have := hmin g hg; omega
        · rcases List.mem_cons.mp (hsub g hg) with rfl | hfs
          · exact hg
          · exact absurd hb (hfront g hfs h.symm)
      obtain ⟨h, t, rfl⟩ := List.exists_cons_of_ne_nil (List.ne_nil_of_mem hmem)
      have htail := Apart.le hapart.2 fun g hg => hlen g (List.mem_cons_of_mem _ hg)
      have hheadlen := hlen h (by simp)
      have hhead : f = h := by
        rcases List.mem_cons.mp hmem with hfh | hft
        · exact hfh
        · have h1 := htail f hft
          have h2 := hmin h (by simp)
          omega
      subst hhead
      simp only [take, hlast, if_true]
      refine congrArg (f :: ·) (ih hs hbehind hapart.2
        (fun g hg => hlen g (List.mem_cons_of_mem _ hg)) (fun g hg => ?_) fun g hg => ?_)
      · have := htail g hg
        rcases List.mem_cons.mp (hsub g (List.mem_cons_of_mem _ hg)) with rfl | hg
        · omega
        · exact hg
      · rcases hcover g (List.mem_cons_of_mem _ hg) with h | h | ⟨x, hx, h⟩ | ⟨x, hx, h, hb⟩
        · rcases List.mem_cons.mp h with rfl | h
          · exact Or.inr (Or.inl hheadlen)
          · exact Or.inl h
        · exact Or.inr (Or.inl (by omega))
        · rcases List.mem_cons.mp hx with rfl | hx
          · exact Or.inr (Or.inl h.2)
          · exact Or.inr (Or.inr (Or.inl ⟨x, hx, h⟩))
        · rcases List.mem_cons.mp hx with rfl | hx
          · exact Or.inr (Or.inl (by omega))
          · exact Or.inr (Or.inr (Or.inr ⟨x, hx, h, hb⟩))
    · simp only [take, hlast, if_false]
      have hstart := Apart.le hapart hlen
      refine ih hs hbehind hapart hlen (fun g hg => ?_)
        fun g hg => hcover g (List.mem_cons_of_mem _ hg)
      rcases List.mem_cons.mp (hsub g hg) with rfl | hmem
      · exact absurd (hstart g hg) hlast
      · exact hmem

/-- Finds that lie apart and cover all others are the ones that are taken. -/
theorem take_eq_of_cover {fs sel : List Found} {last : Nat} (hs : Ordered fs)
    (hapart : Apart last sel) (hlen : ∀ f ∈ sel, f.start < f.stop) (hsub : ∀ f ∈ sel, f ∈ fs)
    (hcover : ∀ f ∈ fs, f ∈ sel ∨ f.start < last ∨
      ∃ g ∈ sel, g.start < f.start ∧ f.start < g.stop) :
    take last fs = sel := by
  refine take_eq_of_cover_or_behind (fun _ _ => False) hs (hs.imp fun _ _ => id)
    hapart hlen hsub fun f hf => ?_
  exact (hcover f hf).imp_right (Or.imp_right Or.inl)

/-- Every find that is cut at is a placeholder of the segments. -/
theorem placeholder_mem_cut {f : Found} {fs : List Found} (hf : f ∈ fs) (last : Nat)
    (rest : List Char) : .placeholder f.placeholder ∈ cut last rest fs := by
  induction fs generalizing last rest with
  | nil => exact absurd hf List.not_mem_nil
  | cons g fs ih =>
    rcases List.mem_cons.mp hf with rfl | hf
    · simp [cut]
    · simp only [cut, List.mem_append, List.mem_cons]
      exact Or.inr (Or.inr (ih hf _ _))

end AgentRelay.Body
