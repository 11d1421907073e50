import Mathlib.Data.List.Basic
import AgentRelay.Proofs.Body.Layout

/-
  The finds of a text that falls into parts.

  An order is known by the finds at each place (`eq_of_ordered`). A find that nothing in
  front of it reaches into, and that is the first one where it starts, is taken; and what
  is taken besides is taken of the finds in front of it and of those behind it
  (`take_parts`). The same holds of the segments (`cut_parts`), and neither depends on
  where the part behind starts (`take_moved`, `cut_moved`).
-/

namespace AgentRelay.Body

/-! ## The order -/

/-- Two orders are the same when they have the same finds at every place. -/
theorem eq_of_ordered {fs gs : List Found} (hf : Ordered fs) (hg : Ordered gs)
    (h : ∀ place, fs.filter (·.start = place) = gs.filter (·.start = place)) : fs = gs := by
  have hmem : ∀ {fs gs : List Found}, (∀ place, fs.filter (·.start = place) =
      gs.filter (·.start = place)) → ∀ f ∈ fs, f ∈ gs := by
    intro fs gs h f hf
    have hin : f ∈ fs.filter (·.start = f.start) := List.mem_filter.mpr ⟨hf, by simp⟩
    rw [h] at hin
    exact (List.mem_filter.mp hin).1
  induction fs generalizing gs with
  | nil =>
    refine (List.eq_nil_iff_forall_not_mem.mpr fun g hg => ?_).symm
    exact absurd (hmem (fun place => (h place).symm) g hg) List.not_mem_nil
  | cons f fs ih =>
    cases gs with
    | nil => exact absurd (hmem h f List.mem_cons_self) List.not_mem_nil
    | cons g gs =>
      obtain ⟨hffirst, hf⟩ := List.pairwise_cons.mp hf
      have hg' := hg
      obtain ⟨hgfirst, hg⟩ := List.pairwise_cons.mp hg
      -- Neither of the first finds starts behind the other one.
      have hstart : g.start = f.start := by
        have h1 := hmem h f List.mem_cons_self
        have h2 := hmem (fun place => (h place).symm) g List.mem_cons_self
        refine Nat.le_antisymm ?_ ?_
        · rcases List.mem_cons.mp h1 with rfl | h1
          · exact Nat.le_refl _
          · exact hgfirst f h1
        · rcases List.mem_cons.mp h2 with rfl | h2
          · exact Nat.le_refl _
          · exact hffirst g h2
      obtain ⟨rfl, -⟩ : f = g ∧ fs.filter (·.start = f.start) = gs.filter (·.start = f.start) := by
        have := h f.start
        simpa [hstart] using this
      refine congrArg (f :: ·) (ih hf (List.pairwise_cons.mp hg').2 fun place => ?_)
      have := h place
      by_cases hplace : f.start = place
      · simpa [hplace] using this
      · simpa [hplace] using this

/-- The finds at a place come in the order of their patterns. -/
theorem filter_pool (patterns : List Pattern) (body : List Char) (place : Nat) :
    (pool patterns body).filter (·.start = place) =
      patterns.flatMap fun p => (p body).filter (·.start = place) := by
  rw [pool, filter_mergeSort, List.filter_flatMap]

/-- The finds of a kind, in the order of all. -/
theorem pool_filter (patterns : List Pattern) (body : List Char) (q : Found → Bool) :
    (pool patterns body).filter q =
      (patterns.flatMap fun p => (p body).filter q).mergeSort fun a b => a.start ≤ b.start := by
  refine eq_of_ordered ((ordered_pool patterns body).filter _) (ordered_mergeSort _) fun place => ?_
  rw [List.filter_comm, filter_pool, filter_mergeSort, List.filter_flatMap, List.filter_flatMap]
  exact List.flatMap_congr fun p _ => List.filter_comm _ _ _

/-- An order is its finds in front of a place and those behind it. -/
theorem split_ordered {fs : List Found} (hs : Ordered fs) (n : Nat) :
    fs = fs.filter (·.start < n) ++ fs.filter (n ≤ ·.start) := by
  refine eq_of_ordered hs ?_ fun place => ?_
  · refine List.pairwise_append.mpr ⟨hs.filter _, hs.filter _, fun f hf g hg => ?_⟩
    have h1 : f.start < n := by simpa using (List.mem_filter.mp hf).2
    have h2 : n ≤ g.start := by simpa using (List.mem_filter.mp hg).2
    omega
  · rw [List.filter_append, List.filter_filter, List.filter_filter]
    -- At a place there are only finds of one side.
    rcases Nat.lt_or_ge place n with hlt | hge
    · have hnone : fs.filter (fun f => decide (f.start = place) && decide (n ≤ f.start)) = [] :=
        List.filter_eq_nil_iff.mpr fun f _ => by
          simp only [Bool.and_eq_true, decide_eq_true_eq]
          omega
      rw [hnone, List.append_nil]
      exact List.filter_congr fun f _ => by by_cases h : f.start = place <;> simp [h, hlt]
    · have hnone : fs.filter (fun f => decide (f.start = place) && decide (f.start < n)) = [] :=
        List.filter_eq_nil_iff.mpr fun f _ => by
          simp only [Bool.and_eq_true, decide_eq_true_eq]
          omega
      rw [hnone, List.nil_append]
      exact List.filter_congr fun f _ => by by_cases h : f.start = place <;> simp [h, hge]

/-! ## The selection -/

/-- What is taken of finds behind a place does not depend on where the taking starts in front
of it. -/
theorem take_behind {last n : Nat} {fs : List Found} (hlast : last ≤ n)
    (h : ∀ f ∈ fs, n ≤ f.start) : take last fs = take n fs := by
  cases fs with
  | nil => rfl
  | cons f fs =>
    have hf := h f List.mem_cons_self
    simp [take, hf, Nat.le_trans hlast hf]

/-- What is taken of two parts is taken of each. -/
theorem take_append {last n : Nat} {front back : List Found} (hlast : last ≤ n)
    (hfront : ∀ f ∈ front, f.stop ≤ n) (hback : ∀ f ∈ back, n ≤ f.start) :
    take last (front ++ back) = take last front ++ take n back := by
  induction front generalizing last with
  | nil => exact take_behind hlast hback
  | cons f front ih =>
    have hrest : ∀ g ∈ front, g.stop ≤ n := fun g hg => hfront g (List.mem_cons_of_mem _ hg)
    by_cases h : last ≤ f.start
    · simp [take, h, ih (hfront f List.mem_cons_self) hrest]
    · simp [take, h, ih hlast hrest]

theorem take_moved (n last : Nat) (fs : List Found) :
    take (last + n) (fs.map (Found.moved n)) = (take last fs).map (Found.moved n) := by
  induction fs generalizing last with
  | nil => rfl
  | cons f fs ih =>
    have hstart : last + n ≤ (f.moved n).start ↔ last ≤ f.start := Nat.add_le_add_iff_right
    by_cases h : last ≤ f.start
    · simp only [List.map_cons, take, hstart, h, if_true]
      exact congrArg (f.moved n :: ·) (ih f.stop)
    · simp only [List.map_cons, take, hstart, h, if_false]
      exact ih last

/-- Finds that start too early are not taken. -/
theorem take_skip {last : Nat} {front : List Found} (h : ∀ f ∈ front, f.start < last)
    (back : List Found) : take last (front ++ back) = take last back := by
  induction front with
  | nil => rfl
  | cons f front ih =>
    have hf := h f List.mem_cons_self
    simp only [List.cons_append, take, Nat.not_le_of_lt hf, if_false]
    exact ih fun g hg => h g (List.mem_cons_of_mem _ hg)

/-- Of finds that start inside the first one at a place, that one is taken. -/
theorem take_of_first {fs more : List Found} {f : Found} {n : Nat} (hs : Ordered fs)
    (hbehind : ∀ g ∈ fs, n ≤ g.start) (hinside : ∀ g ∈ fs, g.start < f.stop)
    (hfirst : fs.filter (·.start = n) = f :: more) (back : List Found) :
    take n (fs ++ back) = f :: take f.stop back := by
  cases fs with
  | nil => exact nomatch hfirst
  | cons g gs =>
    -- The first find starts at the place, because one does.
    have hstart : g.start = n := by
      have hmem : f ∈ (g :: gs).filter (·.start = n) := by rw [hfirst]; exact List.mem_cons_self
      obtain ⟨hf, hn⟩ := List.mem_filter.mp hmem
      have hn : f.start = n := by simpa using hn
      refine Nat.le_antisymm ?_ (hbehind g List.mem_cons_self)
      rcases List.mem_cons.mp hf with rfl | hf
      · exact Nat.le_of_eq hn
      · exact hn ▸ (List.pairwise_cons.mp hs).1 f hf
    obtain ⟨rfl, -⟩ : g = f ∧ gs.filter (·.start = n) = more := by simpa [hstart] using hfirst
    simp only [List.cons_append, take, hstart, Nat.le_refl, if_true]
    rw [take_skip fun x hx => hinside x (List.mem_cons_of_mem _ hx)]

/-- A find that nothing in front of it reaches into, and that is the first one where it
starts, is taken between what is taken in front of it and what is taken behind it. -/
theorem take_parts {order more : List Found} {f : Found} (hs : Ordered order)
    (hlen : f.start < f.stop) (hfront : ∀ g ∈ order, g.start < f.start → g.stop ≤ f.start)
    (hfirst : order.filter (·.start = f.start) = f :: more) :
    take 0 order = take 0 (order.filter (·.start < f.start)) ++
      f :: take f.stop (order.filter (f.stop ≤ ·.start)) := by
  obtain ⟨inside, hinside⟩ : ∃ inside,
      inside = (order.filter (f.start ≤ ·.start)).filter (·.start < f.stop) := ⟨_, rfl⟩
  have hparts : order = order.filter (·.start < f.start) ++
      (inside ++ order.filter (f.stop ≤ ·.start)) := by
    have hbehind : (order.filter (f.start ≤ ·.start)).filter (f.stop ≤ ·.start) =
        order.filter (f.stop ≤ ·.start) := by
      rw [List.filter_filter]
      refine List.filter_congr fun g _ => ?_
      by_cases h : f.stop ≤ g.start
      · simp [h, Nat.le_trans (Nat.le_of_lt hlen) h]
      · simp [h]
    rw [hinside, ← hbehind, ← split_ordered (hs.filter _), ← split_ordered hs]
  have hfirst' : inside.filter (·.start = f.start) = f :: more := by
    rw [hinside, List.filter_filter, List.filter_filter, ← hfirst]
    refine List.filter_congr fun g _ => ?_
    by_cases h : g.start = f.start <;> simp [h, hlen]
  have htaken : ∀ back, take f.start (inside ++ back) = f :: take f.stop back := by
    refine take_of_first ?_ (fun g hg => ?_) (fun g hg => ?_) hfirst'
    · rw [hinside]
      exact (hs.filter _).filter _
    · rw [hinside] at hg
      simpa using (List.mem_filter.mp (List.mem_filter.mp hg).1).2
    · rw [hinside] at hg
      simpa using (List.mem_filter.mp hg).2
  calc take 0 order
      = take 0 (order.filter (·.start < f.start) ++
          (inside ++ order.filter (f.stop ≤ ·.start))) := by rw [← hparts]
    _ = take 0 (order.filter (·.start < f.start)) ++
          take f.start (inside ++ order.filter (f.stop ≤ ·.start)) := by
        refine take_append (Nat.zero_le _) (fun g hg => ?_) fun g hg => ?_
        · obtain ⟨hg, hstart⟩ := List.mem_filter.mp hg
          exact hfront g hg (by simpa using hstart)
        · rcases List.mem_append.mp hg with hg | hg
          · rw [hinside] at hg
            simpa using (List.mem_filter.mp (List.mem_filter.mp hg).1).2
          · have : f.stop ≤ g.start := by simpa using (List.mem_filter.mp hg).2
            omega
    _ = take 0 (order.filter (·.start < f.start)) ++
          f :: take f.stop (order.filter (f.stop ≤ ·.start)) := by rw [htaken]

/-! ## The segments -/

/-- The segments around a find are those in front of it and those behind it. -/
theorem cut_parts {last : Nat} {rest : List Char} {front : List Found} {f : Found}
    (hlast : last ≤ f.start) (hf : f.start ≤ f.stop) (hapart : Apart last front)
    (hfront : ∀ g ∈ front, g.start ≤ g.stop ∧ g.stop ≤ f.start) (back : List Found) :
    cut last rest (front ++ f :: back) =
      cut last (rest.take (f.start - last)) front ++
        .placeholder f.placeholder :: cut f.stop (rest.drop (f.stop - last)) back := by
  induction front generalizing last rest with
  | nil => rfl
  | cons g front ih =>
    obtain ⟨hg, hgf⟩ := hfront g List.mem_cons_self
    have hstart := hapart.1
    have h := @ih g.stop (rest.drop (g.stop - last)) hgf hapart.2
      fun x hx => hfront x (List.mem_cons_of_mem _ hx)
    have h1 : min (g.start - last) (f.start - last) = g.start - last := by omega
    have h2 : f.start - last - (g.stop - last) = f.start - g.stop := by omega
    have h3 : g.stop - last + (f.stop - g.stop) = f.stop - last := by omega
    rw [List.cons_append, cut, h, cut, List.take_take, List.drop_take, List.drop_drop, h1, h2, h3,
      List.append_assoc, List.cons_append]

/-- The segments do not depend on where their text starts. -/
theorem cut_moved (n last : Nat) (rest : List Char) (fs : List Found) :
    cut (last + n) rest (fs.map (Found.moved n)) = cut last rest fs := by
  induction fs generalizing last rest with
  | nil => rfl
  | cons f fs ih =>
    have h1 : f.start + n - (last + n) = f.start - last := by omega
    have h2 : f.stop + n - (last + n) = f.stop - last := by omega
    simp only [List.map_cons, cut, Found.moved, h1, h2]
    rw [← ih f.stop]

/-! ## A find between two texts -/

theorem pool_moved (patterns : List Pattern) (y : List Char) (n : Nat) :
    ((patterns.flatMap fun p => (p y).map (Found.moved n)).mergeSort fun a b => a.start ≤ b.start) =
      (pool patterns y).map (Found.moved n) := by
  rw [pool, List.map_mergeSort fun a _ b _ => ?_, List.map_flatMap]
  simp [Found.moved]

/-- What a pattern finds in a text falls into parts: nothing goes over `start`, and from
`stop` on it finds what it finds in `y`. -/
structure FallsApart (p : Pattern) (b y : List Char) (start stop : Nat) : Prop where
  stays : ∀ g ∈ p b, g.start < start → g.stop ≤ start
  behind : (p b).filter (stop ≤ ·.start) = (p y).map (Found.moved stop)

variable {patterns : List Pattern} {b y : List Char} {f : Found} {more : List Found}

theorem take_apart (hparts : ∀ p ∈ patterns, FallsApart p b y f.start f.stop)
    (hlen : f.start < f.stop)
    (hfirst : (pool patterns b).filter (·.start = f.start) = f :: more) :
    take 0 (pool patterns b) = take 0 ((pool patterns b).filter (·.start < f.start)) ++
      f :: (take 0 (pool patterns y)).map (Found.moved f.stop) := by
  have hbehind : (pool patterns b).filter (f.stop ≤ ·.start) =
      (pool patterns y).map (Found.moved f.stop) := by
    rw [pool_filter, ← pool_moved, List.flatMap_congr fun p hp => (hparts p hp).behind]
  have hmoved := take_moved f.stop 0 (pool patterns y)
  rw [Nat.zero_add] at hmoved
  rw [take_parts (ordered_pool patterns b) hlen (fun g hg hlt => ?_) hfirst, hbehind, hmoved]
  obtain ⟨p, hp, hmem⟩ := mem_pool.mp hg
  exact (hparts p hp).stays g hmem hlt

/-- A text that falls apart at a find has the segments in front of the find and those of the
text behind it. -/
theorem cut_apart (hparts : ∀ p ∈ patterns, FallsApart p b y f.start f.stop)
    (hlen : f.start < f.stop) (hall : ∀ g ∈ pool patterns b, g.start ≤ g.stop)
    (hfirst : (pool patterns b).filter (·.start = f.start) = f :: more)
    (hy : b.drop f.stop = y) :
    cut 0 b (take 0 (pool patterns b)) =
      cut 0 (b.take f.start) (take 0 ((pool patterns b).filter (·.start < f.start))) ++
        .placeholder f.placeholder :: cut 0 y (take 0 (pool patterns y)) := by
  have hmoved := cut_moved f.stop 0 y (take 0 (pool patterns y))
  rw [Nat.zero_add] at hmoved
  rw [take_apart hparts hlen hfirst, cut_parts (Nat.zero_le _) (Nat.le_of_lt hlen) (Apart.of_take 0 _)
    (fun g hg => ?_), Nat.sub_zero, Nat.sub_zero, hy, hmoved]
  obtain ⟨hg, hlt⟩ := List.mem_filter.mp ((take_sublist 0 _).subset hg)
  obtain ⟨p, hp, hmem⟩ := mem_pool.mp hg
  exact ⟨hall g hg, (hparts p hp).stays g hmem (by simpa using hlt)⟩

end AgentRelay.Body
