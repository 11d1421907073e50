import Mathlib.Data.List.Chain
import Mathlib.Data.List.Permutation
import AgentRelay.Proofs.Body.Layout

/-
  What parsing selects, whatever the patterns are.

  The finds of all patterns are put in order: by where they start, and those that
  start at one place in the order of their patterns (`inOrder_pool`). The order
  numbers them, because two patterns may find the same. From it parsing selects
  greedily: a find is left out exactly where it starts before the end of a selected
  one in front of it (`greedy_choose`), and that determines the selection
  (`Greedy.unique`). The segments are the placeholders of the selected finds with
  the text around them (`parse_greedy`).
-/

namespace AgentRelay.Body

/-- The finds of the patterns are pieces of the text. They may be empty. -/
def FindPieces (patterns : List Pattern) (body : List Char) : Prop :=
  ∀ p ∈ patterns, ∀ f ∈ p body, f.start ≤ f.stop ∧ f.stop ≤ body.length

instance (patterns : List Pattern) (body : List Char) : Decidable (FindPieces patterns body) :=
  inferInstanceAs
    (Decidable (∀ p ∈ patterns, ∀ f ∈ p body, f.start ≤ f.stop ∧ f.stop ≤ body.length))

/-! ## The order of the finds -/

/-- The finds of the patterns by where they start, those that start at one place in
the order of the patterns. -/
structure InOrder (patterns : List Pattern) (body : List Char) (order : List Found) : Prop where
  all : order.Perm (patterns.flatMap fun p => p body)
  starts : Ordered order
  ties : ∀ place, order.filter (·.start = place) =
    patterns.flatMap fun p => (p body).filter (·.start = place)

theorem inOrder_pool (patterns : List Pattern) (body : List Char) :
    InOrder patterns body (pool patterns body) where
  all := List.mergeSort_perm _ _
  starts := ordered_pool patterns body
  ties place := by rw [pool, filter_mergeSort, List.filter_flatMap]

/-! ## The greedy selection -/

/-- A selection from the finds of an order, each with its number in the order: the
selected ones do not overlap, and one is left out exactly where it starts before
the end of a selected one in front of it. -/
structure Greedy (order : List Found) (chosen : List (Found × Nat)) : Prop where
  sublist : chosen.Sublist order.zipIdx
  apart : chosen.IsChain fun f g => f.1.stop ≤ g.1.start
  missing : ∀ f ∈ order.zipIdx,
    f ∉ chosen ↔ ∃ g ∈ chosen, g.2 < f.2 ∧ f.1.start < g.1.stop

/-- Takes numbered finds from the left; `last` is the end of the one taken before. -/
def choose (last : Nat) : List (Found × Nat) → List (Found × Nat)
  | [] => []
  | f :: fs => if last ≤ f.1.start then f :: choose f.1.stop fs else choose last fs

theorem map_choose (last : Nat) (fs : List (Found × Nat)) :
    (choose last fs).map Prod.fst = take last (fs.map Prod.fst) := by
  induction fs generalizing last with
  | nil => rfl
  | cons f fs ih =>
    by_cases h : last ≤ f.1.start
    · simp [choose, take, h, ih]
    · simp [choose, take, h, ih]

theorem choose_sublist (last : Nat) (fs : List (Found × Nat)) : (choose last fs).Sublist fs := by
  induction fs generalizing last with
  | nil => exact List.Sublist.slnil
  | cons f fs ih =>
    by_cases h : last ≤ f.1.start
    · simp [choose, h, ih]
    · simp only [choose, h, if_false]
      exact (ih last).cons f

theorem Apart.isChain {last : Nat} {fs : List Found} (h : Apart last fs) :
    fs.IsChain fun f g => f.stop ≤ g.start := by
  induction fs generalizing last with
  | nil => exact List.isChain_nil
  | cons f fs ih =>
    cases fs with
    | nil => exact List.isChain_singleton f
    | cons g fs => exact List.isChain_cons_cons.mpr ⟨h.2.1, ih h.2⟩

/-- A find is left out where it starts too early, or before the end of one that is
taken in front of it. -/
theorem not_mem_choose {fs : List (Found × Nat)}
    (hstarts : fs.Pairwise fun f g => f.1.start ≤ g.1.start)
    (hnumbers : fs.Pairwise fun f g => f.2 < g.2) (last : Nat) {f : Found × Nat} (hf : f ∈ fs) :
    f ∉ choose last fs ↔
      f.1.start < last ∨ ∃ g ∈ choose last fs, g.2 < f.2 ∧ f.1.start < g.1.stop := by
  induction fs generalizing last with
  | nil => exact absurd hf List.not_mem_nil
  | cons g fs ih =>
    obtain ⟨hg, hstarts⟩ := List.pairwise_cons.mp hstarts
    obtain ⟨hn, hnumbers⟩ := List.pairwise_cons.mp hnumbers
    have hbehind : ∀ {n h}, h ∈ choose n fs → g.2 < h.2 := fun hh =>
      hn _ ((choose_sublist _ fs).subset hh)
    by_cases hlast : last ≤ g.1.start
    · simp only [choose, hlast, if_true, List.mem_cons, not_or, exists_eq_or_imp]
      rcases List.mem_cons.mp hf with rfl | hf
      · -- The first one is taken, and nothing taken stands in front of it.
        constructor
        · exact fun h => absurd rfl h.1
        · rintro (h | ⟨h, -⟩ | ⟨h, hh, h1, -⟩)
          · omega
          · omega
          · have := hbehind hh
            omega
      · have hfg := hn f hf
        have hstart := hg f hf
        have hne : f ≠ g := by
          rintro rfl
          omega
        rw [ih hstarts hnumbers g.1.stop hf]
        constructor
        · rintro ⟨-, h | h⟩
          · exact Or.inr (Or.inl ⟨hfg, h⟩)
          · exact Or.inr (Or.inr h)
        · rintro (h | ⟨-, h⟩ | h)
          · omega
          · exact ⟨hne, Or.inl h⟩
          · exact ⟨hne, Or.inr h⟩
    · simp only [choose, hlast, if_false]
      rcases List.mem_cons.mp hf with rfl | hf
      · refine iff_of_true (fun h => ?_) (Or.inl (by omega))
        have := hbehind h
        omega
      · exact ih hstarts hnumbers last hf

theorem pairwise_zipIdx (order : List Found) (n : Nat) :
    (order.zipIdx n).Pairwise fun f g => f.2 < g.2 := by
  refine List.Pairwise.of_map (S := fun i j : Nat => i < j) Prod.snd (fun _ _ h => h) ?_
  rw [List.zipIdx_map_snd]
  exact List.pairwise_lt_range'

theorem greedy_choose {order : List Found} (h : Ordered order) :
    Greedy order (choose 0 order.zipIdx) where
  sublist := choose_sublist 0 _
  apart := by
    have hchain := (Apart.of_take 0 order).isChain
    rw [← List.zipIdx_map_fst 0 order, ← map_choose] at hchain
    exact (List.isChain_map Prod.fst).mp hchain
  missing f hf := by
    have hstarts : order.zipIdx.Pairwise fun f g => f.1.start ≤ g.1.start := by
      refine List.Pairwise.of_map (S := fun f g : Found => f.start ≤ g.start) Prod.fst
        (fun _ _ h => h) ?_
      rwa [List.zipIdx_map_fst]
    rw [not_mem_choose hstarts (pairwise_zipIdx order 0) 0 hf]
    exact or_iff_right (Nat.not_lt_zero _)

/-- An order has one greedy selection. -/
theorem Greedy.unique {order : List Found} {chosen other : List (Found × Nat)}
    (h : Greedy order chosen) (h' : Greedy order other) : other = chosen := by
  -- By induction on the number: what is selected in front of a find decides on it.
  have hsame : ∀ n, ∀ f ∈ order.zipIdx, f.2 = n → (f ∈ other ↔ f ∈ chosen) := by
    intro n
    induction n using Nat.strong_induction_on with
    | _ n ih =>
      rintro f hf rfl
      refine not_iff_not.mp ?_
      rw [h.missing f hf, h'.missing f hf]
      constructor
      · rintro ⟨g, hg, hlt, hstop⟩
        exact ⟨g, (ih g.2 hlt g (h'.sublist.subset hg) rfl).mp hg, hlt, hstop⟩
      · rintro ⟨g, hg, hlt, hstop⟩
        exact ⟨g, (ih g.2 hlt g (h.sublist.subset hg) rfl).mpr hg, hlt, hstop⟩
  have hnumbers := pairwise_zipIdx order 0
  have hnodup : order.zipIdx.Nodup := hnumbers.imp fun hlt heq => by
    rw [heq] at hlt
    exact absurd hlt (Nat.lt_irrefl _)
  refine List.Perm.eq_of_pairwise (fun f g _ _ h1 h2 => absurd h1 (Nat.lt_asymm h2))
    (hnumbers.sublist h'.sublist) (hnumbers.sublist h.sublist) ?_
  refine (List.perm_ext_iff_of_nodup (hnodup.sublist h'.sublist) (hnodup.sublist h.sublist)).mpr ?_
  intro f
  constructor
  · exact fun hf => (hsame f.2 f (h'.sublist.subset hf) rfl).mp hf
  · exact fun hf => (hsame f.2 f (h.sublist.subset hf) rfl).mpr hf

/-! ## The text around the selection -/

/-- The placeholders of finds with the runs of the text between them. -/
def around (body : List Char) (last : Nat) : List Found → List Segment
  | [] => run (body.extract last)
  | f :: fs =>
    run (body.extract last f.start) ++ .placeholder f.placeholder :: around body f.stop fs

/-- Puts pieces of text in place of the placeholders, from the left. -/
def refill : List Segment → List (List Char) → List Char
  | [], _ => []
  | .text t :: rest, pieces => t ++ refill rest pieces
  | .placeholder _ :: rest, pieces => pieces.headD [] ++ refill rest pieces.tail

theorem cut_eq_around {body : List Char} {fs : List Found} {last : Nat} (hapart : Apart last fs)
    (hlen : ∀ f ∈ fs, f.start ≤ f.stop) : cut last (body.drop last) fs = around body last fs := by
  induction fs generalizing last with
  | nil =>
    rw [cut, around, List.extract, ← List.length_drop, List.take_length]
  | cons f fs ih =>
    have hf := hlen f (by simp)
    rw [cut, around, drop_drop_sub (Nat.le_trans hapart.1 hf), ih hapart.2 fun g hg => hlen g (List.mem_cons_of_mem _ hg)]

theorem refill_run (t : List Char) (rest : List Segment) (pieces : List (List Char)) :
    refill (run t ++ rest) pieces = t ++ refill rest pieces := by
  cases t <;> rfl

/-- The text comes back when every placeholder gives way to the piece it was found in. -/
theorem refill_around {body : List Char} {fs : List Found} {last : Nat} (hapart : Apart last fs)
    (hlen : ∀ f ∈ fs, f.start ≤ f.stop) :
    refill (around body last fs) (fs.map fun f => body.extract f.start f.stop) =
      body.drop last := by
  induction fs generalizing last with
  | nil =>
    have hrun := refill_run (body.extract last) [] []
    rw [List.append_nil] at hrun
    rw [around, List.map_nil, hrun, refill, List.append_nil, List.extract, ← List.length_drop,
      List.take_length]
  | cons f fs ih =>
    have hf := hlen f (by simp)
    have hlast := hapart.1
    have hrest := ih hapart.2 fun g hg => hlen g (List.mem_cons_of_mem _ hg)
    -- The text goes on with the run, the piece of the find and what follows that.
    have hpiece : body.drop f.start = body.extract f.start f.stop ++ body.drop f.stop := by
      rw [List.extract, ← drop_drop_sub hf, List.take_append_drop]
    have hrun : body.drop last = body.extract last f.start ++ body.drop f.start := by
      rw [List.extract, ← drop_drop_sub hlast, List.take_append_drop]
    rw [around, refill_run, List.map_cons, refill, List.headD_cons, List.tail_cons, hrest, hrun,
      hpiece]

theorem separate_run {t : List Char} {rest : List Segment} (h : Separate rest)
    (hnext : ∀ u rest', rest ≠ .text u :: rest') : Separate (run t ++ rest) := by
  unfold run
  split
  · exact h
  · rename_i hne
    exact ⟨by simpa using hne, hnext, h⟩

theorem separate_around (body : List Char) (last : Nat) (fs : List Found) :
    Separate (around body last fs) := by
  induction fs generalizing last with
  | nil =>
    have h : Separate (run (body.extract last) ++ []) :=
      separate_run trivial fun _ _ => (List.cons_ne_nil _ _).symm
    rwa [List.append_nil] at h
  | cons f fs ih => exact separate_run (ih f.stop) fun _ _ => by simp

/-! ## Parsing -/

/-- Parsing selects greedily from the finds in order, and puts the selected placeholders
between the runs of the text: nothing of the text is lost or doubled, no run is empty, and a
placeholder stands between two runs. An empty text has no segments. -/
theorem parse_greedy (patterns : List Pattern) {body : List Char} (hne : body ≠ [])
    (h : FindPieces patterns body) :
    parse patterns [] = [] ∧ InOrder patterns body (pool patterns body) ∧
      ∃ chosen, Greedy (pool patterns body) chosen ∧
        (∀ other, Greedy (pool patterns body) other → other = chosen) ∧
        parse patterns body = around body 0 (chosen.map Prod.fst) ∧
        refill (parse patterns body)
          (chosen.map fun f => body.extract f.1.start f.1.stop) = body ∧
        Separate (parse patterns body) := by
  have hgreedy := greedy_choose (ordered_pool patterns body)
  have htaken : (choose 0 (pool patterns body).zipIdx).map Prod.fst =
      take 0 (pool patterns body) := by
    rw [map_choose, List.zipIdx_map_fst]
  have hlen : ∀ f ∈ take 0 (pool patterns body), f.start ≤ f.stop := by
    intro f hf
    obtain ⟨p, hp, hmem⟩ := mem_pool.mp ((take_sublist 0 _).subset hf)
    exact (h p hp f hmem).1
  have hparse : parse patterns body = around body 0 (take 0 (pool patterns body)) := by
    have hempty : body.isEmpty = false := by simpa using hne
    rw [parse, hempty]
    exact cut_eq_around (Apart.of_take 0 _) hlen
  refine ⟨rfl, inOrder_pool patterns body, _, hgreedy, fun _ => hgreedy.unique, ?_, ?_, ?_⟩
  · rw [htaken, hparse]
  · have hpieces : (choose 0 (pool patterns body).zipIdx).map
        (fun f => body.extract f.1.start f.1.stop) =
          (take 0 (pool patterns body)).map fun f => body.extract f.start f.stop := by
      rw [← htaken, List.map_map]
      rfl
    rw [hparse, hpieces]
    exact refill_around (Apart.of_take 0 _) hlen
  · rw [hparse]
    exact separate_around body 0 _

/-- A search for two words, one the start of the other, and for no text at all. -/
def searched : List Pattern :=
  [Rule.pattern (.word ['a', 'b'] (.shell ['1'])),
    Rule.pattern (.word ['a', 'b', 'c'] (.shell ['2'])), Rule.pattern (.word [] .arguments)]

/-- The first word is taken where both stand, and empty finds where no word is taken. -/
theorem searched_greedy :
    "abcab".toList ≠ [] ∧ FindPieces searched "abcab".toList ∧
      ∃ chosen, Greedy (pool searched "abcab".toList) chosen ∧
        around "abcab".toList 0 (chosen.map Prod.fst) =
          [.placeholder (.shell ['1']), .placeholder .arguments, .text ['c'],
            .placeholder (.shell ['1']), .placeholder .arguments] := by
  have hne : "abcab".toList ≠ [] := by decide
  have hpieces : FindPieces searched "abcab".toList := by decide
  obtain ⟨-, -, chosen, hgreedy, -, hparse, -⟩ := parse_greedy searched hne hpieces
  refine ⟨hne, hpieces, chosen, hgreedy, ?_⟩
  rw [← hparse]
  cbv

end AgentRelay.Body
