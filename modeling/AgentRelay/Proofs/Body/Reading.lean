import AgentRelay.Proofs.Body.Layout

/-
  What the spelling with backticks reads.

  A text is read as `Canonical` segments (`canonical_read`): payloads are not
  empty, and no position stands in a literal run, not even where a run meets
  the placeholder behind it. Where no command was read from the start of a line,
  the segments are written back as the text they came from
  (`text_read_of_inline`).
-/

namespace AgentRelay.Body

/-! ## The rules -/

/-- The rules that read a placeholder the way it is written. -/
def inlineRules : List Rule :=
  [.word Spelling.argumentsWord .arguments, .between ['!', '\x60'] '\x60' .shell, .path, .position]

theorem patterns_claude {p : Pattern} :
    p ∈ Spelling.claude.patterns ↔ (∃ r ∈ inlineRules, p = r.pattern) ∨ p = Rule.line.pattern := by
  simp only [Spelling.claude, inlineRules, List.mem_cons, List.not_mem_nil, or_false,
    exists_eq_or_imp, exists_eq_left]
  constructor
  · rintro (h | h | h | h | h)
    · exact Or.inl (Or.inl h)
    · exact Or.inl (Or.inr (Or.inl h))
    · exact Or.inr h
    · exact Or.inl (Or.inr (Or.inr (Or.inl h)))
    · exact Or.inl (Or.inr (Or.inr (Or.inr h)))
  · rintro ((h | h | h | h) | h)
    · exact Or.inl h
    · exact Or.inr (Or.inl h)
    · exact Or.inr (Or.inr (Or.inr (Or.inl h)))
    · exact Or.inr (Or.inr (Or.inr (Or.inr h)))
    · exact Or.inr (Or.inr (Or.inl h))

/-- A placeholder as it is read in front of the rest of a text. -/
def Sensible (rest : List Char) : Placeholder → Prop
  | .arguments => True
  | .argument n => 1 ≤ n ∧ n ≤ 9 ∧ rest.head?.any Text.isDigit = false
  | .shell command => command ≠ []
  | .file path => path ≠ []

/-- A rule takes something, but not more than there is, and does not start with
a digit. -/
structure Takes (cs : List Char) (n : Nat) (p : Placeholder) : Prop where
  some : 0 < n
  most : n ≤ cs.length
  lead : cs.head?.any Text.isDigit = false
  sense : Sensible (cs.drop n) p

theorem position_of_digit {d : Char} (h1 : '1' ≤ d) (h9 : d ≤ '9') :
    1 ≤ d.toNat - 48 ∧ d.toNat - 48 ≤ 9 ∧ Number.digitsOf (d.toNat - 48) = [d] := by
  have hlow : 49 ≤ d.toNat := h1
  have hhigh : d.toNat ≤ 57 := h9
  have hn : 1 ≤ d.toNat - 48 ∧ d.toNat - 48 ≤ 9 := by omega
  obtain ⟨e, he, he1, -, heq⟩ := digitsOf_position hn.1 hn.2
  have hlow' : 49 ≤ e.toNat := he1
  have hde : e = d := Char.toNat_inj.mp (by omega)
  exact ⟨hn.1, hn.2, hde ▸ he⟩

theorem takes_inline {r : Rule} (hr : r ∈ inlineRules) {flag : Bool} {cs : List Char} {n : Nat}
    {p : Placeholder} (h : r flag cs = some (n, p)) :
    Takes cs n p ∧ cs.take n = Spelling.claude.write p := by
  simp only [inlineRules, List.mem_cons, List.not_mem_nil, or_false] at hr
  rcases hr with rfl | rfl | rfl | rfl
  · obtain ⟨rfl, rfl, rest, rfl⟩ := word_eq_some h
    exact ⟨⟨by decide, by simp, rfl, trivial⟩, List.take_left ..⟩
  · obtain ⟨payload, hne, rfl, hsome, hmost, htake⟩ := take_between h
    obtain ⟨_, _, hcs, -⟩ := between_eq_some h
    exact ⟨⟨hsome, hmost, by rw [hcs]; rfl, hne⟩, htake⟩
  · obtain ⟨path, rest, rfl, hne, rfl, rfl⟩ := path_eq_some h
    refine ⟨⟨by omega, ?_, rfl, hne⟩, ?_⟩
    · simp only [List.length_append, List.length_cons]
      omega
    · have hlen : 1 + path.length = ('@' :: path).length := by simp [Nat.add_comm]
      rw [hlen, List.take_left]
      rfl
  · obtain ⟨rfl, d, rest, rfl, h1, h9, hrest, rfl⟩ := position_eq_some h
    obtain ⟨hn1, hn9, hdigit⟩ := position_of_digit h1 h9
    refine ⟨⟨by decide, by simp, rfl, hn1, hn9, hrest⟩, ?_⟩
    simp only [Spelling.claude, hdigit]
    rfl

theorem takes_line {flag : Bool} {cs : List Char} {n : Nat} {p : Placeholder}
    (h : Rule.line flag cs = some (n, p)) : Takes cs n p := by
  obtain ⟨blanks, command, rest, rfl, hne, rfl, rfl⟩ := line_eq_some h
  refine ⟨by omega, ?_, rfl, hne⟩
  simp only [List.length_append, List.length_cons]
  omega

/-- A find takes what stands between its start and its end. -/
theorem takes_of_mem_pattern {r : Rule} (b : List Char) {f : Found} (hf : f ∈ r.pattern b)
    {P : List Char → Nat → Placeholder → Prop}
    (h : ∀ flag cs n p, r flag cs = some (n, p) → P cs n p) :
    P (b.drop f.start) (f.stop - f.start) f.placeholder := by
  obtain ⟨i, n, lineStart, -, -, hstart, hstop, hr⟩ := applies_of_mem_scan hf
  rw [Nat.zero_add] at hstart hstop
  have hn : f.stop - f.start = n := by omega
  rw [hstart, ← hstart, hn, hstart]
  exact h _ _ _ _ hr

theorem takes_of_mem_pool {b : List Char} {f : Found} (hf : f ∈ pool Spelling.claude.patterns b) :
    Takes (b.drop f.start) (f.stop - f.start) f.placeholder := by
  obtain ⟨p, hp, hmem⟩ := mem_pool.mp hf
  rcases patterns_claude.mp hp with ⟨r, hr, rfl⟩ | rfl
  · exact takes_of_mem_pattern b hmem fun _ _ _ _ h => (takes_inline hr h).1
  · exact takes_of_mem_pattern b hmem fun _ _ _ _ h => takes_line h

/-! ## Positions in literal runs -/

theorem position_cons_ne {c : Char} {cs : List Char} (hc : c ≠ '$') (flag : Bool) :
    Rule.position flag (c :: cs) = none := by
  cases h : Rule.position flag (c :: cs) with
  | none => rfl
  | some q =>
    obtain ⟨n, p⟩ := q
    obtain ⟨-, d, rest, heq, -⟩ := position_eq_some h
    exact absurd (List.cons.inj heq).1 hc

theorem isDigit_of_position {d : Char} (h1 : '1' ≤ d) (h9 : d ≤ '9') : Text.isDigit d = true := by
  refine Text.isDigit_of_ascii d ?_
  have hlow : 49 ≤ d.toNat := h1
  have hhigh : d.toNat ≤ 57 := h9
  simp only [Char.isDigit, Bool.and_eq_true, decide_eq_true_eq, ge_iff_le]
  exact ⟨show 48 ≤ d.toNat by omega, hhigh⟩

/-- Whether a position stands in a run does not depend on what follows the run,
as long as no digit does. -/
theorem position_swap {t x y : List Char} (ht : t ≠ [])
    (hx : x.head?.any Text.isDigit = false) (hy : y.head?.any Text.isDigit = false)
    (h : Rule.position true (t ++ x) = none) : Rule.position true (t ++ y) = none := by
  cases hq : Rule.position true (t ++ y) with
  | none => rfl
  | some q =>
    obtain ⟨n, p⟩ := q
    obtain ⟨-, d, rest, heq, h1, h9, hrest, -⟩ := position_eq_some hq
    match t, ht with
    | [a], _ =>
      have hhead : y = d :: rest := (List.cons.inj heq).2
      rw [hhead, List.head?_cons, Option.any_some, isDigit_of_position h1 h9] at hy
      exact nomatch hy
    | [a, b], _ =>
      obtain ⟨rfl, htail⟩ := List.cons.inj heq
      obtain ⟨rfl, -⟩ := List.cons.inj htail
      simp [Rule.position, h1, h9, hx] at h
    | a :: b :: c :: cs, _ =>
      obtain ⟨rfl, htail⟩ := List.cons.inj heq
      obtain ⟨rfl, hrest'⟩ := List.cons.inj htail
      have hc : Text.isDigit c = false := by
        rw [← hrest'] at hrest
        simpa using hrest
      simp [Rule.position, h1, h9, hc] at h

/-- Every place of a text where a position stands is in a find that is taken. -/
theorem position_taken {patterns : List Pattern} (b : List Char)
    (hpattern : Rule.position.pattern ∈ patterns)
    (hlen : ∀ f ∈ pool patterns b, f.start < f.stop) {i : Nat}
    (hi : Rule.position true (b.drop i) ≠ none) :
    ∃ g ∈ take 0 (pool patterns b), g.start ≤ i ∧ i < g.stop := by
  -- No position starts inside another, so a scan finds each.
  have hnest : ∀ cs n p, Rule.position true cs = some (n, p) → ∀ j, 0 < j → j < n →
      Rule.position true (cs.drop j) = none := by
    intro cs n p h j hj hn
    obtain ⟨rfl, d, rest, rfl, h1, -⟩ := position_eq_some h
    obtain rfl : j = 1 := by omega
    refine position_cons_ne (fun hd => ?_) true
    rw [hd] at h1
    exact absurd h1 (by decide)
  obtain ⟨f, hf, hstart⟩ : ∃ f ∈ Rule.position.pattern b, f.start = 0 + i :=
    exists_mem_scan (fun _ _ _ => rfl) rfl hnest (fun j hj => absurd hj (Nat.not_lt_zero j)) hi
  rw [Nat.zero_add] at hstart
  have hpool : f ∈ pool patterns b := mem_pool.mpr ⟨_, hpattern, hf⟩
  have hsome := hlen f hpool
  -- A find that is not taken starts inside one that is.
  rcases taken_or_held (ordered_pool _ _) 0 hpool with h | h | ⟨g, hg, h⟩
  · exact ⟨f, h, by omega, by omega⟩
  · exact absurd h (Nat.not_lt_zero _)
  · exact ⟨g, hg, by rw [← hstart]; exact h⟩

/-! ## What is read -/

/-- Segments as they are read: literal runs are not empty and hold no position,
also where they meet the next placeholder, and placeholders make sense. -/
def Canonical : List Segment → Prop
  | [] => True
  | .text t :: rest =>
    t ≠ [] ∧ (∀ u rest', rest ≠ .text u :: rest') ∧
      Rule.position.Quiet t (Spelling.gemini.text rest) ∧ Canonical rest
  | .placeholder p :: rest => Sensible (Spelling.gemini.text rest) p ∧ Canonical rest

theorem Canonical.separate {segments : List Segment} (h : Canonical segments) :
    Separate segments := by
  induction segments with
  | nil => trivial
  | cons x rest ih =>
    cases x with
    | text t => exact ⟨h.1, h.2.1, ih h.2.2.2⟩
    | placeholder p => exact ih h.2

theorem head_write (p : Placeholder) (rest : List Char) :
    (Spelling.gemini.write p ++ rest).head?.any Text.isDigit = false := by
  cases p <;> rfl

theorem Sensible.congr {x y : List Char} {p : Placeholder} (h : Sensible x p)
    (hxy : x.head?.any Text.isDigit = false → y.head?.any Text.isDigit = false) :
    Sensible y p := by
  cases p with
  | argument n => exact ⟨h.1, h.2.1, hxy h.2.2⟩
  | _ => exact h

/-- The text of what is read starts with a digit only where the text it is read
from does. -/
theorem head_text_cut {rest : List Char} (h : rest.head?.any Text.isDigit = false) (last : Nat)
    (fs : List Found) : (Spelling.gemini.text (cut last rest fs)).head?.any Text.isDigit = false := by
  have hrun : ∀ t more, (t.head?.any Text.isDigit = false) →
      (t = [] → (Spelling.gemini.text more).head?.any Text.isDigit = false) →
      (Spelling.gemini.text (run t ++ more)).head?.any Text.isDigit = false := by
    intro t more ht hmore
    cases t with
    | nil => exact hmore rfl
    | cons c cs => exact ht
  cases fs with
  | nil =>
    have hnil := hrun rest [] h fun _ => rfl
    rwa [List.append_nil] at hnil
  | cons f fs =>
    refine hrun _ _ ?_ fun _ => ?_
    · cases rest with
      | nil => simp
      | cons c cs => cases hn : f.start - last <;> simp_all
    · rw [text_cons]
      exact head_write _ _

theorem canonical_run {t : List Char} {rest : List Segment} (h : Canonical rest)
    (hnext : ∀ u rest', rest ≠ .text u :: rest')
    (hq : Rule.position.Quiet t (Spelling.gemini.text rest)) : Canonical (run t ++ rest) := by
  unfold run
  split
  · exact h
  · rename_i hne
    exact ⟨by simpa using hne, hnext, hq, h⟩

/-- Cutting a text at finds that cover its positions gives canonical segments. -/
theorem canonical_cut {b : List Char} {fs : List Found} {last : Nat} (hapart : Apart last fs)
    (htakes : ∀ f ∈ fs, Takes (b.drop f.start) (f.stop - f.start) f.placeholder)
    (hcover : ∀ i, last ≤ i → Rule.position true (b.drop i) ≠ none →
      ∃ g ∈ fs, g.start ≤ i ∧ i < g.stop) :
    Canonical (cut last (b.drop last) fs) := by
  induction fs generalizing last with
  | nil =>
    have hq : Rule.position.Quiet (b.drop last) (Spelling.gemini.text []) := by
      intro i _
      refine Classical.byContradiction fun hne => ?_
      rw [Spelling.text, List.flatMap_nil, List.append_nil, List.drop_drop] at hne
      obtain ⟨g, hg, -⟩ := hcover (last + i) (by omega) hne
      exact absurd hg List.not_mem_nil
    have hrun : Canonical (run (b.drop last) ++ []) :=
      canonical_run trivial (fun _ _ => (List.cons_ne_nil _ _).symm) hq
    rwa [List.append_nil] at hrun
  | cons f fs ih =>
    have hf := htakes f (by simp)
    have hlen : f.start < f.stop := by
      have := hf.some
      omega
    have hdrop : (b.drop last).drop (f.stop - last) = b.drop f.stop :=
      drop_drop_sub (Nat.le_trans hapart.1 (Nat.le_of_lt hlen)) b
    have hstop : (b.drop f.start).drop (f.stop - f.start) = b.drop f.stop :=
      drop_drop_sub (Nat.le_of_lt hlen) b
    have hrest : Canonical (cut f.stop (b.drop f.stop) fs) := by
      refine ih hapart.2 (fun g hg => htakes g (List.mem_cons_of_mem _ hg)) fun i hi hne => ?_
      obtain ⟨g, hg, h1, h2⟩ := hcover i (by have := hapart.1; omega) hne
      rcases List.mem_cons.mp hg with rfl | hg
      · omega
      · exact ⟨g, hg, h1, h2⟩
    have hsense : Sensible (Spelling.gemini.text (cut f.stop (b.drop f.stop) fs)) f.placeholder := by
      have hs := hf.sense
      rw [hstop] at hs
      exact hs.congr fun h => head_text_cut h f.stop fs
    rw [cut, hdrop]
    refine canonical_run ⟨hsense, hrest⟩ (fun _ _ => by simp) fun i hi => ?_
    -- The run is followed by a find in the one text and by a placeholder in the other.
    have hi' : i < f.start - last := by
      rw [List.length_take] at hi
      omega
    have hpiece : ((b.drop last).take (f.start - last)).drop i ++ b.drop f.start =
        b.drop (last + i) := by
      rw [← drop_drop_sub hapart.1 b, ← List.drop_append_of_le_length (Nat.le_of_lt hi), List.take_append_drop,
        List.drop_drop]
    rw [text_cons]
    refine position_swap ?_ hf.lead (head_write _ _) ?_
    · exact fun hnil => absurd (List.drop_eq_nil_iff.mp hnil) (Nat.not_le_of_lt hi)
    · rw [hpiece]
      refine Classical.byContradiction fun hne => ?_
      obtain ⟨g, hg, h1, -⟩ := hcover (last + i) (by omega) hne
      have hstart : f.start ≤ g.start := by
        rcases List.mem_cons.mp hg with rfl | hg
        · exact Nat.le_refl _
        · have := Apart.le hapart.2 (fun g hg => by
            have := (htakes g (List.mem_cons_of_mem _ hg)).some
            omega) g hg
          omega
      omega

/-- What a spelling reads is canonical, when it knows positions and each of its finds
takes something that makes sense. -/
theorem canonical_of_takes {s : Spelling} (b : List Char)
    (hpattern : Rule.position.pattern ∈ s.patterns)
    (htakes : ∀ f ∈ pool s.patterns b, Takes (b.drop f.start) (f.stop - f.start) f.placeholder) :
    Canonical (s.read b) := by
  have hlen : ∀ f ∈ pool s.patterns b, f.start < f.stop := by
    intro f hf
    have := (htakes f hf).some
    omega
  unfold Spelling.read parse
  split
  · trivial
  · exact canonical_cut (Apart.of_take 0 _) (fun f hf => htakes f ((take_sublist 0 _).subset hf))
      fun i _ hi => position_taken b hpattern hlen hi

/-- What the spelling with backticks reads is canonical. -/
theorem canonical_read (b : List Char) : Canonical (Spelling.claude.read b) :=
  canonical_of_takes b (patterns_claude.mpr (Or.inl ⟨.position, by simp [inlineRules], rfl⟩))
    fun _ hf => takes_of_mem_pool hf

/-! ## Writing what was read -/

theorem text_run (s : Spelling) (t : List Char) (more : List Segment) :
    s.text (run t ++ more) = t ++ s.text more := by
  cases t <;> rfl

/-- Segments are written back when every placeholder is written as it was read. -/
theorem text_cut {s : Spelling} {b : List Char} {fs : List Found} (last : Nat)
    (hapart : Apart last fs) (hlen : ∀ f ∈ fs, f.start ≤ f.stop)
    (h : ∀ f ∈ fs, (b.drop f.start).take (f.stop - f.start) = s.write f.placeholder) :
    s.text (cut last (b.drop last) fs) = b.drop last := by
  suffices hpieces : s.text (cut last (b.drop last) fs) = (pieces last (b.drop last) fs).flatten by
    rw [hpieces, restore_cut last _ fs hapart hlen]
  induction fs generalizing last with
  | nil =>
    have hnil := text_run s (b.drop last) []
    rw [List.append_nil] at hnil
    simpa [cut, pieces, Spelling.text] using hnil
  | cons f fs ih =>
    have hf := hlen f (by simp)
    have hstart : (b.drop last).drop (f.start - last) = b.drop f.start := drop_drop_sub hapart.1 b
    have hstop : (b.drop last).drop (f.stop - last) = b.drop f.stop :=
      drop_drop_sub (Nat.le_trans hapart.1 hf) b
    rw [cut, pieces, text_run, text_cons, hstart, hstop, h f (by simp), List.flatten_cons,
      List.flatten_cons,
      ih f.stop hapart.2 (fun g hg => hlen g (List.mem_cons_of_mem _ hg))
        fun g hg => h g (List.mem_cons_of_mem _ hg)]
    rfl

/-- A text is written back as it was, when every find that is taken is. -/
theorem text_read_of_write {s : Spelling} {b : List Char}
    (h : ∀ f ∈ take 0 (pool s.patterns b), f.start ≤ f.stop ∧
      (b.drop f.start).take (f.stop - f.start) = s.write f.placeholder) :
    s.text (s.read b) = b := by
  unfold Spelling.read parse
  split
  · rename_i hb
    rw [List.isEmpty_iff.mp hb]
    rfl
  · exact text_cut 0 (Apart.of_take 0 _) (fun f hf => (h f hf).1) fun f hf => (h f hf).2

/-- A text that was read without commands at the start of a line is written back
as it was. -/
theorem text_read_of_inline {b : List Char}
    (h : ∀ f ∈ take 0 (pool Spelling.claude.patterns b), ∃ r ∈ inlineRules, f ∈ r.pattern b) :
    Spelling.claude.text (Spelling.claude.read b) = b := by
  refine text_read_of_write fun f hf => ?_
  obtain ⟨r, hr, hmem⟩ := h f hf
  have hsome := (takes_of_mem_pool ((take_sublist 0 _).subset hf)).some
  refine ⟨by omega, ?_⟩
  exact takes_of_mem_pattern (P := fun cs n p => cs.take n = Spelling.claude.write p) b hmem
    fun _ _ _ _ hq => (takes_inline hr hq).2

end AgentRelay.Body
