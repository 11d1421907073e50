import AgentRelay.Body.Spelling

/-
  What a pattern finds.

  A find is a place where the rule applies (`applies_of_mem_scan`). A scan over a
  piece of text and what follows it is a scan over the piece and one over what
  follows, as long as no match in the piece goes beyond it (`scan_append`); the
  rest of the text is there in both, because a rule may look ahead. Where what
  follows is another text, the scan finds the same in the piece as long as the
  matches in it are the same and the scan stays in it (`scan_front`).
-/

namespace AgentRelay.Body

/-- The rule does not ask whether a line starts. -/
def Rule.Flagless (rule : Rule) : Prop := ∀ a b cs, rule a cs = rule b cs

theorem scan_flagless {rule : Rule} (h : rule.Flagless) (skip pos : Nat) (a b : Bool)
    (cs : List Char) : scan rule skip pos a cs = scan rule skip pos b cs := by
  cases skip <;> cases cs <;> simp only [scan, h a b]

/-- A find is a place where the rule applies. -/
theorem applies_of_mem_scan {rule : Rule} {skip pos : Nat} {flag : Bool} {cs : List Char}
    {f : Found} (h : f ∈ scan rule skip pos flag cs) :
    ∃ i n lineStart, skip ≤ i ∧ i ≤ cs.length ∧ f.start = pos + i ∧ f.stop = pos + i + n ∧
      rule lineStart (cs.drop i) = some (n, f.placeholder) := by
  induction cs generalizing skip pos flag with
  | nil =>
    cases skip with
    | zero =>
      cases hr : rule flag [] with
      | none => simp [scan, hr] at h
      | some q =>
        obtain ⟨n, p⟩ := q
        simp only [scan, hr, List.mem_singleton] at h
        subst h
        exact ⟨0, n, flag, Nat.le_refl _, Nat.le_refl _, rfl, rfl, hr⟩
    | succ skip => simp [scan] at h
  | cons c cs ih =>
    -- What is found behind the first character, counted from the first.
    have hrest : ∀ {skip' : Nat} {flag' : Bool}, skip ≤ skip' + 1 →
        f ∈ scan rule skip' (pos + 1) flag' cs →
        ∃ i n lineStart, skip ≤ i ∧ i ≤ (c :: cs).length ∧ f.start = pos + i ∧
          f.stop = pos + i + n ∧ rule lineStart ((c :: cs).drop i) = some (n, f.placeholder) := by
      intro skip' flag' hskip hf
      obtain ⟨i, n, lineStart, h1, h2, h3, h4, h5⟩ := ih hf
      refine ⟨i + 1, n, lineStart, by omega, ?_, by omega, by omega, h5⟩
      rw [List.length_cons]
      omega
    cases skip with
    | zero =>
      cases hr : rule flag (c :: cs) with
      | none =>
        simp only [scan, hr] at h
        exact hrest (by omega) h
      | some q =>
        obtain ⟨n, p⟩ := q
        simp only [scan, hr, List.mem_cons] at h
        rcases h with rfl | h
        · exact ⟨0, n, flag, Nat.le_refl _, Nat.zero_le _, rfl, rfl, hr⟩
        · exact hrest (by omega) h
    | succ skip =>
      simp only [scan] at h
      exact hrest (by omega) h

variable {rule : Rule}

/-- No match of the rule starts in the piece in front of the rest. -/
def Rule.Quiet (rule : Rule) (piece rest : List Char) : Prop :=
  ∀ i < piece.length, rule true (piece.drop i ++ rest) = none

/-- Matches that start in the piece do not go beyond it. -/
def Rule.Within (rule : Rule) (piece rest : List Char) : Prop :=
  ∀ i < piece.length, ∀ n p, rule true (piece.drop i ++ rest) = some (n, p) →
    n ≤ piece.length - i

theorem Rule.Quiet.within {piece rest : List Char} (h : rule.Quiet piece rest) :
    rule.Within piece rest := by
  intro i hi n p hr
  rw [h i hi] at hr
  exact nomatch hr

theorem Rule.Within.tail {c : Char} {piece rest : List Char} (h : rule.Within (c :: piece) rest) :
    rule.Within piece rest := by
  intro i hi n p hr
  have := h (i + 1) (by rw [List.length_cons]; omega) n p hr
  rw [List.length_cons] at this
  omega

/-- A find in a piece of text: its rule applies there and stays in the piece. -/
def FoundIn (rule : Rule) (pos : Nat) (piece rest : List Char) (f : Found) : Prop :=
  ∃ i n, i < piece.length ∧ n ≤ piece.length - i ∧ f.start = pos + i ∧ f.stop = pos + i + n ∧
    rule true (piece.drop i ++ rest) = some (n, f.placeholder)

theorem FoundIn.cons {pos : Nat} {c : Char} {piece rest : List Char} {f : Found}
    (h : FoundIn rule (pos + 1) piece rest f) : FoundIn rule pos (c :: piece) rest f := by
  obtain ⟨i, n, h1, h2, h3, h4, h5⟩ := h
  refine ⟨i + 1, n, ?_, ?_, by omega, by omega, h5⟩ <;> rw [List.length_cons] <;> omega

/-- A scan over a piece of text goes on behind it. -/
theorem scan_append (hflag : rule.Flagless) {piece rest : List Char}
    (h : rule.Within piece rest) (skip pos : Nat) (hskip : skip ≤ piece.length) :
    ∃ inner, (∀ f ∈ inner, FoundIn rule pos piece rest f) ∧
      scan rule skip pos true (piece ++ rest) =
        inner ++ scan rule 0 (pos + piece.length) true rest := by
  induction piece generalizing skip pos with
  | nil =>
    obtain rfl : skip = 0 := by simpa using hskip
    exact ⟨[], fun f hf => absurd hf List.not_mem_nil, rfl⟩
  | cons c piece ih =>
    have hpos : pos + 1 + piece.length = pos + (c :: piece).length := by
      rw [List.length_cons]; omega
    have hback : ∀ a cs, scan rule 0 (pos + (c :: piece).length) a cs =
        scan rule 0 (pos + 1 + piece.length) true cs := fun a cs => by
      rw [hpos]; exact scan_flagless hflag _ _ _ _ _
    cases skip with
    | zero =>
      cases hr : rule true (c :: piece ++ rest) with
      | none =>
        obtain ⟨inner, hin, hscan⟩ := ih h.tail 0 (pos + 1) (Nat.zero_le _)
        refine ⟨inner, fun f hf => (hin f hf).cons, ?_⟩
        rw [List.cons_append] at hr ⊢
        simp only [scan, hr]
        rw [hback, ← hscan]
        exact scan_flagless hflag _ _ _ _ _
      | some q =>
        obtain ⟨n, p⟩ := q
        have hn : n ≤ (c :: piece).length := h 0 (by simp) n p hr
        obtain ⟨inner, hin, hscan⟩ := ih h.tail (n - 1) (pos + 1) (by
          rw [List.length_cons] at hn; omega)
        refine ⟨⟨pos, pos + n, p⟩ :: inner, fun f hf => ?_, ?_⟩
        · rcases List.mem_cons.mp hf with rfl | hf
          · exact ⟨0, n, by simp, hn, rfl, rfl, hr⟩
          · exact (hin f hf).cons
        · rw [List.cons_append] at hr ⊢
          simp only [scan, hr, List.cons_append]
          rw [hback, ← hscan]
          exact congrArg _ (scan_flagless hflag _ _ _ _ _)
    | succ skip =>
      obtain ⟨inner, hin, hscan⟩ := ih h.tail skip (pos + 1) (by
        rw [List.length_cons] at hskip; omega)
      refine ⟨inner, fun f hf => (hin f hf).cons, ?_⟩
      rw [List.cons_append]
      simp only [scan]
      rw [hback, ← hscan]
      exact scan_flagless hflag _ _ _ _ _

/-- Nothing is found in a piece of text without matches. -/
theorem scan_quiet (hflag : rule.Flagless) {piece rest : List Char} (h : rule.Quiet piece rest)
    (pos : Nat) :
    scan rule 0 pos true (piece ++ rest) = scan rule 0 (pos + piece.length) true rest := by
  obtain ⟨inner, hin, hscan⟩ := scan_append hflag h.within 0 pos (Nat.zero_le _)
  have hnil : inner = [] := List.eq_nil_iff_forall_not_mem.mpr fun f hf => by
    obtain ⟨i, n, hi, -, -, -, hr⟩ := hin f hf
    rw [h i hi] at hr
    exact nomatch hr
  rw [hscan, hnil, List.nil_append]

/-- A match at the start of a text is found. -/
theorem mem_scan_of_applies {cs : List Char} {n : Nat} {p : Placeholder}
    (h : rule true cs = some (n, p)) (pos : Nat) : ⟨pos, pos + n, p⟩ ∈ scan rule 0 pos true cs := by
  cases cs <;> simp [scan, h]

/-- Every match is found, when no match starts inside another. -/
theorem exists_mem_scan (hflag : rule.Flagless) (hnil : rule true [] = none)
    (hnest : ∀ cs n p, rule true cs = some (n, p) → ∀ j, 0 < j → j < n →
      rule true (cs.drop j) = none)
    {skip pos : Nat} {flag : Bool} {cs : List Char} (hskip : ∀ j < skip, rule true (cs.drop j) = none)
    {i : Nat} (hi : rule true (cs.drop i) ≠ none) :
    ∃ f ∈ scan rule skip pos flag cs, f.start = pos + i := by
  induction cs generalizing skip pos flag i with
  | nil => rw [List.drop_nil] at hi; exact absurd hnil hi
  | cons c cs ih =>
    have hback : ∀ {i' skip'}, i = i' + 1 → (∀ j < skip', rule true (cs.drop j) = none) →
        ∃ f ∈ scan rule skip' (pos + 1) (c == '\n') cs, f.start = pos + i := by
      intro i' skip' he hs
      subst he
      obtain ⟨f, hf, hstart⟩ : ∃ f ∈ scan rule skip' (pos + 1) (c == '\n') cs,
        f.start = pos + 1 + i' := ih hs hi
      exact ⟨f, hf, by omega⟩
    cases skip with
    | zero =>
      rcases Nat.eq_zero_or_pos i with rfl | hpos
      · obtain ⟨q, hq⟩ := Option.ne_none_iff_exists'.mp hi
        rw [List.drop_zero, hflag true flag] at hq
        obtain ⟨n, p⟩ := q
        exact ⟨_, by simp only [scan, hq]; exact List.mem_cons_self, rfl⟩
      · obtain ⟨i', rfl⟩ : ∃ i', i = i' + 1 := ⟨i - 1, by omega⟩
        cases hq : rule flag (c :: cs) with
        | none =>
          simp only [scan, hq]
          exact hback rfl fun j hj => absurd hj (Nat.not_lt_zero j)
        | some q =>
          obtain ⟨n, p⟩ := q
          have hinside : ∀ j < n - 1, rule true (cs.drop j) = none := fun j hj => by
            rw [hflag flag true] at hq
            exact hnest (c :: cs) n p hq (j + 1) (by omega) (by omega)
          obtain ⟨f, hf, hstart⟩ := hback rfl hinside
          simp only [scan, hq]
          exact ⟨f, List.mem_cons_of_mem _ hf, hstart⟩
    | succ skip =>
      rcases Nat.eq_zero_or_pos i with rfl | hpos
      · exact absurd (hskip 0 (by omega)) hi
      · obtain ⟨i', rfl⟩ : ∃ i', i = i' + 1 := ⟨i - 1, by omega⟩
        simp only [scan]
        exact hback rfl fun j hj => hskip (j + 1) (by omega)

/-! ## Starts of lines -/

/-- A line starts behind a piece of text; `flag` says so of the place where the piece
starts. -/
def lineStarts (flag : Bool) (front : List Char) : Bool :=
  match front.getLast? with
  | none => flag
  | some c => c == '\n'

theorem lineStarts_cons (flag : Bool) (c : Char) (front : List Char) :
    lineStarts flag (c :: front) = lineStarts (c == '\n') front := by
  unfold lineStarts
  rw [List.getLast?_cons]
  cases front.getLast? <;> rfl

/-! ## Matches that cover a piece -/

/-- What a match takes is skipped. -/
theorem scan_skip (rule : Rule) (piece rest : List Char) (pos : Nat) (flag : Bool) :
    scan rule piece.length pos flag (piece ++ rest) =
      scan rule 0 (pos + piece.length) (lineStarts flag piece) rest := by
  induction piece generalizing pos flag with
  | nil => rfl
  | cons c piece ih =>
    rw [List.length_cons, List.cons_append]
    simp only [scan]
    rw [ih, lineStarts_cons, Nat.add_right_comm, Nat.add_assoc]

/-- A match that covers a piece of text is found, and the scan goes on behind it. -/
theorem scan_cover {piece rest : List Char} {p : Placeholder} (hne : piece ≠ []) {flag : Bool}
    (h : rule flag (piece ++ rest) = some (piece.length, p)) (pos : Nat) :
    scan rule 0 pos flag (piece ++ rest) =
      ⟨pos, pos + piece.length, p⟩ ::
        scan rule 0 (pos + piece.length) (lineStarts flag piece) rest := by
  obtain ⟨c, cs, rfl⟩ := List.exists_cons_of_ne_nil hne
  rw [List.cons_append] at h ⊢
  simp only [scan, h]
  rw [List.length_cons, Nat.add_sub_cancel, scan_skip, lineStarts_cons, Nat.add_right_comm,
    Nat.add_assoc]

theorem scan_whole (hflag : rule.Flagless) {piece rest : List Char} {p : Placeholder}
    (hne : piece ≠ []) (h : rule true (piece ++ rest) = some (piece.length, p)) (pos : Nat) :
    scan rule 0 pos true (piece ++ rest) =
      ⟨pos, pos + piece.length, p⟩ :: scan rule 0 (pos + piece.length) true rest := by
  rw [scan_cover hne h, scan_flagless hflag _ _ _ true]

/-- A scan comes to the end of the piece: a match covers it, or those that start in
it stay in it. -/
def Rule.Passes (rule : Rule) (piece rest : List Char) : Prop :=
  (piece ≠ [] ∧ ∃ p, rule true (piece ++ rest) = some (piece.length, p)) ∨ rule.Within piece rest

theorem scan_passes (hflag : rule.Flagless) {piece rest : List Char} (h : rule.Passes piece rest)
    (pos : Nat) :
    ∃ inner, scan rule 0 pos true (piece ++ rest) =
      inner ++ scan rule 0 (pos + piece.length) true rest := by
  rcases h with ⟨hne, p, happ⟩ | h
  · exact ⟨[_], scan_whole hflag hne happ pos⟩
  · obtain ⟨inner, -, hscan⟩ := scan_append hflag h 0 pos (Nat.zero_le _)
    exact ⟨inner, hscan⟩

/-- A find is a place where the rule applies with what is in front of it. -/
theorem applies_behind_of_mem_scan {skip pos : Nat} {flag : Bool} {cs : List Char} {f : Found}
    (h : f ∈ scan rule skip pos flag cs) :
    ∃ front back n, cs = front ++ back ∧ f.start = pos + front.length ∧ f.stop = f.start + n ∧
      rule (lineStarts flag front) back = some (n, f.placeholder) := by
  induction cs generalizing skip pos flag with
  | nil =>
    cases skip with
    | zero =>
      cases hr : rule flag [] with
      | none => simp [scan, hr] at h
      | some q =>
        obtain ⟨n, p⟩ := q
        simp only [scan, hr, List.mem_singleton] at h
        subst h
        exact ⟨[], [], n, rfl, rfl, rfl, hr⟩
    | succ skip => simp [scan] at h
  | cons c cs ih =>
    -- What is found behind the first character, with that character in front.
    have hrest : ∀ {skip' : Nat}, f ∈ scan rule skip' (pos + 1) (c == '\n') cs →
        ∃ front back n, c :: cs = front ++ back ∧ f.start = pos + front.length ∧
          f.stop = f.start + n ∧ rule (lineStarts flag front) back = some (n, f.placeholder) := by
      intro skip' hf
      obtain ⟨front, back, n, rfl, hstart, hstop, hr⟩ := ih hf
      refine ⟨c :: front, back, n, rfl, ?_, hstop, ?_⟩
      · rw [List.length_cons]
        omega
      · rwa [lineStarts_cons]
    cases skip with
    | zero =>
      cases hr : rule flag (c :: cs) with
      | none =>
        simp only [scan, hr] at h
        exact hrest h
      | some q =>
        obtain ⟨n, p⟩ := q
        simp only [scan, hr, List.mem_cons] at h
        rcases h with rfl | h
        · exact ⟨[], c :: cs, n, rfl, rfl, rfl, hr⟩
        · exact hrest h
    | succ skip =>
      simp only [scan] at h
      exact hrest h

/-! ## Finds of one scan -/

theorem Apart.mono {m n : Nat} {fs : List Found} (h : Apart n fs) (hmn : m ≤ n) : Apart m fs := by
  cases fs with
  | nil => trivial
  | cons f fs => exact ⟨Nat.le_trans hmn h.1, h.2⟩

/-- A rule that takes something wherever it applies finds pieces that lie apart. -/
theorem apart_scan (hsome : ∀ flag cs n p, rule flag cs = some (n, p) → 0 < n)
    (skip pos : Nat) (flag : Bool) (cs : List Char) :
    Apart (pos + skip) (scan rule skip pos flag cs) := by
  induction cs generalizing skip pos flag with
  | nil =>
    cases skip with
    | zero =>
      simp only [scan]
      split
      · exact ⟨Nat.le_refl _, trivial⟩
      · trivial
    | succ skip => trivial
  | cons c cs ih =>
    cases skip with
    | zero =>
      simp only [scan]
      split
      · rename_i n p h
        have hn := hsome _ _ _ _ h
        have hrest := ih (n - 1) (pos + 1) (c == '\n')
        rw [show pos + 1 + (n - 1) = pos + n by omega] at hrest
        exact ⟨Nat.le_refl _, hrest⟩
      · exact (ih 0 (pos + 1) (c == '\n')).mono (by omega)
    | succ skip =>
      simp only [scan]
      rw [show pos + (skip + 1) = pos + 1 + skip by omega]
      exact ih skip (pos + 1) (c == '\n')

/-- Moves a find to the right. -/
def Found.moved (n : Nat) (f : Found) : Found := { f with start := f.start + n, stop := f.stop + n }

/-- Where a scan starts from only moves its finds. -/
theorem scan_moved (rule : Rule) (skip pos n : Nat) (flag : Bool) (cs : List Char) :
    scan rule skip (pos + n) flag cs = (scan rule skip pos flag cs).map (Found.moved n) := by
  induction cs generalizing skip pos flag with
  | nil =>
    cases skip with
    | zero =>
      simp only [scan]
      cases rule flag [] with
      | none => rfl
      | some q => simp [Found.moved, Nat.add_right_comm]
    | succ skip => rfl
  | cons c cs ih =>
    have hrest : ∀ skip', scan rule skip' (pos + n + 1) (c == '\n') cs =
        (scan rule skip' (pos + 1) (c == '\n') cs).map (Found.moved n) := by
      intro skip'
      rw [Nat.add_right_comm, ih]
    cases skip with
    | zero =>
      simp only [scan]
      cases rule flag (c :: cs) with
      | none => exact hrest 0
      | some q => simp [hrest, Found.moved, Nat.add_right_comm]
    | succ skip => exact hrest skip

/-! ## A piece in front of two texts -/

/-- A match that starts in a piece and ends in it is the same in front of both texts. -/
def Rule.SameIn (rule : Rule) (piece a b : List Char) : Prop :=
  ∀ u flag n p, u <:+ piece → u ≠ [] → n ≤ u.length →
    (rule flag (u ++ a) = some (n, p) ↔ rule flag (u ++ b) = some (n, p))

/-- A match goes from a piece into the text behind it. -/
def Rule.Crosses (rule : Rule) (flag : Bool) (piece rest : List Char) : Prop :=
  ∃ n p, piece.length < n ∧ rule flag (piece ++ rest) = some (n, p)

/-- A scan finds the same in a piece in front of two texts, and goes on behind the piece in
both, when it does not go from the piece into the first text, nor a match into the second
one only. -/
theorem scan_front {piece a b : List Char} (hsame : rule.SameIn piece a b)
    (hcross : ∀ u flag, u <:+ piece → u ≠ [] → rule.Crosses flag u b → rule.Crosses flag u a)
    {skip pos : Nat} {flag : Bool} (hskip : skip ≤ piece.length)
    (hstays : ∀ f ∈ scan rule skip pos flag (piece ++ a), f.start < pos + piece.length →
      f.stop ≤ pos + piece.length) :
    ∃ inner, (∀ f ∈ inner, f.start < pos + piece.length ∧ f.stop ≤ pos + piece.length) ∧
      scan rule skip pos flag (piece ++ a) =
        inner ++ scan rule 0 (pos + piece.length) (lineStarts flag piece) a ∧
      scan rule skip pos flag (piece ++ b) =
        inner ++ scan rule 0 (pos + piece.length) (lineStarts flag piece) b := by
  induction piece generalizing skip pos flag with
  | nil =>
    obtain rfl : skip = 0 := by simpa using hskip
    exact ⟨[], fun f hf => absurd hf List.not_mem_nil, rfl, rfl⟩
  | cons c piece ih =>
    have hpos : pos + (c :: piece).length = pos + 1 + piece.length := by
      rw [List.length_cons]
      omega
    have htail : rule.SameIn piece a b := fun u flag n p hu =>
      hsame u flag n p (hu.trans (List.suffix_cons c piece))
    have hnext := fun skip' (hskip' : skip' ≤ piece.length)
      (hstays' : ∀ f ∈ scan rule skip' (pos + 1) (c == '\n') (piece ++ a),
        f.start < pos + 1 + piece.length → f.stop ≤ pos + 1 + piece.length) =>
      ih htail (fun u flag hu => hcross u flag (hu.trans (List.suffix_cons c piece)))
        hskip' hstays'
    have hwhole : c :: piece <:+ c :: piece := List.suffix_refl _
    rw [hpos] at hstays ⊢
    rw [lineStarts_cons]
    simp only [List.cons_append] at hstays ⊢
    cases skip with
    | succ skip =>
      simp only [scan] at hstays ⊢
      exact hnext skip (by rw [List.length_cons] at hskip; omega) hstays
    | zero =>
      cases ha : rule flag (c :: (piece ++ a)) with
      | some q =>
        obtain ⟨n, p⟩ := q
        simp only [scan, ha, List.mem_cons, forall_eq_or_imp] at hstays
        have hn : n ≤ (c :: piece).length := by
          have := hstays.1 (by omega)
          rw [List.length_cons]
          omega
        have hb : rule flag (c :: (piece ++ b)) = some (n, p) :=
          (hsame _ flag n p hwhole (List.cons_ne_nil c piece) hn).mp ha
        obtain ⟨inner, hin, h1, h2⟩ := hnext (n - 1)
          (by rw [List.length_cons] at hn; omega) hstays.2
        refine ⟨⟨pos, pos + n, p⟩ :: inner, ?_, ?_, ?_⟩
        · rintro f hf
          rcases List.mem_cons.mp hf with rfl | hf
          · exact ⟨by simp only; omega, hstays.1 (by omega)⟩
          · exact hin f hf
        · simp only [scan, ha, h1, List.cons_append]
        · simp only [scan, hb, h2, List.cons_append]
      | none =>
        -- A match in front of the second text would be one in front of the first.
        have hb : rule flag (c :: (piece ++ b)) = none := by
          refine Option.eq_none_iff_forall_ne_some.mpr fun q hq => ?_
          obtain ⟨n, p⟩ := q
          rcases Nat.lt_or_ge (c :: piece).length n with hlt | hge
          · obtain ⟨m, q, -, hm⟩ :=
              hcross _ flag hwhole (List.cons_ne_nil c piece) ⟨n, p, hlt, hq⟩
            exact nomatch ha.symm.trans hm
          · exact nomatch ha.symm.trans
              ((hsame _ flag n p hwhole (List.cons_ne_nil c piece) hge).mpr hq)
        simp only [scan, ha] at hstays
        obtain ⟨inner, hin, h1, h2⟩ := hnext 0 (Nat.zero_le _) hstays
        exact ⟨inner, hin, by simp only [scan, ha, h1], by simp only [scan, hb, h2]⟩

end AgentRelay.Body
