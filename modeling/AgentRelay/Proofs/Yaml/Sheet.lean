import AgentRelay.Yaml.Writer.Sheet

/-
  What stands on the last line of a sheet.

  A rule is a line of three dashes. A sheet is `Open` when its last line does not
  start like a rule; where something that is no dash stands among the first three
  characters the line is `Begun`, and then nothing that is put on it makes it a
  rule. Scalars keep a begun line begun in every style (`Behind.plain`,
  `Open.single`, `Open.double`, `Open.bar`), because a line that they fold goes on
  behind an indentation.
-/

namespace AgentRelay.Yaml

/-- Three dashes. -/
abbrev dashes : List Char := ['-', '-', '-']

/-- The characters stand within one line. -/
def InLine (cs : List Char) : Prop := ∀ c ∈ cs, c ≠ '\n' ∧ c ≠ '\r'

instance (cs : List Char) : Decidable (InLine cs) :=
  List.decidableBAll (fun c => c ≠ '\n' ∧ c ≠ '\r') cs

/-- A line that is no rule and does not start like one. -/
structure IsLine (l : List Char) : Prop where
  inLine : InLine l
  free : ¬ dashes <+: l

/-- Lines, each with its end. -/
def whole (lines : List (List Char)) : List Char := lines.flatMap (· ++ ['\n'])

namespace InLine

theorem nil : InLine [] := fun _ h => absurd h List.not_mem_nil

theorem cons {c : Char} {cs : List Char} (hn : c ≠ '\n') (hr : c ≠ '\r') (h : InLine cs) :
    InLine (c :: cs) := List.forall_mem_cons.mpr ⟨⟨hn, hr⟩, h⟩

theorem append {cs ds : List Char} (hc : InLine cs) (hd : InLine ds) : InLine (cs ++ ds) :=
  List.forall_mem_append.mpr ⟨hc, hd⟩

theorem subset {cs ds : List Char} (h : InLine ds) (hs : cs ⊆ ds) : InLine cs :=
  fun c hc => h c (hs hc)

theorem reverse {cs : List Char} (h : InLine cs) : InLine cs.reverse :=
  h.subset fun _ hc => List.mem_reverse.mp hc

theorem replicate (n : Nat) : InLine (List.replicate n ' ') :=
  fun c hc => by rw [List.eq_of_mem_replicate hc]; decide

end InLine

/-! ## Lines on their way -/

/-- Something that is no dash stands among the first three characters. -/
def Started (l : List Char) : Prop := ∃ c ∈ l.take 3, c ≠ '-'

theorem Started.append {l : List Char} (h : Started l) (cs : List Char) : Started (l ++ cs) := by
  obtain ⟨c, hc, hne⟩ := h
  refine ⟨c, ?_, hne⟩
  rw [List.take_append]
  exact List.mem_append_left _ hc

theorem Started.free {l : List Char} (h : Started l) : ¬ dashes <+: l := by
  rintro ⟨rest, rfl⟩
  obtain ⟨c, hc, hne⟩ := h
  simp [dashes] at hc
  exact hne hc

/-- What does not start like a rule cannot become one behind another character. -/
theorem started_of_free {l : List Char} (h : ¬ dashes <+: l) {c : Char} (hc : c ≠ '-')
    (cs : List Char) : Started (l ++ c :: cs) := by
  refine Classical.byContradiction fun hnot => h ?_
  have hall : ∀ d ∈ (l ++ c :: cs).take 3, d = '-' := fun d hd =>
    Classical.byContradiction fun hne => hnot ⟨d, hd, hne⟩
  match l, hall with
  | [], hall => exact absurd (hall c (by simp)) hc
  | [a], hall => exact absurd (hall c (by simp)) hc
  | [a, b], hall => exact absurd (hall c (by simp)) hc
  | a :: b :: d :: l, hall =>
    have ha : a = '-' := hall a (by simp)
    have hb : b = '-' := hall b (by simp)
    have hd : d = '-' := hall d (by simp)
    subst ha hb hd
    exact ⟨l, rfl⟩

theorem free_of_started_append {l : List Char} (h : ¬ dashes <+: l) {c : Char} (hc : c ≠ '-') :
    ¬ dashes <+: l ++ [c] := (started_of_free h hc []).free

/-- The sheet ends with a line of these characters; the lines before are whole. -/
def Sheet.Holds (s : Sheet) (l : List Char) : Prop :=
  InLine l ∧ ∃ lines, (∀ x ∈ lines, IsLine x) ∧ s.toList = whole lines ++ l

namespace Sheet

variable {s : Sheet} {l cs : List Char} {c : Char} {n : Nat}

theorem toList_put (cs : List Char) (s : Sheet) : (put cs s).toList = s.toList ++ cs := by
  simp [put, toList]

theorem Holds.congr {s' : Sheet} (h : s.Holds l) (hs : s'.reversed = s.reversed) : s'.Holds l := by
  obtain ⟨hl, lines, hlines, hall⟩ := h
  refine ⟨hl, lines, hlines, ?_⟩
  rw [← hall, toList, hs, ← toList]

theorem Holds.put (h : s.Holds l) (hcs : InLine cs) : (put cs s).Holds (l ++ cs) := by
  obtain ⟨hl, lines, hlines, hall⟩ := h
  exact ⟨hl.append hcs, lines, hlines, by rw [toList_put, hall, List.append_assoc]⟩

theorem Holds.feed (h : s.Holds l) (hfree : ¬ dashes <+: l) : (newLine '\n' s).Holds [] := by
  obtain ⟨hl, lines, hlines, hall⟩ := h
  refine ⟨InLine.nil, lines ++ [l], ?_, ?_⟩
  · intro x hx
    rcases List.mem_append.mp hx with hx | hx
    · exact hlines x hx
    · rw [List.mem_singleton.mp hx]
      exact ⟨hl, hfree⟩
  · have : (newLine '\n' s).toList = s.toList ++ ['\n'] := by simp [newLine, toList]
    simp [this, hall, whole]

theorem Holds.newLine (h : s.Holds l) (hn : c ≠ '\n') (hr : c ≠ '\r') :
    (newLine c s).Holds (l ++ [c]) := by
  have hput := h.put (InLine.nil.cons hn hr)
  exact hput.congr rfl

/-! ## What the last line is like -/

/-- The last line does not start like a rule. -/
def Open (s : Sheet) : Prop := ∃ l, s.Holds l ∧ ¬ dashes <+: l

/-- A line is about to start. -/
structure Fresh (s : Sheet) : Prop where
  holds : s.Holds []
  column : s.column = 0
  blank : s.blank = true
  margin : s.margin = true

/-- The last line can no longer become a rule. -/
structure Begun (s : Sheet) : Prop where
  holds : ∃ l, s.Holds l ∧ Started l
  column : 0 < s.column

/-- The last line is a dash, and a space has to follow. -/
structure Dashed (s : Sheet) : Prop where
  holds : s.Holds ['-']
  column : s.column = 1
  blank : s.blank = false

/-- Something stands on the last line. -/
def Behind (s : Sheet) : Prop := s.Begun ∨ s.Dashed

/-- An entry may follow. -/
def Ready (s : Sheet) : Prop := s.Fresh ∨ s.Behind

theorem fresh_empty : Fresh empty where
  holds := ⟨InLine.nil, [], fun _ h => absurd h List.not_mem_nil, rfl⟩
  column := rfl
  blank := rfl
  margin := rfl

theorem Begun.opens (h : s.Begun) : s.Open := by
  obtain ⟨l, hl, hstarted⟩ := h.holds
  exact ⟨l, hl, hstarted.free⟩

theorem Fresh.opens (h : s.Fresh) : s.Open := ⟨[], h.holds, by decide⟩

theorem Dashed.opens (h : s.Dashed) : s.Open := ⟨['-'], h.holds, by decide⟩

theorem Behind.opens (h : s.Behind) : s.Open := h.elim Begun.opens Dashed.opens

theorem Ready.opens (h : s.Ready) : s.Open := h.elim Fresh.opens Behind.opens

theorem Begun.ready (h : s.Begun) : s.Ready := .inr (.inl h)

theorem Begun.congr {s' : Sheet} (h : s.Begun) (hs : s'.reversed = s.reversed)
    (hc : s'.column = s.column) : s'.Begun := by
  obtain ⟨l, hl, hstarted⟩ := h.holds
  exact ⟨⟨l, hl.congr hs, hstarted⟩, hc ▸ h.column⟩

theorem Begun.inText (h : s.Begun) : (inText s).Begun := h.congr rfl rfl

theorem Begun.put (h : s.Begun) (hcs : InLine cs) : (put cs s).Begun := by
  obtain ⟨l, hl, hstarted⟩ := h.holds
  exact ⟨⟨_, hl.put hcs, hstarted.append cs⟩, Nat.lt_of_lt_of_le h.column (Nat.le_add_right _ _)⟩

/-- A character that is no dash begins the line. -/
theorem Open.put (h : s.Open) (hc : c ≠ '-') (hcs : InLine (c :: cs)) :
    (Sheet.put (c :: cs) s).Begun := by
  obtain ⟨l, hl, hfree⟩ := h
  refine ⟨⟨_, hl.put hcs, started_of_free hfree hc cs⟩, ?_⟩
  exact Nat.add_pos_right _ (Nat.succ_pos _)

theorem Open.space (h : s.Open) (hcs : InLine cs) : (Sheet.put (' ' :: cs) s).Begun :=
  h.put (by decide) (hcs.cons (by decide) (by decide))

theorem Open.feed (h : s.Open) : (newLine '\n' s).Fresh := by
  obtain ⟨l, hl, hfree⟩ := h
  exact ⟨hl.feed hfree, rfl, rfl, rfl⟩

theorem Open.newLine (h : s.Open) (hc : c ≠ '\r') (hdash : c ≠ '-') : (newLine c s).Open := by
  by_cases hn : c = '\n'
  · subst hn
    exact h.feed.opens
  · obtain ⟨l, hl, hfree⟩ := h
    exact ⟨_, hl.newLine hn hc, free_of_started_append hfree hdash⟩

/-! ## Marks and indentation -/

theorem Open.mark (h : s.Open) (hc : c ≠ '-') (hcs : InLine (c :: cs)) (apart indents : Bool) :
    (mark (c :: cs) apart indents s).Begun := by
  unfold Sheet.mark
  by_cases hb : (s.blank || !apart) = true
  · rw [if_pos hb]
    exact (h.put hc hcs).congr rfl rfl
  · rw [if_neg hb]
    exact (h.space hcs).congr rfl rfl

theorem Begun.mark (h : s.Begun) (hcs : InLine cs) (apart indents : Bool) :
    (mark cs apart indents s).Begun := by
  unfold Sheet.mark
  by_cases hb : (s.blank || !apart) = true
  · rw [if_pos hb]
    exact (h.put hcs).congr rfl rfl
  · rw [if_neg hb]
    exact (h.put (hcs.cons (by decide) (by decide))).congr rfl rfl

/-- The dash of an item. -/
theorem Ready.dash (h : s.Ready) : (Sheet.mark ['-'] true true s).Behind := by
  have hdash : InLine ['-'] := InLine.nil.cons (by decide) (by decide)
  rcases h with h | h | h
  · have hs : Sheet.mark ['-'] true true s = { Sheet.put ['-'] s with blank := false } := by
      simp [Sheet.mark, h.blank, Sheet.put]
    rw [hs]
    exact .inr ⟨(h.holds.put hdash).congr rfl, by simp [Sheet.put, h.column], rfl⟩
  · exact .inl (h.mark hdash true true)
  · refine .inl ?_
    unfold Sheet.mark
    rw [h.blank, if_neg (by decide)]
    exact (h.opens.space hdash).congr rfl rfl

/-- Spaces up to a column begin the line. -/
theorem Open.pad (h : s.Open) (hless : s.column < n) :
    Begun { Sheet.put (List.replicate (n - s.column) ' ') s with blank := true } := by
  obtain ⟨m, hm⟩ := Nat.exists_eq_succ_of_ne_zero (Nat.sub_ne_zero_of_lt hless)
  rw [hm, List.replicate_succ]
  exact (h.space (InLine.replicate m)).congr rfl rfl

/-- An indentation needs a line of its own. -/
def needsLine (n : Nat) (s : Sheet) : Bool :=
  !s.margin || s.column > n || (s.column == n && !s.blank)

theorem indentTo_of_not_needsLine (h : needsLine n s = false) :
    indentTo n s =
      if s.column < n then { put (List.replicate (n - s.column) ' ') s with blank := true }
      else s := by
  unfold needsLine at h
  unfold indentTo
  rw [h]
  rfl

theorem indentTo_of_needsLine (h : needsLine n s = true) :
    indentTo n s = indentTo n (newLine '\n' s) := by
  have hnew : needsLine n (newLine '\n' s) = false := by simp [needsLine, newLine]
  rw [indentTo_of_not_needsLine hnew]
  unfold needsLine at h
  unfold indentTo
  rw [if_pos h]

theorem Fresh.needsLine (h : s.Fresh) (n : Nat) : needsLine n s = false := by
  simp [Sheet.needsLine, h.column, h.margin, h.blank]

theorem Fresh.indentTo (h : s.Fresh) (hn : 0 < n) : (indentTo n s).Begun := by
  rw [indentTo_of_not_needsLine (h.needsLine n), if_pos (by rw [h.column]; exact hn)]
  exact h.opens.pad (by rw [h.column]; exact hn)

theorem Begun.indentTo (h : s.Begun) (hn : 0 < n) : (indentTo n s).Begun := by
  cases hnew : Sheet.needsLine n s with
  | true =>
    rw [indentTo_of_needsLine hnew]
    exact h.opens.feed.indentTo hn
  | false =>
    rw [indentTo_of_not_needsLine hnew]
    by_cases hless : s.column < n
    · rw [if_pos hless]
      exact h.opens.pad hless
    · rw [if_neg hless]
      exact h

theorem Dashed.indentTo (h : s.Dashed) (hn : 0 < n) : (indentTo n s).Begun := by
  cases hnew : Sheet.needsLine n s with
  | true =>
    rw [indentTo_of_needsLine hnew]
    exact h.opens.feed.indentTo hn
  | false =>
    -- A dash at the column itself would need a new line.
    have hless : s.column < n := by
      simp only [Sheet.needsLine, h.column, h.blank, Bool.or_eq_false_iff] at hnew
      have hne : ¬ 1 = n := fun he => by simp [he] at hnew
      rw [h.column]
      omega
    rw [indentTo_of_not_needsLine hnew, if_pos hless]
    exact h.opens.pad hless

/-- Behind an indentation a line has begun. -/
theorem Ready.indentTo (h : s.Ready) (hn : 0 < n) : (indentTo n s).Begun := by
  rcases h with h | h | h
  · exact h.indentTo hn
  · exact h.indentTo hn
  · exact h.indentTo hn

/-- Without indentation a new line starts. -/
theorem Ready.indentToZero (h : s.Ready) : (Sheet.indentTo 0 s).Fresh := by
  have hnew (hc : 0 < s.column) (hopen : s.Open) : (Sheet.indentTo 0 s).Fresh := by
    have hneeds : needsLine 0 s = true := by simp [needsLine, hc]
    rw [indentTo_of_needsLine hneeds, indentTo_of_not_needsLine (hopen.feed.needsLine 0),
      if_neg (Nat.not_lt_zero _)]
    exact hopen.feed
  rcases h with h | h | h
  · rwa [indentTo_of_not_needsLine (h.needsLine 0), if_neg (Nat.not_lt_zero _)]
  · exact hnew h.column h.opens
  · exact hnew (by rw [h.column]; exact Nat.one_pos) h.opens

/-- Behind an indentation a line is about to start or has begun. -/
theorem Ready.indented (h : s.Ready) (n : Nat) :
    (Sheet.indentTo n s).Fresh ∨ (Sheet.indentTo n s).Begun := by
  cases n with
  | zero => exact .inl h.indentToZero
  | succ n => exact .inr (h.indentTo (Nat.succ_pos n))

end Sheet

/-! ## What a text allows -/

namespace Analysis

theorem scan_special (last : Char) (cs : List Char) (seen : Seen) :
    (scan last cs seen).special = (seen.special || cs.any isSpecial) := by
  induction cs generalizing last seen with
  | nil => simp [scan]
  | cons c cs ih => simp only [scan, ih, List.any_cons, Bool.or_assoc]

theorem scan_lines (last : Char) (cs : List Char) (seen : Seen) :
    (scan last cs seen).lines = (seen.lines || cs.any isLineEnd) := by
  induction cs generalizing last seen with
  | nil => simp [scan]
  | cons c cs ih => simp only [scan, ih, List.any_cons, Bool.or_assoc]

theorem scan_marks (last : Char) (cs : List Char) {seen : Seen} (h : seen.marks = true) :
    (scan last cs seen).marks = true := by
  induction cs generalizing last seen with
  | nil => exact h
  | cons c cs ih => exact ih _ (by simp [h])

theorem look_special (c : Char) (cs : List Char) :
    (look c cs).special = (c :: cs).any isSpecial := by
  simp [look, scan_special]

theorem look_lines (c : Char) (cs : List Char) : (look c cs).lines = (c :: cs).any isLineEnd := by
  simp [look, scan_lines]

theorem ne_return_of_not_special {c : Char} (h : isSpecial c = false) : c ≠ '\r' :=
  fun hc => absurd (hc ▸ h) (by decide)

theorem ne_feed_of_not_end {c : Char} (h : isLineEnd c = false) : c ≠ '\n' :=
  fun hc => absurd (hc ▸ h) (by decide)

/-- Single quotes hold no special character. -/
theorem not_special_of_single {cs : List Char} (h : (of cs).single = true) :
    ∀ c ∈ cs, isSpecial c = false := by
  cases cs with
  | nil => exact fun _ hc => absurd hc List.not_mem_nil
  | cons c cs =>
    have hlook : (look c cs).special = false := by
      simp only [of, Bool.not_eq_true', Bool.or_eq_false_iff] at h
      exact h.2.2
    rw [look_special, List.any_eq_false] at hlook
    exact fun d hd => Bool.eq_false_iff.mpr (hlook d hd)

/-- Blocks hold no special character either. -/
theorem not_special_of_block {cs : List Char} (h : (of cs).block = true) :
    ∀ c ∈ cs, isSpecial c = false := by
  cases cs with
  | nil => exact fun _ hc => absurd hc List.not_mem_nil
  | cons c cs =>
    have hlook : (look c cs).special = false := by
      simp only [of, Bool.not_eq_true', Bool.or_eq_false_iff] at h
      exact h.2.2
    rw [look_special, List.any_eq_false] at hlook
    exact fun d hd => Bool.eq_false_iff.mpr (hlook d hd)

/-- A plain text stands within one line. -/
theorem inLine_of_plain {cs : List Char} (h : (of cs).plain = true) : InLine cs := by
  cases cs with
  | nil => exact InLine.nil
  | cons c cs =>
    simp only [of, Bool.not_eq_true', Bool.or_eq_false_iff] at h
    have hspecial := h.1.1.2.2
    have hlines := h.1.2
    rw [look_special, List.any_eq_false] at hspecial
    rw [look_lines, List.any_eq_false] at hlines
    exact fun d hd => ⟨ne_feed_of_not_end (Bool.eq_false_iff.mpr (hlines d hd)),
      ne_return_of_not_special (Bool.eq_false_iff.mpr (hspecial d hd))⟩

/-- A plain text does not start like a rule. -/
theorem free_of_plain {cs : List Char} (h : (of cs).plain = true) : ¬ dashes <+: cs := by
  rintro ⟨rest, rfl⟩
  have hmarks : (look '-' ('-' :: '-' :: rest)).marks = true := scan_marks _ _ rfl
  simp only [dashes, List.cons_append, List.nil_append, of, hmarks, Bool.or_true,
    Bool.not_true] at h
  cases h

end Analysis

/-! ## Scalars on a sheet -/

namespace Sheet

variable {s : Sheet} {l cs : List Char} {n : Nat}

theorem takeWhile_append_drop (p : Char → Bool) (cs : List Char) :
    cs.takeWhile p ++ cs.drop (cs.takeWhile p).length = cs := by
  induction cs with
  | nil => rfl
  | cons c cs ih =>
    by_cases hc : p c = true
    · simp [hc, ih]
    · simp [hc]

theorem cut_append (p : Char → Bool) (cs : List Char) : (cut p cs).1 ++ (cut p cs).2 = cs :=
  List.takeWhile_append_dropWhile

theorem cut_subset (p : Char → Bool) (cs : List Char) :
    (cut p cs).1 ⊆ cs ∧ (cut p cs).2 ⊆ cs :=
  ⟨List.takeWhile_subset _, List.dropWhile_subset _⟩

theorem Begun.plainFrom (hn : 0 < n) (split : Bool) (fuel : Nat) (hcs : InLine cs)
    (h : s.Begun) : (plainFrom n split fuel cs s).Begun := by
  induction fuel generalizing cs s with
  | zero => exact h
  | succ fuel ih =>
    cases cs with
    | nil => exact h
    | cons c cs =>
      simp only [Sheet.plainFrom]
      by_cases hc : c = ' '
      · rw [if_pos hc]
        refine ih (hcs.subset (List.drop_subset _ _)) ?_
        split
        · exact (h.indentTo hn).inText
        · exact h.put (hcs.subset (List.takeWhile_subset _))
      · rw [if_neg hc]
        exact ih (hcs.subset (List.dropWhile_subset _)) (h.put (hcs.subset (List.takeWhile_subset _)))

/-- On one line a plain text is put as it is. -/
theorem Holds.plainFrom (fuel : Nat) (hfuel : cs.length < fuel) (hcs : InLine cs)
    (h : s.Holds l) : (plainFrom n false fuel cs s).Holds (l ++ cs) := by
  induction fuel generalizing cs s l with
  | zero => exact absurd hfuel (Nat.not_lt_zero _)
  | succ fuel ih =>
    cases cs with
    | nil => rwa [List.append_nil]
    | cons c cs =>
      simp only [Sheet.plainFrom]
      by_cases hc : c = ' '
      · have hall := takeWhile_append_drop (· == ' ') (c :: cs)
        have hlen : 0 < ((c :: cs).takeWhile (· == ' ')).length := by simp [hc]
        generalize (c :: cs).takeWhile (· == ' ') = blanks at hall hlen ⊢
        generalize (c :: cs).drop blanks.length = rest at hall ⊢
        rw [if_pos hc, if_neg (by simp), ← hall, ← List.append_assoc]
        rw [← hall] at hcs hfuel
        rw [List.length_append] at hfuel
        exact ih (by omega) (hcs.subset (List.subset_append_right _ _))
          (h.put (hcs.subset (List.subset_append_left _ _)))
      · have hall := cut_append (· == ' ') (c :: cs)
        have hlen : 0 < (cut (· == ' ') (c :: cs)).1.length := by simp [cut, hc]
        generalize cut (· == ' ') (c :: cs) = parts at hall hlen ⊢
        rw [if_neg hc, ← hall, ← List.append_assoc]
        rw [← hall] at hcs hfuel
        rw [List.length_append] at hfuel
        exact ih (by omega) (hcs.subset (List.subset_append_right _ _))
          (h.put (hcs.subset (List.subset_append_left _ _)))

/-- A plain text behind something. -/
theorem Behind.plain (hn : 0 < n) (split : Bool) (hcs : InLine cs) (h : s.Behind) :
    (Sheet.plain n split cs s).Behind := by
  unfold Sheet.plain
  by_cases hnil : cs.isEmpty = true
  · rwa [if_pos hnil]
  · rw [if_neg hnil]
    have hbegun : Begun (if s.blank then s else Sheet.put [' '] s) := by
      rcases h with h | h
      · split
        · exact h
        · exact h.opens.space InLine.nil
      · rw [h.blank]
        exact h.opens.space InLine.nil
    exact .inl (hbegun.inText.plainFrom hn split _ hcs)

/-- A plain key at the start of a line. -/
theorem Fresh.plain (hcs : InLine cs) (hfree : ¬ dashes <+: cs) (h : s.Fresh) :
    (Sheet.plain n false cs s).Open := by
  unfold Sheet.plain
  by_cases hnil : cs.isEmpty = true
  · rw [if_pos hnil]
    exact h.opens
  · rw [if_neg hnil, h.blank]
    have hheld : (Sheet.inText s).Holds [] := h.holds.congr rfl
    exact ⟨cs, hheld.plainFrom _ (Nat.lt_succ_self _) hcs, hfree⟩

theorem ne_of_isLineEnd {c : Char} (h : Analysis.isLineEnd c = true) : c ≠ '\r' ∧ c ≠ '-' :=
  ⟨fun he => absurd (he ▸ h) (by decide), fun he => absurd (he ▸ h) (by decide)⟩

theorem Open.newLines (hcs : ∀ c ∈ cs, Analysis.isLineEnd c = true) (h : s.Open) :
    (cs.foldl (fun s c => Sheet.newLine c s) s).Open := by
  induction cs generalizing s with
  | nil => exact h
  | cons c cs ih =>
    obtain ⟨hc, hcs⟩ := List.forall_mem_cons.mp hcs
    exact ih hcs (h.newLine (ne_of_isLineEnd hc).1 (ne_of_isLineEnd hc).2)

/-- Behind line ends between quotes comes an indentation. -/
theorem Open.breaks (hn : 0 < n) (hne : cs ≠ []) (hcs : ∀ c ∈ cs, Analysis.isLineEnd c = true)
    (h : s.Open) : (indentTo n (Sheet.breaks cs s)).Begun := by
  have hopen : (Sheet.breaks cs s).Open := by
    unfold Sheet.breaks
    refine Open.newLines hcs ?_
    split
    · exact h.feed.opens
    · exact h
  obtain ⟨init, last, rfl⟩ := List.eq_nil_or_concat cs |>.resolve_left hne
  obtain ⟨s', hs'⟩ : ∃ s', Sheet.breaks (init.concat last) s = Sheet.newLine last s' :=
    ⟨_, by unfold Sheet.breaks; rw [List.concat_eq_append, List.foldl_append]; rfl⟩
  rw [hs'] at hopen ⊢
  have hneeds : needsLine n (Sheet.newLine last s') = false := by
    simp [needsLine, Sheet.newLine]
  rw [indentTo_of_not_needsLine hneeds]
  exact (if_pos (c := (Sheet.newLine last s').column < n) hn) ▸ hopen.pad hn

theorem inLine_word {cs : List Char} (hcs : ∀ c ∈ cs, Analysis.isSpecial c = false)
    (hends : ∀ c ∈ cs, Analysis.isLineEnd c = false) : InLine cs := fun c hc =>
  ⟨Analysis.ne_feed_of_not_end (hends c hc), Analysis.ne_return_of_not_special (hcs c hc)⟩

theorem Begun.singleFrom (hn : 0 < n) (split : Bool) (fuel : Nat) (first : Bool)
    (hcs : ∀ c ∈ cs, Analysis.isSpecial c = false) (h : s.Begun) :
    (singleFrom n split fuel first cs s).Begun := by
  induction fuel generalizing cs s first with
  | zero => exact h
  | succ fuel ih =>
    cases cs with
    | nil => exact h
    | cons c cs =>
      have hdrop (k : Nat) : ∀ d ∈ (c :: cs).drop k, Analysis.isSpecial d = false :=
        fun d hd => hcs d (List.drop_subset _ _ hd)
      simp only [Sheet.singleFrom]
      by_cases hspace : c = ' '
      · rw [if_pos hspace]
        refine ih _ (hdrop _) ?_
        split
        · exact h.indentTo hn
        · refine h.put fun d hd => ?_
          have hblank : d = ' ' := beq_iff_eq.mp (List.all_eq_true.mp List.all_takeWhile d hd)
          subst hblank
          decide
      rw [if_neg hspace]
      by_cases hend : Analysis.isLineEnd c = true
      · rw [if_pos hend]
        refine ih _ (hdrop _) (h.opens.breaks hn ?_ (List.all_eq_true.mp List.all_takeWhile))
        rw [List.takeWhile_cons_of_pos hend]
        exact List.cons_ne_nil _ _
      rw [if_neg hend]
      by_cases hquote : c = '\x27'
      · rw [if_pos hquote]
        exact ih _ (fun d hd => hcs d (List.mem_cons_of_mem _ hd)) (h.put (by decide))
      · rw [if_neg hquote]
        refine ih _ (fun d hd => hcs d ((cut_subset _ _).2 hd)) (h.put ?_)
        refine inLine_word (fun d hd => hcs d ((cut_subset _ _).1 hd)) fun d hd => ?_
        have hword := List.all_eq_true.mp List.all_takeWhile d hd
        simp only [Bool.not_eq_true', Bool.or_eq_false_iff] at hword
        exact hword.1.2

theorem Open.single (hn : 0 < n) (split : Bool) (hcs : ∀ c ∈ cs, Analysis.isSpecial c = false)
    (h : s.Open) : (Sheet.single n split cs s).Begun :=
  ((h.mark (by decide) (by decide) true false).singleFrom hn split _ true hcs).mark (by decide)
    false false

theorem inLine_letter {c l : Char} (h : letter? c = some l) : InLine [l] := by
  unfold letter? at h
  split at h <;> cases h <;> decide

theorem inLine_hex (width n : Nat) : InLine (capitalHex width n) := by
  have hdigit : ∀ k < 16, InLine [(Literal.hexDigit k).toUpper] := by decide
  induction width generalizing n with
  | zero => exact InLine.nil
  | succ width ih =>
    have hs : capitalHex (width + 1) n =
        capitalHex width (n / 16) ++ [(Literal.hexDigit (n % 16)).toUpper] := by
      simp [capitalHex, Literal.hex]
    rw [hs]
    exact (ih _).append (hdigit _ (Nat.mod_lt _ (by decide)))

theorem inLine_escape (c : Char) : InLine (escape c) := by
  have hmark (l : Char) (hl : InLine [l]) (cs : List Char) (hcs : InLine cs) :
      InLine ('\\' :: l :: cs) :=
    (InLine.append hl hcs).cons (by decide) (by decide)
  unfold escape
  split
  · exact hmark _ (inLine_letter ‹_›) [] InLine.nil
  · dsimp only
    split
    · exact hmark 'x' (by decide) _ (inLine_hex _ _)
    · split
      · exact hmark 'u' (by decide) _ (inLine_hex _ _)
      · exact hmark 'U' (by decide) _ (inLine_hex _ _)

theorem inLine_escapePoint (p : Point) : InLine (escapePoint p) := by
  cases p with
  | char c => exact inLine_escape c
  | half h => exact ((inLine_hex 4 h.number).cons (by decide) (by decide)).cons (by decide) (by decide)

theorem inLine_of_standsDouble {c : Char} (h : standsDouble c = true) : InLine [c] := by
  intro d hd
  rw [List.mem_singleton.mp hd]
  exact ⟨fun hc => absurd (hc ▸ h) (by decide), fun hc => absurd (hc ▸ h) (by decide)⟩

theorem inLine_of_pointStands {p : Point} (h : pointStands p = true) : InLine [p.shown] := by
  cases p with
  | char c => exact inLine_of_standsDouble h
  | half _ => exact nomatch h

/-- A line is folded with a backslash at its end, and in front of a blank. -/
theorem begun_fold (hn : 0 < n) {held : List Char} (hheld : InLine held) (next : Char)
    (h : s.Begun) :
    Begun (if next = ' ' then put ['\\'] (inText (indentTo n (put ('\\' :: held).reverse s)))
      else inText (indentTo n (put ('\\' :: held).reverse s))) := by
  have hmarked : InLine ('\\' :: held) := hheld.cons (by decide) (by decide)
  have hfolded := ((h.put hmarked.reverse).indentTo hn).inText
  split
  · exact hfolded.put (by decide)
  · exact hfolded

theorem Begun.doubleFrom (hn : 0 < n) (split : Bool) (first : Bool) {held : List Char}
    {ps : List Point} (hheld : InLine held) (h : s.Begun) :
    (doubleFrom n split first held ps s).Begun := by
  induction ps generalizing s first held with
  | nil => exact h.put hheld.reverse
  | cons p ps ih =>
    simp only [Sheet.doubleFrom]
    cases hp : pointStands p with
    | true =>
      have hone := inLine_of_pointStands hp
      simp only [if_true]
      split
      · exact ih _ hone (begun_fold hn hheld _ h)
      · exact ih _ (hone.append hheld) h
    | false =>
      have hs := (h.put hheld.reverse).put (inLine_escapePoint p)
      simp only [Bool.false_eq_true, if_false]
      split
      · exact ih _ InLine.nil (begun_fold hn InLine.nil _ hs)
      · exact ih _ InLine.nil hs

theorem Open.double (hn : 0 < n) (split : Bool) (ps : List Point) (h : s.Open) :
    (Sheet.double n split ps s).Begun :=
  ((h.mark (by decide) (by decide) true false).doubleFrom hn split true InLine.nil).mark
    (by decide) false false

/-- Lines under a bar. -/
theorem Open.bar (hn : 0 < n) {lines : List (List Char)} (hlines : ∀ l ∈ lines, InLine l)
    (h : s.Open) : (Sheet.bar n lines s).Fresh := by
  have hstart : (Sheet.newLine '\n' (Sheet.mark ['|'] true false s)).Fresh :=
    (h.mark (by decide) (by decide) true false).opens.feed
  unfold Sheet.bar
  generalize Sheet.newLine '\n' (Sheet.mark ['|'] true false s) = s' at hstart ⊢
  induction lines generalizing s' with
  | nil => exact hstart
  | cons l lines ih =>
    obtain ⟨hl, hlines⟩ := List.forall_mem_cons.mp hlines
    exact ih hlines _ ((hstart.indentTo hn).put hl).opens.feed

end Sheet

end AgentRelay.Yaml
