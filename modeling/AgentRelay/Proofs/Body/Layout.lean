import AgentRelay.Proofs.Body.Braced
import AgentRelay.Proofs.Body.Selection

/-
  Where the segments of a text lie, and what is read there.

  The text of some segments is read back as these segments when they are
  `Legible`: no rule applies inside a literal run, and every placeholder is one
  that can be read (`read_text_of_legible`). What a rule finds inside a payload
  starts inside the placeholder and is dropped (`scan_text`).
-/

namespace AgentRelay.Body

/-- Segments in front of a text whose literal runs hold no placeholder. -/
def Legible (tail : List Char) : List Segment → Prop
  | [] => True
  | .text t :: rest =>
    (∀ r ∈ bracedRules, r.Quiet t (Spelling.gemini.text rest ++ tail)) ∧ Legible tail rest
  | .placeholder p :: rest => Fits (Spelling.gemini.text rest ++ tail) p ∧ Legible tail rest

/-- Literal runs are not empty, and a placeholder stands between two of them. -/
def Separate : List Segment → Prop
  | [] => True
  | .text t :: rest => t ≠ [] ∧ (∀ u rest', rest ≠ .text u :: rest') ∧ Separate rest
  | .placeholder _ :: rest => Separate rest

/-- The places of the placeholders in the text of some segments. -/
def layout (s : Spelling) (pos : Nat) : List Segment → List Found
  | [] => []
  | .text t :: rest => layout s (pos + t.length) rest
  | .placeholder p :: rest =>
    ⟨pos, pos + (s.write p).length, p⟩ :: layout s (pos + (s.write p).length) rest

theorem text_cons (s : Spelling) (x : Segment) (rest : List Segment) :
    s.text (x :: rest) = s.segment x ++ s.text rest := List.flatMap_cons

theorem drop_drop_sub {m n : Nat} (h : m ≤ n) (b : List Char) :
    (b.drop m).drop (n - m) = b.drop n := by
  rw [List.drop_drop, Nat.add_sub_cancel' h]

/-- Cutting a text at its placeholders gives its segments. -/
theorem cut_layout (s : Spelling) {segments : List Segment} (h : Separate segments)
    (front : List Char) (hfront : front ≠ [] → ∀ u rest, segments ≠ .text u :: rest) (last : Nat) :
    cut last (front ++ s.text segments) (layout s (last + front.length) segments) =
      run front ++ segments := by
  induction segments generalizing front last with
  | nil => simp [layout, cut, Spelling.text]
  | cons x rest ih =>
    rw [text_cons]
    cases x with
    | text t =>
      obtain ⟨hne, hnext, hrest⟩ := h
      have hnil : front = [] := by
        cases front with
        | nil => rfl
        | cons c cs => exact absurd rfl (hfront (List.cons_ne_nil c cs) t rest)
      subst hnil
      have hcut := ih hrest t (fun _ => hnext) last
      have hrun : run t = [.text t] := by simp [run, hne]
      rw [List.nil_append, Spelling.segment, layout, List.length_nil, Nat.add_zero, hcut, hrun]
      rfl
    | placeholder p =>
      have hcut := ih h [] (fun hf => absurd rfl hf) (last + front.length + (s.write p).length)
      rw [List.nil_append, List.length_nil, Nat.add_zero] at hcut
      have h1 : last + front.length - last = front.length := by omega
      have h2 : last + front.length + (s.write p).length - last =
          front.length + (s.write p).length := by omega
      simp only [layout, cut, Spelling.segment, h1, h2]
      rw [List.take_left, ← List.drop_drop, List.drop_left, List.drop_left, hcut]
      rfl

theorem apart_layout (s : Spelling) (segments : List Segment) (pos last : Nat) (h : last ≤ pos) :
    Apart last (layout s pos segments) := by
  induction segments generalizing pos last with
  | nil => trivial
  | cons x rest ih =>
    cases x with
    | text t => exact ih _ _ (by omega)
    | placeholder p => exact ⟨h, ih _ _ (Nat.le_refl _)⟩

/-- Segments are read back from their text when the places of their placeholders are
the finds that are taken. -/
theorem read_text_of_take {s : Spelling} {segments : List Segment} (hs : Separate segments)
    (hlen : ∀ p, 0 < (s.write p).length)
    (h : take 0 (pool s.patterns (s.text segments)) = layout s 0 segments) :
    s.read (s.text segments) = segments := by
  have hcut := cut_layout s hs [] (fun hf => absurd rfl hf) 0
  rw [List.nil_append, List.length_nil, Nat.add_zero] at hcut
  unfold Spelling.read parse
  split
  · rename_i hempty
    rw [List.isEmpty_iff.mp hempty] at hcut
    cases segments with
    | nil => rfl
    | cons x rest =>
      rw [text_cons] at hempty
      cases x with
      | text t =>
        have ht : t = [] := (List.append_eq_nil_iff.mp (List.isEmpty_iff.mp hempty)).1
        exact absurd ht hs.1
      | placeholder p =>
        have hp : s.write p = [] :=
          (List.append_eq_nil_iff.mp (List.isEmpty_iff.mp hempty)).1
        have hlen := hlen p
        rw [hp] at hlen
        exact absurd hlen (Nat.lt_irrefl 0)
  · rw [h, hcut]
    rfl

/-- A placeholder lies behind the text of the segments in front of it. -/
theorem mem_layout (s : Spelling) (before : List Segment) (p : Placeholder)
    (after : List Segment) (pos : Nat) :
    ⟨pos + (s.text before).length, pos + (s.text before).length + (s.write p).length, p⟩ ∈
      layout s pos (before ++ .placeholder p :: after) := by
  induction before generalizing pos with
  | nil => exact List.mem_cons_self
  | cons x before ih =>
    rw [List.cons_append, text_cons, List.length_append, ← Nat.add_assoc]
    cases x with
    | text t => exact ih _
    | placeholder q => exact List.mem_cons_of_mem _ (ih _)

theorem exists_of_mem_layout {s : Spelling} {segments : List Segment} {pos : Nat} {f : Found}
    (h : f ∈ layout s pos segments) :
    ∃ before p after, segments = before ++ .placeholder p :: after ∧
      f = ⟨pos + (s.text before).length, pos + (s.text before).length + (s.write p).length, p⟩ := by
  induction segments generalizing pos with
  | nil => exact absurd h List.not_mem_nil
  | cons x rest ih =>
    have hrest : f ∈ layout s (pos + (s.segment x).length) rest →
        ∃ before p after, x :: rest = before ++ .placeholder p :: after ∧
          f = ⟨pos + (s.text before).length,
            pos + (s.text before).length + (s.write p).length, p⟩ := by
      intro hf
      obtain ⟨before, p, after, rfl, rfl⟩ := ih hf
      refine ⟨x :: before, p, after, rfl, ?_⟩
      rw [text_cons, List.length_append, ← Nat.add_assoc]
    cases x with
    | text t => exact hrest h
    | placeholder q =>
      rcases List.mem_cons.mp h with rfl | h
      · exact ⟨[], q, rest, rfl, rfl⟩
      · exact hrest h

/-- Every place of a text lies in one of its segments. -/
theorem segment_at (s : Spelling) {segments : List Segment} {front back : List Char}
    (h : s.text segments = front ++ back) (hback : back ≠ []) :
    ∃ before x after inner, segments = before ++ x :: after ∧
      front = s.text before ++ (s.segment x).take inner ∧ inner < (s.segment x).length ∧
      back = (s.segment x).drop inner ++ s.text after := by
  induction segments generalizing front with
  | nil =>
    have hnil := (List.append_eq_nil_iff.mp h.symm).2
    exact absurd hnil hback
  | cons x rest ih =>
    rw [text_cons] at h
    rcases Nat.lt_or_ge front.length (s.segment x).length with hlt | hge
    · refine ⟨[], x, rest, front.length, rfl, ?_, hlt, ?_⟩
      · rw [← List.take_append_of_le_length (Nat.le_of_lt hlt), h, List.take_left]
        rfl
      · rw [← List.drop_append_of_le_length (Nat.le_of_lt hlt), h, List.drop_left]
    · obtain ⟨front', rfl⟩ : s.segment x <+: front := by
        rw [List.prefix_iff_eq_take, ← List.take_append_of_le_length hge, ← h, List.take_left]
      rw [List.append_assoc, List.append_cancel_left_eq] at h
      obtain ⟨before, y, after, inner, rfl, rfl, hinner, hdrop⟩ := ih h
      exact ⟨x :: before, y, after, inner, rfl, by rw [text_cons, List.append_assoc], hinner, hdrop⟩

/-- A rule that comes to the end of every segment finds the placeholders it reads. -/
theorem mem_scan_of_passes {s : Spelling} {rule : Rule} (hflag : rule.Flagless)
    {before after : List Segment} {p : Placeholder}
    (h : ∀ front x rest, before = front ++ x :: rest →
      rule.Passes (s.segment x) (s.text (rest ++ .placeholder p :: after)))
    (happ : rule true (s.write p ++ s.text after) = some ((s.write p).length, p)) (pos : Nat) :
    ⟨pos + (s.text before).length, pos + (s.text before).length + (s.write p).length, p⟩ ∈
      scan rule 0 pos true (s.text (before ++ .placeholder p :: after)) := by
  induction before generalizing pos with
  | nil =>
    rw [List.nil_append, text_cons]
    exact mem_scan_of_applies happ pos
  | cons x rest ih =>
    rw [List.cons_append, text_cons]
    obtain ⟨inner, hscan⟩ := scan_passes hflag (h [] x rest rfl) pos
    rw [hscan, text_cons, List.length_append, ← Nat.add_assoc]
    refine List.mem_append_right _ (ih (fun front y rest' hrest => ?_) _)
    exact h (x :: front) y rest' (by rw [hrest]; rfl)

/-! ## What is found in a text with braces -/

theorem length_write_pos (p : Placeholder) : 0 < (Spelling.gemini.write p).length := by
  cases p with
  | arguments => decide
  | _ => exact Nat.succ_pos _

theorem length_of_mem_layout {tail : List Char} {segments : List Segment}
    (h : Legible tail segments) {pos : Nat} {f : Found}
    (hf : f ∈ layout Spelling.gemini pos segments) : pos ≤ f.start ∧ f.start < f.stop := by
  induction segments generalizing pos with
  | nil => exact absurd hf List.not_mem_nil
  | cons x rest ih =>
    cases x with
    | text t =>
      have := ih h.2 hf
      omega
    | placeholder p =>
      have hlen := length_write_pos p
      rcases List.mem_cons.mp hf with rfl | hf
      · exact ⟨Nat.le_refl _, by simp only; omega⟩
      · have := ih h.2 hf
        omega

/-- A find is one of the placeholders of a text, or starts inside one. -/
def Covered (sel : List Found) (f : Found) : Prop :=
  f ∈ sel ∨ ∃ g ∈ sel, g.start < f.start ∧ f.start < g.stop

/-- A rule finds placeholders of the text, or in them, up to its end. -/
theorem scan_text {tail : List Char} {segments : List Segment} (h : Legible tail segments)
    {r : Rule} (hr : r ∈ bracedRules) (pos : Nat) :
    ∃ inner, (∀ f ∈ inner, Covered (layout Spelling.gemini pos segments) f ∧
        f.stop ≤ pos + (Spelling.gemini.text segments).length) ∧
      scan r 0 pos true (Spelling.gemini.text segments ++ tail) =
        inner ++ scan r 0 (pos + (Spelling.gemini.text segments).length) true tail := by
  have hflag := flagless_of_mem hr
  induction segments generalizing pos with
  | nil => exact ⟨[], fun f hf => absurd hf List.not_mem_nil, rfl⟩
  | cons x rest ih =>
    rw [text_cons, List.append_assoc, List.length_append]
    cases x with
    | text t =>
      obtain ⟨inner, hin, hscan⟩ := ih h.2 (pos + t.length)
      refine ⟨inner, fun f hf => ?_, ?_⟩
      · obtain ⟨hc, hstop⟩ := hin f hf
        exact ⟨hc, by simp only [Spelling.segment]; omega⟩
      · rw [Spelling.segment, scan_quiet hflag (h.1 r hr), hscan, Nat.add_assoc]
    | placeholder p =>
      have hwithin := within_write h.1 hr fun n q hq => (applies_write h.1 hr hq).1
      obtain ⟨first, hfirst, hscan⟩ := scan_append hflag hwithin 0 pos (Nat.zero_le _)
      obtain ⟨inner, hin, hscan'⟩ := ih h.2 (pos + (Spelling.gemini.write p).length)
      refine ⟨first ++ inner, fun f hf => ?_, ?_⟩
      · rcases List.mem_append.mp hf with hf | hf
        · obtain ⟨i, n, hi, hn, hstart, hstop, hq⟩ := hfirst f hf
          refine ⟨?_, by simp only [Spelling.segment]; omega⟩
          rcases Nat.eq_zero_or_pos i with rfl | hpos
          · obtain ⟨hlen, hp⟩ := applies_write h.1 hr hq
            refine Or.inl (List.mem_cons.mpr (Or.inl ?_))
            cases f
            simp only at hstart hstop hp
            subst hstart hstop hp hlen
            rfl
          · exact Or.inr ⟨_, List.mem_cons_self, by simp only; omega, by simp only; omega⟩
        · obtain ⟨hc, hstop⟩ := hin f hf
          refine ⟨?_, by simp only [Spelling.segment]; omega⟩
          rcases hc with hc | ⟨g, hg, hc⟩
          · exact Or.inl (List.mem_cons_of_mem _ hc)
          · exact Or.inr ⟨g, List.mem_cons_of_mem _ hg, hc⟩
      · rw [Spelling.segment, hscan, hscan', List.append_assoc, Nat.add_assoc]

/-- Every placeholder of a text is found. -/
theorem exists_mem_scan_of_layout {tail : List Char} {segments : List Segment}
    (h : Legible tail segments) {pos : Nat} {f : Found}
    (hf : f ∈ layout Spelling.gemini pos segments) :
    ∃ r ∈ bracedRules, f ∈ scan r 0 pos true (Spelling.gemini.text segments ++ tail) := by
  induction segments generalizing pos with
  | nil => exact absurd hf List.not_mem_nil
  | cons x rest ih =>
    rw [text_cons, List.append_assoc]
    cases x with
    | text t =>
      obtain ⟨r, hr, hmem⟩ := ih h.2 hf
      exact ⟨r, hr, by rwa [Spelling.segment, scan_quiet (flagless_of_mem hr) (h.1 r hr)]⟩
    | placeholder p =>
      rcases List.mem_cons.mp hf with rfl | hf
      · obtain ⟨r, hr, happ⟩ := exists_applies_write h.1
        exact ⟨r, hr, mem_scan_of_applies happ pos⟩
      · obtain ⟨r, hr, hmem⟩ := ih h.2 hf
        have hwithin := within_write h.1 hr fun n q hq => (applies_write h.1 hr hq).1
        obtain ⟨first, -, hscan⟩ :=
          scan_append (flagless_of_mem hr) hwithin 0 pos (Nat.zero_le _)
        refine ⟨r, hr, ?_⟩
        rw [Spelling.segment, hscan]
        exact List.mem_append_right _ hmem

theorem scan_nil {r : Rule} (hr : r ∈ bracedRules) (pos : Nat) : scan r 0 pos true [] = [] := by
  simp only [scan, bracedRule_nil hr]

/-- What is taken of a legible text are its placeholders. -/
theorem take_pool_of_legible {segments : List Segment} (h : Legible [] segments) :
    take 0 (pool Spelling.gemini.patterns (Spelling.gemini.text segments)) =
      layout Spelling.gemini 0 segments := by
  refine take_eq_of_cover (ordered_pool _ _) (apart_layout _ _ _ _ (Nat.le_refl 0))
    (fun f hf => (length_of_mem_layout h hf).2) (fun f hf => ?_) fun f hf => ?_
  · obtain ⟨r, hr, hmem⟩ := exists_mem_scan_of_layout h hf
    rw [List.append_nil] at hmem
    refine mem_pool.mpr ⟨r.pattern, ?_, hmem⟩
    rw [patterns_gemini]
    exact List.mem_map_of_mem hr
  · obtain ⟨p, hp, hmem⟩ := mem_pool.mp hf
    rw [patterns_gemini] at hp
    obtain ⟨r, hr, rfl⟩ := List.mem_map.mp hp
    obtain ⟨inner, hin, hscan⟩ := scan_text h hr 0
    rw [List.append_nil, scan_nil hr, List.append_nil] at hscan
    rw [Rule.pattern, hscan] at hmem
    rcases (hin f hmem).1 with hc | hc
    · exact Or.inl hc
    · exact Or.inr (Or.inr hc)

/-- Legible segments are read back from their text. -/
theorem read_text_of_legible {segments : List Segment} (h : Legible [] segments)
    (hs : Separate segments) :
    Spelling.gemini.read (Spelling.gemini.text segments) = segments :=
  read_text_of_take hs length_write_pos (take_pool_of_legible h)

end AgentRelay.Body
