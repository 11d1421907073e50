import Mathlib.Data.List.Permutation
import AgentRelay.Proofs.Body.Reading

/-
  A body on its way from the spelling with backticks to the one with braces,
  and back.

  Where no brace stands in a literal run or a payload, what was read is read
  again from the text with braces, unless a run that ends in an exclamation mark
  or an at sign meets the word for all arguments (`Clashes`): the mark and the
  word then look like a command or a file in braces. Otherwise the way there and
  back gives the text as it was (`hop_of_braceless`).
-/

namespace AgentRelay.Body

/-- No brace stands in a literal run or a payload. -/
def Segment.Braceless : Segment → Prop
  | .text t => Body.Braceless t
  | .placeholder (.shell command) => Body.Braceless command
  | .placeholder (.file path) => Body.Braceless path
  | .placeholder _ => True

/-- A literal run ends in an exclamation mark or an at sign, right in front of
the placeholder for all arguments. -/
def Clashes (segments : List Segment) : Prop :=
  ∃ before t after, segments = before ++ .text t :: .placeholder .arguments :: after ∧
    (t.getLast? = some '!' ∨ t.getLast? = some '@')

/-- The first clash of some segments, with the text in front of it legible. -/
def FirstClash (segments : List Segment) : Prop :=
  ∃ before t c after, segments = before ++ .text (t ++ [c]) :: .placeholder .arguments :: after ∧
    (c = '!' ∨ c = '@') ∧
      Legible (c :: Spelling.bracedWord ++ Spelling.gemini.text after) (before ++ [.text t])

/-! ## Where runs are legible -/

/-- No rule for braces applies in a run without braces that does not end in a
mark in front of one. -/
theorem braceRule_quiet {r : Rule} (hr : r ∈ braceRules) {t rest : List Char} (ht : Braceless t)
    (hlast : ∀ c, t.getLast? = some c → (c = '!' ∨ c = '@') → rest.head? ≠ some '\x7b') :
    r.Quiet t rest := by
  intro i hi
  cases hq : r true (t.drop i ++ rest) with
  | none => rfl
  | some q =>
    obtain ⟨x, rest', heq, hx⟩ := opens_of_braceRule hr hq
    have hmem : ∀ c ∈ t.drop i, c ≠ '\x7b' ∧ c ≠ '\x7d' := fun c hc => ht c (List.mem_of_mem_drop hc)
    match hd : t.drop i with
    | [] => exact absurd (List.drop_eq_nil_iff.mp hd) (Nat.not_le_of_lt hi)
    | [a] =>
      rw [hd] at heq
      obtain ⟨rfl, hrest⟩ := List.cons.inj heq
      have ha : t.getLast? = some a := by
        rw [← List.take_append_drop i t, hd]
        simp
      have hmark : a = '!' ∨ a = '@' := hx.resolve_left (hmem a (by simp [hd])).1
      refine absurd ?_ (hlast a ha hmark)
      have htail : rest = '\x7b' :: rest' := hrest
      rw [htail]
      rfl
    | a :: b :: cs =>
      rw [hd] at heq
      have h2 := (List.cons.inj (List.cons.inj heq).2).1
      exact absurd h2 (hmem b (by simp [hd])).1

theorem Rule.Quiet.front {r : Rule} {t u rest : List Char} (h : r.Quiet (t ++ u) rest) :
    r.Quiet t (u ++ rest) := by
  intro i hi
  have hq := h i (by rw [List.length_append]; omega)
  rwa [List.drop_append_of_le_length (Nat.le_of_lt hi), List.append_assoc] at hq

/-- A run without braces is legible where its positions are and its end is. -/
theorem bracedRule_quiet {t rest : List Char} (ht : Braceless t)
    (hq : Rule.position.Quiet t rest)
    (hlast : ∀ c, t.getLast? = some c → (c = '!' ∨ c = '@') → rest.head? ≠ some '\x7b') :
    ∀ r ∈ bracedRules, r.Quiet t rest := by
  intro r hr
  rcases mem_bracedRules.mp hr with hb | rfl
  · exact braceRule_quiet hb ht hlast
  · exact hq

theorem fits_of_sensible {p : Placeholder} {rest : List Char} (h : Sensible rest p)
    (hb : Segment.Braceless (.placeholder p)) : Fits rest p := by
  cases p with
  | arguments => trivial
  | argument n => exact h
  | shell command => exact ⟨h, hb⟩
  | file path => exact ⟨h, hb⟩

/-- Behind a run, a brace comes only from the word for all arguments. -/
theorem head_text_eq_brace {rest : List Segment} (hnext : ∀ u rest', rest ≠ .text u :: rest')
    (h : (Spelling.gemini.text rest).head? = some '\x7b') :
    ∃ after, rest = .placeholder .arguments :: after := by
  cases rest with
  | nil => exact nomatch h
  | cons x rest =>
    cases x with
    | text u => exact absurd rfl (hnext u rest)
    | placeholder p =>
      cases p with
      | arguments => exact ⟨rest, rfl⟩
      | argument n => exact absurd (Option.some.inj h) (by decide)
      | shell command => exact absurd (Option.some.inj h) (by decide)
      | file path => exact absurd (Option.some.inj h) (by decide)

/-- Legible segments, one in front of the others. -/
theorem legible_cons_iff {tail : List Char} {x : Segment} {rest : List Segment} :
    Legible tail (x :: rest) ↔
      Legible (Spelling.gemini.text rest ++ tail) [x] ∧ Legible tail rest := by
  cases x <;> simp [Legible, Spelling.text]

theorem FirstClash.cons {x : Segment} {rest : List Segment} (h : FirstClash rest)
    (hx : Legible (Spelling.gemini.text rest) [x]) : FirstClash (x :: rest) := by
  obtain ⟨before, t, c, after, rfl, hc, hlegible⟩ := h
  have htext : Spelling.gemini.text (before ++ [.text t]) ++
      (c :: Spelling.bracedWord ++ Spelling.gemini.text after) =
        Spelling.gemini.text (before ++ .text (t ++ [c]) :: .placeholder .arguments :: after) := by
    simp [Spelling.text, Spelling.segment, Spelling.gemini]
  rw [← htext] at hx
  exact ⟨x :: before, t, c, after, rfl, hc, legible_cons_iff.mpr ⟨hx, hlegible⟩⟩

theorem firstClash_of_last {t : List Char} {c : Char} {after : List Segment}
    (hc : c = '!' ∨ c = '@') (hb : Braceless (t ++ [c]))
    (hq : Rule.position.Quiet (t ++ [c])
      (Spelling.gemini.text (.placeholder .arguments :: after))) :
    FirstClash (.text (t ++ [c]) :: .placeholder .arguments :: after) := by
  refine ⟨[], t, c, after, rfl, hc, ?_, trivial⟩
  refine bracedRule_quiet (fun d hd => hb d (List.mem_append_left _ hd)) hq.front ?_
  intro d _ _ hhead
  have hd : c = '\x7b' := Option.some.inj hhead
  rcases hc with rfl | rfl <;> exact absurd hd (by decide)

/-- What was read without braces is legible up to its first clash. -/
theorem legible_or_firstClash {segments : List Segment} (h : Canonical segments)
    (hb : ∀ s ∈ segments, s.Braceless) : Legible [] segments ∨ FirstClash segments := by
  induction segments with
  | nil => exact Or.inl trivial
  | cons x rest ih =>
    have hbrest : ∀ s ∈ rest, s.Braceless := fun s hs => hb s (List.mem_cons_of_mem _ hs)
    have hbx : x.Braceless := hb x (by simp)
    -- Once the first segment is legible, the others decide.
    have hcons : Canonical rest → Legible (Spelling.gemini.text rest) [x] →
        Legible [] (x :: rest) ∨ FirstClash (x :: rest) := by
      intro hrest hx
      rcases ih hrest hbrest with hl | hf
      · exact Or.inl (legible_cons_iff.mpr ⟨by rwa [List.append_nil], hl⟩)
      · exact Or.inr (hf.cons hx)
    cases x with
    | text t =>
      obtain ⟨-, hnext, hq, hrest⟩ := h
      by_cases hclash : ∃ c after, t.getLast? = some c ∧ (c = '!' ∨ c = '@') ∧
          rest = .placeholder .arguments :: after
      · obtain ⟨c, after, hlast, hc, rfl⟩ := hclash
        obtain ⟨u, rfl⟩ := List.getLast?_eq_some_iff.mp hlast
        exact Or.inr (firstClash_of_last hc hbx hq)
      · refine hcons hrest ⟨?_, trivial⟩
        refine bracedRule_quiet hbx hq fun c hlast hc hhead => hclash ?_
        obtain ⟨after, hafter⟩ := head_text_eq_brace hnext hhead
        exact ⟨c, after, hlast, hc, hafter⟩
    | placeholder p => exact hcons h.2 ⟨fits_of_sensible h.1 hbx, trivial⟩

/-! ## A clash is read otherwise -/

theorem FirstClash.clashes {segments : List Segment} (h : FirstClash segments) :
    Clashes segments := by
  obtain ⟨before, t, c, after, rfl, hc, -⟩ := h
  refine ⟨before, t ++ [c], after, rfl, ?_⟩
  rcases hc with rfl | rfl <;> simp

/-- The rule that takes a mark and the word for all arguments as one. -/
theorem applies_at_clash {c : Char} (hc : c = '!' ∨ c = '@') (rest : List Char) :
    ∃ r ∈ bracedRules, ∃ n p, 0 < n ∧
      r true (c :: Spelling.bracedWord ++ rest) = some (n, p) := by
  have hne : ['\x7b', 'a', 'r', 'g', 's'] ≠ [] := List.cons_ne_nil _ _
  have hclose : ∀ d ∈ ['\x7b', 'a', 'r', 'g', 's'], d ≠ '\x7d' := by simp
  rcases hc with rfl | rfl
  · exact ⟨.between ['!', '\x7b'] '\x7d' .shell, by simp [bracedRules, braceRules], _, _,
      by omega, between_written _ _ hne hclose ('\x7d' :: rest) true⟩
  · exact ⟨.between ['@', '\x7b'] '\x7d' .file, by simp [bracedRules, braceRules], _, _,
      by omega, between_written _ _ hne hclose ('\x7d' :: rest) true⟩

/-- Whatever is taken at a clash has a brace in its payload. -/
theorem brace_at_clash {c : Char} (hc : c = '!' ∨ c = '@') {rest : List Char} {r : Rule}
    (hr : r ∈ bracedRules) {flag : Bool} {n : Nat} {p : Placeholder}
    (h : r flag (c :: Spelling.bracedWord ++ rest) = some (n, p)) :
    ¬ Segment.Braceless (.placeholder p) := by
  have hbetween : ∀ {y : Char} {make : List Char → Placeholder},
      Rule.between [y, '\x7b'] '\x7d' make flag (c :: Spelling.bracedWord ++ rest) = some (n, p) →
      ∃ payload, p = make ('\x7b' :: payload) := by
    intro y make hq
    obtain ⟨payload, rest', heq, hne, -, -, rfl⟩ := between_eq_some hq
    obtain ⟨a, as, rfl⟩ := List.exists_cons_of_ne_nil hne
    have ha : '\x7b' = a := (List.cons.inj (List.cons.inj (List.cons.inj heq).2).2).1
    exact ⟨as, by rw [ha]⟩
  have hnot : ∀ payload, ¬ Braceless ('\x7b' :: payload) := fun payload hb =>
    (hb '\x7b' (by simp)).1 rfl
  simp only [bracedRules, braceRules, List.cons_append, List.nil_append, List.mem_cons,
    List.not_mem_nil, or_false] at hr
  rcases hr with rfl | rfl | rfl | rfl
  · obtain ⟨-, -, rest', heq⟩ := word_eq_some h
    obtain rfl : c = '\x7b' := (List.cons.inj heq).1
    exact absurd hc (by decide)
  · obtain ⟨payload, rfl⟩ := hbetween h
    exact hnot payload
  · obtain ⟨payload, rfl⟩ := hbetween h
    exact hnot payload
  · obtain ⟨-, d, rest', heq, -⟩ := position_eq_some h
    obtain rfl : c = '$' := (List.cons.inj heq).1
    exact absurd hc (by decide)

theorem legible_append {tail : List Char} {before rest : List Segment}
    (h : Legible tail (before ++ rest)) : Legible tail rest := by
  induction before with
  | nil => exact h
  | cons x before ih => exact ih (legible_cons_iff.mp h).2

theorem Clashes.not_legible {segments : List Segment} (h : Clashes segments) :
    ¬ Legible [] segments := by
  intro hl
  obtain ⟨before, t, after, rfl, hlast⟩ := h
  obtain ⟨c, hc, ht⟩ : ∃ c, (c = '!' ∨ c = '@') ∧ t.getLast? = some c := by
    rcases hlast with h | h
    · exact ⟨_, Or.inl rfl, h⟩
    · exact ⟨_, Or.inr rfl, h⟩
  obtain ⟨u, rfl⟩ := List.getLast?_eq_some_iff.mp ht
  obtain ⟨r, hr, n, p, -, happ⟩ := applies_at_clash hc (Spelling.gemini.text after ++ [])
  have hquiet := (legible_append hl).1 r hr u.length (by simp)
  rw [List.drop_left] at hquiet
  exact nomatch hquiet.symm.trans happ

/-- At the first clash of a text something with a brace is read. -/
theorem exists_brace_of_firstClash {segments : List Segment} (h : FirstClash segments) :
    ∃ s ∈ Spelling.gemini.read (Spelling.gemini.text segments), ¬ s.Braceless := by
  obtain ⟨before, t, c, after, rfl, hc, hlegible⟩ := h
  -- The text up to the mark, and the text from the mark on.
  obtain ⟨front, hfront⟩ : ∃ front, front = Spelling.gemini.text (before ++ [.text t]) := ⟨_, rfl⟩
  obtain ⟨rest, hrest⟩ : ∃ rest,
      rest = c :: Spelling.bracedWord ++ Spelling.gemini.text after := ⟨_, rfl⟩
  have htext : Spelling.gemini.text
      (before ++ .text (t ++ [c]) :: .placeholder .arguments :: after) = front ++ rest := by
    rw [hfront, hrest]
    simp [Spelling.text, Spelling.segment, Spelling.gemini]
  rw [← hrest] at hlegible
  have hscan : ∀ r ∈ bracedRules, ∃ inner, (∀ f ∈ inner, f.stop ≤ front.length) ∧
      r.pattern (front ++ rest) = inner ++ scan r 0 front.length true rest := by
    intro r hr
    obtain ⟨inner, hin, hs⟩ := scan_text hlegible hr 0
    rw [Nat.zero_add, ← hfront] at hs
    refine ⟨inner, fun f hf => ?_, hs⟩
    have := (hin f hf).2
    rwa [Nat.zero_add, ← hfront] at this
  have hpool : ∀ {f r}, r ∈ bracedRules → f ∈ scan r 0 front.length true rest →
      f ∈ pool Spelling.gemini.patterns (front ++ rest) := by
    intro f r hr hf
    obtain ⟨inner, -, hs⟩ := hscan r hr
    refine mem_pool.mpr ⟨r.pattern, ?_, by rw [hs]; exact List.mem_append_right _ hf⟩
    rw [patterns_gemini]
    exact List.mem_map_of_mem hr
  -- What is taken at the mark.
  obtain ⟨g, hg, r, hr, n, flag, happ⟩ : ∃ g ∈ take 0 (pool Spelling.gemini.patterns
      (front ++ rest)), ∃ r ∈ bracedRules, ∃ n flag, r flag rest = some (n, g.placeholder) := by
    obtain ⟨r, hr, n, p, hn, happ⟩ := applies_at_clash hc (Spelling.gemini.text after)
    rw [← hrest] at happ
    have hmark := hpool hr (mem_scan_of_applies happ front.length)
    rcases taken_or_held (ordered_pool _ _) 0 hmark with h | h | ⟨g, hg, h1, h2⟩
    · exact ⟨_, h, r, hr, n, true, happ⟩
    · exact absurd h (Nat.not_lt_zero _)
    · obtain ⟨q, hq, hgq⟩ := mem_pool.mp ((take_sublist 0 _).subset hg)
      rw [patterns_gemini] at hq
      obtain ⟨r', hr', rfl⟩ := List.mem_map.mp hq
      obtain ⟨inner, hin, hs⟩ := hscan r' hr'
      rw [hs] at hgq
      rcases List.mem_append.mp hgq with hgq | hgq
      · have := hin g hgq
        simp only at h2
        omega
      · obtain ⟨i, m, flag, -, -, hstart, -, hr⟩ := applies_of_mem_scan hgq
        obtain rfl : i = 0 := by
          simp only at h1
          omega
        exact ⟨g, hg, r', hr', m, flag, hr⟩
  rw [hrest] at happ
  refine ⟨.placeholder g.placeholder, ?_, brace_at_clash hc hr happ⟩
  rw [htext, Spelling.read, parse]
  have hne : (front ++ rest).isEmpty = false := by
    rw [hrest]
    simp
  rw [hne]
  exact placeholder_mem_cut hg 0 _

/-! ## There and back -/

/-- What was read without braces is read again from its text with braces exactly
when nothing clashes, and then a text without commands at the start of a line
comes back as it was. -/
theorem hop_of_braceless (b : List Char) (hb : ∀ s ∈ Spelling.claude.read b, s.Braceless) :
    (Spelling.gemini.read (Spelling.gemini.text (Spelling.claude.read b)) =
        Spelling.claude.read b ↔ ¬ Clashes (Spelling.claude.read b)) ∧
      (¬ Clashes (Spelling.claude.read b) →
        (∀ f ∈ take 0 (pool Spelling.claude.patterns b), ∃ r ∈ inlineRules, f ∈ r.pattern b) →
        Spelling.convert .gemini .claude (Spelling.convert .claude .gemini b) = b) := by
  have hcanonical := canonical_read b
  have hread : ¬ Clashes (Spelling.claude.read b) →
      Spelling.gemini.read (Spelling.gemini.text (Spelling.claude.read b)) =
        Spelling.claude.read b := by
    intro hclash
    rcases legible_or_firstClash hcanonical hb with h | h
    · exact read_text_of_legible h hcanonical.separate
    · exact absurd h.clashes hclash
  refine ⟨⟨fun h hclash => ?_, hread⟩, fun hclash hinline => ?_⟩
  · rcases legible_or_firstClash hcanonical hb with hl | hf
    · exact hclash.not_legible hl
    · obtain ⟨s, hs, hbrace⟩ := exists_brace_of_firstClash hf
      rw [h] at hs
      exact hbrace (hb s hs)
  · rw [Spelling.convert, Spelling.convert, hread hclash]
    exact text_read_of_inline hinline

/-- A prompt with an argument, a command and all arguments. -/
def prompt : List Char := "Fix $1: !\x60ls\x60 $ARGUMENTS".toList

theorem read_prompt : Spelling.claude.read prompt =
    [.text ['F', 'i', 'x', ' '], .placeholder (.argument 1), .text [':', ' '],
      .placeholder (.shell ['l', 's']), .text [' '], .placeholder .arguments] := by
  unfold prompt
  cbv

theorem take_prompt : take 0 (pool Spelling.claude.patterns prompt) =
    [⟨4, 6, .argument 1⟩, ⟨8, 13, .shell ['l', 's']⟩, ⟨14, 24, .arguments⟩] := by
  unfold prompt
  cbv

theorem braceless_prompt : ∀ s ∈ Spelling.claude.read prompt, s.Braceless := by
  intro s hs
  rw [read_prompt] at hs
  simp only [List.mem_cons, List.not_mem_nil, or_false] at hs
  have hplain : ∀ t ∈ [['F', 'i', 'x', ' '], [':', ' '], ['l', 's'], [' ']], ∀ c ∈ t,
      c ≠ '\x7b' ∧ c ≠ '\x7d' := by simp
  rcases hs with rfl | rfl | rfl | rfl | rfl | rfl
  · exact hplain _ (by simp)
  · trivial
  · exact hplain _ (by simp)
  · exact hplain _ (by simp)
  · exact hplain _ (by simp)
  · trivial

theorem inline_prompt : ∀ f ∈ take 0 (pool Spelling.claude.patterns prompt),
    ∃ r ∈ inlineRules, f ∈ r.pattern prompt := by
  intro f hf
  rw [take_prompt] at hf
  simp only [List.mem_cons, List.not_mem_nil, or_false] at hf
  rcases hf with rfl | rfl | rfl
  · exact ⟨.position, by simp [inlineRules], by decide⟩
  · exact ⟨.between ['!', '\x60'] '\x60' .shell, by simp [inlineRules], by decide⟩
  · exact ⟨.word Spelling.argumentsWord .arguments, by simp [inlineRules], by decide⟩

/-- The prompt goes there and back. -/
theorem prompt_hop :
    (∀ s ∈ Spelling.claude.read prompt, s.Braceless) ∧ ¬ Clashes (Spelling.claude.read prompt) ∧
      (∀ f ∈ take 0 (pool Spelling.claude.patterns prompt), ∃ r ∈ inlineRules,
        f ∈ r.pattern prompt) ∧
      Spelling.convert .gemini .claude (Spelling.convert .claude .gemini prompt) = prompt := by
  have hhop := hop_of_braceless prompt braceless_prompt
  have hclash : ¬ Clashes (Spelling.claude.read prompt) := by
    refine hhop.1.mp ?_
    rw [read_prompt]
    cbv
  exact ⟨braceless_prompt, hclash, inline_prompt, hhop.2 hclash inline_prompt⟩

end AgentRelay.Body
