import Mathlib.Data.List.Permutation
import AgentRelay.Proofs.Body.Ticked

/-
  A body on its way from the spelling with braces to the one with backticks, and
  back.

  The spelling with backticks has no mark at the end of a path, and reads a line
  that starts with an exclamation mark as a command. Where no segment runs into
  either (`Clear`), the segments are read again from their text with backticks,
  and the way there and back gives the text as it was (`return_of_clear`).
-/

namespace AgentRelay.Body

/-- Segments that the spelling with backticks reads as they are. -/
structure Clear (segments : List Segment) : Prop where
  /-- No command holds a backtick or an at sign. -/
  commands : ∀ command, .placeholder (.shell command) ∈ segments →
    ∀ c ∈ command, c ≠ '\x60' ∧ c ≠ '@'
  /-- No path holds a backtick or a character that ends paths. -/
  paths : ∀ path, .placeholder (.file path) ∈ segments →
    ∀ c ∈ path, c ≠ '\x60' ∧ Rule.endsPath c = false
  /-- What follows a path is a run that starts with a character that ends paths. -/
  behind : ∀ before path x after, segments = before ++ .placeholder (.file path) :: x :: after →
    ∃ c t, x = .text (c :: t) ∧ Rule.endsPath c = true
  /-- No run holds the word for all arguments. -/
  words : ∀ t, .text t ∈ segments → ¬ Spelling.argumentsWord <:+: t
  /-- No exclamation mark of a run is followed by a backtick in it. -/
  marks : ∀ t, .text t ∈ segments → ¬ ['!', '\x60'] <:+: t
  /-- The body does not start with an exclamation mark of a run. -/
  start : ∀ t rest, segments ≠ .text ('!' :: t) :: rest
  /-- No line starts with an exclamation mark of a run. -/
  lines : ∀ t, .text t ∈ segments → ¬ ['\n', '!'] <:+: t
  /-- What follows an at sign of a run is a character of the run that ends paths. -/
  ats : ∀ t, .text t ∈ segments → ∀ u v, t = u ++ '@' :: v →
    ∃ c w, v = c :: w ∧ Rule.endsPath c = true

/-! ## What the spelling with braces reads -/

theorem takes_braced {r : Rule} (hr : r ∈ bracedRules) {flag : Bool} {cs : List Char} {n : Nat}
    {p : Placeholder} (h : r flag cs = some (n, p)) :
    Takes cs n p ∧ cs.take n = Spelling.gemini.write p := by
  simp only [bracedRules, braceRules, List.cons_append, List.nil_append, List.mem_cons,
    List.not_mem_nil, or_false] at hr
  rcases hr with rfl | rfl | rfl | rfl
  · obtain ⟨rfl, rfl, rest, rfl⟩ := word_eq_some h
    exact ⟨⟨by decide, by simp, rfl, trivial⟩, List.take_left ..⟩
  · obtain ⟨payload, hne, rfl, hsome, hmost, htake⟩ := take_between h
    obtain ⟨_, _, hcs, -⟩ := between_eq_some h
    exact ⟨⟨hsome, hmost, by rw [hcs]; rfl, hne⟩, htake⟩
  · obtain ⟨payload, hne, rfl, hsome, hmost, htake⟩ := take_between h
    obtain ⟨_, _, hcs, -⟩ := between_eq_some h
    exact ⟨⟨hsome, hmost, by rw [hcs]; rfl, hne⟩, htake⟩
  · obtain ⟨htakes, hwrite⟩ := takes_inline (r := .position) (by simp [inlineRules]) h
    obtain ⟨-, _, _, -, -, -, -, rfl⟩ := position_eq_some h
    exact ⟨htakes, hwrite⟩

theorem takes_of_mem_gemini {b : List Char} {f : Found}
    (hf : f ∈ pool Spelling.gemini.patterns b) :
    Takes (b.drop f.start) (f.stop - f.start) f.placeholder ∧
      (b.drop f.start).take (f.stop - f.start) = Spelling.gemini.write f.placeholder := by
  obtain ⟨p, hp, hmem⟩ := mem_pool.mp hf
  rw [patterns_gemini] at hp
  obtain ⟨r, hr, rfl⟩ := List.mem_map.mp hp
  exact takes_of_mem_pattern
    (P := fun cs n p => Takes cs n p ∧ cs.take n = Spelling.gemini.write p) b hmem
    fun _ _ _ _ h => takes_braced hr h

/-- What the spelling with braces reads is canonical. -/
theorem canonical_read_gemini (b : List Char) : Canonical (Spelling.gemini.read b) := by
  refine canonical_of_takes b ?_ fun f hf => (takes_of_mem_gemini hf).1
  rw [patterns_gemini]
  exact List.mem_map_of_mem (by simp [bracedRules])

/-- The spelling with braces writes what it read as it was. -/
theorem text_read_gemini (b : List Char) : Spelling.gemini.text (Spelling.gemini.read b) = b := by
  refine text_read_of_write fun f hf => ?_
  obtain ⟨htakes, hwrite⟩ := takes_of_mem_gemini ((take_sublist 0 _).subset hf)
  have hsome := htakes.some
  exact ⟨by omega, hwrite⟩

/-! ## Segments with backticks -/

theorem Canonical.behind {before after : List Segment} (h : Canonical (before ++ after)) :
    Canonical after := by
  induction before with
  | nil => exact h
  | cons x before ih =>
    cases x with
    | text t => exact ih h.2.2.2
    | placeholder p => exact ih h.2

/-- Where no run follows, the text with backticks goes on with a mark. -/
theorem head_ticked {after : List Segment} (h : ∀ u rest, after ≠ .text u :: rest) {c : Char}
    (hc : (Spelling.claude.text after).head? = some c) : c = '$' ∨ c = '!' ∨ c = '@' := by
  cases after with
  | nil => exact nomatch hc
  | cons x rest =>
    cases x with
    | text u => exact absurd rfl (h u rest)
    | placeholder p =>
      cases p with
      | arguments => exact Or.inl (Option.some.inj hc).symm
      | argument n => exact Or.inl (Option.some.inj hc).symm
      | shell command => exact Or.inr (Or.inl (Option.some.inj hc).symm)
      | file path => exact Or.inr (Or.inr (Option.some.inj hc).symm)

/-- Both texts of segments start with a digit or neither does. -/
theorem head_digit_ticked (segments : List Segment)
    (h : (Spelling.gemini.text segments).head?.any Text.isDigit = false)
    (hs : Separate segments) :
    (Spelling.claude.text segments).head?.any Text.isDigit = false := by
  cases segments with
  | nil => rfl
  | cons x rest =>
    cases x with
    | text t =>
      obtain ⟨c, cs, rfl⟩ := List.exists_cons_of_ne_nil hs.1
      exact h
    | placeholder p => cases p <;> rfl

variable {segments : List Segment}

/-- A placeholder of clear segments can be read with backticks. -/
theorem Clear.stands (h : Clear segments) (hcanonical : Canonical segments)
    {before after : List Segment} {p : Placeholder}
    (hp : segments = before ++ .placeholder p :: after) :
    Stands (Spelling.claude.text after) p := by
  have hmem : .placeholder p ∈ segments := by simp [hp]
  obtain ⟨hsense, hafter⟩ : Canonical (.placeholder p :: after) := by
    rw [hp] at hcanonical
    exact hcanonical.behind
  cases p with
  | arguments => trivial
  | argument n =>
    exact ⟨hsense.1, hsense.2.1, head_digit_ticked after hsense.2.2 hafter.separate⟩
  | shell command => exact ⟨hsense, h.commands command hmem⟩
  | file path =>
    refine ⟨hsense, h.paths path hmem, fun c hc => ?_⟩
    cases after with
    | nil => exact nomatch hc
    | cons x rest =>
      obtain ⟨d, t, rfl, hd⟩ := h.behind before path x rest hp
      obtain rfl := Option.some.inj hc
      exact hd

/-- No rule applies in a run of clear segments. -/
theorem Clear.quiet (h : Clear segments) (hcanonical : Canonical segments)
    {before after : List Segment} {t : List Char} (ht : segments = before ++ .text t :: after)
    {r : Rule} (hr : r ∈ inlineRules) : r.Quiet t (Spelling.claude.text after) := by
  have hmem : .text t ∈ segments := by simp [ht]
  obtain ⟨-, hnext, hposition, hafter⟩ : Canonical (.text t :: after) := by
    rw [ht] at hcanonical
    exact hcanonical.behind
  intro i hi
  have hne : t.drop i ≠ [] := fun h => absurd (List.drop_eq_nil_iff.mp h) (Nat.not_le_of_lt hi)
  have hpart : ∀ {w : List Char}, w <+: t.drop i → w <:+: t := fun hw =>
    hw.isInfix.trans (List.drop_suffix i t).isInfix
  simp only [inlineRules, List.mem_cons, List.not_mem_nil, or_false] at hr
  rcases hr with rfl | rfl | rfl | rfl
  · refine Option.eq_none_iff_forall_ne_some.mpr fun q hq => ?_
    obtain ⟨-, -, rest, heq⟩ := word_eq_some hq
    refine h.words t hmem (hpart (prefix_of_append_eq hne heq fun c hc => ?_))
    rcases head_ticked hnext hc with rfl | rfl | rfl <;> decide
  · refine Option.eq_none_iff_forall_ne_some.mpr fun q hq => ?_
    obtain ⟨payload, rest, heq, -⟩ := between_eq_some hq
    rw [List.append_assoc] at heq
    refine h.marks t hmem (hpart (prefix_of_append_eq hne heq fun c hc => ?_))
    rcases head_ticked hnext hc with rfl | rfl | rfl <;> decide
  · refine Option.eq_none_iff_forall_ne_some.mpr fun q hq => ?_
    obtain ⟨a, v, hd⟩ := List.exists_cons_of_ne_nil hne
    rw [hd] at hq
    obtain ⟨rest, heq⟩ := leads_path _ _ _ hq
    obtain rfl := (List.cons.inj heq).1
    -- The path is empty, because what follows the at sign ends paths.
    obtain ⟨c, w, rfl, hc⟩ := h.ats t hmem (t.take i) v (by rw [← hd, List.take_append_drop])
    simp [Rule.path, hc] at hq
  · refine position_swap hne ?_ ?_ (hposition i hi)
    · cases after with
      | nil => rfl
      | cons x rest =>
        cases x with
        | text u => exact absurd rfl (hnext u rest)
        | placeholder p => exact head_write p _
    · cases hc : (Spelling.claude.text after).head? with
      | none => rfl
      | some c => rcases head_ticked hnext hc with rfl | rfl | rfl <;> decide

/-- Every rule comes to the end of every segment. -/
theorem Clear.passes (h : Clear segments) (hcanonical : Canonical segments)
    {before after : List Segment} {x : Segment} (hx : segments = before ++ x :: after)
    {r : Rule} (hr : r ∈ inlineRules) :
    r.Passes (Spelling.claude.segment x) (Spelling.claude.text after) := by
  cases x with
  | text t => exact Or.inr (h.quiet hcanonical hx hr).within
  | placeholder p => exact passes_write (h.stands hcanonical hx) hr

/-- Every placeholder of clear segments is found. -/
theorem Clear.found (h : Clear segments) (hcanonical : Canonical segments) {f : Found}
    (hf : f ∈ layout Spelling.claude 0 segments) :
    f ∈ (ownRule f.placeholder).pattern (Spelling.claude.text segments) := by
  obtain ⟨before, p, after, rfl, rfl⟩ := exists_of_mem_layout hf
  have hown := ownRule_mem p
  refine mem_scan_of_passes (flagless_of_inline hown) (fun front x rest hbefore => ?_)
    (ownRule_write (h.stands hcanonical rfl) true) 0
  have hx : before ++ .placeholder p :: after = front ++ x :: (rest ++ .placeholder p :: after) := by
    rw [hbefore, List.append_assoc]
    rfl
  exact h.passes hcanonical hx hown

/-! ## What is found -/

/-- No line starts behind a placeholder. -/
theorem lineStarts_write {p : Placeholder} {rest : List Char} (h : Stands rest p)
    (front : List Char) : lineStarts true (front ++ Spelling.claude.write p) = false := by
  have hlast : ∀ (cs : List Char) (z : Char), z ≠ '\n' →
      lineStarts true (front ++ (cs ++ [z])) = false := by
    intro cs z hz
    rw [← List.append_assoc]
    simp [lineStarts, hz]
  cases p with
  | arguments => exact hlast "$ARGUMENT".toList 'S' (by decide)
  | argument n =>
    obtain ⟨d, hw, h1, -⟩ := write_argument h
    rw [hw]
    refine hlast ['$'] d ?_
    rintro rfl
    exact absurd h1 (by decide)
  | shell command => exact hlast ('!' :: '\x60' :: command) '\x60' (by decide)
  | file path =>
    obtain ⟨cs, z, hpath⟩ := (List.eq_nil_or_concat path).resolve_left h.1
    rw [List.concat_eq_append] at hpath
    subst hpath
    refine hlast ('@' :: cs) z ?_
    rintro rfl
    exact absurd (h.2.1 '\n' (by simp)).2 (by decide)

/-- Where a line starts with an exclamation mark, it is the one of a command. -/
theorem Clear.command_at (h : Clear segments) (hcanonical : Canonical segments)
    {before after : List Segment} {x : Segment} (hx : segments = before ++ x :: after)
    {inner : Nat} (hinner : inner < (Spelling.claude.segment x).length)
    (hline : lineStarts true (Spelling.claude.text before ++
      (Spelling.claude.segment x).take inner) = true) {rest : List Char}
    (hmark : (Spelling.claude.segment x).drop inner ++ Spelling.claude.text after = '!' :: rest) :
    (∃ command, x = .placeholder (.shell command) ∧ inner = 0) ∨
      ∃ p, x = .placeholder p ∧ 0 < inner := by
  cases x with
  | placeholder p =>
    rcases Nat.eq_zero_or_pos inner with rfl | hpos
    · cases p with
      | shell command => exact Or.inl ⟨command, rfl, rfl⟩
      | arguments => exact absurd (List.cons.inj hmark).1 (by decide)
      | argument n => exact absurd (List.cons.inj hmark).1 (by decide)
      | file path => exact absurd (List.cons.inj hmark).1 (by decide)
    · exact Or.inr ⟨p, rfl, hpos⟩
  | text t =>
    exfalso
    have hmem : .text t ∈ segments := by simp [hx]
    rw [Spelling.segment] at hinner hline hmark
    obtain ⟨v, hv⟩ : ∃ v, t.drop inner = '!' :: v := by
      rw [List.drop_eq_getElem_cons hinner] at hmark ⊢
      exact ⟨_, by rw [(List.cons.inj hmark).1]⟩
    have ht : t = t.take inner ++ '!' :: v := by rw [← hv, List.take_append_drop]
    rcases List.eq_nil_or_concat (t.take inner) with hnil | ⟨u, c, hc⟩
    · -- The mark is the first character of the run.
      rw [hnil, List.append_nil] at hline
      rw [hnil, List.nil_append] at ht
      rcases List.eq_nil_or_concat before with rfl | ⟨front, y, rfl⟩
      · exact h.start v after (by rw [hx, ht]; rfl)
      · rw [List.concat_eq_append, List.append_assoc] at hx
        cases y with
        | text u =>
          rw [hx] at hcanonical
          exact hcanonical.behind.2.1 t after rfl
        | placeholder p =>
          have hend := lineStarts_write (h.stands hcanonical hx) (Spelling.claude.text front)
          rw [List.concat_eq_append, Spelling.text, List.flatMap_append, List.flatMap_singleton]
            at hline
          exact absurd (hend.symm.trans hline) Bool.false_ne_true
    · -- The mark stands behind a character of the run.
      rw [List.concat_eq_append] at hc
      rw [hc] at hline ht
      have hnewline : c = '\n' := by simpa [lineStarts, ← List.append_assoc] using hline
      subst hnewline
      exact h.lines t hmem ⟨u, v, by rw [ht]; simp⟩

/-- The command of a line that starts with a command in backticks starts with a
backtick. -/
theorem line_at_tick {flag : Bool} {rest : List Char} {n : Nat} {p : Placeholder}
    (h : Rule.line flag ('!' :: '\x60' :: rest) = some (n, p)) :
    ∃ command, p = .shell ('\x60' :: command) := by
  have hblank : Text.isBlank '\x60' = false := by decide
  have hnewline : ('\x60' != '\n') = true := by decide
  simp only [Rule.line, List.takeWhile_cons, hblank, Bool.false_eq_true, if_false,
    List.length_nil, List.drop_zero, hnewline, if_true] at h
  split at h
  · cases h
  · obtain ⟨-, rfl⟩ := Prod.mk.inj (Option.some.inj h)
    exact ⟨_, rfl⟩

/-- The patterns that come before the one for commands at the start of a line. -/
def firstPatterns : List Pattern :=
  [Rule.pattern (.word Spelling.argumentsWord .arguments),
    Rule.pattern (.between ['!', '\x60'] '\x60' .shell)]

def laterPatterns : List Pattern :=
  [Rule.pattern .line, Rule.pattern .path, Rule.pattern .position]

theorem patterns_split : Spelling.claude.patterns = firstPatterns ++ laterPatterns := rfl

/-- Of two finds at the same place, the second one is of an earlier pattern. -/
def Behind (body : List Char) (f g : Found) : Prop :=
  f ∉ pool firstPatterns body ∧ g ∉ pool laterPatterns body

theorem pairwise_not_behind (body : List Char) :
    (pool Spelling.claude.patterns body).Pairwise fun f g =>
      f.start = g.start → ¬ Behind body f g := by
  rw [patterns_split]
  refine (pairwise_pool firstPatterns laterPatterns body).imp fun h hstart hb => ?_
  rcases h hstart with hf | hg
  · exact hb.1 hf
  · exact hb.2 hg

/-- A find of the rule for lines, where a command in backticks starts, is behind
the command. -/
theorem behind_command {body : List Char} {f g : Found} {command : List Char}
    (hf : f ∈ Rule.line.pattern body) (hstart : g.start = f.start)
    (hg : g.placeholder = .shell command) (hcommand : ∀ c ∈ command, c ≠ '\x60')
    (hbody : ∀ front back, body = front ++ back → front.length = f.start →
      ∃ rest, back = '!' :: '\x60' :: rest) : Behind body f g := by
  have htick : ∀ e ∈ Rule.line.pattern body, e.start = f.start →
      ∃ cs, e.placeholder = .shell ('\x60' :: cs) := by
    intro e he hestart
    obtain ⟨front, back, n, hsplit, hlen, -, hr⟩ := applies_behind_of_mem_scan he
    obtain ⟨rest, rfl⟩ := hbody front back hsplit (by omega)
    exact line_at_tick hr
  have happlies : ∀ {r : Rule} {e : Found}, e ∈ r.pattern body →
      ∃ flag back n, r flag back = some (n, e.placeholder) := by
    intro r e he
    obtain ⟨front, back, n, -, -, -, hr⟩ := applies_behind_of_mem_scan he
    exact ⟨_, back, n, hr⟩
  constructor
  · intro hfirst
    obtain ⟨cs, hcs⟩ := htick f hf rfl
    obtain ⟨p, hp, hmem⟩ := mem_pool.mp hfirst
    simp only [firstPatterns, List.mem_cons, List.not_mem_nil, or_false] at hp
    rcases hp with rfl | rfl
    · obtain ⟨flag, back, n, hr⟩ := happlies hmem
      obtain ⟨-, hword, -⟩ := word_eq_some hr
      rw [hcs] at hword
      exact nomatch hword
    · obtain ⟨flag, back, n, hr⟩ := happlies hmem
      obtain ⟨payload, rest, -, -, hclose, -, hshell⟩ := between_eq_some hr
      rw [hcs] at hshell
      obtain rfl := Placeholder.shell.inj hshell
      exact hclose '\x60' List.mem_cons_self rfl
  · intro hlater
    obtain ⟨p, hp, hmem⟩ := mem_pool.mp hlater
    simp only [laterPatterns, List.mem_cons, List.not_mem_nil, or_false] at hp
    rcases hp with rfl | rfl | rfl
    · obtain ⟨cs, hcs⟩ := htick g hmem hstart
      rw [hg] at hcs
      obtain rfl := Placeholder.shell.inj hcs
      exact hcommand '\x60' List.mem_cons_self rfl
    · obtain ⟨flag, back, n, hr⟩ := happlies hmem
      obtain ⟨path, rest, -, -, -, hpath⟩ := path_eq_some hr
      rw [hg] at hpath
      exact nomatch hpath
    · obtain ⟨flag, back, n, hr⟩ := happlies hmem
      obtain ⟨-, d, rest, -, -, -, -, hposition⟩ := position_eq_some hr
      rw [hg] at hposition
      exact nomatch hposition

/-- Something is left of the text where a find starts. -/
theorem ne_nil_of_mem_pool {body front back : List Char} {f : Found}
    (hf : f ∈ pool Spelling.claude.patterns body) (hbody : body = front ++ back)
    (hstart : f.start = front.length) : back ≠ [] := by
  rintro rfl
  have htakes := takes_of_mem_pool hf
  have hdrop : body.drop f.start = [] := by
    rw [hbody, hstart, List.append_nil, List.drop_length]
  have hmost := htakes.most
  have hsome := htakes.some
  rw [hdrop, List.length_nil] at hmost
  omega

/-- The place of a placeholder behind some segments. -/
theorem mem_layout_behind (s : Spelling) {segments before after : List Segment} {p : Placeholder}
    (hx : segments = before ++ .placeholder p :: after) :
    (⟨(s.text before).length, (s.text before).length + (s.write p).length, p⟩ : Found) ∈
      layout s 0 segments := by
  have hlayout := mem_layout s before p after 0
  rwa [← hx, Nat.zero_add] at hlayout

/-- Every find is a placeholder of clear segments, or starts inside one, or where one
starts and behind it. -/
theorem Clear.cover (h : Clear segments) (hcanonical : Canonical segments) {f : Found}
    (hf : f ∈ pool Spelling.claude.patterns (Spelling.claude.text segments)) :
    f ∈ layout Spelling.claude 0 segments ∨ f.start < 0 ∨
      (∃ g ∈ layout Spelling.claude 0 segments, g.start < f.start ∧ f.start < g.stop) ∨
      ∃ g ∈ layout Spelling.claude 0 segments,
        g.start = f.start ∧ Behind (Spelling.claude.text segments) f g := by
  obtain ⟨pattern, hpattern, hmem⟩ := mem_pool.mp hf
  -- The rule of the find, and the segment it applies in.
  obtain ⟨r, hr, rfl⟩ : ∃ r, (r ∈ inlineRules ∨ r = .line) ∧ pattern = r.pattern := by
    rcases patterns_claude.mp hpattern with ⟨r, hr, rfl⟩ | rfl
    · exact ⟨r, Or.inl hr, rfl⟩
    · exact ⟨.line, Or.inr rfl, rfl⟩
  obtain ⟨front, back, n, htext, hstart, hstop, happ⟩ := applies_behind_of_mem_scan hmem
  rw [Nat.zero_add] at hstart
  obtain ⟨before, x, after, inner, hx, hfront, hinner, hdrop⟩ :=
    segment_at Spelling.claude htext (ne_nil_of_mem_pool hf htext hstart)
  have hlen : front.length = (Spelling.claude.text before).length + inner := by
    rw [hfront, List.length_append, List.length_take_of_le (Nat.le_of_lt hinner)]
  have hinside : ∀ {p}, x = .placeholder p → 0 < inner →
      ∃ g ∈ layout Spelling.claude 0 segments, g.start < f.start ∧ f.start < g.stop := by
    rintro p rfl hpos
    refine ⟨_, mem_layout_behind Spelling.claude hx, ?_, ?_⟩
    · simp only
      omega
    · have hwrite : inner < (Spelling.claude.write p).length := hinner
      simp only
      omega
  rcases hr with hr | rfl
  · cases x with
    | text t =>
      have hquiet := h.quiet hcanonical hx hr inner hinner
      rw [flagless_of_inline hr _ true, hdrop] at happ
      exact nomatch hquiet.symm.trans happ
    | placeholder p =>
      rcases Nat.eq_zero_or_pos inner with rfl | hpos
      · rw [hdrop, List.drop_zero] at happ
        obtain ⟨rfl, hq⟩ := applies_ticked (h.stands hcanonical hx) hr happ
        refine Or.inl ?_
        have hplaced := mem_layout_behind Spelling.claude hx
        cases f
        simp only at hstart hstop hq
        subst hstop hq
        rwa [hstart, hlen]
      · exact Or.inr (Or.inr (Or.inl (hinside rfl hpos)))
  · obtain ⟨blanks, command, rest, hmark, -⟩ := line_eq_some happ
    have hline : lineStarts true front = true := by
      refine Bool.of_not_eq_false fun hfalse => ?_
      rw [hfalse, hmark] at happ
      simp [Rule.line] at happ
    rw [hfront] at hline
    rw [hdrop, List.cons_append, List.cons_append] at hmark
    rcases h.command_at hcanonical hx hinner hline hmark with ⟨command, rfl, rfl⟩ | ⟨p, rfl, hpos⟩
    · refine Or.inr (Or.inr (Or.inr
        ⟨_, mem_layout_behind Spelling.claude hx, by simp only; omega, ?_⟩))
      have hcommand := h.commands command (by simp [hx])
      refine behind_command hmem (by simp only; omega) rfl (fun c hc => (hcommand c hc).1) ?_
      intro front' back' hsplit hlen'
      obtain ⟨-, rfl⟩ := List.append_inj (hsplit.symm.trans htext) (by omega)
      exact ⟨_, by rw [hdrop]; rfl⟩
    · exact Or.inr (Or.inr (Or.inl (hinside rfl hpos)))

/-- What is taken of the text of clear segments are its placeholders. -/
theorem Clear.take_pool (h : Clear segments) (hcanonical : Canonical segments) :
    take 0 (pool Spelling.claude.patterns (Spelling.claude.text segments)) =
      layout Spelling.claude 0 segments := by
  refine take_eq_of_cover_or_behind (Behind (Spelling.claude.text segments)) (ordered_pool _ _)
    (pairwise_not_behind _) (apart_layout _ _ _ _ (Nat.le_refl 0)) (fun f hf => ?_)
    (fun f hf => ?_) fun f hf => h.cover hcanonical hf
  · obtain ⟨before, p, after, -, rfl⟩ := exists_of_mem_layout hf
    have hlen := length_ticked_pos p
    simp only
    omega
  · refine mem_pool.mpr ⟨_, patterns_claude.mpr (Or.inl ⟨_, ownRule_mem f.placeholder, rfl⟩), ?_⟩
    exact h.found hcanonical hf

/-- Segments that were read with braces, and are clear, are read again from their text
with backticks, and the way there and back gives the text as it was. -/
theorem return_of_clear (b : List Char) (h : Clear (Spelling.gemini.read b)) :
    Spelling.claude.read (Spelling.claude.text (Spelling.gemini.read b)) =
        Spelling.gemini.read b ∧
      Spelling.convert .claude .gemini (Spelling.convert .gemini .claude b) = b := by
  have hcanonical := canonical_read_gemini b
  have hread : Spelling.claude.read (Spelling.claude.text (Spelling.gemini.read b)) =
      Spelling.gemini.read b :=
    read_text_of_take hcanonical.separate length_ticked_pos (h.take_pool hcanonical)
  refine ⟨hread, ?_⟩
  rw [Spelling.convert, Spelling.convert, hread]
  exact text_read_gemini b

/-- A prompt that starts with a command and mentions a file and arguments. -/
def bracedPrompt : List Char :=
  "!\x7bls\x7d\nSee @\x7ba.md\x7d for $1 \x7b\x7bargs\x7d\x7d".toList

theorem read_bracedPrompt : Spelling.gemini.read bracedPrompt =
    [.placeholder (.shell ['l', 's']), .text ['\n', 'S', 'e', 'e', ' '],
      .placeholder (.file ['a', '.', 'm', 'd']), .text [' ', 'f', 'o', 'r', ' '],
      .placeholder (.argument 1), .text [' '], .placeholder .arguments] := by
  unfold bracedPrompt
  cbv

theorem clear_bracedPrompt : Clear (Spelling.gemini.read bracedPrompt) := by
  rw [read_bracedPrompt]
  -- No run of the prompt holds a mark of the spelling with backticks.
  have hplain : ∀ t, .text t ∈ [Segment.placeholder (.shell ['l', 's']),
      .text ['\n', 'S', 'e', 'e', ' '], .placeholder (.file ['a', '.', 'm', 'd']),
      .text [' ', 'f', 'o', 'r', ' '], .placeholder (.argument 1), .text [' '],
      .placeholder .arguments] → ∀ c ∈ ['$', '\x60', '!', '@'], c ∉ t := by
    intro t ht
    simp only [List.mem_cons, Segment.text.injEq, List.not_mem_nil, or_false, reduceCtorEq,
      false_or] at ht
    rcases ht with rfl | rfl | rfl <;> simp
  refine ⟨by simp, by simp; decide, ?_, ?_, ?_, by simp, ?_, ?_⟩
  · intro before path x after h
    match before, h with
    | [], h => exact nomatch (List.cons.inj h).1
    | [_], h => exact nomatch (List.cons.inj (List.cons.inj h).2).1
    | [_, _], h =>
      obtain ⟨-, hx⟩ := List.cons.inj (List.cons.inj (List.cons.inj h).2).2
      exact ⟨' ', _, (List.cons.inj hx).1.symm, by decide⟩
    | _ :: _ :: _ :: before, h =>
      have hrest := (List.cons.inj (List.cons.inj (List.cons.inj h).2).2).2
      have hmem : .placeholder (.file path) ∈ [Segment.text [' ', 'f', 'o', 'r', ' '],
          .placeholder (.argument 1), .text [' '], .placeholder .arguments] := by
        rw [hrest]
        simp
      simp at hmem
  · intro t ht hw
    exact hplain t ht '$' (by simp) (hw.subset (by decide))
  · intro t ht hw
    exact hplain t ht '\x60' (by simp) (hw.subset (by simp))
  · intro t ht hw
    exact hplain t ht '!' (by simp) (hw.subset (by simp))
  · intro t ht u v huv
    exact absurd (by simp [huv]) (hplain t ht '@' (by simp))

/-- The prompt goes there and back. -/
theorem bracedPrompt_return :
    Clear (Spelling.gemini.read bracedPrompt) ∧
      Spelling.claude.read (Spelling.claude.text (Spelling.gemini.read bracedPrompt)) =
        Spelling.gemini.read bracedPrompt ∧
      Spelling.convert .claude .gemini (Spelling.convert .gemini .claude bracedPrompt) =
        bracedPrompt :=
  ⟨clear_bracedPrompt, return_of_clear bracedPrompt clear_bracedPrompt⟩

end AgentRelay.Body
