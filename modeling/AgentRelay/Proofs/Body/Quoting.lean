import AgentRelay.Proofs.Body.Exact
import AgentRelay.Proofs.Body.Parts

/-
  A command from the start of a line, put between backticks.

  The line in front of it ends there and its own line ends behind it, so no path and no
  position reaches over it (`plain_front`, `plain_piece`). The rule for commands in
  backticks takes the quoted command where the command has no backtick and no mark with
  a backtick in front of it is open (`tick_front`). Then what is taken in front of the
  command and behind it is the same as before (`take_line`, `take_quoted`).
-/

namespace AgentRelay.Body

/-- The rule for commands in backticks. -/
abbrev tickRule : Rule := .between ['!', '\x60'] '\x60' .shell

/-- A mark with a backtick is open behind a text: the backtick of a command that comes next
closes it. -/
def LeavesOpen (front : List Char) : Prop :=
  ∃ f ∈ tickRule.pattern (front ++ ['!', '\x60']), front.length < f.stop

instance (front : List Char) : Decidable (LeavesOpen front) :=
  inferInstanceAs (Decidable (∃ f ∈ tickRule.pattern (front ++ ['!', '\x60']), front.length < f.stop))

/-- A command between backticks. -/
def quoted (command : List Char) : List Char := Spelling.claude.write (.shell command)

/-! ## Rules that stay in a line -/

/-- The rules for words, paths and positions. -/
def plainRules : List Rule := [.word Spelling.argumentsWord .arguments, .path, .position]

theorem word_written (w rest : List Char) (p : Placeholder) (flag : Bool) :
    Rule.word w p flag (w ++ rest) = some (w.length, p) := by
  have hs : Text.startsWith w (w ++ rest) = true :=
    Option.isSome_iff_exists.mpr ⟨rest, (Text.dropStart?_eq_some_iff _ _ _).mpr rfl⟩
  simp [Rule.word, hs]

/-- A match in front of a line end is in front of it whatever follows. -/
theorem plain_at_newline {r : Rule} (hr : r ∈ plainRules) {flag : Bool} {v rest : List Char} {n : Nat}
    {p : Placeholder} (h : r flag (v ++ '\n' :: rest) = some (n, p)) :
    n ≤ v.length ∧ ∀ rest', r flag (v ++ '\n' :: rest') = some (n, p) := by
  simp only [plainRules, List.mem_cons, List.not_mem_nil, or_false] at hr
  rcases hr with rfl | rfl | rfl
  · obtain ⟨rfl, rfl, rest', heq⟩ := word_eq_some h
    have hne : v ≠ [] := by
      rintro rfl
      exact absurd (List.cons.inj heq).1 (by decide)
    obtain ⟨v', rfl⟩ := prefix_of_append_eq hne heq fun c hc => by
      obtain rfl : '\n' = c := by simpa using hc
      decide
    refine ⟨by simp, fun rest' => ?_⟩
    rw [List.append_assoc]
    exact word_written _ _ _ _
  · cases v with
    | nil =>
      obtain ⟨_, heq⟩ := leads_path _ _ _ h
      exact absurd (List.cons.inj heq).1 (by decide)
    | cons a v =>
      obtain ⟨_, heq⟩ := leads_path _ _ _ h
      obtain ⟨rfl, -⟩ := List.cons.inj heq
      -- The path ends in front of the line end.
      have htake := takeWhile_stop (p := fun c => !Rule.endsPath c) (z := '\n') (by decide) v
      simp only [Rule.path, List.cons_append, htake] at h ⊢
      split at h
      · cases h
      · rename_i hempty
        obtain ⟨rfl, rfl⟩ := Prod.mk.inj (Option.some.inj h)
        refine ⟨?_, fun _ => by simp [hempty]⟩
        have := (List.takeWhile_sublist (l := v) fun c => !Rule.endsPath c).length_le
        rw [List.length_cons]
        omega
  · obtain ⟨rfl, d, rest', heq, h1, h9, hrest, rfl⟩ := position_eq_some h
    rcases v with _ | ⟨a, _ | ⟨b, v⟩⟩
    · exact absurd (List.cons.inj heq).1 (by decide)
    · obtain rfl : '\n' = d := (List.cons.inj (List.cons.inj heq).2).1
      exact absurd h1 (by decide)
    · obtain ⟨rfl, htail⟩ := List.cons.inj heq
      obtain ⟨rfl, hrest'⟩ := List.cons.inj htail
      refine ⟨by simp, fun rest'' => ?_⟩
      have hdigit : ((v ++ '\n' :: rest'').head?.any Text.isDigit) = false := by
        have hrest : (v ++ '\n' :: rest).head?.any Text.isDigit = false := by
          rw [show v ++ '\n' :: rest = rest' from hrest']
          exact hrest
        cases v with
        | nil => exact (by decide : Text.isDigit '\n' = false)
        | cons c v => exact hrest
      simp only [List.cons_append, Rule.position, h1, h9, hdigit, Bool.not_false, and_self, if_true]

/-- A rule that stays in a line takes the same of a line whatever follows it, and nothing of
what follows. -/
theorem plain_line {r : Rule} (hr : r ∈ plainRules) {u : List Char} (hu : u.getLast? = some '\n')
    (a : List Char) {flag : Bool} {n : Nat} {p : Placeholder} (h : r flag (u ++ a) = some (n, p)) :
    n ≤ u.length ∧ ∀ b, r flag (u ++ b) = some (n, p) := by
  obtain ⟨v, rfl⟩ := List.getLast?_eq_some_iff.mp hu
  rw [List.append_assoc] at h
  obtain ⟨hn, hsame⟩ := plain_at_newline hr h
  refine ⟨?_, fun b => ?_⟩
  · rw [List.length_append]
    omega
  · rw [List.append_assoc]
    exact hsame b

/-! ## In front of the command -/

theorem getLast?_of_suffix {u x : List Char} (hx : lineStarts true x = true) (hu : u <:+ x)
    (hne : u ≠ []) : u.getLast? = some '\n' := by
  obtain ⟨t, rfl⟩ := hu
  obtain ⟨v, c, rfl⟩ := (List.eq_nil_or_concat u).resolve_left hne
  rw [List.concat_eq_append] at hx ⊢
  rw [← List.append_assoc] at hx
  simpa [lineStarts] using hx

/-- A part of a text that scans in the same way in front of two texts. -/
def ScansAlike (r : Rule) (x a b : List Char) : Prop :=
  ∃ inner, (∀ f ∈ inner, f.start < x.length ∧ f.stop ≤ x.length) ∧
    r.pattern (x ++ a) = inner ++ scan r 0 x.length (lineStarts true x) a ∧
    r.pattern (x ++ b) = inner ++ scan r 0 x.length (lineStarts true x) b

theorem scansAlike {r : Rule} {x a b : List Char} (hsame : r.SameIn x a b)
    (hcross : ∀ u flag, u <:+ x → u ≠ [] → r.Crosses flag u b → r.Crosses flag u a)
    (hstays : ∀ f ∈ r.pattern (x ++ a), f.start < x.length → f.stop ≤ x.length) :
    ScansAlike r x a b := by
  have h := @scan_front r x a b hsame hcross 0 0 true (Nat.zero_le _)
    (fun f hf hstart => by simpa using hstays f hf (by simpa using hstart))
  unfold ScansAlike Rule.pattern
  simpa only [Nat.zero_add] using h

theorem exists_drop_of_start {x a : List Char} {r : Rule} {f : Found} (hf : f ∈ r.pattern (x ++ a))
    (hstart : f.start < x.length) :
    ∃ u flag, u <:+ x ∧ u ≠ [] ∧ u.length = x.length - f.start ∧
      r flag (u ++ a) = some (f.stop - f.start, f.placeholder) ∧ f.start ≤ f.stop := by
  obtain ⟨i, n, flag, -, -, hi, hn, hr⟩ := applies_of_mem_scan hf
  rw [Nat.zero_add] at hi hn
  rw [hi] at hstart
  rw [List.drop_append_of_le_length (Nat.le_of_lt hstart)] at hr
  refine ⟨x.drop i, flag, List.drop_suffix i x, ?_, by rw [List.length_drop, hi], ?_, by omega⟩
  · exact fun hnil => absurd (List.drop_eq_nil_iff.mp hnil) (Nat.not_le_of_lt hstart)
  · rw [hr, show f.stop - f.start = n by omega]

theorem plain_front {r : Rule} (hr : r ∈ plainRules) {x : List Char}
    (hx : lineStarts true x = true) (a b : List Char) : ScansAlike r x a b := by
  have hline : ∀ u c flag n p, u <:+ x → u ≠ [] → r flag (u ++ c) = some (n, p) →
      n ≤ u.length ∧ ∀ d, r flag (u ++ d) = some (n, p) :=
    fun u c flag n p hu hne h => plain_line hr (getLast?_of_suffix hx hu hne) c h
  refine scansAlike (fun u flag n p hu hne _ => ⟨?_, ?_⟩) (fun u flag hu hne hc => ?_)
    fun f hf hstart => ?_
  · exact fun h => (hline u a flag n p hu hne h).2 b
  · exact fun h => (hline u b flag n p hu hne h).2 a
  · obtain ⟨n, p, hlt, h⟩ := hc
    have := (hline u b flag n p hu hne h).1
    omega
  · obtain ⟨u, flag, hu, hne, hlen, h, hle⟩ := exists_drop_of_start hf hstart
    have := (hline u a flag _ _ hu hne h).1
    omega

/-- A find that starts in the piece stays in it. -/
theorem ScansAlike.stays {r : Rule} {x a b : List Char} (h : ScansAlike r x a b) {f : Found}
    (hf : f ∈ r.pattern (x ++ b)) (hstart : f.start < x.length) : f.stop ≤ x.length := by
  obtain ⟨inner, hin, -, hb⟩ := h
  rw [hb] at hf
  rcases List.mem_append.mp hf with hf | hf
  · exact (hin f hf).2
  · obtain ⟨i, n, flag, -, -, hi, -⟩ := applies_of_mem_scan hf
    omega

/-- Texts that a piece scans alike in front of with a third one scan alike. -/
theorem ScansAlike.of_common {r : Rule} {x a b b' : List Char} (h : ScansAlike r x a b)
    (h' : ScansAlike r x a b') : ScansAlike r x b b' := by
  obtain ⟨inner, hin, ha, hb⟩ := h
  obtain ⟨inner', -, ha', hb'⟩ := h'
  obtain rfl : inner = inner' := List.append_cancel_right (ha.symm.trans ha')
  exact ⟨inner, hin, hb, hb'⟩

/-! ### Commands in backticks -/

theorem tick_inside {u a : List Char} {flag : Bool} {n : Nat} {p : Placeholder}
    (h : tickRule flag (u ++ a) = some (n, p)) (hn : n ≤ u.length) (b : List Char) :
    tickRule flag (u ++ b) = some (n, p) := by
  obtain ⟨payload, rest, heq, hne, hno, rfl, rfl⟩ := between_eq_some h
  have hpre : ['!', '\x60'] ++ payload ++ ['\x60'] <+: u := by
    refine List.prefix_of_prefix_length_le ?_ (List.prefix_append u a) ?_
    · exact ⟨rest, by rw [heq]; simp⟩
    · simp only [List.length_append, List.length_cons, List.length_nil] at hn ⊢
      omega
  obtain ⟨u', rfl⟩ := hpre
  have hw := between_written ['!', '\x60'] .shell hne hno (u' ++ b) flag
  simpa using hw

/-- A match goes over a mark only where a mark with a backtick is open in front of it. -/
theorem open_of_crosses {u z : List Char} {flag : Bool} (hu : u ≠ [])
    (h : tickRule.Crosses flag u ('!' :: z)) : ∃ w, u = '!' :: '\x60' :: w ∧ '\x60' ∉ w := by
  obtain ⟨n, p, hlt, h⟩ := h
  obtain ⟨payload, rest, heq, hne, hno, rfl, rfl⟩ := between_eq_some h
  match u with
  | [] => exact absurd rfl hu
  | [a] => exact absurd (List.cons.inj (List.cons.inj heq).2).1 (by decide)
  | a :: b :: w =>
    obtain ⟨rfl, htail⟩ := List.cons.inj heq
    obtain ⟨rfl, htail⟩ := List.cons.inj htail
    refine ⟨w, rfl, fun hmem => ?_⟩
    have hpre : w <+: payload := by
      refine List.prefix_of_prefix_length_le ⟨'!' :: z, (List.cons.inj htail).2⟩
        (List.prefix_append _ _) ?_
      · simp only [List.length_cons, List.length_nil] at hlt
        omega
    exact hno _ (hpre.subset hmem) rfl

theorem crosses_of_open {w : List Char} (h : '\x60' ∉ w) (z : List Char) (flag : Bool) :
    tickRule.Crosses flag ('!' :: '\x60' :: w) ('!' :: '\x60' :: z) := by
  have hpayload : ∀ c ∈ w ++ ['!'], c ≠ '\x60' := by
    rintro c hc rfl
    simp [h] at hc
  have hw := between_written ['!', '\x60'] .shell (by simp) hpayload z flag
  refine ⟨_, _, ?_, by simpa using hw⟩
  simp

/-- Where no mark is left open, the rule for commands in backticks finds the same in front of
any two marks. -/
theorem tick_front {x : List Char} (hx : ¬ LeavesOpen x) (z : List Char) :
    ScansAlike tickRule x ['!', '\x60'] ('!' :: z) := by
  refine scansAlike (fun u flag n p _ _ hn => ⟨fun h => tick_inside h hn _,
    fun h => tick_inside h hn _⟩) (fun u flag _ hne hc => ?_) fun f hf _ => ?_
  · obtain ⟨w, rfl, hw⟩ := open_of_crosses hne hc
    exact crosses_of_open hw [] flag
  · exact Nat.le_of_not_lt fun hlt => hx ⟨f, hf, hlt⟩

theorem tick_some {flag : Bool} {cs : List Char} {n : Nat} {p : Placeholder}
    (h : tickRule flag cs = some (n, p)) : 4 ≤ n ∧ n ≤ cs.length := by
  obtain ⟨payload, rest, rfl, hne, -, rfl, -⟩ := between_eq_some h
  have := List.length_pos_of_ne_nil hne
  simp only [List.length_append, List.length_cons, List.length_nil]
  omega

/-- The finds of a rule that takes something do not reach into each other. -/
theorem stop_le_of_found {r : Rule} (hsome : ∀ flag cs n p, r flag cs = some (n, p) → 0 < n)
    {b : List Char} {f g : Found} (hf : f ∈ r.pattern b) (hg : g ∈ r.pattern b)
    (hlt : f.start < g.start) : f.stop ≤ g.start := by
  refine (apart_scan hsome 0 0 true b).stop_le (fun x hx => ?_) hf hg hlt
  obtain ⟨i, n, flag, -, -, hstart, hstop, h⟩ := applies_of_mem_scan hx
  have := hsome _ _ _ _ h
  omega

/-- A command in backticks that is found has no open mark in front of it. -/
theorem not_leavesOpen_of_found {x z : List Char} {f : Found}
    (hf : f ∈ tickRule.pattern (x ++ '!' :: '\x60' :: z)) (hstart : f.start = x.length) :
    ¬ LeavesOpen x := by
  have hsome : ∀ flag cs n p, tickRule flag cs = some (n, p) → 0 < n :=
    fun flag cs n p h => Nat.lt_of_lt_of_le (by decide) (tick_some h).1
  have halike : ScansAlike tickRule x ('!' :: '\x60' :: z) ['!', '\x60'] := by
    refine scansAlike (fun u flag n p _ _ hn => ⟨fun h => tick_inside h hn _,
      fun h => tick_inside h hn _⟩) (fun u flag _ hne hc => ?_) fun g hg hlt => ?_
    · obtain ⟨w, rfl, hw⟩ := open_of_crosses hne hc
      exact crosses_of_open hw z flag
    · rw [← hstart] at hlt ⊢
      exact stop_le_of_found hsome hg hf hlt
  rintro ⟨g, hg, hlt⟩
  rcases Nat.lt_or_ge g.start x.length with hgx | hgx
  · exact absurd (halike.stays hg hgx) (Nat.not_le_of_lt hlt)
  · -- Two marks alone are no command.
    obtain ⟨i, n, flag, -, -, hi, -, h⟩ := applies_of_mem_scan hg
    have hfour := tick_some h
    simp only [List.length_drop, List.length_append, List.length_cons, List.length_nil] at hfour
    omega

/-! ### Commands at the start of a line -/

theorem line_some {flag : Bool} {cs : List Char} {n : Nat} {p : Placeholder}
    (h : Rule.line flag cs = some (n, p)) : 0 < n := by
  obtain ⟨_, _, _, _, _, rfl, _⟩ := line_eq_some h
  omega

/-- A match that ends in a piece of whole lines ends in front of a line end. -/
theorem line_inside {u a : List Char} (hu : u.getLast? = some '\n') {flag : Bool} {n : Nat}
    {p : Placeholder} (h : Rule.line flag (u ++ a) = some (n, p)) (hn : n ≤ u.length)
    (b : List Char) : Rule.line flag (u ++ b) = some (n, p) := by
  obtain ⟨rfl, blanks, command, rest, heq, honLine, rfl, rfl⟩ := line_eq_some_iff.mp h
  have hpre : '!' :: blanks ++ command <+: u := by
    refine List.prefix_of_prefix_length_le ⟨rest, heq.symm⟩ (List.prefix_append u a) ?_
    simp only [List.length_append, List.length_cons]
    omega
  obtain ⟨more, rfl⟩ := hpre
  rw [List.append_assoc, List.append_cancel_left_eq] at heq
  have hmore : more ≠ [] := by
    rintro rfl
    -- The command would end with its line end.
    obtain ⟨c, cs, hcommand, -⟩ := honLine.lead
    rw [List.append_nil, List.getLast?_append_of_ne_nil _ (by simp [hcommand])] at hu
    exact honLine.within _ (List.mem_of_getLast? hu) rfl
  obtain ⟨c, more, rfl⟩ := List.exists_cons_of_ne_nil hmore
  refine line_eq_some_iff.mpr ⟨rfl, blanks, command, c :: more ++ b, List.append_assoc .., ?_,
    rfl, rfl⟩
  exact { honLine with ends := fun d hd => honLine.ends d (by rw [← heq]; exact hd) }

/-- A match goes from whole lines over a mark only where they hold a mark and blanks. -/
theorem blank_of_crosses {u z : List Char} (hu : u.getLast? = some '\n') {flag : Bool}
    (h : Rule.line.Crosses flag u ('!' :: z)) :
    flag = true ∧ ∃ blanks, u = '!' :: blanks ∧ ∀ c ∈ blanks, Text.isBlank c = true := by
  obtain ⟨n, p, hlt, h⟩ := h
  obtain ⟨rfl, blanks, command, rest, heq, honLine, rfl, rfl⟩ := line_eq_some_iff.mp h
  refine ⟨rfl, blanks, ?_, honLine.blank⟩
  have hpre : u <+: '!' :: blanks ++ command := by
    refine List.prefix_of_prefix_length_le (List.prefix_append u _) ⟨rest, heq.symm⟩ ?_
    simp only [List.length_append, List.length_cons]
    omega
  obtain ⟨more, hmore⟩ := hpre
  rw [← hmore, List.append_assoc, List.append_cancel_left_eq] at heq
  have hlead : more.head? = some '!' := by
    cases more with
    | nil =>
      have hlen := congrArg List.length hmore
      simp only [List.length_append, List.length_cons, List.length_nil] at hlen
      omega
    | cons c more => exact (List.cons.inj heq).1 ▸ rfl
  rcases List.append_eq_append_iff.mp hmore with ⟨t, ht, hmore⟩ | ⟨t, ht, hcommand⟩
  · -- The blanks are not over yet, but no mark is a blank.
    cases t with
    | nil => simpa using ht.symm
    | cons c t =>
      rw [hmore] at hlead
      obtain rfl : c = '!' := by simpa using hlead
      cases u with
      | nil => exact nomatch hu
      | cons d u =>
        have hmark := honLine.blank '!' (by rw [(List.cons.inj ht).2]; simp)
        exact absurd hmark (by decide)
  · cases t with
    | nil => simpa using ht
    | cons c t =>
      rw [ht, List.getLast?_append_of_ne_nil _ (List.cons_ne_nil c t)] at hu
      refine absurd rfl (honLine.within '\n' ?_)
      rw [hcommand]
      exact List.mem_append_left _ (List.mem_of_getLast? hu)

theorem crosses_of_blank {blanks : List Char} (h : ∀ c ∈ blanks, Text.isBlank c = true)
    (z : List Char) : Rule.line.Crosses true ('!' :: blanks) ('!' :: z) := by
  have honLine : OnLine blanks ('!' :: z.takeWhile (· != '\n')) (z.dropWhile (· != '\n')) :=
    { blank := h
      lead := ⟨_, _, rfl, by decide, by decide⟩
      within := fun c hc => by
        rcases List.mem_cons.mp hc with rfl | hc
        · decide
        · simpa using List.all_eq_true.mp List.all_takeWhile c hc
      ends := fun c hc => by
        have hend := List.head?_dropWhile_not (· != '\n') z
        rw [hc] at hend
        simpa using hend }
  have hline := line_of_onLine honLine
  rw [List.append_assoc, List.cons_append, List.cons_append,
    List.takeWhile_append_dropWhile] at hline
  refine ⟨_, _, ?_, hline⟩
  simp only [List.length_cons]
  omega

/-- In front of a command that the rule for lines finds, it finds the same in front of any
other mark. -/
theorem line_front {x y : List Char} (hx : lineStarts true x = true)
    (hfound : ∃ f ∈ Rule.line.pattern (x ++ '!' :: y), f.start = x.length) (z : List Char) :
    ScansAlike Rule.line x ('!' :: y) ('!' :: z) := by
  have hend : ∀ {u}, u <:+ x → u ≠ [] → u.getLast? = some '\n' := getLast?_of_suffix hx
  refine scansAlike (fun u flag n p hu hne hn => ⟨fun h => line_inside (hend hu hne) h hn _,
    fun h => line_inside (hend hu hne) h hn _⟩) (fun u flag hu hne hc => ?_) fun g hg hlt => ?_
  · obtain ⟨rfl, blanks, rfl, hblank⟩ := blank_of_crosses (hend hu hne) hc
    exact crosses_of_blank hblank y
  · obtain ⟨f, hf, hstart⟩ := hfound
    rw [← hstart] at hlt ⊢
    exact stop_le_of_found (fun _ _ _ _ => line_some) hg hf hlt

/-! ## The command itself -/

variable {x piece y : List Char}

theorem scan_of_pattern (r : Rule) (pos : Nat) (y : List Char) :
    scan r 0 pos true y = (r.pattern y).map (Found.moved pos) := by
  have h := scan_moved r 0 0 pos true y
  rwa [Nat.zero_add] at h

/-- A scan finds `middle` in a piece, and behind it what a scan of the text there finds. -/
structure Rule.Leaves (r : Rule) (pos : Nat) (piece y : List Char) (middle : List Found) :
    Prop where
  scan_eq : scan r 0 pos true (piece ++ y) =
    middle ++ (r.pattern y).map (Found.moved (pos + piece.length))
  within : ∀ f ∈ middle, pos ≤ f.start ∧ f.start < pos + piece.length

theorem plain_inline {r : Rule} (hr : r ∈ plainRules) : r ∈ inlineRules := by
  simp only [plainRules, inlineRules, List.mem_cons, List.not_mem_nil, or_false] at hr ⊢
  tauto

/-- A rule that reads what is written is one for commands, or stays in a line. -/
theorem inline_cases {r : Rule} (hr : r ∈ inlineRules) : r ∈ plainRules ∨ r = tickRule := by
  simp only [plainRules, inlineRules, List.mem_cons, List.not_mem_nil, or_false] at hr ⊢
  tauto

theorem plain_flagless {r : Rule} (hr : r ∈ plainRules) : r.Flagless := by
  simp only [plainRules, List.mem_cons, List.not_mem_nil, or_false] at hr
  rcases hr with rfl | rfl | rfl <;> exact fun _ _ _ => rfl

/-- A text that is empty or starts with a line end. -/
def LineEnds (y : List Char) : Prop := ∀ c, y.head? = some c → c = '\n'

theorem plain_within {r : Rule} (hr : r ∈ plainRules) (hy : LineEnds y) : r.Within piece y := by
  intro i _ n p h
  rw [← List.length_drop]
  cases y with
  | nil =>
    rw [List.append_nil] at h
    exact (takes_inline (plain_inline hr) h).1.most
  | cons c y =>
    obtain rfl := hy c rfl
    exact (plain_at_newline hr h).1

theorem plain_leaves {r : Rule} (hr : r ∈ plainRules) (hy : LineEnds y) (pos : Nat)
    (piece : List Char) : ∃ middle, r.Leaves pos piece y middle := by
  obtain ⟨inner, hin, hscan⟩ :=
    scan_append (plain_flagless hr) (plain_within hr hy) 0 pos (Nat.zero_le piece.length)
  refine ⟨inner, by rw [hscan, scan_of_pattern], fun f hf => ?_⟩
  obtain ⟨i, n, hi, -, hstart, -⟩ := hin f hf
  omega

theorem plain_mark {r : Rule} (hr : r ∈ plainRules) (flag : Bool) (cs : List Char) :
    r flag ('!' :: cs) = none := by
  simp only [plainRules, List.mem_cons, List.not_mem_nil, or_false] at hr
  rcases hr with rfl | rfl | rfl <;> rfl

theorem tick_quiet (h : '\x60' ∉ piece) (hy : LineEnds y) : tickRule.Quiet piece y := by
  intro i hi
  refine Option.eq_none_iff_forall_ne_some.mpr fun ⟨n, p⟩ hsome => ?_
  obtain ⟨payload, rest, heq, -⟩ := between_eq_some hsome
  have hdrop : '\x60' ∉ piece.drop i := fun hmem => h (List.mem_of_mem_drop hmem)
  match hpiece : piece.drop i with
  | [] => exact absurd (List.drop_eq_nil_iff.mp hpiece) (Nat.not_le_of_lt hi)
  | [a] =>
    rw [hpiece] at heq
    have hrest : y = '\x60' :: (payload ++ '\x60' :: rest) := (List.cons.inj heq).2
    exact absurd (hy '\x60' (by rw [hrest]; rfl)) (by decide)
  | a :: b :: cs =>
    rw [hpiece] at heq hdrop
    obtain rfl : b = '\x60' := (List.cons.inj (List.cons.inj heq).2).1
    simp at hdrop

theorem tick_leaves (h : '\x60' ∉ piece) (hy : LineEnds y) (pos : Nat) :
    tickRule.Leaves pos piece y [] :=
  ⟨by rw [scan_quiet (fun _ _ _ => rfl) (tick_quiet h hy), scan_of_pattern, List.nil_append],
    fun _ hf => absurd hf List.not_mem_nil⟩

theorem tick_leaves_quoted {command : List Char} (hne : command ≠ []) (h : '\x60' ∉ command)
    (pos : Nat) (y : List Char) :
    tickRule.Leaves pos (quoted command) y
      [⟨pos, pos + (quoted command).length, .shell command⟩] := by
  have hrule : tickRule true (quoted command ++ y) =
      some ((quoted command).length, .shell command) := by
    have hw := between_written ['!', '\x60'] .shell hne
      (fun c hc (hclose : c = '\x60') => h (hclose ▸ hc)) y true
    simpa [quoted, Spelling.claude, Nat.add_comm, Nat.add_left_comm] using hw
  refine ⟨?_, fun f hf => ?_⟩
  · have hquoted : quoted command ≠ [] := List.cons_ne_nil _ _
    rw [scan_whole (fun _ _ _ => rfl) hquoted hrule, scan_of_pattern]
    rfl
  · obtain rfl := List.mem_singleton.mp hf
    simp [quoted, Spelling.claude]

/-- Where the text behind it is at the end of a line, a scan for lines goes on there. -/
theorem line_ends (hy : LineEnds y) (pos : Nat) (flag : Bool) :
    scan .line 0 pos flag y = (Rule.line.pattern y).map (Found.moved pos) := by
  rw [← scan_of_pattern]
  cases y with
  | nil => rfl
  | cons c y =>
    obtain rfl := hy c rfl
    rfl

theorem line_leaves {blanks command : List Char} (h : OnLine blanks command y) (pos : Nat) :
    Rule.line.Leaves pos ('!' :: blanks ++ command) y
      [⟨pos, pos + ('!' :: blanks ++ command).length, .shell command⟩] := by
  have hlen : 1 + blanks.length + command.length = ('!' :: blanks ++ command).length := by
    simp only [List.length_append, List.length_cons]
    omega
  have hrule := line_of_onLine h
  rw [hlen] at hrule
  refine ⟨?_, fun f hf => ?_⟩
  · have hpiece : '!' :: blanks ++ command ≠ [] := by simp
    rw [scan_cover hpiece hrule, line_ends h.ends]
    rfl
  · obtain rfl := List.mem_singleton.mp hf
    simp

/-- A quoted command is one at the start of a line too. -/
theorem onLine_quoted {blanks command : List Char} (h : OnLine blanks command y) :
    OnLine [] ('\x60' :: command ++ ['\x60']) y where
  blank := fun _ hc => absurd hc List.not_mem_nil
  lead := ⟨_, _, rfl, by decide, by decide⟩
  within := fun c hc => by
    rw [List.mem_append, List.mem_cons, List.mem_singleton] at hc
    rcases hc with (rfl | hc) | rfl
    · decide
    · exact h.within c hc
    · decide
  ends := h.ends

end AgentRelay.Body
