import AgentRelay.Agent
import AgentRelay.Proofs.Body.Quoting

/-
  A body that is written with backticks and read again.

  A command from the start of a line is written between backticks. Where it holds no
  backtick, and no mark with a backtick is open in front of it, the text with the command
  in backticks is read as the one with the command on its line (`AtLine.read_quoted`),
  and one command fewer is read from the start of a line (`AtLine.onLines_quoted`). So
  the written text is read as the body in the end (`read_text_of_quotable`). It is read
  so only then, because each command that is read from backticks has both properties
  (`quotable_of_read_text`).
-/

namespace AgentRelay.Body

/-! ## A rule on a text around a piece -/

/-- What a rule finds in a text around a piece: `inner` in front of it, `middle` in it, and
behind it what it finds there. -/
structure Rule.Parted (r : Rule) (x piece y : List Char) (inner middle : List Found) : Prop where
  finds : r.pattern (x ++ (piece ++ y)) =
    inner ++ (middle ++ (r.pattern y).map (Found.moved (x.length + piece.length)))
  front : ∀ f ∈ inner, f.start < x.length ∧ f.stop ≤ x.length
  within : ∀ f ∈ middle, x.length ≤ f.start ∧ f.start < x.length + piece.length

section

variable {r : Rule} {x piece y : List Char} {inner middle : List Found}

theorem filter_moved_eq_nil {n : Nat} {q : Found → Bool} (fs : List Found)
    (h : ∀ f : Found, n ≤ f.start → q f = false) : (fs.map (Found.moved n)).filter q = [] := by
  refine List.filter_eq_nil_iff.mpr fun f hf => ?_
  obtain ⟨g, -, rfl⟩ := List.mem_map.mp hf
  simp [h (g.moved n) (Nat.le_add_left ..)]

theorem Rule.Parted.filter_front (h : r.Parted x piece y inner middle) :
    (r.pattern (x ++ (piece ++ y))).filter (·.start < x.length) = inner := by
  have hinner : inner.filter (·.start < x.length) = inner :=
    List.filter_eq_self.mpr fun f hf => by simpa using (h.front f hf).1
  have hmiddle : middle.filter (·.start < x.length) = [] :=
    List.filter_eq_nil_iff.mpr fun f hf => by simpa using (h.within f hf).1
  rw [h.finds, List.filter_append, List.filter_append, hinner, hmiddle, filter_moved_eq_nil,
    List.nil_append, List.append_nil]
  intro f hf
  simp only [decide_eq_false_iff_not]
  omega

theorem Rule.Parted.filter_at (h : r.Parted x piece y inner middle) (hpiece : piece ≠ []) :
    (r.pattern (x ++ (piece ++ y))).filter (·.start = x.length) =
      middle.filter (·.start = x.length) := by
  have hlen := List.length_pos_of_ne_nil hpiece
  have hinner : inner.filter (·.start = x.length) = [] :=
    List.filter_eq_nil_iff.mpr fun f hf => by
      have := (h.front f hf).1
      simp only [decide_eq_true_eq]
      omega
  rw [h.finds, List.filter_append, List.filter_append, hinner, filter_moved_eq_nil,
    List.nil_append, List.append_nil]
  intro f hf
  simp only [decide_eq_false_iff_not]
  omega

theorem Rule.Parted.fallsApart (h : r.Parted x piece y inner middle) :
    FallsApart r.pattern (x ++ (piece ++ y)) y x.length (x.length + piece.length) where
  stays := fun g hg hlt => by
    have hinner : g ∈ (r.pattern (x ++ (piece ++ y))).filter (·.start < x.length) :=
      List.mem_filter.mpr ⟨hg, by simpa using hlt⟩
    rw [h.filter_front] at hinner
    exact (h.front g hinner).2
  behind := by
    have hinner : inner.filter (x.length + piece.length ≤ ·.start) = [] :=
      List.filter_eq_nil_iff.mpr fun f hf => by
        have := (h.front f hf).1
        simp only [decide_eq_true_eq]
        omega
    have hmiddle : middle.filter (x.length + piece.length ≤ ·.start) = [] :=
      List.filter_eq_nil_iff.mpr fun f hf => by
        have := (h.within f hf).2
        simp only [decide_eq_true_eq]
        omega
    rw [h.finds, List.filter_append, List.filter_append, hinner, hmiddle, List.nil_append,
      List.nil_append]
    refine List.filter_eq_self.mpr fun f hf => ?_
    obtain ⟨g, -, rfl⟩ := List.mem_map.mp hf
    simp [Found.moved]

/-- A rule finds the same in front of two pieces and behind them. -/
theorem ScansAlike.parted {c d : List Char} {middle' : List Found}
    (h : ScansAlike r x (c ++ y) (d ++ y)) (hx : lineStarts true x = true)
    (hc : r.Leaves x.length c y middle) (hd : r.Leaves x.length d y middle') :
    ∃ inner, r.Parted x c y inner middle ∧ r.Parted x d y inner middle' := by
  obtain ⟨inner, hin, h1, h2⟩ := h
  rw [hx] at h1 h2
  exact ⟨inner, ⟨by rw [h1, hc.scan_eq], hin, hc.within⟩, ⟨by rw [h2, hd.scan_eq], hin, hd.within⟩⟩

end

/-! ## A command at the start of a line -/

/-- A command that is read from the start of a line, behind `x` and in front of `y`, and can
be put between backticks. -/
structure AtLine (x blanks command y : List Char) : Prop where
  starts : lineStarts true x = true
  onLine : OnLine blanks command y
  found : ∃ f ∈ Rule.line.pattern (x ++ ('!' :: blanks ++ command ++ y)), f.start = x.length
  unticked : '\x60' ∉ command
  closed : ¬ LeavesOpen x

namespace AtLine

variable {x blanks command y : List Char}

/-- The command as it stands on its line. -/
abbrev spelled (blanks command : List Char) : List Char := '!' :: blanks ++ command

theorem tick_not_mem (h : AtLine x blanks command y) : '\x60' ∉ spelled blanks command := by
  intro hmem
  rw [spelled, List.mem_append, List.mem_cons] at hmem
  rcases hmem with (hmark | hblank) | hcommand
  · exact absurd hmark (by decide)
  · exact absurd (h.onLine.blank _ hblank) (by decide)
  · exact h.unticked hcommand

theorem command_ne_nil (h : AtLine x blanks command y) : command ≠ [] := by
  obtain ⟨c, cs, rfl, -⟩ := h.onLine.lead
  exact List.cons_ne_nil c cs

/-- The command as the rule for a spelling of it finds it. -/
def asFound (x piece command : List Char) : Found :=
  ⟨x.length, x.length + piece.length, .shell command⟩

theorem plain_parted (h : AtLine x blanks command y) {r : Rule} (hr : r ∈ plainRules) :
    ∃ inner middle middle', r.Parted x (spelled blanks command) y inner middle ∧
      r.Parted x (quoted command) y inner middle' := by
  obtain ⟨middle, hm⟩ := plain_leaves hr h.onLine.ends x.length (spelled blanks command)
  obtain ⟨middle', hm'⟩ := plain_leaves hr h.onLine.ends x.length (quoted command)
  obtain ⟨inner, hp⟩ := (plain_front hr h.starts _ _).parted h.starts hm hm'
  exact ⟨inner, middle, middle', hp⟩

theorem tick_parted (h : AtLine x blanks command y) :
    ∃ inner, tickRule.Parted x (spelled blanks command) y inner [] ∧
      tickRule.Parted x (quoted command) y inner [asFound x (quoted command) command] :=
  ((tick_front h.closed _).of_common (tick_front h.closed _)).parted h.starts
    (tick_leaves h.tick_not_mem h.onLine.ends _)
    (tick_leaves_quoted h.command_ne_nil h.unticked _ _)

theorem line_parted (h : AtLine x blanks command y) :
    ∃ inner, Rule.line.Parted x (spelled blanks command) y inner
        [asFound x (spelled blanks command) command] ∧
      Rule.line.Parted x (quoted command) y inner
        [asFound x (quoted command) ('\x60' :: command ++ ['\x60'])] :=
  (line_front h.starts h.found _).parted h.starts (line_leaves h.onLine _)
    (line_leaves (onLine_quoted h.onLine) _)

/-- Every rule finds the same in front of the command and behind it in both texts. -/
theorem parted (h : AtLine x blanks command y) {p : Pattern} (hp : p ∈ Spelling.claude.patterns) :
    ∃ r inner middle middle', p = Rule.pattern r ∧
      r.Parted x (spelled blanks command) y inner middle ∧
      r.Parted x (quoted command) y inner middle' := by
  rcases patterns_claude.mp hp with ⟨r, hr, rfl⟩ | rfl
  · rcases inline_cases hr with hplain | rfl
    · exact ⟨r, (h.plain_parted hplain).imp fun _ => fun ⟨_, _, hp⟩ => ⟨_, _, rfl, hp⟩⟩
    · obtain ⟨inner, hp⟩ := h.tick_parted
      exact ⟨_, inner, _, _, rfl, hp⟩
  · obtain ⟨inner, hp⟩ := h.line_parted
    exact ⟨_, inner, _, _, rfl, hp⟩

end AtLine

theorem start_le_stop {b : List Char} {f : Found} (hf : f ∈ pool Spelling.claude.patterns b) :
    f.start ≤ f.stop := by
  have := (takes_of_mem_pool hf).some
  omega

/-- At a mark there are only commands. -/
theorem pool_at_mark (x z : List Char) :
    (pool Spelling.claude.patterns (x ++ '!' :: z)).filter (·.start = x.length) =
      (tickRule.pattern (x ++ '!' :: z)).filter (·.start = x.length) ++
        (Rule.line.pattern (x ++ '!' :: z)).filter (·.start = x.length) := by
  have hplain : ∀ r ∈ plainRules,
      (r.pattern (x ++ '!' :: z)).filter (·.start = x.length) = [] := by
    intro r hr
    refine List.filter_eq_nil_iff.mpr fun f hf => ?_
    obtain ⟨i, n, flag, -, -, hi, -, h⟩ := applies_of_mem_scan hf
    rw [decide_eq_true_eq]
    intro hstart
    obtain rfl : x.length = i := by omega
    rw [List.drop_left, plain_mark hr] at h
    exact nomatch h
  have hword := hplain (.word Spelling.argumentsWord .arguments) (by simp [plainRules])
  have hpath := hplain .path (by simp [plainRules])
  have hposition := hplain .position (by simp [plainRules])
  rw [filter_pool]
  simp only [Spelling.claude, List.flatMap_cons, List.flatMap_nil, hword, hpath, hposition,
    List.nil_append, List.append_nil]

namespace AtLine

variable {x blanks command y : List Char}

theorem quoted_ne_nil : quoted command ≠ [] := List.cons_ne_nil _ _

theorem pool_at_spelled (h : AtLine x blanks command y) :
    (pool Spelling.claude.patterns (x ++ (spelled blanks command ++ y))).filter
      (·.start = x.length) = [asFound x (spelled blanks command) command] := by
  obtain ⟨_, htick, -⟩ := h.tick_parted
  obtain ⟨_, hline, -⟩ := h.line_parted
  have hpool := pool_at_mark x (blanks ++ command ++ y)
  rw [show '!' :: (blanks ++ command ++ y) = spelled blanks command ++ y from rfl,
    htick.filter_at (by simp), hline.filter_at (by simp)] at hpool
  simpa [asFound] using hpool

theorem pool_at_quoted (h : AtLine x blanks command y) :
    (pool Spelling.claude.patterns (x ++ (quoted command ++ y))).filter (·.start = x.length) =
      [asFound x (quoted command) command,
        asFound x (quoted command) ('\x60' :: command ++ ['\x60'])] := by
  obtain ⟨_, -, htick⟩ := h.tick_parted
  obtain ⟨_, -, hline⟩ := h.line_parted
  have hpool := pool_at_mark x ('\x60' :: command ++ ['\x60'] ++ y)
  rw [show '!' :: ('\x60' :: command ++ ['\x60'] ++ y) = quoted command ++ y from rfl,
    htick.filter_at quoted_ne_nil, hline.filter_at quoted_ne_nil] at hpool
  simpa [asFound] using hpool

theorem pool_front (h : AtLine x blanks command y) :
    (pool Spelling.claude.patterns (x ++ (quoted command ++ y))).filter (·.start < x.length) =
      (pool Spelling.claude.patterns (x ++ (spelled blanks command ++ y))).filter
        (·.start < x.length) := by
  rw [pool_filter, pool_filter, List.flatMap_congr fun p hp => ?_]
  obtain ⟨r, inner, _, _, rfl, hc, hd⟩ := h.parted hp
  rw [hc.filter_front, hd.filter_front]

theorem fallsApart_spelled (h : AtLine x blanks command y) :
    ∀ p ∈ Spelling.claude.patterns, FallsApart p (x ++ (spelled blanks command ++ y)) y x.length
      (x.length + (spelled blanks command).length) := by
  intro p hp
  obtain ⟨r, inner, _, _, rfl, hc, -⟩ := h.parted hp
  exact hc.fallsApart

theorem fallsApart_quoted (h : AtLine x blanks command y) :
    ∀ p ∈ Spelling.claude.patterns, FallsApart p (x ++ (quoted command ++ y)) y x.length
      (x.length + (quoted command).length) := by
  intro p hp
  obtain ⟨r, inner, _, _, rfl, -, hd⟩ := h.parted hp
  exact hd.fallsApart

/-- What is read of a text around a command that falls apart there. -/
theorem read_apart {b piece : List Char} {more : List Found} (hb : b = x ++ (piece ++ y))
    (hpiece : piece ≠ [])
    (hparts : ∀ p ∈ Spelling.claude.patterns,
      FallsApart p b y x.length (x.length + piece.length))
    (hfirst : (pool Spelling.claude.patterns b).filter (·.start = x.length) =
      asFound x piece command :: more) :
    Spelling.claude.read b =
      cut 0 x (take 0 ((pool Spelling.claude.patterns b).filter (·.start < x.length))) ++
        .placeholder (.shell command) :: cut 0 y (take 0 (pool Spelling.claude.patterns y)) := by
  have hlen : x.length < x.length + piece.length :=
    Nat.lt_add_of_pos_right (List.length_pos_of_ne_nil hpiece)
  have hx : b.take x.length = x := by rw [hb, List.take_left]
  have hy : b.drop (x.length + piece.length) = y := by
    rw [hb, ← List.append_assoc, ← List.length_append, List.drop_left]
  have hcut : cut 0 b (take 0 (pool Spelling.claude.patterns b)) =
      cut 0 (b.take x.length)
        (take 0 ((pool Spelling.claude.patterns b).filter (·.start < x.length))) ++
      .placeholder (.shell command) :: cut 0 y (take 0 (pool Spelling.claude.patterns y)) :=
    @cut_apart _ b y (asFound x piece command) more hparts hlen (fun _ => start_le_stop) hfirst hy
  rw [Spelling.read, parse, if_neg (by simp [hb, hpiece]), hcut, hx]

/-- Between backticks the command is read as it was. -/
theorem read_quoted (h : AtLine x blanks command y) :
    Spelling.claude.read (x ++ (quoted command ++ y)) =
      Spelling.claude.read (x ++ (spelled blanks command ++ y)) := by
  rw [read_apart rfl quoted_ne_nil h.fallsApart_quoted h.pool_at_quoted, h.pool_front,
    ← read_apart rfl (by simp) h.fallsApart_spelled h.pool_at_spelled]

/-! ## Commands that are read from the start of a line -/

end AtLine

/-- How many commands are read from the start of a line. -/
def onLines (b : List Char) : Nat :=
  (take 0 (pool Spelling.claude.patterns b)).countP (· ∈ Rule.line.pattern b)

theorem onLines_eq_zero_iff {b : List Char} : onLines b = 0 ↔ LineFree b := by
  simp [onLines, LineFree, List.countP_eq_zero]

theorem moved_injective (n : Nat) : Function.Injective (Found.moved n) := by
  rintro ⟨a, b, p⟩ ⟨a', b', p'⟩ h
  simp only [Found.moved, Found.mk.injEq] at h
  obtain ⟨h1, h2, rfl⟩ := h
  obtain rfl : a = a' := by omega
  obtain rfl : b = b' := by omega
  rfl

namespace AtLine

variable {x blanks command y : List Char}

theorem onLines_apart {b piece : List Char} {more : List Found} (hpiece : piece ≠ [])
    (hparts : ∀ p ∈ Spelling.claude.patterns,
      FallsApart p b y x.length (x.length + piece.length))
    (hfirst : (pool Spelling.claude.patterns b).filter (·.start = x.length) =
      asFound x piece command :: more) :
    onLines b = (take 0 ((pool Spelling.claude.patterns b).filter (·.start < x.length))).countP
        (· ∈ (Rule.line.pattern b).filter (·.start < x.length)) +
      ((if asFound x piece command ∈ (Rule.line.pattern b).filter (·.start = x.length)
        then 1 else 0) + onLines y) := by
  have hlen : x.length < x.length + piece.length :=
    Nat.lt_add_of_pos_right (List.length_pos_of_ne_nil hpiece)
  have htake : take 0 (pool Spelling.claude.patterns b) =
      take 0 ((pool Spelling.claude.patterns b).filter (·.start < x.length)) ++
        asFound x piece command :: (take 0 (pool Spelling.claude.patterns y)).map
          (Found.moved (x.length + piece.length)) :=
    @take_apart _ b y (asFound x piece command) more hparts hlen hfirst
  have hfront : (take 0 ((pool Spelling.claude.patterns b).filter (·.start < x.length))).countP
      (· ∈ Rule.line.pattern b) =
      (take 0 ((pool Spelling.claude.patterns b).filter (·.start < x.length))).countP
        (· ∈ (Rule.line.pattern b).filter (·.start < x.length)) := by
    refine List.countP_congr fun g hg => ?_
    have hlt := (List.mem_filter.mp ((take_sublist 0 _).subset hg)).2
    simp only [decide_eq_true_eq, List.mem_filter, hlt, and_true]
  have hat : asFound x piece command ∈ (Rule.line.pattern b).filter (·.start = x.length) ↔
      asFound x piece command ∈ Rule.line.pattern b := by
    simp [List.mem_filter, asFound]
  have hback : ((take 0 (pool Spelling.claude.patterns y)).map
      (Found.moved (x.length + piece.length))).countP (· ∈ Rule.line.pattern b) = onLines y := by
    rw [List.countP_map]
    refine List.countP_congr fun g _ => ?_
    have hbehind := (hparts _ (patterns_claude.mpr (Or.inr rfl))).behind
    have hmem := List.mem_map_of_injective (moved_injective (x.length + piece.length))
      (a := g) (l := Rule.line.pattern y)
    rw [← hbehind, List.mem_filter] at hmem
    have hsame : g.moved (x.length + piece.length) ∈ Rule.line.pattern b ↔
        g ∈ Rule.line.pattern y := Iff.trans (by simp [Found.moved]) hmem
    simp only [Function.comp_apply, hsame]
  rw [onLines, htake, List.countP_append, List.countP_cons, hfront, hback]
  simp only [hat, decide_eq_true_eq]
  omega

/-- Between backticks the command is not read from the start of a line. -/
theorem onLines_quoted (h : AtLine x blanks command y) :
    onLines (x ++ (spelled blanks command ++ y)) = onLines (x ++ (quoted command ++ y)) + 1 := by
  obtain ⟨inner, hc, hd⟩ := h.line_parted
  have hin : asFound x (spelled blanks command) command ∈
      [asFound x (spelled blanks command) command].filter (·.start = x.length) := by
    simp [asFound]
  have hout : asFound x (quoted command) command ∉
      [asFound x (quoted command) ('\x60' :: command ++ ['\x60'])].filter
        (·.start = x.length) := by
    intro hmem
    have hsame : command = '\x60' :: command ++ ['\x60'] := by
      simpa [asFound] using List.mem_singleton.mp (List.mem_filter.mp hmem).1
    have hlen := congrArg List.length hsame
    simp only [List.length_append, List.length_cons] at hlen
    omega
  rw [onLines_apart (by simp) h.fallsApart_spelled h.pool_at_spelled,
    onLines_apart quoted_ne_nil h.fallsApart_quoted h.pool_at_quoted, h.pool_front,
    hc.filter_front, hd.filter_front, hc.filter_at (by simp), hd.filter_at quoted_ne_nil,
    if_pos hin, if_neg hout]
  omega

end AtLine

/-! ## What is written and read again -/

/-- The commands of a body hold no backtick, and no mark with a backtick is open in front of
one of them where the body is written. -/
def Quotable (segments : List Segment) : Prop :=
  ∀ before command after, segments = before ++ .placeholder (.shell command) :: after →
    '\x60' ∉ command ∧ ¬ LeavesOpen (Spelling.claude.text before)

theorem Apart.front {last : Nat} {front back : List Found} {f : Found}
    (h : Apart last (front ++ f :: back)) (hle : ∀ g ∈ front, g.start ≤ g.stop) :
    Apart last front ∧ last ≤ f.start ∧ ∀ g ∈ front, g.stop ≤ f.start := by
  induction front generalizing last with
  | nil => exact ⟨trivial, h.1, fun g hg => absurd hg List.not_mem_nil⟩
  | cons g front ih =>
    obtain ⟨hapart, hlast, hfront⟩ := ih h.2 fun x hx => hle x (List.mem_cons_of_mem _ hx)
    have hg := hle g List.mem_cons_self
    have hstart : last ≤ g.start := h.1
    refine ⟨⟨hstart, hapart⟩, by omega, fun x hx => ?_⟩
    rcases List.mem_cons.mp hx with rfl | hx
    · exact hlast
    · exact hfront x hx

/-- The first command that is read from the start of a line of a quotable body. -/
theorem exists_atLine {b : List Char} (hline : ¬ LineFree b) (hq : Quotable (Spelling.claude.read b)) :
    ∃ x blanks command y, b = x ++ (AtLine.spelled blanks command ++ y) ∧
      AtLine x blanks command y := by
  cases hfind : (take 0 (pool Spelling.claude.patterns b)).find? (· ∈ Rule.line.pattern b) with
  | none =>
    have hnone := List.find?_eq_none.mp hfind
    exact absurd (fun f hf => by simpa using hnone f hf) hline
  | some f =>
    obtain ⟨hf, front, back, htake, hfront⟩ := List.find?_eq_some_iff_append.mp hfind
    have hf : f ∈ Rule.line.pattern b := by simpa using hf
    obtain ⟨x, rest, n, rfl, hstart, hstop, hrule⟩ := applies_behind_of_mem_scan hf
    obtain ⟨hstarts, blanks, command, y, rfl, honLine, rfl, hshell⟩ := line_eq_some_iff.mp hrule
    rw [Nat.zero_add] at hstart
    have hpool : ∀ g ∈ front, g ∈ pool Spelling.claude.patterns _ := fun g hg =>
      (take_sublist 0 _).subset (htake ▸ List.mem_append_left _ hg)
    obtain ⟨hapart, -, hends⟩ := (htake ▸ Apart.of_take 0 _ : Apart 0 (front ++ f :: back)).front
      fun g hg => start_le_stop (hpool g hg)
    -- What is in front of the first such command is written as it was read.
    have htext : Spelling.claude.text (cut 0 x front) = x := by
      refine text_cut 0 hapart (fun g hg => start_le_stop (hpool g hg)) fun g hg => ?_
      have hwritten := (line_or_written (hpool g hg)).resolve_left (by simpa using hfront g hg)
      have hle := start_le_stop (hpool g hg)
      have hend := hends g hg
      rw [List.drop_append_of_le_length (by omega),
        List.take_append_of_le_length (by rw [List.length_drop]; omega)] at hwritten
      exact hwritten
    have hread : Spelling.claude.read (x ++ ('!' :: blanks ++ command ++ y)) =
        cut 0 x front ++ .placeholder (.shell command) ::
          cut f.stop ((x ++ ('!' :: blanks ++ command ++ y)).drop f.stop) back := by
      rw [Spelling.read, parse, if_neg (by simp), htake, cut_parts (Nat.zero_le _) (by omega) hapart
        (fun g hg => ⟨start_le_stop (hpool g hg), hends g hg⟩), hshell, Nat.sub_zero, Nat.sub_zero,
        hstart, List.take_left]
    obtain ⟨hticks, hopen⟩ := hq _ _ _ hread
    rw [htext] at hopen
    exact ⟨x, blanks, command, y, rfl, hstarts, honLine, ⟨f, hf, hstart⟩, hticks, hopen⟩

/-- A quotable body is read again from the text it is written as. -/
theorem read_text_of_quotable {b : List Char} (hq : Quotable (Spelling.claude.read b)) :
    Spelling.claude.read (Spelling.claude.text (Spelling.claude.read b)) =
      Spelling.claude.read b := by
  induction hn : onLines b generalizing b with
  | zero => rw [(text_read_claude_iff b).mpr (onLines_eq_zero_iff.mp hn)]
  | succ n ih =>
    -- One command goes between backticks.
    have hline : ¬ LineFree b := fun h => by
      rw [onLines_eq_zero_iff.mpr h] at hn
      exact nomatch hn
    obtain ⟨x, blanks, command, y, rfl, hat⟩ := exists_atLine hline hq
    have hfewer := hat.onLines_quoted
    rw [← hat.read_quoted] at hq ⊢
    exact ih hq (by omega)

/-- Where a placeholder stands in the segments of a text that is written as it was read. -/
theorem exists_of_cut {t : List Char} {fs : List Found} {last : Nat} {p : Placeholder}
    {before after : List Segment} (hapart : Apart last fs)
    (hlen : ∀ f ∈ fs, f.start ≤ f.stop ∧ f.stop ≤ t.length)
    (hwritten : ∀ f ∈ fs,
      (t.drop f.start).take (f.stop - f.start) = Spelling.claude.write f.placeholder)
    (h : cut last (t.drop last) fs = before ++ .placeholder p :: after) :
    ∃ f ∈ fs, f.placeholder = p ∧ f.start = last + (Spelling.claude.text before).length := by
  have hrun : ∀ (run' : List Char) s more, run run' ≠ s ++ .placeholder p :: more := by
    intro cs s more heq
    have hmem : Segment.placeholder p ∈ run cs := by rw [heq]; simp
    unfold run at hmem
    split at hmem <;> simp at hmem
  induction fs generalizing last before with
  | nil => exact absurd h (hrun _ _ _)
  | cons f fs ih =>
    obtain ⟨hf, hmost⟩ := hlen f List.mem_cons_self
    have hstart : last ≤ f.start := hapart.1
    have hfront : ((t.drop last).take (f.start - last)).length = f.start - last := by
      rw [List.length_take, List.length_drop]
      omega
    have htaken : (Spelling.claude.write f.placeholder).length = f.stop - f.start := by
      rw [← hwritten f List.mem_cons_self, List.length_take, List.length_drop]
      omega
    rw [cut, drop_drop_sub (Nat.le_trans hstart hf)] at h
    rcases List.append_eq_append_iff.mp h with ⟨s, rfl, hs⟩ | ⟨s, hs, hmore⟩
    · cases s with
      | nil =>
        obtain ⟨hp, -⟩ := List.cons.inj hs
        refine ⟨f, List.mem_cons_self, Segment.placeholder.inj hp, ?_⟩
        rw [text_run, List.length_append, hfront]
        simp only [Spelling.text, List.flatMap_nil, List.length_nil]
        omega
      | cons s before =>
        obtain ⟨rfl, hmore⟩ := List.cons.inj hs
        obtain ⟨g, hg, hgp, hgstart⟩ := ih hapart.2
          (fun g hg => hlen g (List.mem_cons_of_mem _ hg))
          (fun g hg => hwritten g (List.mem_cons_of_mem _ hg)) hmore
        refine ⟨g, List.mem_cons_of_mem _ hg, hgp, ?_⟩
        rw [text_run, text_cons, List.length_append, List.length_append, hfront, Spelling.segment,
          htaken]
        omega
    · cases s with
      | nil =>
        obtain ⟨hp, -⟩ := List.cons.inj hmore
        refine ⟨f, List.mem_cons_self, (Segment.placeholder.inj hp).symm, ?_⟩
        have htext := text_run Spelling.claude ((t.drop last).take (f.start - last)) []
        rw [List.append_nil] at hs htext
        rw [← hs, htext, List.length_append, hfront]
        simp only [Spelling.text, List.flatMap_nil, List.length_nil]
        omega
      | cons s more =>
        obtain ⟨rfl, -⟩ := List.cons.inj hmore
        exact absurd hs (hrun _ _ _)

/-- A body that is read again from the text it is written as is quotable. -/
theorem quotable_of_read_text {segments : List Segment}
    (h : Spelling.claude.read (Spelling.claude.text segments) = segments) : Quotable segments := by
  intro before command after hsegments
  obtain ⟨t, ht⟩ : ∃ t, t = Spelling.claude.text segments := ⟨_, rfl⟩
  have hwrite : t = Spelling.claude.text before ++ '!' :: '\x60' :: (command ++ ['\x60'] ++
      Spelling.claude.text after) := by
    rw [ht, hsegments, Spelling.text, List.flatMap_append, List.flatMap_cons]
    simp [Spelling.segment, Spelling.claude, Spelling.text]
  rw [← ht] at h
  have hfree : LineFree t := (text_read_claude_iff t).mp (by rw [h, ht])
  -- The command is found behind what is written in front of it.
  have hfound : ∃ f ∈ take 0 (pool Spelling.claude.patterns t), f.placeholder = .shell command ∧
      f.start = (Spelling.claude.text before).length := by
    have hlen : ∀ f ∈ take 0 (pool Spelling.claude.patterns t),
        f.start ≤ f.stop ∧ f.stop ≤ t.length := by
      intro f hf
      have htakes := takes_of_mem_pool ((take_sublist 0 _).subset hf)
      have hsome := htakes.some
      have hmost := htakes.most
      rw [List.length_drop] at hmost
      omega
    rw [Spelling.read, parse, if_neg (by simp [hwrite]), hsegments] at h
    obtain ⟨f, hf, hp, hstart⟩ := exists_of_cut (Apart.of_take 0 _) hlen
      (fun f hf => (line_or_written ((take_sublist 0 _).subset hf)).resolve_left (hfree f hf)) h
    exact ⟨f, hf, hp, by rw [hstart, Nat.zero_add]⟩
  obtain ⟨f, hf, hshell, hstart⟩ := hfound
  have htick : f ∈ tickRule.pattern t := by
    have hmem : f ∈ (pool Spelling.claude.patterns t).filter
        (·.start = (Spelling.claude.text before).length) :=
      List.mem_filter.mpr ⟨(take_sublist 0 _).subset hf, by simpa using hstart⟩
    rw [hwrite, pool_at_mark, ← hwrite, List.mem_append] at hmem
    rcases hmem with hmem | hmem
    · exact (List.mem_filter.mp hmem).1
    · exact absurd (List.mem_filter.mp hmem).1 (hfree f hf)
  refine ⟨fun hmem => ?_, not_leavesOpen_of_found (hwrite ▸ htick) hstart⟩
  obtain ⟨i, n, flag, -, -, -, -, hrule⟩ := applies_of_mem_scan htick
  obtain ⟨payload, rest, -, -, hno, -, hmake⟩ := between_eq_some hrule
  obtain rfl := Placeholder.shell.inj (hshell.symm.trans hmake)
  exact hno _ hmem rfl

/-! ## From agent to agent -/

/-- The texts of a body on its way from agent to agent. -/
def hopTexts : Agent → List Agent → List Char → List (List Char)
  | _, [], _ => []
  | source, target :: more, body =>
    let text := Spelling.convert source.spelling target.spelling body
    text :: hopTexts target more text

theorem spelling_of_ne {a : Agent} (h : a ≠ .gemini) : a.spelling = Spelling.claude := by
  cases a <;> first | rfl | exact absurd rfl h

/-- What an agent without braces writes is read as it was exactly where the commands can be
put between backticks. Then a body on its way through such agents is the same text from the
first agent on, and is read as it was by each. -/
theorem reread_iff_quotable (b : List Char) :
    (Spelling.claude.read (Spelling.claude.text (Spelling.claude.read b)) =
        Spelling.claude.read b ↔ Quotable (Spelling.claude.read b)) ∧
      (Quotable (Spelling.claude.read b) → ∀ (source : Agent) (targets : List Agent),
        source ≠ .gemini → .gemini ∉ targets → ∀ t ∈ hopTexts source targets b,
          t = Spelling.claude.text (Spelling.claude.read b) ∧
            Spelling.claude.read t = Spelling.claude.read b) := by
  refine ⟨⟨quotable_of_read_text, read_text_of_quotable⟩, fun hq source targets hs hnone => ?_⟩
  induction targets generalizing source b with
  | nil => exact fun t ht => absurd ht List.not_mem_nil
  | cons target targets ih =>
    have htarget : target ≠ .gemini := fun h => hnone (h ▸ List.mem_cons_self)
    have hmore : .gemini ∉ targets := fun h => hnone (List.mem_cons_of_mem _ h)
    have hreread := read_text_of_quotable hq
    have hrest := ih (Spelling.claude.text (Spelling.claude.read b)) (hreread.symm ▸ hq) target
      htarget hmore
    rw [hreread] at hrest
    simp only [hopTexts, Spelling.convert, spelling_of_ne hs, spelling_of_ne htarget,
      List.mem_cons, forall_eq_or_imp]
    exact ⟨⟨trivial, hreread⟩, hrest⟩

/-- Notes with a command at the start of a line, one in backticks, a file and an argument. -/
def statusNotes : List Char := "!git status\nSee @notes.md for $1: !\x60ls\x60".toList

theorem statusNotes_reread :
    Spelling.claude.read (Spelling.claude.text (Spelling.claude.read statusNotes)) =
        Spelling.claude.read statusNotes ∧
      ∀ t ∈ hopTexts .claude [.codex, .chimera, .cursor] statusNotes,
        t = Spelling.claude.text (Spelling.claude.read statusNotes) ∧
          Spelling.claude.read t = Spelling.claude.read statusNotes := by
  have hreread : Spelling.claude.read (Spelling.claude.text (Spelling.claude.read statusNotes)) =
      Spelling.claude.read statusNotes := by cbv
  exact ⟨hreread, (reread_iff_quotable statusNotes).2
    ((reread_iff_quotable statusNotes).1.mp hreread) .claude [.codex, .chimera, .cursor]
    (by decide) (by decide)⟩

/-- A command with a backtick is cut off there when it is read again, and one behind an open
mark is not found. -/
theorem ticks_not_reread :
    Spelling.claude.read (Spelling.claude.text (Spelling.claude.read "!echo \x60date\x60".toList)) ≠
        Spelling.claude.read "!echo \x60date\x60".toList ∧
      Spelling.claude.read (Spelling.claude.text (Spelling.claude.read "See !\x60 a\n!b".toList)) ≠
        Spelling.claude.read "See !\x60 a\n!b".toList := by
  constructor
  · intro h
    cbv at h
    simp at h
  · intro h
    cbv at h
    simp at h

end AgentRelay.Body
