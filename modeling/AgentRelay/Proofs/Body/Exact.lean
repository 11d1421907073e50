import AgentRelay.Proofs.Body.Return

/-
  A body that is read and written in one spelling.

  With braces it comes back as it was. With backticks it does exactly where no command
  was read from the start of a line: such a command is written between backticks, and
  the line it was read from is never spelled that way (`line_ne_written`, `text_cut_ne`).
  Reading never fails: both spellings find only placeholders that can be built
  (`checkedRead?_eq`), and their payloads are not empty (`text_read_exact`).
-/

namespace AgentRelay.Body

/-! ## Commands at the start of a line -/

/-- No command that is taken was read from the start of a line. -/
def LineFree (b : List Char) : Prop :=
  ∀ f ∈ take 0 (pool Spelling.claude.patterns b), f ∉ Rule.line.pattern b

/-- A find is of the rule for lines, or written the way it was read. -/
theorem line_or_written {b : List Char} {f : Found} (hf : f ∈ pool Spelling.claude.patterns b) :
    f ∈ Rule.line.pattern b ∨
      (b.drop f.start).take (f.stop - f.start) = Spelling.claude.write f.placeholder := by
  obtain ⟨p, hp, hmem⟩ := mem_pool.mp hf
  rcases patterns_claude.mp hp with ⟨r, hr, rfl⟩ | rfl
  · exact Or.inr (takes_of_mem_pattern
      (P := fun cs n p => cs.take n = Spelling.claude.write p) b hmem
      fun _ _ _ _ h => (takes_inline hr h).2)
  · exact Or.inl hmem

/-- What the rule for lines finds. -/
theorem onLine_of_mem {b : List Char} {f : Found} (hf : f ∈ Rule.line.pattern b) :
    ∃ blanks command rest, b.drop f.start = '!' :: blanks ++ command ++ rest ∧
      OnLine blanks command rest ∧ f.stop - f.start = 1 + blanks.length + command.length ∧
      f.placeholder = .shell command :=
  takes_of_mem_pattern (P := fun cs n p => ∃ blanks command rest,
    cs = '!' :: blanks ++ command ++ rest ∧ OnLine blanks command rest ∧
      n = 1 + blanks.length + command.length ∧ p = .shell command) b hf
    fun _ _ _ _ h => (line_eq_some_iff.mp h).2

/-- A text that goes on with what it starts with, one character later, repeats that
character. -/
theorem head_of_shift {z : Char} {cs rest more : List Char}
    (h : z :: (cs ++ z :: more) = cs ++ rest) : rest.head? = some z := by
  induction cs with
  | nil =>
    obtain rfl : z :: z :: more = rest := h
    rfl
  | cons c cs ih =>
    obtain ⟨rfl, htail⟩ := List.cons.inj h
    exact ih htail

/-- A command at the start of a line is not written as it was read. -/
theorem line_ne_written {blanks command rest : List Char} (h : OnLine blanks command rest)
    (more : List Char) :
    Spelling.claude.write (.shell command) ++ more ≠ '!' :: blanks ++ command ++ rest := by
  intro heq
  have htail : '\x60' :: (command ++ '\x60' :: more) = blanks ++ (command ++ rest) := by
    simpa [Spelling.claude] using heq
  cases blanks with
  | nil =>
    -- The command and the rest of its line would be backticks all through.
    have hend := h.ends '\x60' (head_of_shift htail)
    exact absurd hend (by decide)
  | cons c cs =>
    obtain ⟨rfl, -⟩ := List.cons.inj htail
    exact absurd (h.blank '\x60' List.mem_cons_self) (by decide)

/-- A text with a command from the start of a line is not written back as it was. -/
theorem text_cut_ne {b : List Char} {fs : List Found} {last : Nat} (hapart : Apart last fs)
    (hpool : ∀ f ∈ fs, f ∈ pool Spelling.claude.patterns b)
    (hline : ∃ f ∈ fs, f ∈ Rule.line.pattern b) :
    Spelling.claude.text (cut last (b.drop last) fs) ≠ b.drop last := by
  induction fs generalizing last with
  | nil =>
    obtain ⟨f, hf, -⟩ := hline
    exact absurd hf List.not_mem_nil
  | cons f fs ih =>
    intro heq
    have hf := hpool f List.mem_cons_self
    have hlen : f.start ≤ f.stop := by
      have := (takes_of_mem_pool hf).some
      omega
    -- Both texts start with the run in front of the find.
    rw [cut, text_run, text_cons, drop_drop_sub (Nat.le_trans hapart.1 hlen)] at heq
    nth_rewrite 2 [← List.take_append_drop (f.start - last) (b.drop last)] at heq
    rw [drop_drop_sub hapart.1, List.append_cancel_left_eq] at heq
    by_cases hfline : f ∈ Rule.line.pattern b
    · obtain ⟨blanks, command, rest, hspelled, honLine, -, hshell⟩ := onLine_of_mem hfline
      rw [hspelled, Spelling.segment, hshell] at heq
      exact line_ne_written honLine _ heq
    · -- The find is written as it was read, and the difference is behind it.
      have hwritten := (line_or_written hf).resolve_left hfline
      rw [Spelling.segment, ← hwritten] at heq
      nth_rewrite 2 [← List.take_append_drop (f.stop - f.start) (b.drop f.start)] at heq
      rw [drop_drop_sub hlen, List.append_cancel_left_eq] at heq
      refine ih hapart.2 (fun g hg => hpool g (List.mem_cons_of_mem _ hg)) ?_ heq
      obtain ⟨g, hg, hgline⟩ := hline
      rcases List.mem_cons.mp hg with rfl | hg
      · exact absurd hgline hfline
      · exact ⟨g, hg, hgline⟩

/-- A body with backticks is written back as it was exactly where no command was read
from the start of a line. -/
theorem text_read_claude_iff (b : List Char) :
    Spelling.claude.text (Spelling.claude.read b) = b ↔ LineFree b := by
  constructor
  · intro h f hf hline
    rw [Spelling.read, parse] at h
    split at h
    · rename_i hb
      obtain rfl := List.isEmpty_iff.mp hb
      have hnil : Rule.line.pattern [] = [] := rfl
      rw [hnil] at hline
      exact absurd hline List.not_mem_nil
    · exact text_cut_ne (Apart.of_take 0 _) (fun g hg => (take_sublist 0 _).subset hg)
        ⟨f, hf, hline⟩ h
  · intro h
    refine text_read_of_write fun f hf => ?_
    have hpool := (take_sublist 0 _).subset hf
    have hsome := (takes_of_mem_pool hpool).some
    exact ⟨by omega, (line_or_written hpool).resolve_left (h f hf)⟩

/-! ## Placeholders that can be built -/

/-- A placeholder built from its parts; a position has to be one from 1 to 9. -/
def Placeholder.built? : Placeholder → Option Placeholder
  | .arguments => some .arguments
  | .argument n => Placeholder.argument? n
  | .shell command => some (.shell command)
  | .file path => some (.file path)

def Found.built? (f : Found) : Option Found :=
  f.placeholder.built?.map fun p => { f with placeholder := p }

/-- Reading that builds every placeholder it finds, and fails where one cannot be built. -/
def Spelling.checkedRead? (s : Spelling) (body : List Char) : Option (List Segment) :=
  if body.isEmpty then some []
  else ((s.patterns.flatMap fun p => p body).mapM Found.built?).map fun finds =>
    cut 0 body (take 0 (finds.mergeSort fun a b => a.start ≤ b.start))

/-- A placeholder with a payload, or with one of the nine positions. -/
def Placeholder.Filled : Placeholder → Prop
  | .arguments => True
  | .argument n => 1 ≤ n ∧ n ≤ 9
  | .shell command => command ≠ []
  | .file path => path ≠ []

theorem Sensible.filled {rest : List Char} {p : Placeholder} (h : Sensible rest p) :
    p.Filled := by
  cases p with
  | arguments => trivial
  | argument n => exact ⟨h.1, h.2.1⟩
  | shell command => exact h
  | file path => exact h

theorem built?_of_filled {f : Found} (h : f.placeholder.Filled) : f.built? = some f := by
  obtain ⟨start, stop, p⟩ := f
  cases p with
  | argument n =>
    have hn : (1 : Int) ≤ n ∧ (n : Int) ≤ 9 := ⟨by exact_mod_cast h.1, by exact_mod_cast h.2⟩
    simp [Found.built?, Placeholder.built?, Placeholder.argument?, hn]
  | _ => rfl

theorem mapM_eq_some {fs : List Found} (h : ∀ f ∈ fs, f.built? = some f) :
    fs.mapM Found.built? = some fs := by
  induction fs with
  | nil => rfl
  | cons f fs ih =>
    rw [List.mapM_cons, h f List.mem_cons_self, ih fun g hg => h g (List.mem_cons_of_mem _ hg)]
    rfl

theorem checkedRead?_eq {s : Spelling} {b : List Char}
    (h : ∀ f ∈ pool s.patterns b, f.placeholder.Filled) : s.checkedRead? b = some (s.read b) := by
  unfold Spelling.checkedRead? Spelling.read parse
  split
  · rfl
  · rw [mapM_eq_some fun f hf => built?_of_filled (h f (List.mem_mergeSort.mpr hf))]
    rfl

theorem placeholders_cut (last : Nat) (rest : List Char) (fs : List Found) :
    placeholders (cut last rest fs) = fs.map Found.placeholder := by
  have hrun : ∀ t more, placeholders (run t ++ more) = placeholders more := by
    intro t more
    cases t <;> rfl
  induction fs generalizing last rest with
  | nil =>
    have h := hrun rest []
    rwa [List.append_nil] at h
  | cons f fs ih =>
    rw [cut, hrun, List.map_cons, ← ih f.stop]
    rfl

/-- Every placeholder that was read was found. -/
theorem exists_of_mem_placeholders {s : Spelling} {b : List Char} {p : Placeholder}
    (h : p ∈ placeholders (s.read b)) : ∃ f ∈ pool s.patterns b, f.placeholder = p := by
  unfold Spelling.read parse at h
  split at h
  · exact absurd h List.not_mem_nil
  · rw [placeholders_cut] at h
    obtain ⟨f, hf, rfl⟩ := List.mem_map.mp h
    exact ⟨f, (take_sublist 0 _).subset hf, rfl⟩

/-- Reading does not fail, and reads no placeholder without a payload. -/
def Spelling.Reads (s : Spelling) (b : List Char) : Prop :=
  s.checkedRead? b = some (s.read b) ∧ ∀ p ∈ placeholders (s.read b), p.Filled

theorem reads_of_takes {s : Spelling} {b : List Char}
    (h : ∀ f ∈ pool s.patterns b, Takes (b.drop f.start) (f.stop - f.start) f.placeholder) :
    s.Reads b := by
  refine ⟨checkedRead?_eq fun f hf => (h f hf).sense.filled, fun p hp => ?_⟩
  obtain ⟨f, hf, rfl⟩ := exists_of_mem_placeholders hp
  exact (h f hf).sense.filled

/-- A body with braces comes back as it was, one with backticks exactly where no command
was read from the start of a line; and reading does not fail in either spelling. -/
theorem text_read_exact (b : List Char) :
    Spelling.gemini.text (Spelling.gemini.read b) = b ∧
      (Spelling.claude.text (Spelling.claude.read b) = b ↔ LineFree b) ∧
      Spelling.gemini.Reads b ∧ Spelling.claude.Reads b :=
  ⟨text_read_gemini b, text_read_claude_iff b,
    reads_of_takes fun _ hf => (takes_of_mem_gemini hf).1, reads_of_takes fun _ => takes_of_mem_pool⟩

/-- A command that stands in backticks comes back from the start of a line too, one that
does not is written into backticks. -/
example : Spelling.claude.text (Spelling.claude.read "!\x60ls\x60".toList) = "!\x60ls\x60".toList ∧
    Spelling.claude.text (Spelling.claude.read "! ls".toList) = "!\x60ls\x60".toList := by
  constructor <;> cbv

end AgentRelay.Body
