import AgentRelay.Proofs.Body.Rule
import AgentRelay.Proofs.Body.Scan

/-
  Placeholders written in braces, and the rules that read them.

  Where a placeholder that `Fits` was written, some rule applies
  (`exists_applies_write`), and what applies is that placeholder
  (`applies_write`). A rule may apply inside the payload too, but not beyond it
  (`within_write`).
-/

namespace AgentRelay.Body

/-! ## The rules -/

/-- The rules for what is written in braces. -/
def braceRules : List Rule :=
  [.word Spelling.bracedWord .arguments, .between ['!', '\x7b'] '\x7d' .shell,
    .between ['@', '\x7b'] '\x7d' .file]

/-- The rules of the spelling with braces. -/
def bracedRules : List Rule := braceRules ++ [.position]

theorem patterns_gemini : Spelling.gemini.patterns = bracedRules.map Rule.pattern := rfl

theorem flagless_of_mem {r : Rule} (h : r ∈ bracedRules) : r.Flagless := by
  simp only [bracedRules, braceRules, List.cons_append, List.nil_append, List.mem_cons,
    List.not_mem_nil, or_false] at h
  rcases h with rfl | rfl | rfl | rfl <;> exact fun _ _ _ => rfl

/-- A rule for braces applies where a brace is the second character. -/
theorem opens_of_braceRule {r : Rule} (hr : r ∈ braceRules) {cs : List Char} {q : Nat × Placeholder}
    {flag : Bool} (h : r flag cs = some q) :
    ∃ x rest, cs = x :: '\x7b' :: rest ∧ (x = '\x7b' ∨ x = '!' ∨ x = '@') := by
  obtain ⟨n, p⟩ := q
  simp only [braceRules, List.mem_cons, List.not_mem_nil, or_false] at hr
  rcases hr with rfl | rfl | rfl
  · obtain ⟨-, -, rest, rfl⟩ := word_eq_some h
    exact ⟨'\x7b', _, rfl, Or.inl rfl⟩
  · obtain ⟨payload, rest, rfl, -⟩ := between_eq_some h
    exact ⟨'!', _, rfl, Or.inr (Or.inl rfl)⟩
  · obtain ⟨payload, rest, rfl, -⟩ := between_eq_some h
    exact ⟨'@', _, rfl, Or.inr (Or.inr rfl)⟩

theorem mem_bracedRules {r : Rule} : r ∈ bracedRules ↔ r ∈ braceRules ∨ r = .position := by
  simp [bracedRules]

theorem bracedRule_nil {r : Rule} (hr : r ∈ bracedRules) (flag : Bool) : r flag [] = none := by
  rcases mem_bracedRules.mp hr with hr | rfl
  · cases hq : r flag [] with
    | none => rfl
    | some q =>
      obtain ⟨x, rest, hx, -⟩ := opens_of_braceRule hr hq
      exact nomatch hx
  · rfl

/-! ## Placeholders that can be read back -/

/-- The text has no brace. -/
def Braceless (cs : List Char) : Prop := ∀ c ∈ cs, c ≠ '\x7b' ∧ c ≠ '\x7d'

/-- A placeholder that can be read in front of the rest of a text. -/
def Fits (rest : List Char) : Placeholder → Prop
  | .arguments => True
  | .argument n => 1 ≤ n ∧ n ≤ 9 ∧ rest.head?.any Text.isDigit = false
  | .shell command => command ≠ [] ∧ Braceless command
  | .file path => path ≠ [] ∧ Braceless path

/-! ## The rules on a placeholder that was written -/

/-- In a payload and behind it, no rule for braces applies. -/
theorem braceRule_payload {r : Rule} (hr : r ∈ braceRules) {payload rest : List Char}
    (h : Braceless payload) (j : Nat) (flag : Bool) :
    r flag (payload.drop j ++ '\x7d' :: rest) = none := by
  cases hq : r flag (payload.drop j ++ '\x7d' :: rest) with
  | none => rfl
  | some q =>
    obtain ⟨x, rest', heq, hx⟩ := opens_of_braceRule hr hq
    have hmem : ∀ c ∈ payload.drop j, c ≠ '\x7b' ∧ c ≠ '\x7d' :=
      fun c hc => h c (List.mem_of_mem_drop hc)
    match hd : payload.drop j with
    | [] =>
      rw [hd, List.nil_append] at heq
      obtain ⟨rfl, -⟩ := List.cons.inj heq
      exact absurd hx (by decide)
    | [a] =>
      rw [hd] at heq
      have h2 := (List.cons.inj (List.cons.inj heq).2).1
      exact absurd h2 (by decide)
    | a :: b :: cs =>
      rw [hd] at heq
      have h2 := (List.cons.inj (List.cons.inj heq).2).1
      exact absurd h2 (hmem b (by simp [hd])).1

/-- Behind the first character of a placeholder in braces no rule for braces
applies. -/
theorem braceRule_behind {r : Rule} (hr : r ∈ braceRules) {x : Char} {payload rest : List Char}
    (hne : payload ≠ []) (h : Braceless payload) {i : Nat} (hi : 0 < i)
    (hlen : i < (x :: '\x7b' :: payload ++ ['\x7d']).length) (flag : Bool) :
    r flag ((x :: '\x7b' :: payload ++ ['\x7d']).drop i ++ rest) = none := by
  obtain ⟨c, cs, rfl⟩ := List.exists_cons_of_ne_nil hne
  match i, hi with
  | 1, _ =>
    cases hq : r flag ((x :: '\x7b' :: (c :: cs) ++ ['\x7d']).drop 1 ++ rest) with
    | none => rfl
    | some q =>
      obtain ⟨y, rest', heq, -⟩ := opens_of_braceRule hr hq
      have h2 := (List.cons.inj (List.cons.inj heq).2).1
      exact absurd h2 (h c (by simp)).1
  | j + 2, _ =>
    have hj : j ≤ (c :: cs).length := by
      simp only [List.cons_append, List.length_cons, List.length_append, List.length_nil] at hlen ⊢
      omega
    have hdrop : (x :: '\x7b' :: (c :: cs) ++ ['\x7d']).drop (j + 2) ++ rest =
        (c :: cs).drop j ++ '\x7d' :: rest := by
      rw [List.cons_append, List.cons_append, List.drop_succ_cons, List.drop_succ_cons,
        List.drop_append_of_le_length hj, List.append_assoc]
      rfl
    rw [hdrop]
    exact braceRule_payload hr h j flag

/-- A position stays in a piece that does not end with a dollar sign. -/
theorem position_within (piece : List Char) {z : Char} (hz : z ≠ '$') (rest : List Char) :
    Rule.position.Within (piece ++ [z]) rest := by
  intro i hi n p h
  obtain ⟨rfl, d, rest', heq, -⟩ := position_eq_some h
  rw [List.length_append, List.length_singleton] at hi ⊢
  rcases Nat.lt_or_ge i piece.length with hlt | hge
  · omega
  · obtain rfl : i = piece.length := by omega
    rw [List.drop_left, List.singleton_append] at heq
    exact absurd (List.cons.inj heq).1 hz

/-- Behind its first character, no rule for braces applies in a placeholder. -/
theorem braceRule_write {p : Placeholder} {rest : List Char} (h : Fits rest p) {r : Rule}
    (hr : r ∈ braceRules) {i : Nat} (hi : 0 < i) (hlen : i < (Spelling.gemini.write p).length)
    (flag : Bool) : r flag ((Spelling.gemini.write p).drop i ++ rest) = none := by
  cases p with
  | arguments =>
    -- Six characters follow, and none of them is followed by an opening brace.
    cases hq : r flag ((Spelling.gemini.write .arguments).drop i ++ rest) with
    | none => rfl
    | some q =>
      obtain ⟨x, rest', heq, hx⟩ := opens_of_braceRule hr hq
      have hlen' : i < 8 := hlen
      match i, hi, hlen' with
      | 1, _, _ | 2, _, _ | 3, _, _ | 4, _, _ | 5, _, _ | 6, _, _ =>
        exact absurd (List.cons.inj (List.cons.inj heq).2).1 (by decide)
      | 7, _, _ =>
        obtain ⟨rfl, -⟩ := List.cons.inj heq
        exact absurd hx (by decide)
  | argument n =>
    obtain ⟨d, hd, h1, h9, -⟩ := digitsOf_position h.1 h.2.1
    have hw : Spelling.gemini.write (.argument n) = ['$', d] := by
      simp only [Spelling.gemini, hd]
    rw [hw] at hlen ⊢
    obtain rfl : i = 1 := by
      simp only [List.length_cons, List.length_nil] at hlen
      omega
    cases hq : r flag (['$', d].drop 1 ++ rest) with
    | none => rfl
    | some q =>
      obtain ⟨x, rest', heq, hx⟩ := opens_of_braceRule hr hq
      obtain ⟨rfl, -⟩ := List.cons.inj heq
      rcases hx with rfl | rfl | rfl
      · exact absurd h9 (by decide)
      · exact absurd h1 (by decide)
      · exact absurd h9 (by decide)
  | shell command => exact braceRule_behind hr h.1 h.2 hi hlen flag
  | file path => exact braceRule_behind hr h.1 h.2 hi hlen flag

/-- A rule that applies in a written placeholder does not go beyond it. -/
theorem within_write {p : Placeholder} {rest : List Char} (h : Fits rest p) {r : Rule}
    (hr : r ∈ bracedRules) (hfirst : ∀ n q, r true (Spelling.gemini.write p ++ rest) = some (n, q) →
      n = (Spelling.gemini.write p).length) : r.Within (Spelling.gemini.write p) rest := by
  rcases mem_bracedRules.mp hr with hb | rfl
  · intro i hi n q hq
    rcases Nat.eq_zero_or_pos i with rfl | hpos
    · rw [hfirst n q hq]
      exact Nat.le_refl _
    · rw [braceRule_write h hb hpos hi] at hq
      exact nomatch hq
  · cases p with
    | arguments => exact position_within "\x7b\x7bargs\x7d".toList (by decide) rest
    | argument n =>
      obtain ⟨d, hd, h1, -⟩ := digitsOf_position h.1 h.2.1
      have hw : Spelling.gemini.write (.argument n) = ['$'] ++ [d] := by
        simp only [Spelling.gemini, hd, List.singleton_append]
      rw [hw]
      refine position_within _ (fun hdd => ?_) rest
      rw [hdd] at h1
      exact absurd h1 (by decide)
    | shell command =>
      exact position_within ('!' :: '\x7b' :: command) (by decide) rest
    | file path => exact position_within ('@' :: '\x7b' :: path) (by decide) rest

/-- The payload between two braces is what was written there. -/
theorem between_eq_written {x y : Char} {make : List Char → Placeholder}
    {payload rest : List Char} (h : Braceless payload) {flag : Bool} {n : Nat} {q : Placeholder}
    (hq : Rule.between [y, '\x7b'] '\x7d' make flag (x :: '\x7b' :: payload ++ ['\x7d'] ++ rest) =
      some (n, q)) :
    y = x ∧ n = (x :: '\x7b' :: payload ++ ['\x7d']).length ∧ q = make payload := by
  obtain ⟨payload', rest', heq, -, hclose, rfl, rfl⟩ := between_eq_some hq
  obtain ⟨hxy, htail⟩ := List.cons.inj heq
  have hboth : payload ++ '\x7d' :: rest = payload' ++ '\x7d' :: rest' := by
    simpa using (List.cons.inj htail).2
  -- Both payloads end at the first closing brace.
  have hp : payload = payload' := by
    rw [← takeWhile_payload (fun c hc => (h c hc).2) rest, hboth,
      takeWhile_payload hclose]
  subst hp
  refine ⟨hxy.symm, ?_, rfl⟩
  simp only [List.length_append, List.length_cons, List.length_nil]
  omega

/-- What applies where a placeholder was written is that placeholder. -/
theorem applies_write {p q : Placeholder} {rest : List Char} (h : Fits rest p) {r : Rule}
    (hr : r ∈ bracedRules) {n : Nat} (hq : r true (Spelling.gemini.write p ++ rest) = some (n, q)) :
    n = (Spelling.gemini.write p).length ∧ q = p := by
  simp only [bracedRules, braceRules, List.cons_append, List.nil_append, List.mem_cons,
    List.not_mem_nil, or_false] at hr
  cases p with
  | arguments =>
    rcases hr with rfl | rfl | rfl | rfl
    · obtain ⟨rfl, rfl, -⟩ := word_eq_some hq
      exact ⟨rfl, rfl⟩
    · obtain ⟨payload, rest', heq, -⟩ := between_eq_some hq
      exact absurd (List.cons.inj heq).1 (by decide)
    · obtain ⟨payload, rest', heq, -⟩ := between_eq_some hq
      exact absurd (List.cons.inj heq).1 (by decide)
    · obtain ⟨-, d, rest', heq, -⟩ := position_eq_some hq
      exact absurd (List.cons.inj heq).1 (by decide)
  | argument m =>
    obtain ⟨d, hd, -, -, hm⟩ := digitsOf_position h.1 h.2.1
    have hw : Spelling.gemini.write (.argument m) = ['$', d] := by
      simp only [Spelling.gemini, hd]
    rw [hw] at hq ⊢
    rcases hr with rfl | rfl | rfl | rfl
    · obtain ⟨-, -, rest', heq⟩ := word_eq_some hq
      exact absurd (List.cons.inj heq).1 (by decide)
    · obtain ⟨payload, rest', heq, -⟩ := between_eq_some hq
      exact absurd (List.cons.inj heq).1 (by decide)
    · obtain ⟨payload, rest', heq, -⟩ := between_eq_some hq
      exact absurd (List.cons.inj heq).1 (by decide)
    · obtain ⟨rfl, d', rest', heq, -, -, -, rfl⟩ := position_eq_some hq
      obtain ⟨rfl, -⟩ := List.cons.inj (List.cons.inj heq).2
      exact ⟨rfl, by rw [hm]⟩
  | shell command =>
    rcases hr with rfl | rfl | rfl | rfl
    · obtain ⟨-, -, rest', heq⟩ := word_eq_some hq
      exact absurd (List.cons.inj heq).1 (by decide)
    · obtain ⟨-, hn, rfl⟩ := between_eq_written h.2 hq
      exact ⟨hn, rfl⟩
    · exact absurd (between_eq_written h.2 hq).1 (by decide)
    · obtain ⟨-, d, rest', heq, -⟩ := position_eq_some hq
      exact absurd (List.cons.inj heq).1 (by decide)
  | file path =>
    rcases hr with rfl | rfl | rfl | rfl
    · obtain ⟨-, -, rest', heq⟩ := word_eq_some hq
      exact absurd (List.cons.inj heq).1 (by decide)
    · exact absurd (between_eq_written h.2 hq).1 (by decide)
    · obtain ⟨-, hn, rfl⟩ := between_eq_written h.2 hq
      exact ⟨hn, rfl⟩
    · obtain ⟨-, d, rest', heq, -⟩ := position_eq_some hq
      exact absurd (List.cons.inj heq).1 (by decide)

/-- Some rule applies where a placeholder was written. -/
theorem exists_applies_write {p : Placeholder} {rest : List Char} (h : Fits rest p) :
    ∃ r ∈ bracedRules, r true (Spelling.gemini.write p ++ rest) =
      some ((Spelling.gemini.write p).length, p) := by
  cases p with
  | arguments =>
    refine ⟨.word Spelling.bracedWord .arguments, by simp [bracedRules, braceRules], ?_⟩
    have hs : Text.startsWith Spelling.bracedWord (Spelling.bracedWord ++ rest) = true :=
      Option.isSome_iff_exists.mpr ⟨rest, (Text.dropStart?_eq_some_iff _ _ _).mpr rfl⟩
    simp only [Rule.word, Spelling.gemini, hs, if_true]
  | argument m =>
    obtain ⟨d, hd, h1, h9, hm⟩ := digitsOf_position h.1 h.2.1
    refine ⟨.position, by simp [bracedRules], ?_⟩
    simp only [Spelling.gemini, hd, List.cons_append, List.nil_append, Rule.position, h1, h9, h.2.2,
      hm]
    rfl
  | shell command =>
    refine ⟨.between ['!', '\x7b'] '\x7d' .shell, by simp [bracedRules, braceRules], ?_⟩
    have hb := between_written ['!', '\x7b'] .shell h.1 (fun c hc => (h.2 c hc).2) rest true
    simpa [Spelling.gemini, Nat.add_comm, Nat.add_left_comm] using hb
  | file path =>
    refine ⟨.between ['@', '\x7b'] '\x7d' .file, by simp [bracedRules, braceRules], ?_⟩
    have hb := between_written ['@', '\x7b'] .file h.1 (fun c hc => (h.2 c hc).2) rest true
    simpa [Spelling.gemini, Nat.add_comm, Nat.add_left_comm] using hb

end AgentRelay.Body
