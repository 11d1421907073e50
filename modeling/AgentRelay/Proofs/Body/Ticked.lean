import AgentRelay.Proofs.Body.Reading

/-
  Placeholders written with backticks, and the rules that read them inside a
  line.

  A path has no mark at its end: it is read back where it `Stands` in front of
  something that ends it. There its own rule takes the whole placeholder
  (`ownRule_write`). The other rules do not apply where it starts
  (`rule_at_write`), and what they find in its payload stays inside
  (`passes_write`).
-/

namespace AgentRelay.Body

/-! ## The rules -/

theorem flagless_of_inline {r : Rule} (h : r ∈ inlineRules) : r.Flagless := by
  simp only [inlineRules, List.mem_cons, List.not_mem_nil, or_false] at h
  rcases h with rfl | rfl | rfl | rfl <;> exact fun _ _ _ => rfl

/-- The rule that reads a placeholder the way it is written. -/
def ownRule : Placeholder → Rule
  | .arguments => .word Spelling.argumentsWord .arguments
  | .argument _ => .position
  | .shell _ => .between ['!', '\x60'] '\x60' .shell
  | .file _ => .path

theorem ownRule_mem (p : Placeholder) : ownRule p ∈ inlineRules := by
  cases p <;> simp [ownRule, inlineRules]

/-- The character a match of a rule starts with. -/
def Rule.Leads (rule : Rule) (x : Char) : Prop :=
  ∀ flag cs q, rule flag cs = some q → ∃ rest, cs = x :: rest

theorem leads_word : Rule.Leads (.word Spelling.argumentsWord .arguments) '$' := by
  intro flag cs q h
  obtain ⟨-, -, rest, rfl⟩ := word_eq_some h
  exact ⟨_, rfl⟩

theorem leads_between : Rule.Leads (.between ['!', '\x60'] '\x60' .shell) '!' := by
  intro flag cs q h
  obtain ⟨payload, rest, rfl, -⟩ := between_eq_some h
  exact ⟨_, rfl⟩

theorem leads_path : Rule.Leads .path '@' := by
  intro flag cs q h
  obtain ⟨p, rest, rfl, -⟩ := path_eq_some h
  exact ⟨_, rfl⟩

theorem leads_position : Rule.Leads .position '$' := by
  intro flag cs q h
  obtain ⟨-, d, rest, rfl, -⟩ := position_eq_some h
  exact ⟨_, rfl⟩

theorem Rule.Leads.none_of_ne {r : Rule} {x c : Char} (h : r.Leads x) (hc : c ≠ x) (flag : Bool)
    (cs : List Char) : r flag (c :: cs) = none := by
  cases hq : r flag (c :: cs) with
  | none => rfl
  | some q =>
    obtain ⟨rest, heq⟩ := h _ _ _ hq
    exact absurd (List.cons.inj heq).1 hc

/-- No match starts in a piece without the character that matches start with. -/
theorem Rule.Leads.quiet {r : Rule} {x : Char} (h : r.Leads x) {piece : List Char}
    (hx : x ∉ piece) (rest : List Char) : r.Quiet piece rest := by
  intro i hi
  rw [List.drop_eq_getElem_cons hi, List.cons_append]
  exact h.none_of_ne (fun heq => hx (heq ▸ List.getElem_mem hi)) _ _

/-! ## Matches that reach the end of a piece -/

/-- What starts in a piece and cannot go on behind it lies in the piece. -/
theorem prefix_of_append_eq {w piece rest rest' : List Char} (hne : piece ≠ [])
    (h : piece ++ rest = w ++ rest') (hhead : ∀ c, rest.head? = some c → c ∉ w.tail) :
    w <+: piece := by
  rcases List.append_eq_append_iff.mp h with ⟨more, rfl, hrest⟩ | ⟨more, rfl, -⟩
  · -- The piece is the front of `w`, and what follows it the rest of `w`.
    cases more with
    | nil => simp
    | cons c cs =>
      obtain ⟨d, ds, rfl⟩ := List.exists_cons_of_ne_nil hne
      refine absurd ?_ (hhead c (by rw [hrest]; rfl))
      simp
  · exact List.prefix_append _ _

theorem word_within {w piece rest : List Char} {p : Placeholder}
    (hhead : ∀ c, rest.head? = some c → c ∉ w.tail) : Rule.Within (.word w p) piece rest := by
  intro i hi n q hq
  obtain ⟨rfl, -, rest', heq⟩ := word_eq_some hq
  have hne : piece.drop i ≠ [] := fun h => absurd (List.drop_eq_nil_iff.mp h) (Nat.not_le_of_lt hi)
  have hlen := (prefix_of_append_eq hne heq hhead).length_le
  rwa [List.length_drop] at hlen

theorem position_within_of_head {piece rest : List Char}
    (hhead : ∀ c, rest.head? = some c → ¬ ('1' ≤ c ∧ c ≤ '9')) :
    Rule.Within .position piece rest := by
  intro i hi n q hq
  obtain ⟨rfl, d, rest', heq, h1, h9, -⟩ := position_eq_some hq
  have hne : piece.drop i ≠ [] := fun h => absurd (List.drop_eq_nil_iff.mp h) (Nat.not_le_of_lt hi)
  have heq' : piece.drop i ++ rest = ['$', d] ++ rest' := heq
  have hlen := (prefix_of_append_eq hne heq' fun c hc hmem => ?_).length_le
  · rwa [List.length_drop] at hlen
  · obtain rfl : c = d := by simpa using hmem
    exact hhead c hc ⟨h1, h9⟩

/-- A word that lacks the last character of a piece does not go beyond the piece. -/
theorem word_within_of_last {w : List Char} {z : Char} (hz : z ∉ w) (piece rest : List Char)
    (p : Placeholder) : Rule.Within (.word w p) (piece ++ [z]) rest := by
  intro i hi n q hq
  rw [List.length_append, List.length_singleton] at hi ⊢
  rcases Nat.lt_or_ge i piece.length with hlt | hge
  · rw [List.drop_append_of_le_length (Nat.le_of_lt hlt), List.append_assoc] at hq
    have hn := word_within (fun c hc hmem => ?_) i hlt n q hq
    · omega
    · obtain rfl : z = c := by simpa using hc
      exact hz (List.mem_of_mem_tail hmem)
  · obtain rfl : i = piece.length := by omega
    rw [List.drop_left] at hq
    obtain ⟨-, -, rest', heq⟩ := word_eq_some hq
    cases w with
    | nil =>
      obtain ⟨rfl, -⟩ := word_eq_some hq
      simp
    | cons a w =>
      obtain ⟨rfl, -⟩ := List.cons.inj heq
      exact absurd List.mem_cons_self hz

/-! ## A placeholder that was written -/

/-- A placeholder that can be read in front of the rest of a text. -/
def Stands (rest : List Char) : Placeholder → Prop
  | .arguments => True
  | .argument n => 1 ≤ n ∧ n ≤ 9 ∧ rest.head?.any Text.isDigit = false
  | .shell command => command ≠ [] ∧ ∀ c ∈ command, c ≠ '\x60' ∧ c ≠ '@'
  | .file path => path ≠ [] ∧ (∀ c ∈ path, c ≠ '\x60' ∧ Rule.endsPath c = false) ∧
      ∀ c, rest.head? = some c → Rule.endsPath c = true

theorem length_ticked_pos (p : Placeholder) : 0 < (Spelling.claude.write p).length := by
  cases p with
  | arguments => decide
  | _ => exact Nat.succ_pos _

theorem write_argument {n : Nat} {rest : List Char} (h : Stands rest (.argument n)) :
    ∃ d, Spelling.claude.write (.argument n) = ['$', d] ∧ '1' ≤ d ∧ d ≤ '9' ∧
      d.toNat - 48 = n := by
  obtain ⟨d, hd, h1, h9, hn⟩ := digitsOf_position h.1 h.2.1
  exact ⟨d, by simp only [Spelling.claude, hd], h1, h9, hn⟩

/-- The own rule of a placeholder takes all of it. -/
theorem ownRule_write {p : Placeholder} {rest : List Char} (h : Stands rest p) (flag : Bool) :
    ownRule p flag (Spelling.claude.write p ++ rest) =
      some ((Spelling.claude.write p).length, p) := by
  cases p with
  | arguments =>
    have hs : Text.startsWith Spelling.argumentsWord (Spelling.argumentsWord ++ rest) = true :=
      Option.isSome_iff_exists.mpr ⟨rest, (Text.dropStart?_eq_some_iff _ _ _).mpr rfl⟩
    simp only [ownRule, Rule.word, Spelling.claude, hs, if_true]
  | argument n =>
    obtain ⟨d, hw, h1, h9, hn⟩ := write_argument h
    rw [hw]
    simp [ownRule, Rule.position, h1, h9, hn, h.2.2]
  | shell command =>
    have hb := between_written ['!', '\x60'] .shell h.1 (fun c hc => (h.2 c hc).1) rest flag
    simpa [ownRule, Spelling.claude, Nat.add_comm, Nat.add_left_comm] using hb
  | file path =>
    have htake := takeWhile_of_forall (p := fun c => !Rule.endsPath c)
      (fun c hc => by simpa using (h.2.1 c hc).2) (fun c hc => by simpa using h.2.2 c hc)
    simp [ownRule, Rule.path, Spelling.claude, htake, h.1, Nat.add_comm]

/-- A rule that is not the one for a placeholder does not apply where it starts. -/
theorem rule_at_write {p : Placeholder} {rest : List Char} (h : Stands rest p) {r : Rule}
    (hr : r ∈ inlineRules) :
    r = ownRule p ∨ ∀ flag, r flag (Spelling.claude.write p ++ rest) = none := by
  simp only [inlineRules, List.mem_cons, List.not_mem_nil, or_false] at hr
  have hpair : ∀ {a b : Char} {x y : List Char}, (a :: x = b :: y) → a = b :=
    fun heq => (List.cons.inj heq).1
  cases p with
  | arguments =>
    rcases hr with rfl | rfl | rfl | rfl
    · exact Or.inl rfl
    · exact Or.inr fun flag => leads_between.none_of_ne (by decide) flag _
    · exact Or.inr fun flag => leads_path.none_of_ne (by decide) flag _
    · -- The word goes on with a letter, a position with a digit.
      refine Or.inr fun flag => Option.eq_none_iff_forall_ne_some.mpr fun q hq => ?_
      obtain ⟨-, d, rest', heq, -, h9, -⟩ := position_eq_some hq
      obtain rfl := hpair (List.cons.inj heq).2
      exact absurd h9 (by decide)
  | argument n =>
    obtain ⟨d, hw, h1, h9, -⟩ := write_argument h
    rcases hr with rfl | rfl | rfl | rfl
    · refine Or.inr fun flag => Option.eq_none_iff_forall_ne_some.mpr fun q hq => ?_
      rw [hw] at hq
      obtain ⟨-, -, rest', heq⟩ := word_eq_some hq
      obtain rfl := hpair (List.cons.inj heq).2
      exact absurd h9 (by decide)
    · rw [hw]
      exact Or.inr fun flag => leads_between.none_of_ne (by decide) flag _
    · rw [hw]
      exact Or.inr fun flag => leads_path.none_of_ne (by decide) flag _
    · exact Or.inl rfl
  | shell command =>
    rcases hr with rfl | rfl | rfl | rfl
    · exact Or.inr fun flag => leads_word.none_of_ne (by decide) flag _
    · exact Or.inl rfl
    · exact Or.inr fun flag => leads_path.none_of_ne (by decide) flag _
    · exact Or.inr fun flag => leads_position.none_of_ne (by decide) flag _
  | file path =>
    rcases hr with rfl | rfl | rfl | rfl
    · exact Or.inr fun flag => leads_word.none_of_ne (by decide) flag _
    · exact Or.inr fun flag => leads_between.none_of_ne (by decide) flag _
    · exact Or.inl rfl
    · exact Or.inr fun flag => leads_position.none_of_ne (by decide) flag _

/-- What applies where a placeholder was written is that placeholder. -/
theorem applies_ticked {p q : Placeholder} {rest : List Char} (h : Stands rest p) {r : Rule}
    (hr : r ∈ inlineRules) {flag : Bool} {n : Nat}
    (hq : r flag (Spelling.claude.write p ++ rest) = some (n, q)) :
    n = (Spelling.claude.write p).length ∧ q = p := by
  rcases rule_at_write h hr with rfl | hnone
  · rw [ownRule_write h] at hq
    obtain ⟨rfl, rfl⟩ := Prod.mk.inj (Option.some.inj hq)
    exact ⟨rfl, rfl⟩
  · rw [hnone] at hq
    exact nomatch hq

theorem not_word_of_endsPath {c : Char} (h : Rule.endsPath c = true) :
    c ∉ Spelling.argumentsWord.tail := by
  intro hmem
  have hall : Spelling.argumentsWord.tail.all (fun c => !Rule.endsPath c) = true := by decide
  have hc := List.all_eq_true.mp hall c hmem
  rw [h] at hc
  exact nomatch hc

theorem not_digit_of_endsPath {c : Char} (h : Rule.endsPath c = true) : ¬ ('1' ≤ c ∧ c ≤ '9') := by
  rintro ⟨h1, h9⟩
  obtain ⟨hn1, hn9, -⟩ := position_of_digit h1 h9
  have hlow : 49 ≤ c.toNat := h1
  have hc : c = Char.ofNat (48 + (c.toNat - 48)) := by
    rw [Nat.add_sub_cancel' (by omega), Char.ofNat_toNat]
  have hall : ∀ n ∈ [1, 2, 3, 4, 5, 6, 7, 8, 9], Rule.endsPath (Char.ofNat (48 + n)) = false := by
    decide
  rw [hc, hall _ (by simp; omega)] at h
  exact nomatch h

/-- In a position the word does not apply at the dollar sign, and there is no other one. -/
theorem word_quiet_position {d : Char} {rest : List Char} (hd : '1' ≤ d)
    (h : Rule.word Spelling.argumentsWord .arguments true (['$', d] ++ rest) = none) :
    Rule.Quiet (.word Spelling.argumentsWord .arguments) ['$', d] rest := by
  intro i hi
  have hi' : i = 0 ∨ i = 1 := by
    simp only [List.length_cons, List.length_nil] at hi
    omega
  rcases hi' with rfl | rfl
  · exact h
  · exact leads_word.none_of_ne (by rintro rfl; exact absurd hd (by decide)) _ _

/-- There is no backtick in a path or right behind it. -/
theorem between_quiet_path {path rest : List Char} (h : Stands rest (.file path)) :
    Rule.Quiet (.between ['!', '\x60'] '\x60' .shell) ('@' :: path) rest := by
  intro i hi
  refine Option.eq_none_iff_forall_ne_some.mpr fun q hq => ?_
  obtain ⟨payload, rest', heq, -⟩ := between_eq_some hq
  rw [List.append_assoc] at heq
  have hne : ('@' :: path).drop i ≠ [] :=
    fun hnil => absurd (List.drop_eq_nil_iff.mp hnil) (Nat.not_le_of_lt hi)
  have hpre := prefix_of_append_eq hne heq fun c hc hmem => ?_
  · have hmem : '\x60' ∈ '@' :: path :=
      List.mem_of_mem_drop (hpre.subset (by simp))
    rcases List.mem_cons.mp hmem with hat | hmem
    · exact absurd hat (by decide)
    · exact (h.2.1 _ hmem).1 rfl
  · obtain rfl : c = '\x60' := by simpa using hmem
    exact absurd (h.2.2 _ hc) (by decide)

/-- Every rule comes to the end of a placeholder that was written. -/
theorem passes_write {p : Placeholder} {rest : List Char} (h : Stands rest p) {r : Rule}
    (hr : r ∈ inlineRules) : r.Passes (Spelling.claude.write p) rest := by
  rcases rule_at_write h hr with rfl | hnone
  · refine Or.inl ⟨?_, p, ownRule_write h true⟩
    exact List.ne_nil_of_length_pos (length_ticked_pos p)
  have hown : r ≠ ownRule p := by
    rintro rfl
    exact nomatch (ownRule_write h true).symm.trans (hnone true)
  refine Or.inr ?_
  simp only [inlineRules, List.mem_cons, List.not_mem_nil, or_false] at hr
  cases p with
  | arguments =>
    rcases hr with rfl | rfl | rfl | rfl
    · exact absurd rfl hown
    · exact (leads_between.quiet (by decide) rest).within
    · exact (leads_path.quiet (by decide) rest).within
    · exact position_within "$ARGUMENT".toList (by decide) rest
  | argument n =>
    obtain ⟨d, hw, h1, h9, -⟩ := write_argument h
    have hd : ∀ x, ¬ ('1' ≤ x ∧ x ≤ '9') → x ≠ '$' → x ∉ ['$', d] := by
      intro x hx hdollar hc
      rcases List.mem_cons.mp hc with rfl | hc
      · exact hdollar rfl
      · obtain rfl := List.mem_singleton.mp hc
        exact hx ⟨h1, h9⟩
    rw [hw] at hnone ⊢
    rcases hr with rfl | rfl | rfl | rfl
    · exact (word_quiet_position h1 (hnone true)).within
    · exact (leads_between.quiet (hd _ (by decide) (by decide)) rest).within
    · exact (leads_path.quiet (hd _ (by decide) (by decide)) rest).within
    · exact absurd rfl hown
  | shell command =>
    rcases hr with rfl | rfl | rfl | rfl
    · exact word_within_of_last (by decide) ('!' :: '\x60' :: command) rest .arguments
    · exact absurd rfl hown
    · refine (leads_path.quiet (fun hat => ?_) rest).within
      simp only [Spelling.claude, List.cons_append, List.mem_cons, List.mem_append,
        List.not_mem_nil, or_false, Char.reduceEq, false_or] at hat
      exact (h.2 _ hat).2 rfl
    · exact position_within ('!' :: '\x60' :: command) (by decide) rest
  | file path =>
    rcases hr with rfl | rfl | rfl | rfl
    · exact word_within fun c hc => not_word_of_endsPath (h.2.2 c hc)
    · exact (between_quiet_path h).within
    · exact absurd rfl hown
    · exact position_within_of_head fun c hc => not_digit_of_endsPath (h.2.2 c hc)

end AgentRelay.Body
