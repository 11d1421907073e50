import AgentRelay.Body.Spelling

/-
  Where each rule applies, and what it takes there.

  Each rule has an inversion: where it applies, the text starts with what it
  took (`word_eq_some`, `between_eq_some`, `position_eq_some`, `path_eq_some`,
  `line_eq_some`). What was written between two marks is taken again
  (`between_written`).
-/

namespace AgentRelay.Body

theorem word_eq_some {w cs : List Char} {p q : Placeholder} {flag : Bool} {n : Nat}
    (h : Rule.word w p flag cs = some (n, q)) : n = w.length ∧ q = p ∧ ∃ rest, cs = w ++ rest := by
  unfold Rule.word at h
  split at h
  · rename_i hs
    obtain ⟨rest, hrest⟩ := Option.isSome_iff_exists.mp hs
    obtain ⟨rfl, rfl⟩ := Prod.mk.inj (Option.some.inj h)
    exact ⟨rfl, rfl, rest, (Text.dropStart?_eq_some_iff _ _ _).mp hrest⟩
  · exact nomatch h

theorem drop_length_takeWhile (p : Char → Bool) (cs : List Char) :
    cs.drop (cs.takeWhile p).length = cs.dropWhile p := by
  induction cs with
  | nil => rfl
  | cons c cs ih => by_cases h : p c = true <;> simp [h, ih]

theorem between_eq_some {opening cs : List Char} {closing : Char} {make : List Char → Placeholder}
    {q : Placeholder} {flag : Bool} {n : Nat}
    (h : Rule.between opening closing make flag cs = some (n, q)) :
    ∃ payload rest, cs = opening ++ payload ++ closing :: rest ∧ payload ≠ [] ∧
      (∀ c ∈ payload, c ≠ closing) ∧ n = opening.length + payload.length + 1 ∧
      q = make payload := by
  unfold Rule.between at h
  cases hs : Text.dropStart? opening cs with
  | none => rw [hs] at h; exact nomatch h
  | some tail =>
    rw [hs] at h
    simp only at h
    split at h
    · exact nomatch h
    · rename_i hne
      rw [Bool.or_eq_true, not_or, List.isEmpty_iff, List.isEmpty_iff] at hne
      obtain ⟨rfl, rfl⟩ := Prod.mk.inj (Option.some.inj h)
      obtain rfl := (Text.dropStart?_eq_some_iff _ _ _).mp hs
      obtain ⟨c, rest, hrest⟩ := List.exists_cons_of_ne_nil hne.2
      have hdrop : tail.dropWhile (· != closing) = c :: rest := by
        rw [← hrest, drop_length_takeWhile]
      have hc : c = closing := by
        have := List.head?_dropWhile_not (· != closing) tail
        rw [hdrop] at this
        simpa using this
      subst hc
      refine ⟨_, rest, ?_, hne.1, fun d hd => ?_, rfl, rfl⟩
      · rw [List.append_assoc, ← hdrop, List.takeWhile_append_dropWhile]
      · simpa using List.all_eq_true.mp List.all_takeWhile d hd

/-- What a rule takes between two marks, with the marks. -/
theorem take_between {opening cs : List Char} {closing : Char} {make : List Char → Placeholder}
    {q : Placeholder} {flag : Bool} {n : Nat}
    (h : Rule.between opening closing make flag cs = some (n, q)) :
    ∃ payload, payload ≠ [] ∧ q = make payload ∧ 0 < n ∧ n ≤ cs.length ∧
      cs.take n = opening ++ payload ++ [closing] := by
  obtain ⟨payload, rest, rfl, hne, -, rfl, rfl⟩ := between_eq_some h
  have hcs : opening ++ payload ++ closing :: rest = (opening ++ payload ++ [closing]) ++ rest := by
    simp
  have hlen : opening.length + payload.length + 1 = (opening ++ payload ++ [closing]).length := by
    rw [List.length_append, List.length_append, List.length_singleton]
  refine ⟨payload, hne, rfl, by omega, ?_, ?_⟩
  · rw [hcs, List.length_append, hlen]
    omega
  · rw [hcs, hlen, List.take_left]

theorem position_eq_some {cs : List Char} {q : Placeholder} {flag : Bool} {n : Nat}
    (h : Rule.position flag cs = some (n, q)) :
    n = 2 ∧ ∃ d rest, cs = '$' :: d :: rest ∧ '1' ≤ d ∧ d ≤ '9' ∧
      rest.head?.any Text.isDigit = false ∧ q = .argument (d.toNat - 48) := by
  unfold Rule.position at h
  split at h
  · rename_i d rest
    split at h
    · rename_i hd
      obtain ⟨rfl, rfl⟩ := Prod.mk.inj (Option.some.inj h)
      exact ⟨rfl, d, rest, rfl, hd.1, hd.2.1, by simpa using hd.2.2, rfl⟩
    · exact nomatch h
  · exact nomatch h

theorem path_eq_some {cs : List Char} {q : Placeholder} {flag : Bool} {n : Nat}
    (h : Rule.path flag cs = some (n, q)) :
    ∃ p rest, cs = '@' :: p ++ rest ∧ p ≠ [] ∧ n = 1 + p.length ∧ q = .file p := by
  unfold Rule.path at h
  split at h
  · rename_i tail
    simp only at h
    split at h
    · exact nomatch h
    · rename_i hne
      obtain ⟨rfl, rfl⟩ := Prod.mk.inj (Option.some.inj h)
      refine ⟨_, tail.dropWhile fun c => !Rule.endsPath c, ?_, by simpa using hne, rfl, rfl⟩
      rw [List.cons_append, List.takeWhile_append_dropWhile]
  · exact nomatch h

/-- What is taken ends in front of a character without the property. -/
theorem takeWhile_stop {p : Char → Bool} {z : Char} (hz : p z = false) (front rest : List Char) :
    (front ++ z :: rest).takeWhile p = front.takeWhile p := by
  induction front with
  | nil => simp [hz]
  | cons c front ih => simp only [List.cons_append, List.takeWhile_cons, ih]

/-- What is taken ends where the property does. -/
theorem takeWhile_of_forall {p : Char → Bool} {front rest : List Char}
    (h : ∀ c ∈ front, p c = true) (hrest : ∀ c, rest.head? = some c → p c = false) :
    (front ++ rest).takeWhile p = front := by
  have hnil : rest.takeWhile p = [] := by
    cases rest with
    | nil => rfl
    | cons c cs => simp [hrest c rfl]
  rw [List.takeWhile_append_of_pos h, hnil, List.append_nil]

/-- A command at the start of a line: blanks, which may end lines, and then the rest of
the line the command starts on. -/
structure OnLine (blanks command rest : List Char) : Prop where
  blank : ∀ c ∈ blanks, Text.isBlank c = true
  lead : ∃ c cs, command = c :: cs ∧ Text.isBlank c = false ∧ c ≠ '\x7b'
  within : ∀ c ∈ command, c ≠ '\n'
  ends : ∀ c, rest.head? = some c → c = '\n'

/-- The rule for lines takes a command at the start of a line. -/
theorem line_of_onLine {blanks command rest : List Char} (h : OnLine blanks command rest) :
    Rule.line true ('!' :: blanks ++ command ++ rest) =
      some (1 + blanks.length + command.length, .shell command) := by
  obtain ⟨c, cs, rfl, hblank, hbrace⟩ := h.lead
  have htake : (blanks ++ (c :: cs ++ rest)).takeWhile Text.isBlank = blanks :=
    takeWhile_of_forall h.blank fun d hd => by
      obtain rfl : c = d := by simpa using hd
      exact hblank
  have hcommand : (c :: cs ++ rest).takeWhile (· != '\n') = c :: cs :=
    takeWhile_of_forall (fun d hd => by simpa using h.within d hd)
      fun d hd => by simp [h.ends d hd]
  rw [List.cons_append, List.cons_append, List.append_assoc]
  simp only [Rule.line, htake, List.drop_left, hcommand]
  simp [hbrace]

theorem line_eq_some_iff {cs : List Char} {q : Placeholder} {flag : Bool} {n : Nat} :
    Rule.line flag cs = some (n, q) ↔ flag = true ∧ ∃ blanks command rest,
      cs = '!' :: blanks ++ command ++ rest ∧ OnLine blanks command rest ∧
        n = 1 + blanks.length + command.length ∧ q = .shell command := by
  constructor
  · intro h
    unfold Rule.line at h
    split at h
    · rename_i tail
      simp only at h
      split at h
      · exact nomatch h
      · rename_i hne
        obtain ⟨rfl, rfl⟩ := Prod.mk.inj (Option.some.inj h)
        rw [Bool.or_eq_true, Bool.or_eq_true, not_or, not_or] at hne
        obtain ⟨⟨hflag, hempty⟩, hbrace⟩ := hne
        rw [drop_length_takeWhile] at hempty hbrace ⊢
        refine ⟨by simpa using hflag, tail.takeWhile Text.isBlank, _,
          (tail.dropWhile Text.isBlank).dropWhile (· != '\n'), ?_, ⟨?_, ?_, ?_, ?_⟩, rfl, rfl⟩
        · rw [List.cons_append, List.cons_append, List.append_assoc,
            List.takeWhile_append_dropWhile, List.takeWhile_append_dropWhile]
        · exact fun c hc => List.all_eq_true.mp List.all_takeWhile c hc
        · -- The command starts where the blanks end.
          cases hd : tail.dropWhile Text.isBlank with
          | nil => simp [hd] at hempty
          | cons c cs =>
            rw [hd] at hempty hbrace
            have hnewline : (c != '\n') = true := by
              cases hc : c != '\n' with
              | true => rfl
              | false => simp [hc] at hempty
            have hblank := List.head?_dropWhile_not Text.isBlank tail
            rw [hd] at hblank
            refine ⟨c, cs.takeWhile (· != '\n'), by simp [hnewline], by simpa using hblank, ?_⟩
            simpa [hnewline] using hbrace
        · exact fun c hc => by simpa using List.all_eq_true.mp List.all_takeWhile c hc
        · intro c hc
          have hend := List.head?_dropWhile_not (· != '\n') (tail.dropWhile Text.isBlank)
          rw [hc] at hend
          simpa using hend
    · exact nomatch h
  · rintro ⟨rfl, blanks, command, rest, rfl, h, rfl, rfl⟩
    exact line_of_onLine h

theorem line_eq_some {cs : List Char} {q : Placeholder} {flag : Bool} {n : Nat}
    (h : Rule.line flag cs = some (n, q)) :
    ∃ blanks command rest, cs = '!' :: blanks ++ command ++ rest ∧ command ≠ [] ∧
      n = 1 + blanks.length + command.length ∧ q = .shell command := by
  obtain ⟨-, blanks, command, rest, hcs, honLine, hn, hq⟩ := line_eq_some_iff.mp h
  obtain ⟨c, cs, rfl, -⟩ := honLine.lead
  exact ⟨blanks, _, rest, hcs, List.cons_ne_nil c cs, hn, hq⟩

theorem takeWhile_payload {payload : List Char} {closing : Char}
    (h : ∀ c ∈ payload, c ≠ closing) (rest : List Char) :
    (payload ++ closing :: rest).takeWhile (· != closing) = payload :=
  takeWhile_of_forall (fun c hc => by simpa using h c hc) fun c hc => by
    obtain rfl : closing = c := by simpa using hc
    simp

theorem between_written (opening : List Char) (make : List Char → Placeholder) {payload : List Char}
    {closing : Char} (hne : payload ≠ []) (h : ∀ c ∈ payload, c ≠ closing) (rest : List Char)
    (flag : Bool) :
    Rule.between opening closing make flag (opening ++ payload ++ closing :: rest) =
      some (opening.length + payload.length + 1, make payload) := by
  have hdrop : Text.dropStart? opening (opening ++ payload ++ closing :: rest) =
      some (payload ++ closing :: rest) :=
    (Text.dropStart?_eq_some_iff _ _ _).mpr (List.append_assoc ..)
  unfold Rule.between
  rw [hdrop]
  simp only [takeWhile_payload h]
  simp [hne]

/-- The digit of a position. -/
theorem digitsOf_position {n : Nat} (h1 : 1 ≤ n) (h9 : n ≤ 9) :
    ∃ d, Number.digitsOf n = [d] ∧ '1' ≤ d ∧ d ≤ '9' ∧ d.toNat - 48 = n := by
  have hall : ∀ n ∈ [1, 2, 3, 4, 5, 6, 7, 8, 9], Number.digitsOf n = [Char.ofNat (48 + n)] ∧
      '1' ≤ Char.ofNat (48 + n) ∧ Char.ofNat (48 + n) ≤ '9' ∧
      (Char.ofNat (48 + n)).toNat - 48 = n := by decide
  have hmem : n ∈ [1, 2, 3, 4, 5, 6, 7, 8, 9] := by
    simp only [List.mem_cons, List.not_mem_nil, or_false]
    omega
  obtain ⟨h, h'⟩ := hall n hmem
  exact ⟨_, h, h'⟩

end AgentRelay.Body
