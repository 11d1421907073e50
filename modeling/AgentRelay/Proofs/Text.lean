import AgentRelay.Text.Pieces

/-
  Laws of texts: replacing a character, cutting at a separator, and joining.

  What was joined is cut into the same pieces when none of them has the separator
  (`splitOn_joinWith`). A replaced character can be put back exactly where its
  replacement did not stand already (`replaceChar_back_iff`).
-/

namespace AgentRelay.Text

/-! ## Replacing -/

theorem not_mem_replaceChar {a b : Char} (h : b ≠ a) (cs : List Char) :
    a ∉ replaceChar a b cs := by
  intro hmem
  obtain ⟨c, -, hc⟩ := List.mem_map.mp hmem
  split at hc
  · exact h hc
  · contradiction

theorem replaceChar_of_not_mem {a b : Char} {cs : List Char} (h : a ∉ cs) :
    replaceChar a b cs = cs := by
  refine (List.map_congr_left fun c hc => ?_).trans (List.map_id cs)
  have hne : c ≠ a := fun he => h (he ▸ hc)
  simp [hne]

theorem replaceChar_append (a b : Char) (cs ds : List Char) :
    replaceChar a b (cs ++ ds) = replaceChar a b cs ++ replaceChar a b ds :=
  List.map_append

theorem replaceChar_back {a b : Char} {cs : List Char} (h : b ∉ cs) :
    replaceChar b a (replaceChar a b cs) = cs := by
  rw [replaceChar, replaceChar, List.map_map]
  refine (List.map_congr_left fun c hc => ?_).trans (List.map_id cs)
  have hcb : c ≠ b := fun heq => h (heq ▸ hc)
  by_cases hca : c = a
  · simp [hca]
  · simp [hca, hcb]

/-- Replacing a character and putting it back gives exactly those texts back that the
other character does not stand in. -/
theorem replaceChar_back_iff {a b : Char} (hne : a ≠ b) {cs : List Char} :
    replaceChar b a (replaceChar a b cs) = cs ↔ b ∉ cs := by
  refine ⟨fun h => ?_, replaceChar_back⟩
  rw [← h]
  exact not_mem_replaceChar hne _

/-! ## Cutting and joining -/

theorem splitOn_of_not_mem {sep : Char} {cs : List Char} (h : sep ∉ cs) :
    splitOn sep cs = [cs] := by
  induction cs with
  | nil => rfl
  | cons c cs ih =>
    rw [List.mem_cons, not_or] at h
    rw [splitOn, if_neg (Ne.symm h.1), ih h.2]

theorem splitOn_append {sep : Char} {front : List Char} (h : sep ∉ front) (cs : List Char) :
    splitOn sep (front ++ sep :: cs) = front :: splitOn sep cs := by
  induction front with
  | nil => rw [List.nil_append, splitOn, if_pos rfl]
  | cons c front ih =>
    rw [List.mem_cons, not_or] at h
    rw [List.cons_append, splitOn, if_neg (Ne.symm h.1), ih h.2]

/-- Pieces without the separator are found again between separators. -/
theorem splitOn_joinWith {sep : Char} {pieces : List (List Char)} (hne : pieces ≠ [])
    (h : ∀ p ∈ pieces, sep ∉ p) : splitOn sep (joinWith [sep] pieces) = pieces := by
  induction pieces with
  | nil => exact absurd rfl hne
  | cons p ps ih =>
    cases ps with
    | nil => exact splitOn_of_not_mem (h p (by simp))
    | cons q qs =>
      have hrest := ih (List.cons_ne_nil q qs) fun r hr => h r (List.mem_cons_of_mem _ hr)
      rw [joinWith, List.append_assoc, List.singleton_append, splitOn_append (h p (by simp)), hrest]

theorem not_mem_of_mem_splitOn {sep : Char} {cs p : List Char} (h : p ∈ splitOn sep cs) :
    sep ∉ p := by
  induction cs generalizing p with
  | nil => simp_all [splitOn]
  | cons c cs ih =>
    unfold splitOn at h
    split at h
    · rcases List.mem_cons.mp h with rfl | h
      · exact List.not_mem_nil
      · exact ih h
    · rename_i hc
      cases hs : splitOn sep cs with
      | nil => exact absurd hs (splitOn_ne_nil sep cs)
      | cons q qs =>
        rw [hs] at h ih
        rcases List.mem_cons.mp h with rfl | h
        · rw [List.mem_cons, not_or]
          exact ⟨Ne.symm hc, ih (by simp)⟩
        · exact ih (List.mem_cons_of_mem _ h)

theorem splitOn_append_last {sep : Char} {tail : List Char} (h : sep ∉ tail) (cs : List Char) :
    ∃ init last, splitOn sep cs = init ++ [last] ∧
      splitOn sep (cs ++ tail) = init ++ [last ++ tail] := by
  induction cs with
  | nil => exact ⟨[], [], rfl, splitOn_of_not_mem h⟩
  | cons c cs ih =>
    obtain ⟨init, last, hs, ht⟩ := ih
    rw [List.cons_append, splitOn, splitOn]
    by_cases hc : c = sep
    · rw [if_pos hc, if_pos hc, hs, ht]
      exact ⟨[] :: init, last, rfl, rfl⟩
    · rw [if_neg hc, if_neg hc, hs, ht]
      cases init with
      | nil => exact ⟨[], c :: last, rfl, rfl⟩
      | cons p init => exact ⟨(c :: p) :: init, last, rfl, rfl⟩

theorem joinWith_append_last (glue tail last : List Char) (init : List (List Char)) :
    joinWith glue (init ++ [last]) ++ tail = joinWith glue (init ++ [last ++ tail]) := by
  induction init with
  | nil => rfl
  | cons p init ih =>
    cases init with
    | nil => simp [joinWith]
    | cons q init =>
      rw [List.cons_append, List.cons_append, joinWith, List.append_assoc, ← List.cons_append, ih]
      rfl

theorem joinWith_eq_nil_iff {glue : List Char} (hglue : glue ≠ []) {pieces : List (List Char)}
    {last : List Char} : joinWith glue (pieces ++ [last]) = [] ↔ pieces = [] ∧ last = [] := by
  cases pieces with
  | nil => simp [joinWith]
  | cons p ps =>
    have hne : ps ++ [last] ≠ [] := by simp
    obtain ⟨q, qs, hrest⟩ := List.exists_cons_of_ne_nil hne
    simp [hrest, joinWith, hglue]

end AgentRelay.Text
