import AgentRelay.Agent
import AgentRelay.Proofs.Path

/-
  Paths with another extension.

  The file of a converted command is found in two ways: by the name of the command, which
  loses the extension and gets another one, and by replacing the extension in the path.
  The first cuts off the extension it is given, the second looks for one; both come to the
  same for the extensions of commands (`replaceExtension_append`). The one trap is the
  extension of prompts, which ends with a simple one.

  Main statement: the two ways agree, replacing an extension can be undone, and doing it
  twice is doing it once (`extensions_agree`).
-/

namespace AgentRelay

open AgentRelay.Text (dropEnd? endsWith replaceChar)

/-- The extensions of commands. -/
def extensions : List (List Char) := [".md".toList, ".toml".toList, promptExtension]

/-- Everyone's commands have one of them. -/
theorem Agent.extension_mem (a : Agent) : a.extension ∈ extensions := by
  cases a <;> decide

/-- A relative way with a name between any two slashes, and without colons. -/
structure PlainWay (p : List Char) : Prop where
  colonless : ':' ∉ p
  names : ∀ n ∈ Text.splitOn '/' p, n ≠ [] ∧ n ≠ ['.'] ∧ n ≠ ['.', '.']

/-! ## Endings -/

theorem endsWith_iff {tail cs : List Char} : endsWith tail cs = true ↔ tail <:+ cs := by
  rw [endsWith, Option.isSome_iff_exists]
  constructor
  · rintro ⟨rest, h⟩
    exact ⟨rest, ((Text.dropEnd?_eq_some_iff _ _ _).mp h).symm⟩
  · rintro ⟨rest, h⟩
    exact ⟨rest, (Text.dropEnd?_eq_some_iff _ _ _).mpr h.symm⟩

theorem dropEnd?_append (stem tail : List Char) : dropEnd? tail (stem ++ tail) = some stem :=
  (Text.dropEnd?_eq_some_iff _ _ _).mpr rfl

/-- A point with characters behind it that cannot stand in front of an extension. -/
def IsSimple (e : List Char) : Prop :=
  ∃ tail, e = '.' :: tail ∧ tail ≠ [] ∧ '.' ∉ tail ∧ '/' ∉ tail ∧ '\\' ∉ tail

theorem not_simple_prompt : ¬ IsSimple promptExtension := by
  rintro ⟨tail, h, -, hpoint, -⟩
  obtain rfl : "prompt.md".toList = tail := (List.cons.inj h).2
  exact hpoint (by decide)

theorem simple_or_prompt {e : List Char} (h : e ∈ extensions) :
    IsSimple e ∨ e = promptExtension := by
  simp only [extensions, List.mem_cons, List.not_mem_nil, or_false] at h
  rcases h with rfl | rfl | rfl
  · exact Or.inl ⟨"md".toList, by decide⟩
  · exact Or.inl ⟨"toml".toList, by decide⟩
  · exact Or.inr rfl

theorem ne_nil_of_mem_extensions {e : List Char} (h : e ∈ extensions) : e ≠ [] := by
  simp only [extensions, List.mem_cons, List.not_mem_nil, or_false] at h
  rcases h with rfl | rfl | rfl <;> decide

/-- Two simple extensions of one path are one. -/
theorem IsSimple.eq_of_suffix {d e cs : List Char} (hd : IsSimple d) (he : IsSimple e)
    (hdc : d <:+ cs) (hec : e <:+ cs) : d = e := by
  have hlast : ∀ {d e : List Char}, IsSimple d → IsSimple e → d <:+ e → d = e := by
    rintro d e ⟨t, rfl, -⟩ ⟨u, rfl, -, hu, -⟩ ⟨rest, h⟩
    -- A longer rest would put the second point behind the first.
    cases rest with
    | nil => exact h
    | cons c rest =>
      rw [List.cons_append, List.cons.injEq] at h
      exact absurd (h.2 ▸ List.mem_append_right rest List.mem_cons_self) hu
  rcases List.suffix_or_suffix_of_suffix hdc hec with h | h
  · exact hlast hd he h
  · exact (hlast he hd h).symm

/-- What ends like a prompt ends simply, too, but only with one of the extensions. -/
theorem eq_md_of_prompt {stem e : List Char} (he : IsSimple e) (hmem : e ∈ extensions)
    (h : promptExtension <:+ stem ++ e) : e = ".md".toList ∧ ".prompt".toList <:+ stem := by
  have hmd : IsSimple ".md".toList := ⟨"md".toList, by decide⟩
  obtain rfl : e = ".md".toList :=
    he.eq_of_suffix hmd (List.suffix_append stem e)
      ((show ".md".toList <:+ promptExtension by decide).trans h)
  refine ⟨rfl, ?_⟩
  have hsplit : promptExtension = ".prompt".toList ++ ".md".toList := by decide
  rw [hsplit] at h
  obtain ⟨rest, hrest⟩ := h
  rw [← List.append_assoc, List.append_cancel_right_eq] at hrest
  exact ⟨rest, hrest⟩

/-! ## Replacing an extension -/

theorem dropExtension_append {e : List Char} (h : IsSimple e) (stem : List Char) :
    dropExtension (stem ++ e) = stem := by
  obtain ⟨tail, rfl, hne, hpoint, hslash, hback⟩ := h
  have htail : ((stem ++ '.' :: tail).reverse.takeWhile (· != '.')).reverse = tail := by
    have hall : ∀ c ∈ tail.reverse, (c != '.') = true := by
      intro c hc
      simpa using fun he : c = '.' => hpoint (he ▸ List.mem_reverse.mp hc)
    rw [List.reverse_append, List.reverse_cons, List.append_assoc,
      List.takeWhile_append_of_pos hall]
    simp
  have hlen : (stem ++ '.' :: tail).length = stem.length + tail.length + 1 := by
    rw [List.length_append, List.length_cons]
    omega
  have htake : stem.length + tail.length + 1 - tail.length - 1 = stem.length := by omega
  have hshort : (tail.length == stem.length + tail.length + 1) = false := beq_false_of_ne (by omega)
  simp only [dropExtension, htail, hlen, htake, hshort, List.take_left]
  simp [hne, hslash, hback]

theorem replaceExtension_prompt (stem e : List Char) :
    replaceExtension (stem ++ promptExtension) e = stem ++ e := by
  have hne : (stem ++ promptExtension).isEmpty = false := by
    simp [show promptExtension ≠ [] by decide]
  simp only [replaceExtension, hne, dropEnd?_append, Bool.false_eq_true, if_false]
  split
  · rename_i he
    rw [he]
  · rfl

theorem replaceExtension_of_not_prompt {cs : List Char} (hne : cs ≠ [])
    (h : ¬ promptExtension <:+ cs) (e : List Char) :
    replaceExtension cs e = if endsWith e cs then cs else dropExtension cs ++ e := by
  have hnone : dropEnd? promptExtension cs = none := by
    rw [← Option.isNone_iff_eq_none, ← Option.isSome_eq_false_iff]
    exact Bool.eq_false_iff.mpr fun hend => h (endsWith_iff.mp hend)
  simp only [replaceExtension, List.isEmpty_eq_false_iff.mpr hne, hnone, Bool.false_eq_true,
    if_false]

/-- A path loses the extension it has, the one of prompts before a simple one. -/
theorem replaceExtension_append {stem e₁ e₂ : List Char} (h₁ : e₁ ∈ extensions)
    (h₂ : e₂ ∈ extensions) (hprompt : promptExtension <:+ stem ++ e₁ → e₁ = promptExtension) :
    replaceExtension (stem ++ e₁) e₂ = stem ++ e₂ := by
  rcases simple_or_prompt h₁ with hsimple | rfl
  · have hno : ¬ promptExtension <:+ stem ++ e₁ := fun h =>
      not_simple_prompt (hprompt h ▸ hsimple)
    have hne : stem ++ e₁ ≠ [] := by simp [ne_nil_of_mem_extensions h₁]
    rw [replaceExtension_of_not_prompt hne hno, dropExtension_append hsimple]
    split
    · rename_i hend
      rw [endsWith_iff] at hend
      rcases simple_or_prompt h₂ with hsimple₂ | rfl
      · rw [hsimple₂.eq_of_suffix hsimple hend (List.suffix_append _ _)]
      · exact absurd hend hno
    · rfl
  · exact replaceExtension_prompt stem e₂

theorem suffix_replaceExtension {q : List Char} (hq : q ≠ []) (e : List Char) :
    e <:+ replaceExtension q e := by
  by_cases hprompt : promptExtension <:+ q
  · obtain ⟨stem, rfl⟩ := hprompt
    rw [replaceExtension_prompt]
    exact List.suffix_append _ _
  · rw [replaceExtension_of_not_prompt hq hprompt]
    split
    · rename_i hend
      exact endsWith_iff.mp hend
    · exact List.suffix_append _ _

/-- A path that has the extension keeps it, unless it is cut off as that of a prompt. -/
theorem replaceExtension_eq_self_iff {cs e : List Char} (hne : cs ≠ []) (hmem : e ∈ extensions)
    (h : e <:+ cs) :
    replaceExtension cs e = cs ↔ ¬ (e = ".md".toList ∧ promptExtension <:+ cs) := by
  by_cases hprompt : promptExtension <:+ cs
  · obtain ⟨stem, rfl⟩ := hprompt
    rw [replaceExtension_prompt, List.append_cancel_left_eq]
    simp only [List.suffix_append, and_true]
    constructor
    · rintro rfl
      decide
    · intro hmd
      rcases simple_or_prompt hmem with hsimple | he
      · have : IsSimple ".md".toList := ⟨"md".toList, by decide⟩
        exact absurd (hsimple.eq_of_suffix this h
          ((show ".md".toList <:+ promptExtension by decide).trans (List.suffix_append _ _))) hmd
      · exact he
  · rw [replaceExtension_of_not_prompt hne hprompt, if_pos (endsWith_iff.mpr h)]
    simp [hprompt]

/-! ## Names of commands -/

namespace PlainWay

variable {p : List Char}

theorem ofChars_eq (h : PlainWay p) :
    Path.ofChars p = ⟨0, (Text.splitOn '/' p).map String.ofList⟩ := by
  have hnames : ∀ n ∈ (Text.splitOn '/' p).map String.ofList, Path.IsName n := by
    intro n hn
    obtain ⟨cs, hcs, rfl⟩ := List.mem_map.mp hn
    obtain ⟨hne, hpoint, -⟩ := h.names cs hcs
    refine ⟨fun he => hne ?_, fun he => hpoint ?_, ?_⟩
    · simpa using congrArg String.toList he
    · simpa using congrArg String.toList he
    · rw [String.toList_ofList]
      exact Text.not_mem_of_mem_splitOn hcs
  have hread := Path.ofChars_joinWith hnames (Nat.zero_le 2)
  simpa [Function.comp_def, Text.joinWith_splitOn] using hread

theorem chars_eq (h : PlainWay p) : (Path.ofChars p).chars = p := by
  have hne := Text.splitOn_ne_nil '/' p
  rw [h.ofChars_eq, Path.chars]
  simp [hne, Function.comp_def, Text.joinWith_splitOn]

/-- The name of a command below a folder is its way without the extension, with colons
for slashes. -/
theorem commandName?_eq {stem e : List Char} (h : PlainWay (stem ++ e)) (he : e ≠ [])
    (base : Path) :
    commandName? (base.join (Path.ofChars (stem ++ e))) base (some e) =
      some (replaceChar '/' ':' stem) := by
  have hbelow : base.below? (base.join (Path.ofChars (stem ++ e))) =
      some (Path.ofChars (stem ++ e)) := by
    rw [h.ofChars_eq]
    exact Path.below?_behind base _
  rw [commandName?, hbelow, Option.map_some, h.chars_eq]
  simp only [List.isEmpty_eq_false_iff.mpr he, dropEnd?_append, Bool.false_eq_true, if_false]

end PlainWay

/-- The path of a command that is converted. For a plain way to a command with one of the
extensions, the name that is made of it leads, with another extension and below any
folder, to the way whose extension was replaced; and replacing it again gives the first
way back, unless it goes on in front of the extension like that of a prompt. Whatever a
path was before, it ends with the extension it gets, and getting it again changes nothing
but a prompt that is cut down to a simple extension. -/
theorem extensions_agree {e₁ e₂ : List Char} (h₁ : e₁ ∈ extensions) (h₂ : e₂ ∈ extensions) :
    (∀ stem, PlainWay (stem ++ e₁) →
      (endsWith promptExtension (stem ++ e₁) = true → e₁ = promptExtension) →
      (∀ base target, ∃ name,
        commandName? (base.join (Path.ofChars (stem ++ e₁))) base (some e₁) = some name ∧
        commandFile name target e₂ =
          target.join (Path.ofChars (replaceExtension (stem ++ e₁) e₂))) ∧
      (endsWith ".prompt".toList stem = false →
        replaceExtension (replaceExtension (stem ++ e₁) e₂) e₁ = stem ++ e₁)) ∧
    ∀ q, q ≠ [] →
      endsWith e₂ (replaceExtension q e₂) = true ∧
      (replaceExtension (replaceExtension q e₂) e₂ = replaceExtension q e₂ ↔
        ¬ (e₂ = ".md".toList ∧ endsWith promptExtension (replaceExtension q e₂) = true)) := by
  refine ⟨fun stem hp hprompt => ?_, fun q hq => ?_⟩
  · rw [endsWith_iff] at hprompt
    have hreplaced := replaceExtension_append h₁ h₂ hprompt
    refine ⟨fun base target => ?_, fun hstem => ?_⟩
    · refine ⟨_, hp.commandName?_eq (ne_nil_of_mem_extensions h₁) base, ?_⟩
      have hcolon : ':' ∉ stem := fun h => hp.colonless (List.mem_append_left _ h)
      rw [commandFile, Text.replaceChar_back hcolon, hreplaced]
    · rw [hreplaced]
      refine replaceExtension_append h₂ h₁ fun h => (simple_or_prompt h₂).resolve_left fun hs => ?_
      have := (eq_md_of_prompt hs h₂ h).2
      rw [← endsWith_iff, hstem] at this
      cases this
  · have hend := suffix_replaceExtension hq e₂
    have hne : replaceExtension q e₂ ≠ [] := fun h => by
      rw [h, List.suffix_nil] at hend
      exact ne_nil_of_mem_extensions h₂ hend
    rw [endsWith_iff, endsWith_iff]
    exact ⟨hend, replaceExtension_eq_self_iff hne h₂ hend⟩

/-- A nested prompt becomes a command with a simple extension, under the path its name
leads to, and a prompt again. Cutting a prompt down to a simple extension may leave another
prompt, which is cut down in its turn. -/
theorem review_extensions :
    (∃ name,
      commandName? (Path.join ⟨1, ["w"]⟩ (Path.ofChars "git/review.prompt.md".toList)) ⟨1, ["w"]⟩
        (some Agent.copilot.extension) = some name ∧
      commandFile name ⟨1, ["v"]⟩ Agent.claude.extension = ⟨1, ["v", "git", "review.md"]⟩) ∧
    replaceExtension (replaceExtension "git/review.prompt.md".toList Agent.claude.extension)
      Agent.copilot.extension = "git/review.prompt.md".toList ∧
    endsWith Agent.claude.extension
      (replaceExtension "review.prompt.prompt.md".toList Agent.claude.extension) = true ∧
    replaceExtension (replaceExtension "review.prompt.prompt.md".toList Agent.claude.extension)
        Agent.claude.extension ≠
      replaceExtension "review.prompt.prompt.md".toList Agent.claude.extension := by
  obtain ⟨hway, hany⟩ := extensions_agree Agent.copilot.extension_mem Agent.claude.extension_mem
  obtain ⟨hpath, hback⟩ := hway "git/review".toList ⟨by decide, by decide⟩ (by decide)
  obtain ⟨hend, hagain⟩ := hany "review.prompt.prompt.md".toList (by decide)
  obtain ⟨name, hname, hfile⟩ := hpath ⟨1, ["w"]⟩ ⟨1, ["v"]⟩
  refine ⟨⟨name, hname, ?_⟩, hback (by decide), hend, fun h => hagain.mp h (by decide)⟩
  rw [hfile]
  decide

end AgentRelay
