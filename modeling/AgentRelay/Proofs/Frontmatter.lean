import AgentRelay.Frontmatter
import AgentRelay.Proofs.Yaml.Lines
import AgentRelay.Proofs.Value.SetOrder
import AgentRelay.Proofs.Yaml.Value
import AgentRelay.Text.Newline

/-
  Documents that are written and read again.

  A block of fields that was written in front of a content is found there again,
  also after the line ends of the document were unified (`block?_join`). Without
  fields the document is its content, which must not start with a block of its own.
  So what is read again is what is read from the block that was written
  (`split_join`). Where the values in it come back, the fields are what they were but
  for their nodes (`split_again`).
-/

namespace AgentRelay

open Yaml (dashes IsLine InLine whole Identity identity? InDocument)

/-- A mapping is another one, read again: its nodes stand for those of the other, and
different nodes for different ones. -/
structure Mapping.Rereads (g : Labels) (n m : Mapping) : Prop where
  same : n.via g = m
  apart : ∀ i j k, identity? (g i) = some k → identity? (g j) = some k → i = j

namespace Text

theorem unify_cons {c : Char} (h : c ≠ '\r') (cs : List Char) :
    unifyNewlines (c :: cs) = c :: unifyNewlines cs := by
  simp [unifyNewlines, h]

/-- Where no carriage return stands, nothing is unified. -/
theorem unify_append {cs : List Char} (h : '\r' ∉ cs) (ds : List Char) :
    unifyNewlines (cs ++ ds) = cs ++ unifyNewlines ds := by
  induction cs with
  | nil => rfl
  | cons c cs ih =>
    obtain ⟨hc, hcs⟩ := not_or.mp (mt List.mem_cons.mpr h)
    rw [List.cons_append, unify_cons (Ne.symm hc), ih hcs, List.cons_append]

end Text

namespace Frontmatter

/-! ## Cutting at a rule -/

/-- A line that does not start like a rule is none. -/
theorem afterRule_line {l : List Char} (h : IsLine l) (more : List Char) :
    afterRule true (l ++ '\n' :: more) = none := by
  have hfree := (Yaml.started_of_free h.free (c := '\n') (by decide) more).free
  unfold afterRule
  split
  · rfl
  · rename_i rest hdrop
    exact absurd ⟨rest, ((Text.dropStart?_eq_some_iff _ _ _).mp hdrop).symm⟩ hfree

/-- Within a line nothing is cut. -/
theorem cutAtRule_inLine {l : List Char} (h : InLine l) (more : List Char) :
    cutAtRule false (l ++ '\n' :: more) =
      (cutAtRule true more).map fun p => (l ++ '\n' :: p.1, p.2) := by
  induction l with
  | nil => rfl
  | cons c l ih =>
    obtain ⟨hc, hl⟩ := List.forall_mem_cons.mp h
    have hend : (c == '\n') = false := beq_false_of_ne hc.1
    simp only [List.cons_append, cutAtRule, hend, ih hl, Option.map_map]
    rfl

theorem cutAtRule_line {l : List Char} (h : IsLine l) (more : List Char) :
    cutAtRule true (l ++ '\n' :: more) =
      (cutAtRule true more).map fun p => (l ++ '\n' :: p.1, p.2) := by
  have hnone := afterRule_line h more
  cases l with
  | nil =>
    rw [List.nil_append] at hnone ⊢
    simp only [cutAtRule, hnone, if_true]
    rfl
  | cons c l =>
    obtain ⟨hc, hl⟩ := List.forall_mem_cons.mp h.inLine
    have hend : (c == '\n') = false := beq_false_of_ne hc.1
    rw [List.cons_append] at hnone ⊢
    simp only [cutAtRule, hnone, if_true, hend, cutAtRule_inLine hl, Option.map_map]
    rfl

/-- Lines in front of a rule are cut off as they are. -/
theorem cutAtRule_whole {lines : List (List Char)} (h : ∀ l ∈ lines, IsLine l)
    (rest : List Char) :
    cutAtRule true (whole lines ++ rule.toList ++ rest) = some (whole lines, rest) := by
  induction lines with
  | nil => rfl
  | cons l lines ih =>
    obtain ⟨hl, hlines⟩ := List.forall_mem_cons.mp h
    have hs : whole (l :: lines) ++ rule.toList ++ rest =
        l ++ '\n' :: (whole lines ++ rule.toList ++ rest) := by
      simp [whole]
    rw [hs, cutAtRule_line hl, ih hlines]
    simp [whole]

/-- A block between two rules is found in front of what follows. -/
theorem block?_between {lines : List (List Char)} (h : ∀ l ∈ lines, IsLine l)
    (rest : List Char) :
    block? (rule.toList ++ whole lines ++ rule.toList ++ rest) = some (whole lines, rest) := by
  rw [List.append_assoc, List.append_assoc, ← List.append_assoc (whole lines)]
  exact cutAtRule_whole h rest

theorem not_mem_whole {lines : List (List Char)} (h : ∀ l ∈ lines, IsLine l) :
    '\r' ∉ whole lines := by
  intro hmem
  obtain ⟨l, hl, hr⟩ := List.mem_flatMap.mp hmem
  rcases List.mem_append.mp hr with hr | hr
  · exact ((h l hl).inLine _ hr).2 rfl
  · exact absurd hr (by decide)

/-! ## Reading again -/

variable {m : Mapping} {content text : String}

/-- The text of a document as it is read from a file. -/
def reread (text : String) : String := String.ofList (Text.unifyNewlines text.toList)

/-- The block that was written in front of a content is found there again. -/
theorem block?_join {block : String} (hne : m.clean ≠ []) (hblock : Yaml.write m.clean = .ok block)
    (h : join m content = .ok text) :
    ∃ rest, block? (reread text).toList = some (block.toList, rest) := by
  obtain ⟨lines, hlines, hall⟩ := Yaml.exists_lines_of_write hblock
  have hempty : (m.clean).isEmpty = false := by
    cases hm : m.clean with
    | nil => exact absurd hm hne
    | cons e es => rfl
  unfold join at h
  simp only [hempty, hblock] at h
  obtain rfl := Except.ok.inj h
  have hr : '\r' ∉ rule.toList ++ whole lines ++ rule.toList := by
    simp only [List.mem_append, not_or]
    exact ⟨⟨by decide, not_mem_whole hlines⟩, by decide⟩
  refine ⟨Text.unifyNewlines (Frontmatter.ended content).toList, ?_⟩
  rw [reread, String.toList_ofList, String.toList_append, String.toList_append,
    String.toList_append, hall, Text.unify_append hr, block?_between hlines]

theorem join_of_clean_nil (hnil : m.clean = []) : join m content = .ok content := by
  simp [join, hnil]

/-- The fields of a document that is read again are those in the block that was written;
without fields the content must not start with a block. -/
theorem split_join (doc : Nat) (h : join m content = .ok text)
    (hbare : m.clean = [] → block? (reread content).toList = none) :
    (m.clean = [] ∧ ∃ c, split doc (reread text) = .ok ([], c)) ∨
      ∃ block c, Yaml.write m.clean = .ok block ∧
        split doc (reread text) = (fields doc block).map fun m => (m, c) := by
  by_cases hnil : m.clean = []
  · rw [join_of_clean_nil hnil] at h
    obtain rfl := Except.ok.inj h
    refine .inl ⟨hnil, reread content, ?_⟩
    unfold split
    rw [hbare hnil]
  · refine .inr ?_
    have hwrite : ∃ block, Yaml.write m.clean = .ok block := by
      cases hw : Yaml.write m.clean with
      | ok block => exact ⟨block, rfl⟩
      | error e =>
        unfold join at h
        have hempty : (m.clean).isEmpty = false := by simpa using hnil
        simp only [hempty, hw] at h
        cases h
    obtain ⟨block, hblock⟩ := hwrite
    obtain ⟨rest, hrest⟩ := block?_join hnil hblock h
    refine ⟨block, String.ofList rest, hblock, ?_⟩
    unfold split
    rw [hrest]
    simp only [String.ofList_toList]

/-- The fields of a document have no nodes but its own. -/
theorem from_split {doc : Nat} {fields : Mapping}
    (h : split doc text = .ok (fields, content)) : fields.From (InDocument doc) := by
  have hnone : Mapping.From (InDocument doc) [] := fun e he => absurd he List.not_mem_nil
  unfold split at h
  split at h
  · obtain ⟨rfl, -⟩ := Prod.mk.inj (Except.ok.inj h)
    exact hnone
  · obtain ⟨m, hm, heq⟩ := exists_of_map_eq_ok h
    obtain ⟨rfl, -⟩ := Prod.mk.inj heq
    unfold Frontmatter.fields at hm
    split at hm
    · cases hm
    · obtain rfl := Except.ok.inj hm
      exact hnone
    · rename_i hread
      split at hm
      · rename_i hentries
        obtain rfl := Except.ok.inj hm
        exact Value.from_entries? (Yaml.from_readSource hread) hentries
      · cases hm

/-- What is written comes back when it is read: the fields have the values they had, with the
members of sets in the order they had, and the content does not start with a block of fields
of its own. Where the order of a set may be another in every run, nothing is said to come
back. -/
structure ComesBack (doc : Nat) (m : Mapping) (content : String) : Prop where
  values : ∀ block, Yaml.write m.clean = .ok block → ∃ (v : Value) (n : Mapping) (g : Labels),
    Yaml.readValue doc block = .ok v ∧ v.entries? = some n ∧ n.Rereads g m.clean
  steady : Value.steadyEntries m.clean = true
  bare : block? (Text.unifyNewlines content.toList) = none

/-- The fields of a document that comes back are those that were written, but for their
nodes. -/
theorem split_again {doc : Nat} (h : join m content = .ok text) (hback : ComesBack doc m content) :
    ∃ (n : Mapping) (c : String) (g : Labels), split doc (reread text) = .ok (n, c) ∧
      n.From (InDocument doc) ∧ n.Rereads g m.clean := by
  have hbare : block? (reread content).toList = none := by
    rw [reread, String.toList_ofList]
    exact hback.bare
  rcases split_join doc h fun _ => hbare with ⟨hnil, c, hsplit⟩ | ⟨block, c, hblock, hsplit⟩
  · refine ⟨[], c, .same, hsplit, from_split hsplit, by rw [hnil]; rfl, fun i j k hi hj => ?_⟩
    exact (Option.some.inj hi).trans (Option.some.inj hj).symm
  · obtain ⟨v, n, g, hread, hentries, hn⟩ := hback.values block hblock
    have hfields : fields doc block = .ok n := by
      unfold fields
      rw [hread]
      cases v with
      | map o es => simp only [hentries]
      | _ => cases hentries
    rw [hfields] at hsplit
    exact ⟨n, c, g, hsplit, from_split hsplit, hn⟩

end Frontmatter

end AgentRelay
