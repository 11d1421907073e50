import AgentRelay.Proofs.Neutral.Hop

/-
  A document of the hub, applied to a spoke and imported straight back.

  The shared properties that were read from the document are written again
  (`tells_hubFields`), and the block of the spoke is written with the extras that
  were read from it, which every spoke gives back (`plain_read_written`,
  `plain_command_read_written`). The blocks of the other agents are not looked at.
  So the hub has the document it had (`unchanged_by_apply_and_import`).
-/

namespace AgentRelay.Hub

open Neutral (hubFields optionalField historyField invocationField)

/-! ## What the hub writes -/

/-- A field of a hub's skill, with a value the hub writes for it. -/
inductive SkillEntry : Scalar × Value → Prop where
  | name {v : Value} (h : v.isNull = false) : SkillEntry (.text nameKey, v)
  | description {v : Value} (h : v.isNull = false) : SkillEntry (.text descriptionKey, v)
  | invocation (b : Bool) : SkillEntry (.text invocationKey, .bool b)
  | history (o : Origin) (x : Phrase) (xs : List Phrase) :
      SkillEntry (.text provenanceKey, .seq o ((x :: xs).map Value.phrase))
  | blocks (o : Origin) {m : Mapping} (h : m ≠ []) : SkillEntry (.text sectionKey, .map o m)

/-- A field of a hub's command, with a value the hub writes for it. -/
inductive CommandEntry : Scalar × Value → Prop where
  | description (p : Phrase) : CommandEntry (.text descriptionKey, .phrase p)
  | history (o : Origin) (x : Phrase) (xs : List Phrase) :
      CommandEntry (.text provenanceKey, .seq o ((x :: xs).map Value.phrase))
  | blocks (o : Origin) {m : Mapping} (h : m ≠ []) : CommandEntry (.text sectionKey, .map o m)

theorem CommandEntry.toSkill {e : Scalar × Value} (h : CommandEntry e) : SkillEntry e := by
  cases h with
  | description p => exact .description (by cases p <;> rfl)
  | history o x xs => exact .history o x xs
  | blocks o hm => exact .blocks o hm

/-- The extras an agent reads from its block have plain names and values, and none is
the prompt of a table. -/
structure PlainBlock (agent : String) (fields : Mapping) : Prop where
  plain : PlainExtras (block agent fields)
  full : ∀ e ∈ block agent fields, e.2.isNull = false
  prompt : (block agent fields).Lacks (.text promptKey)

/-- Two documents of the hub are the same but for the order of what an agent has in its
block, and for where the list of its history came from. -/
structure Unchanged (a : Agent) (old new : Mapping) : Prop where
  fields : ∀ key : Scalar, key ≠ .text provenanceKey → key ≠ .text sectionKey →
    Mapping.get? new key = Mapping.get? old key
  history : (Mapping.get? new (.text provenanceKey)).map Value.items? =
    (Mapping.get? old (.text provenanceKey)).map Value.items?
  present : Mapping.contains new (.text sectionKey) = Mapping.contains old (.text sectionKey)
  origin : sectionOrigin (sectionOf new) = sectionOrigin (sectionOf old)
  others : ∀ key : Scalar, key ≠ .text a.name →
    Mapping.get? (rawBlocks (sectionOf new)) key = Mapping.get? (rawBlocks (sectionOf old)) key
  kept : Mapping.contains (rawBlocks (sectionOf new)) (.text a.name) =
    Mapping.contains (rawBlocks (sectionOf old)) (.text a.name)
  own : Mapping.Alike (block a.name new) (block a.name old)

/-! ## The shared properties that fields tell -/

/-- The fields tell these shared properties. -/
structure Tells (fields : Mapping) (s : Shared) : Prop where
  name : Mapping.get? fields (.text nameKey) = if s.name.isNull then none else some s.name
  description : Mapping.get? fields (.text descriptionKey) =
    if s.description.isNull then none else some s.description
  invocation : Mapping.get? fields (.text invocationKey) = s.invocation.map fun b => .bool !b
  history : (Mapping.get? fields (.text provenanceKey)).map Value.items? =
    s.history.map fun hs => some (hs.map Value.phrase)

theorem fillAll_phrases (o : Origin) (v : Value) (xs : List Phrase) :
    Value.fillAll o v (xs.map Value.phrase) = xs.map Value.phrase := by
  induction xs with
  | nil => rfl
  | cons x xs ih => rw [List.map_cons, Value.fillAll, ih]; rfl

theorem items?_phrases (o : Origin) (xs : List Phrase) :
    Value.items? (.seq o (xs.map Value.phrase)) = some (xs.map Value.phrase) := by
  simp only [Value.items?, fillAll_phrases, ite_self]

theorem provenance_seq (o : Origin) (x : Phrase) (xs : List Phrase) :
    provenance (.seq o ((x :: xs).map Value.phrase)) = .ok (some (x :: xs)) := by
  simp only [provenance, items?_phrases, Skill.itemTexts_map_phrase]
  rfl

theorem get?_optionalField (key : String) (v : Value) (k : Scalar) :
    Mapping.get? (optionalField key v) k =
      if k = .text key then (if v.isNull then none else some v) else none := by
  unfold optionalField
  by_cases hv : v.isNull = true
  · simp [hv, Mapping.get?]
  · by_cases hk : k = .text key <;> simp [hv, hk, Mapping.get?, Scalar.same_text_iff']

theorem get?_invocationField (o : Option Bool) (k : Scalar) :
    Mapping.get? (invocationField Agent.hub o) k =
      if k = .text invocationKey then o.map fun b => .bool !b else none := by
  have hname : Neutral.invocationName Agent.hub = invocationKey := rfl
  cases o with
  | none => simp [invocationField, Mapping.get?]
  | some b =>
    by_cases hk : k = .text invocationKey <;>
      simp [invocationField, hname, hk, Mapping.get?, Scalar.same_text_iff']

theorem get?_historyField_of_ne (history : Option (List Phrase)) {k : Scalar}
    (h : k ≠ .text provenanceKey) : Mapping.get? (historyField history) k = none := by
  refine Mapping.get?_eq_none_iff.mpr fun e he => Bool.eq_false_iff.mpr fun hs => h ?_
  rw [Neutral.key_of_mem_historyField he] at hs
  exact (Scalar.same_text_iff' _ _).mp hs

/-- A history that is kept as a field is the list of its texts. -/
theorem get?_historyField {history : Option (List Phrase)} (h : history ≠ some []) :
    (Mapping.get? (historyField history) (.text provenanceKey)).map Value.items? =
      history.map fun hs => some (hs.map Value.phrase) := by
  match history, h with
  | none, _ => rfl
  | some (x :: xs), _ =>
    have hget : Mapping.get? (historyField (some (x :: xs))) (.text provenanceKey) =
        some (.seq .own ((x :: xs).map Value.phrase)) := by
      simp [historyField, Mapping.get?, Value.list]
    rw [hget, Option.map_some, items?_phrases, Option.map_some]

theorem get?_hubFields (s : Shared) (k : Scalar) :
    Mapping.get? (hubFields s) k =
      ((((if k = .text nameKey then (if s.name.isNull then none else some s.name) else none).or
        (if k = .text descriptionKey then
          (if s.description.isNull then none else some s.description) else none)).or
        (if k = .text invocationKey then s.invocation.map fun b => .bool !b else none)).or
        (Mapping.get? (historyField s.history) k)) := by
  simp only [hubFields, Neutral.leadingFields, Mapping.get?_append, get?_optionalField,
    get?_invocationField]

/-- What the hub writes tells what it was told. -/
theorem tells_hubFields (s : Shared) (h : s.history ≠ some []) : Tells (hubFields s) s where
  name := by
    rw [get?_hubFields, get?_historyField_of_ne _ (by decide)]
    simp [nameKey, descriptionKey, invocationKey]
  description := by
    rw [get?_hubFields, get?_historyField_of_ne _ (by decide)]
    simp [nameKey, descriptionKey, invocationKey]
  invocation := by
    rw [get?_hubFields, get?_historyField_of_ne _ (by decide)]
    simp [nameKey, descriptionKey, invocationKey]
  history := by
    rw [get?_hubFields, if_neg (by decide), if_neg (by decide), if_neg (by decide),
      Option.none_or, Option.none_or, Option.none_or]
    exact get?_historyField h

/-- Nothing but shared properties stands beside the section. -/
theorem get?_hubFields_of_ne (s : Shared) {k : Scalar}
    (h : ∀ t ∈ Neutral.hubKeys, k ≠ .text t) : Mapping.get? (hubFields s) k = none := by
  rw [get?_hubFields, get?_historyField_of_ne _ (h _ (by decide)), if_neg (h _ (by decide)),
    if_neg (h _ (by decide)), if_neg (h _ (by decide))]
  rfl

/-! ## Reading the hub's document -/

theorem SkillEntry.key {e : Scalar × Value} (h : SkillEntry e) :
    e.1 = .text sectionKey ∨ ∃ t ∈ Neutral.hubKeys, e.1 = .text t := by
  cases h with
  | name => exact Or.inr ⟨nameKey, by decide, rfl⟩
  | description => exact Or.inr ⟨descriptionKey, by decide, rfl⟩
  | invocation b => exact Or.inr ⟨invocationKey, by decide, rfl⟩
  | history o x xs => exact Or.inr ⟨provenanceKey, by decide, rfl⟩
  | blocks o h => exact Or.inl rfl

theorem SkillEntry.not_null {e : Scalar × Value} (h : SkillEntry e) : e.2.isNull = false := by
  cases h <;> first | assumption | rfl

theorem SkillEntry.bool {e : Scalar × Value} (h : SkillEntry e)
    (hk : e.1 = .text invocationKey) : ∃ b, e.2 = .bool b := by
  cases h with
  | invocation b => exact ⟨b, rfl⟩
  | name => exact absurd (Scalar.text.inj hk) (by decide)
  | description => exact absurd (Scalar.text.inj hk) (by decide)
  | history o x xs => exact absurd (Scalar.text.inj hk) (by decide)
  | blocks o h => exact absurd (Scalar.text.inj hk) (by decide)

theorem SkillEntry.map {e : Scalar × Value} (h : SkillEntry e)
    (hk : e.1 = .text sectionKey) : ∃ o m, e.2 = .map o m ∧ m ≠ [] := by
  cases h with
  | blocks o h => exact ⟨o, _, rfl, h⟩
  | name => exact absurd (Scalar.text.inj hk) (by decide)
  | description => exact absurd (Scalar.text.inj hk) (by decide)
  | invocation b => exact absurd (Scalar.text.inj hk) (by decide)
  | history o x xs => exact absurd (Scalar.text.inj hk) (by decide)

theorem SkillEntry.list {e : Scalar × Value} (h : SkillEntry e)
    (hk : e.1 = .text provenanceKey) :
    ∃ o x xs, e.2 = .seq o ((x :: xs).map Value.phrase) := by
  cases h with
  | history o x xs => exact ⟨o, x, xs, rfl⟩
  | name => exact absurd (Scalar.text.inj hk) (by decide)
  | description => exact absurd (Scalar.text.inj hk) (by decide)
  | invocation b => exact absurd (Scalar.text.inj hk) (by decide)
  | blocks o h => exact absurd (Scalar.text.inj hk) (by decide)

theorem CommandEntry.text {e : Scalar × Value} (h : CommandEntry e)
    (hk : e.1 = .text descriptionKey) : ∃ p, e.2 = .phrase p := by
  cases h with
  | description p => exact ⟨p, rfl⟩
  | history o x xs => exact absurd (Scalar.text.inj hk) (by decide)
  | blocks o h => exact absurd (Scalar.text.inj hk) (by decide)

/-- What stands under the key of a mapping with such fields has their form. -/
theorem entry_of_get? {fields : Mapping} (he : ∀ e ∈ fields, SkillEntry e) {key : String}
    {v : Value} (h : Mapping.get? fields (.text key) = some v) : SkillEntry (.text key, v) := by
  obtain ⟨k, hmem, hs⟩ := Mapping.mem_of_get? h
  rw [(Scalar.same_text_iff key k).mp hs] at hmem
  exact he _ hmem

theorem addField_entry {e : Scalar × Value} (he : SkillEntry e) (hne : e.1 ≠ .text sectionKey)
    (s : Shared) :
    ∃ s', Skill.addField Agent.hub (s, []) e = .ok (s', []) ∧ s'.name = s.name ∧
      s'.description = s.description ∧
      (s'.invocation = if e.1 = .text invocationKey then e.2.bool?.map (!·) else s.invocation) ∧
      (e.1 ≠ .text provenanceKey → s'.history = s.history) ∧
      (e.1 = .text provenanceKey →
        ∃ x xs, s'.history = some (x :: xs) ∧ e.2.items? = some ((x :: xs).map Value.phrase)) := by
  cases he with
  | name => exact ⟨s, rfl, rfl, rfl, rfl, fun _ => rfl, fun h => absurd (Scalar.text.inj h) (by decide)⟩
  | description => exact ⟨s, rfl, rfl, rfl, rfl, fun _ => rfl, fun h => absurd (Scalar.text.inj h) (by decide)⟩
  | invocation b =>
    exact ⟨{ s with invocation := some !b }, rfl, rfl, rfl, rfl, fun _ => rfl,
      fun h => absurd (Scalar.text.inj h) (by decide)⟩
  | history o x xs =>
    refine ⟨{ s with history := some (x :: xs) }, ?_, rfl, rfl, rfl, fun h => absurd rfl h,
      fun _ => ⟨x, xs, rfl, items?_phrases o (x :: xs)⟩⟩
    have hstep : Skill.addField Agent.hub (s, [])
        (.text provenanceKey, .seq o ((x :: xs).map Value.phrase)) =
          (provenance (.seq o ((x :: xs).map Value.phrase))).map
            fun history => ({ s with history := history }, []) := rfl
    rw [hstep, provenance_seq]
    rfl
  | blocks o h => exact absurd rfl hne

/-- Reading such fields one by one gives what they tell. -/
theorem foldlM_entries {fields : Mapping} (hd : fields.Distinct)
    (he : ∀ e ∈ fields, SkillEntry e) (hne : ∀ e ∈ fields, e.1 ≠ .text sectionKey) (s : Shared) :
    ∃ s', fields.foldlM (Skill.addField Agent.hub) (s, []) = .ok (s', []) ∧
      s'.name = s.name ∧ s'.description = s.description ∧
      s'.invocation = (match Mapping.get? fields (.text invocationKey) with
        | some v => v.bool?.map (!·)
        | none => s.invocation) ∧
      (match Mapping.get? fields (.text provenanceKey) with
        | some v => ∃ x xs, s'.history = some (x :: xs) ∧
            v.items? = some ((x :: xs).map Value.phrase)
        | none => s'.history = s.history) := by
  induction fields generalizing s with
  | nil => exact ⟨s, rfl, rfl, rfl, rfl, rfl⟩
  | cons e fields ih =>
    obtain ⟨hfirst, hrest⟩ := Mapping.Distinct.cons_iff.mp hd
    obtain ⟨s₁, hstep, hname₁, hdesc₁, hinv₁, hkeep₁, htold₁⟩ :=
      addField_entry (he e (by simp)) (hne e (by simp)) s
    obtain ⟨s₂, hfold, hname₂, hdesc₂, hinv₂, hhist₂⟩ :=
      ih hrest (fun f hf => he f (List.mem_cons_of_mem _ hf))
        (fun f hf => hne f (List.mem_cons_of_mem _ hf)) s₁
    -- A key that was read does not come again.
    have hgone : ∀ t, e.1 = .text t → Mapping.get? fields (.text t) = none := by
      intro t ht
      refine Mapping.get?_eq_none_iff.mpr fun f hf => Bool.eq_false_iff.mpr fun hs => ?_
      have hfe := hfirst f hf
      rw [ht, (Scalar.same_text_iff t f.1).mp hs] at hfe
      simp at hfe
    refine ⟨s₂, ?_, hname₂.trans hname₁, hdesc₂.trans hdesc₁, ?_, ?_⟩
    · rw [List.foldlM_cons, hstep]
      exact hfold
    · rw [Mapping.get?_cons]
      by_cases hk : e.1 = .text invocationKey
      · rw [hgone _ hk] at hinv₂
        simp only [hk, Scalar.same_text_text, beq_self_eq_true, if_true]
        rw [hinv₂, hinv₁, if_pos hk]
      · have hs : e.1.same (.text invocationKey) = false :=
          Bool.eq_false_iff.mpr fun h => hk ((Scalar.same_text_iff _ _).mp h)
        rw [hs, if_neg Bool.false_ne_true, hinv₂, hinv₁, if_neg hk]
    · rw [Mapping.get?_cons]
      by_cases hk : e.1 = .text provenanceKey
      · rw [hgone _ hk] at hhist₂
        simp only [hk, Scalar.same_text_text, beq_self_eq_true, if_true]
        rw [hhist₂]
        exact htold₁ hk
      · have hs : e.1.same (.text provenanceKey) = false :=
          Bool.eq_false_iff.mpr fun h => hk ((Scalar.same_text_iff _ _).mp h)
        rw [hs, if_neg Bool.false_ne_true, ← hkeep₁ hk]
        exact hhist₂

/-- A value that is told is not null. -/
theorem get?_told {fields : Mapping} (he : ∀ e ∈ fields, SkillEntry e) (key : String) :
    Mapping.get? fields (.text key) =
      if (Mapping.field fields key).isNull then none else some (Mapping.field fields key) := by
  cases hget : Mapping.get? fields (.text key) with
  | none => simp [Mapping.field, hget, Value.isNull]
  | some v =>
    have hnull : v.isNull = false := (entry_of_get? he hget).not_null
    simp [Mapping.field, hget, hnull]

/-- Reading a document of the hub gives what it tells, and no extras. -/
theorem split_entries {fields : Mapping} (hd : fields.Distinct)
    (he : ∀ e ∈ fields, SkillEntry e) :
    ∃ s, Skill.split Agent.hub (Mapping.without fields sectionKey) = .ok (s, []) ∧
      Tells fields s ∧ s.history ≠ some [] := by
  have hne : ∀ e ∈ Mapping.without fields sectionKey, e.1 ≠ .text sectionKey := by
    intro e hmem hk
    have hs := (List.mem_filter.mp hmem).2
    rw [hk] at hs
    simp at hs
  obtain ⟨s, hfold, hname, hdescription, hinvocation, hhistory⟩ :=
    foldlM_entries (hd.filter _) (fun e hmem => he e (List.mem_filter.mp hmem).1) hne
      { Shared.none with
          name := Mapping.field (Mapping.without fields sectionKey) nameKey
          description := Mapping.field (Mapping.without fields sectionKey) descriptionKey }
  have hown : ∀ key, key ≠ sectionKey →
      Mapping.get? (Mapping.without fields sectionKey) (.text key) =
        Mapping.get? fields (.text key) := by
    intro key hkey
    rw [Mapping.get?_without, if_neg (by simpa using hkey)]
  rw [← Mapping.without, hown _ (by decide)] at hinvocation hhistory
  simp only [Mapping.field, hown _ (show nameKey ≠ sectionKey by decide),
    hown _ (show descriptionKey ≠ sectionKey by decide)] at hname hdescription
  refine ⟨s, hfold, ⟨?_, ?_, ?_, ?_⟩, ?_⟩
  · rw [hname]
    exact get?_told he nameKey
  · rw [hdescription]
    exact get?_told he descriptionKey
  · cases hget : Mapping.get? fields (.text invocationKey) with
    | none => rw [hget] at hinvocation; rw [hinvocation]; rfl
    | some v =>
      rw [hget] at hinvocation
      obtain ⟨b, rfl⟩ := (entry_of_get? he hget).bool rfl
      rw [hinvocation]
      simp [Value.bool?]
  · cases hget : Mapping.get? fields (.text provenanceKey) with
    | none => rw [hget] at hhistory; rw [hhistory]; rfl
    | some v =>
      rw [hget] at hhistory
      obtain ⟨x, xs, hs, hitems⟩ := hhistory
      rw [hs, Option.map_some, hitems, Option.map_some]
  · cases hget : Mapping.get? fields (.text provenanceKey) with
    | none => rw [hget] at hhistory; simp [hhistory, Shared.none]
    | some v =>
      rw [hget] at hhistory
      obtain ⟨x, xs, hs, -⟩ := hhistory
      simp [hs]

/-- The same for a command, whose description is a text. -/
theorem sharedOf_entries {fields : Mapping} (he : ∀ e ∈ fields, CommandEntry e) :
    ∃ s, Command.sharedOf (Mapping.without fields sectionKey) = .ok s ∧ Tells fields s := by
  have hskill : ∀ e ∈ fields, SkillEntry e := fun e hmem => (he e hmem).toSkill
  have hown : ∀ key, key ≠ sectionKey →
      Mapping.field (Mapping.without fields sectionKey) key = Mapping.field fields key := by
    intro key hkey
    rw [Mapping.field, Mapping.get?_without, if_neg (by simpa using hkey), ← Mapping.field]
  have hnone : ∀ key, key = nameKey ∨ key = invocationKey →
      Mapping.get? fields (.text key) = none := by
    intro key hkey
    refine Mapping.get?_eq_none_iff.mpr (Neutral.lacks_of_ne fun e hmem => ?_)
    have hentry := he e hmem
    rcases hkey with rfl | rfl
    · cases hentry <;> exact fun h => absurd (Scalar.text.inj h) (by decide)
    · cases hentry <;> exact fun h => absurd (Scalar.text.inj h) (by decide)
  have hdescription : (Mapping.field fields descriptionKey).asText =
      .ok (Mapping.field fields descriptionKey) := by
    cases hget : Mapping.get? fields (.text descriptionKey) with
    | none => rw [Mapping.field, hget]; rfl
    | some v =>
      obtain ⟨k, hmem, hs⟩ := Mapping.mem_of_get? hget
      rw [Mapping.field, hget, Option.getD_some]
      rw [(Scalar.same_text_iff _ _).mp hs] at hmem
      obtain ⟨t, rfl⟩ := (he _ hmem).text rfl
      exact asText_phrase t
  have hhistory : ∃ history, provenance (Mapping.field fields provenanceKey) = .ok history ∧
      (Mapping.get? fields (.text provenanceKey)).map Value.items? =
        history.map fun hs => some (hs.map Value.phrase) := by
    cases hget : Mapping.get? fields (.text provenanceKey) with
    | none => exact ⟨none, by rw [Mapping.field, hget]; rfl, rfl⟩
    | some v =>
      obtain ⟨o, x, xs, rfl⟩ := (entry_of_get? hskill hget).list rfl
      refine ⟨some (x :: xs), ?_, ?_⟩
      · rw [Mapping.field, hget, Option.getD_some]
        exact provenance_seq o x xs
      · rw [Option.map_some, items?_phrases, Option.map_some]
  obtain ⟨history, hprov, htold⟩ := hhistory
  refine ⟨{ Shared.none with
      description := Mapping.field fields descriptionKey, history := history }, ?_, ?_⟩
  · rw [Command.sharedOf, hown _ (by decide), hown _ (by decide), hdescription, hprov]
    rfl
  · exact ⟨hnone _ (Or.inl rfl), get?_told hskill descriptionKey, hnone _ (Or.inr rfl), htold⟩

theorem extrasOf_entries {fields : Mapping} (he : ∀ e ∈ fields, CommandEntry e) :
    Command.extrasOf (Mapping.without fields sectionKey) = [] := by
  simp only [Command.extrasOf, Mapping.without, List.filter_filter]
  refine List.filter_eq_nil_iff.mpr fun e hmem => ?_
  have hentry := he e hmem
  cases hentry with
  | description t =>
    have hk : (Scalar.text descriptionKey).same (.text descriptionKey) = true := by decide
    simp [hk]
  | history o x xs =>
    have hk : (Scalar.text provenanceKey).same (.text provenanceKey) = true := by decide
    simp [hk]
  | blocks o h =>
    have hk : (Scalar.text sectionKey).same (.text sectionKey) = true := by decide
    simp [hk]

/-! ## The document that is written again -/

/-- Beside its section, the document tells what it told. -/
theorem get?_told_again {old : Mapping} {s : Shared} (he : ∀ e ∈ old, SkillEntry e)
    (hold : Tells old s) (hh : s.history ≠ some []) {key : Scalar}
    (hp : key ≠ .text provenanceKey) (hs : key ≠ .text sectionKey) :
    Mapping.get? (hubFields s) key = Mapping.get? old key := by
  have hnew := tells_hubFields s hh
  by_cases hn : key = .text nameKey
  · rw [hn, hnew.name, hold.name]
  by_cases hd : key = .text descriptionKey
  · rw [hd, hnew.description, hold.description]
  by_cases hi : key = .text invocationKey
  · rw [hi, hnew.invocation, hold.invocation]
  -- No other key is there before or after.
  rw [get?_hubFields_of_ne s (by simp [Neutral.hubKeys, hn, hd, hi, hp]), eq_comm,
    Mapping.get?_eq_none_iff]
  intro e hmem
  refine Bool.eq_false_iff.mpr fun hsame => ?_
  rcases (he e hmem).key with hk | ⟨t, ht, hk⟩
  · rw [hk] at hsame
    exact hs ((Scalar.same_text_iff' _ _).mp hsame)
  · rw [hk] at hsame
    have hkey := (Scalar.same_text_iff' _ _).mp hsame
    simp only [Neutral.hubKeys, List.mem_cons, List.not_mem_nil, or_false] at ht
    rcases ht with rfl | rfl | rfl | rfl
    · exact hn hkey
    · exact hd hkey
    · exact hi hkey
    · exact hp hkey

theorem get?_section_addSection {a : Agent} (ha : a ∈ Agent.spokes) (extras existing : Mapping)
    {fields : Mapping} (h : fields.Lacks (.text sectionKey)) :
    Mapping.get? (addSection (some a.name) extras existing fields) (.text sectionKey) =
      if keptBlocks a extras (sectionOf existing) = [] then none
      else some (.map (sectionOrigin (sectionOf existing))
        (keptBlocks a extras (sectionOf existing))) := by
  simp only [addSection, updated_spoke ha, Value.truthy]
  by_cases hk : keptBlocks a extras (sectionOf existing) = []
  · simp [hk, Mapping.get?_eq_none_iff.mpr h]
  · simp [hk, Mapping.get?_set_same]

/-- A document is unchanged when its section is, and what stands beside it is told
again. -/
theorem unchanged_of_section {a : Agent} {old new : Mapping} {s : Shared}
    (he : ∀ e ∈ old, SkillEntry e) (hold : Tells old s) (hh : s.history ≠ some [])
    (hnew : ∀ key : Scalar, key ≠ .text sectionKey →
      Mapping.get? new key = Mapping.get? (hubFields s) key)
    (hsection : Mapping.get? new (.text sectionKey) = Mapping.get? old (.text sectionKey)) :
    Unchanged a old new := by
  have hsame : sectionOf new = sectionOf old := by
    rw [sectionOf, Mapping.field, hsection, ← Mapping.field, ← sectionOf]
  refine ⟨fun key hp hs => ?_, ?_, ?_, by rw [hsame], fun key _ => by rw [hsame], by rw [hsame],
    ?_⟩
  · rw [hnew key hs, get?_told_again he hold hh hp hs]
  · rw [hnew _ (by decide), (tells_hubFields s hh).history, hold.history]
  · rw [Mapping.contains, hsection, ← Mapping.contains]
  · rw [block_eq, block_eq, hsame]
    exact List.Perm.refl _

/-- The extras that were read from a document, written back to it, leave it
unchanged. -/
theorem unchanged_addSection {a : Agent} (ha : a ∈ Agent.spokes) {old extras : Mapping}
    {s : Shared} (he : ∀ e ∈ old, SkillEntry e) (hold : Tells old s) (hh : s.history ≠ some [])
    (hx : Mapping.Alike extras (block a.name old)) (hfull : ∀ e ∈ extras, e.2.isNull = false) :
    Unchanged a old (addSection (some a.name) extras old (hubFields s)) := by
  have hlacks : (hubFields s).Lacks (.text sectionKey) := Neutral.hubFields_lacks s
  have hclean : extras.clean = extras := Mapping.clean_eq_self hfull
  have hnew : ∀ key : Scalar, key ≠ .text sectionKey →
      Mapping.get? (addSection (some a.name) extras old (hubFields s)) key =
        Mapping.get? (hubFields s) key := fun key hs => get?_addSection _ _ _ _ hs
  by_cases hnil : extras = []
  · -- Without extras the section is written as it was kept.
    refine unchanged_of_section he hold hh hnew ?_
    rw [get?_section_addSection ha _ _ hlacks, keptBlocks, hclean, if_pos hnil]
    cases hget : Mapping.get? old (.text sectionKey) with
    | none => rw [sectionOf, Mapping.field, hget]; rfl
    | some v =>
      obtain ⟨o, m, rfl, hm⟩ := (entry_of_get? he hget).map rfl
      rw [sectionOf, Mapping.field, hget, Option.getD_some]
      exact if_neg hm
  · -- With extras there was a block, so there is a section.
    have hblock : block a.name old ≠ [] := fun h => hnil (List.perm_nil.mp (h ▸ hx))
    obtain ⟨v, hv⟩ : ∃ v, Mapping.get? (rawBlocks (sectionOf old)) (.text a.name) = some v := by
      rw [← Option.isSome_iff_exists, Option.isSome_iff_ne_none]
      intro h
      rw [block_eq, h] at hblock
      exact hblock rfl
    have hkept : keptBlocks a extras (sectionOf old) =
        Mapping.set (rawBlocks (sectionOf old)) (.text a.name) (Value.mapping extras) := by
      rw [keptBlocks, hclean, if_neg hnil]
    have hsection : sectionOf (addSection (some a.name) extras old (hubFields s)) =
        .map (sectionOrigin (sectionOf old))
          (Mapping.set (rawBlocks (sectionOf old)) (.text a.name) (Value.mapping extras)) := by
      rw [sectionOf_addSection ha _ _ hlacks, hkept, if_neg (Mapping.set_ne_nil _ _ _)]
    refine ⟨fun key hp hs => ?_, ?_, ?_, ?_, fun key hkey => ?_, ?_, ?_⟩
    · rw [hnew key hs, get?_told_again he hold hh hp hs]
    · rw [hnew _ (by decide), (tells_hubFields s hh).history, hold.history]
    · have hpresent : Mapping.contains old (.text sectionKey) = true := by
        rw [Mapping.contains, Option.isSome_iff_ne_none]
        intro h
        rw [sectionOf, Mapping.field, h] at hv
        cases hv
      rw [hpresent, Mapping.contains, get?_section_addSection ha _ _ hlacks, hkept,
        if_neg (Mapping.set_ne_nil _ _ _)]
      rfl
    · rw [hsection]; rfl
    · rw [hsection]
      exact (Mapping.get?_set_text _ _ _ _).trans (if_neg hkey)
    · rw [hsection, Mapping.contains, Mapping.contains, hv, rawBlocks, Mapping.get?_set_same]
      rfl
    · rw [block_addSection ha hlacks (by rwa [hclean]) fun hnode => ?_, hclean]
      · exact hx
      · -- The block that was read has no loop into the section.
        have hsealed : Value.sealedEntries (sectionOrigin (sectionOf old))
          (block a.name old) = true := sealed_block hnode
        rw [Value.sealedEntries_iff] at hsealed
        exact Value.sealedEntries_iff.mpr fun e hmem => hsealed e (hx.mem_iff.mp hmem)

/-! ## Both ways -/

/-- What is read of the hub's skill for a spoke: what it tells, and the block of the
spoke. -/
theorem read_skill {a : Agent} (ha : a ∈ Agent.spokes) {s : Skill} (hd : s.fields.Distinct)
    (he : ∀ e ∈ s.fields, SkillEntry e) (hb : PlainBlock a.name s.fields) :
    ∃ n, Skill.toNeutral Agent.hub (some a.name) s = .ok n ∧ Tells s.fields n.shared ∧
      n.shared.history ≠ some [] ∧ n.extras = block a.name s.fields := by
  obtain ⟨shared, hsplit, htells, hh⟩ := split_entries hd he
  have hread := Skill.toNeutral_of_split (a := Agent.hub) (s := s) (some a.name)
    (by rw [if_pos rfl]; exact hsplit)
  refine ⟨_, hread, htells, hh, ?_⟩
  simp only [Skill.extrasWith, if_true, extrasFor_spoke ha,
    Mapping.merge_nil_of_distinct hb.plain.distinct]

theorem read_command {a : Agent} (ha : a ∈ Agent.spokes) {fields : Mapping}
    (he : ∀ e ∈ fields, CommandEntry e) (hb : PlainBlock a.name fields) (content path : String) :
    ∃ n, Command.toNeutral Agent.hub (some a.name) (.markdown fields content path) = .ok n ∧
      Tells fields n.shared ∧ n.extras = block a.name fields := by
  obtain ⟨shared, hs, htells⟩ := sharedOf_entries he
  refine ⟨⟨.command, bodyOf Agent.hub content, shared, extrasFor (some a.name) fields [],
    ⟨path, some Agent.hub.name, none, .null⟩⟩, ?_, htells, ?_⟩
  · simp only [Command.toNeutral, if_true, Command.neutralOf, hs, extrasOf_entries he]
    rfl
  · rw [extrasFor_spoke ha, Mapping.merge_nil_of_distinct hb.plain.distinct]

theorem PlainBlock.lacks {agent : String} {fields : Mapping} (h : PlainBlock agent fields)
    {key : String} (hk : key ∈ reservedNames) :
    (block agent fields).Lacks (.text key) :=
  Neutral.lacks_of_ne fun e he hkey => by
    have hplain := h.plain.plain e he
    rw [hkey] at hplain
    exact hplain.1 hk

/-- What a command tells is all that the hub writes of it beside the section. -/
theorem commandBase_eq_hubFields {i : Import} (h : Command.Told i.neutral.shared) :
    commandBase i = hubFields i.neutral.shared := by
  have hname : optionalField nameKey .null = [] := rfl
  have hinvocation : invocationField Agent.hub none = [] := rfl
  rw [commandBase_eq, hubFields, Neutral.leadingFields, h.name, h.invocation, hname, hinvocation,
    List.nil_append, List.append_nil]

/-- A document of the hub that is applied to a spoke and imported straight back is
unchanged: every spoke that has fields gives a command back, and every spoke a skill. -/
theorem unchanged_by_apply_and_import {a : Agent} (ha : a ∈ Agent.spokes) :
    (a ≠ .cursor → ∀ (fields : Mapping) (content path : String),
      (∀ e ∈ fields, CommandEntry e) → PlainBlock a.name fields →
      ∃ c c', Command.hop Agent.hub a ⟨false, []⟩ (.markdown fields content path) = .ok c ∧
        Command.hop a Agent.hub ⟨false, fields⟩ c = .ok c' ∧ Unchanged a fields c'.fields) ∧
    (∀ s : Skill, s.fields.Distinct → (∀ e ∈ s.fields, SkillEntry e) →
      PlainBlock a.name s.fields →
      ∃ t t', Skill.hop Agent.hub a ⟨false, []⟩ s = .ok t ∧
        Skill.hop a Agent.hub ⟨false, s.fields⟩ t = .ok t' ∧ Unchanged a s.fields t'.fields) := by
  have hne := ne_hub_of_spoke ha
  constructor
  · intro hc fields content path he hb
    obtain ⟨n, hn, htells, hextras⟩ := read_command ha he hb content path
    have htold := Command.told_of_toNeutral hn
    obtain ⟨m, hm, hshared, hmx, hagent⟩ := Neutral.plain_command_read_written hne hc htold
      (hextras ▸ hb.plain.distinct) (hextras ▸ hb.lacks (by decide))
      (hextras ▸ hb.lacks (by decide)) (hextras ▸ hb.prompt) [] (some Agent.hub.name)
    refine ⟨_, _, Command.hop_of_ok hn, Command.hop_of_ok hm, ?_⟩
    -- The hub writes what the command told and the block it gave back.
    have hfields : (m.toCommand Agent.hub ⟨false, fields⟩).fields =
        addSection (some a.name) (block a.name fields) fields (hubFields n.shared) := by
      have hput : (m.toCommand Agent.hub ⟨false, fields⟩).fields =
          put commandBase fields ⟨a, false, m⟩ := rfl
      have hbase := commandBase_eq_hubFields (i := ⟨a, false, m⟩) (hshared ▸ htold)
      rw [hput, put, hagent, hbase]
      simp only [hmx, hextras, hshared]
    rw [hfields]
    exact unchanged_addSection ha (fun e hmem => (he e hmem).toSkill) htells htold.history
      (List.Perm.refl _) hb.full
  · intro s hd he hb
    obtain ⟨n, hn, htells, hh, hextras⟩ := read_skill ha hd he hb
    obtain ⟨m, hm, hshared, hmx, hagent⟩ := Neutral.plain_read_written hne
      (hextras ▸ hb.plain) (hextras ▸ hb.full) hh [] (some Agent.hub.name)
    rw [hextras] at hmx
    refine ⟨_, _, Skill.hop_of_ok hn, Skill.hop_of_ok hm, ?_⟩
    have hfree : FreeExtras m.extras := fun e hmem =>
      FreeName.of_plain (hb.plain.plain e (hmx.mem_iff.mp hmem))
    have hfields := Neutral.fields_toSkill_hub_free hfree ⟨false, s.fields⟩
    rw [hagent, hshared] at hfields
    rw [hfields]
    exact unchanged_addSection ha he htells hh hmx fun e hmem => hb.full e (hmx.mem_iff.mp hmem)

/-- A document with a history and blocks of two agents. -/
def reviewFields : Mapping :=
  [(.text provenanceKey, .seq .inlineTable [.text "claude"]),
    (.text sectionKey, .map .own
      [(.text "codex", Value.mapping
          [(.text "interface", Value.mapping []), (.text "model", .text "opus")]),
        (.text "gemini", .int 1)])]

theorem command_reviewFields : ∀ e ∈ reviewFields, CommandEntry e := by
  intro e he
  simp only [reviewFields, List.mem_cons, List.not_mem_nil, or_false] at he
  rcases he with rfl | rfl
  · exact .history .inlineTable "claude" []
  · exact .blocks .own (List.cons_ne_nil _ _)

theorem plainBlock_reviewFields : PlainBlock "codex" reviewFields where
  plain :=
    { distinct := by unfold Mapping.Distinct; decide
      plain := by
        intro e he
        have hblock : block "codex" reviewFields =
            [(.text "interface", Value.mapping []), (.text "model", .text "opus")] := by rfl
        simp only [hblock, List.mem_cons, List.not_mem_nil, or_false] at he
        rcases he with rfl | rfl
        · exact ⟨by decide, by decide⟩
        · exact ⟨by decide, by decide⟩ }
  full := by decide
  prompt := by unfold Mapping.Lacks; decide

/-- The block of the agent that keeps a configuration comes back, as a command's and as a
skill's. -/
theorem review_unchanged :
    (∃ c c', Command.hop Agent.hub .codex ⟨false, []⟩ (.markdown reviewFields "x" "x.md") =
        .ok c ∧
      Command.hop .codex Agent.hub ⟨false, reviewFields⟩ c = .ok c' ∧
      Unchanged .codex reviewFields c'.fields) ∧
    ∃ t t', Skill.hop Agent.hub .codex ⟨false, []⟩
        ⟨.text "review", "x", "skills/review", [], reviewFields, none⟩ = .ok t ∧
      Skill.hop .codex Agent.hub ⟨false, reviewFields⟩ t = .ok t' ∧
      Unchanged .codex reviewFields t'.fields := by
  have h := unchanged_by_apply_and_import (a := .codex) (by decide)
  exact ⟨h.1 (by decide) reviewFields "x" "x.md" command_reviewFields plainBlock_reviewFields,
    h.2 ⟨.text "review", "x", "skills/review", [], reviewFields, none⟩
      (by unfold Mapping.Distinct; decide) (fun e he => (command_reviewFields e he).toSkill)
      plainBlock_reviewFields⟩

end AgentRelay.Hub
