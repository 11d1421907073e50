import AgentRelay.Proofs.Hub.Return

/-
  A command that goes to another agent and comes straight back.

  What a command tells besides its text is its description, its history and extras
  (`read_whole`). Every agent with fields gives the three back, the hub out of the
  block of the command's agent (`given_back`). Written for the first agent again
  they are the fields the command had (`others_written`), so it comes back with its
  description and all of its other fields (`returns_with_fields`).
-/

namespace AgentRelay

/-- One agent alone keeps commands without fields. -/
theorem Agent.eq_cursor_of_plain {a : Agent} (h : a.format = .plain) : a = .cursor := by
  cases a <;> first | rfl | cases h

namespace Command

/-! ## Commands that lose nothing -/

/-- The command has the form in which an agent keeps its commands. -/
def HasForm (a : Agent) : Command → Prop
  | markdown _ _ _ => a.format = .markdown
  | table _ _ _ _ => a.format = .table
  | plain _ _ => a.format = .plain

/-- The description of a command, wherever its form keeps it. -/
def description : Command → Value
  | markdown fields _ _ => Mapping.field fields descriptionKey
  | table _ d _ _ => d
  | plain _ _ => .null

/-- A command of an agent with values that every other agent can keep. -/
structure Whole (a : Agent) (c : Command) : Prop where
  form : c.HasForm a
  distinct : c.otherFields.Distinct
  description : c.description = .null ∨ ∃ p, c.description = .phrase p
  history : Mapping.get? c.otherFields (.text provenanceKey) = none ∨ ∃ o x xs,
    Mapping.get? c.otherFields (.text provenanceKey) =
      some (.seq o ((x :: xs).map Value.phrase))
  prompt : c.otherFields.Lacks (.text promptKey)
  full : ∀ e ∈ c.otherFields, e.2.isNull = false
  /-- A table has its description in a place of its own. -/
  apart : a.format = .table → c.otherFields.Lacks (.text descriptionKey)

/-- Two commands have the same fields but for their order, and for where the list of a
history came from. -/
structure SameFields (old new : Command) : Prop where
  description : new.description = old.description
  history : (Mapping.get? new.otherFields (.text provenanceKey)).map Value.items? =
    (Mapping.get? old.otherFields (.text provenanceKey)).map Value.items?
  others : Mapping.Alike (Mapping.without new.otherFields provenanceKey)
    (Mapping.without old.otherFields provenanceKey)

variable {a b : Agent} {c : Command}

theorem Whole.asText_description (h : c.Whole a) :
    c.description.asText = .ok c.description := by
  rcases h.description with hd | ⟨p, hd⟩
  · rw [hd]; rfl
  · rw [hd, Hub.asText_phrase]

/-- The history a whole command tells. -/
theorem Whole.provenance_history (h : c.Whole a) :
    ∃ history, provenance (Mapping.field c.otherFields provenanceKey) = .ok history ∧
      (Mapping.get? c.otherFields (.text provenanceKey)).map Value.items? =
        history.map fun hs => some (hs.map Value.phrase) := by
  rcases h.history with hp | ⟨o, x, xs, hp⟩
  · exact ⟨none, by rw [Mapping.field, hp]; rfl, by rw [hp]; rfl⟩
  · refine ⟨some (x :: xs), ?_, ?_⟩
    · rw [Mapping.field, hp, Option.getD_some, Hub.provenance_seq]
    · rw [hp, Option.map_some, Option.map_some, Hub.items?_phrases]

/-! ## Reading -/

theorem distinct_extrasOf {fields : Mapping} (h : fields.Distinct) :
    (extrasOf fields).Distinct :=
  (h.filter _).filter _

theorem mem_of_mem_extrasOf {fields : Mapping} {e : Scalar × Value} (h : e ∈ extrasOf fields) :
    e ∈ fields :=
  (List.mem_filter.mp (List.mem_filter.mp h).1).1

theorem extrasOf_lacks_description (fields : Mapping) :
    (extrasOf fields).Lacks (.text descriptionKey) := by
  intro e he
  have hkey := (List.mem_filter.mp (List.mem_filter.mp he).1).2
  simpa using hkey

theorem extrasOf_lacks_provenance (fields : Mapping) :
    (extrasOf fields).Lacks (.text provenanceKey) := by
  intro e he
  have hkey := (List.mem_filter.mp he).2
  simpa using hkey

/-- A whole command tells its description, its history and all its other fields. -/
theorem read_whole (hb : a ≠ Agent.hub) (hc : a ≠ .cursor) (h : c.Whole a) (d : Option String) :
    ∃ n, toNeutral a d c = .ok n ∧ n.shared.description = c.description ∧
      (Mapping.get? c.otherFields (.text provenanceKey)).map Value.items? =
        n.shared.history.map (fun hs => some (hs.map Value.phrase)) ∧
      n.extras = extrasOf c.otherFields ∧ n.background.agent = some a.name := by
  obtain ⟨history, hprov, hitems⟩ := h.provenance_history
  -- Whatever the form, the same is read from the fields of it.
  have hread : ∀ {fields : Mapping} {content path : String},
      toNeutral a d c = neutralOf a fields content path →
      Mapping.field fields descriptionKey = c.description →
      Mapping.field fields provenanceKey = Mapping.field c.otherFields provenanceKey →
      extrasOf fields = extrasOf c.otherFields →
      ∃ n, toNeutral a d c = .ok n ∧ n.shared.description = c.description ∧
        (Mapping.get? c.otherFields (.text provenanceKey)).map Value.items? =
          n.shared.history.map (fun hs => some (hs.map Value.phrase)) ∧
        n.extras = extrasOf c.otherFields ∧ n.background.agent = some a.name := by
    intro fields content path hto hd hp hx
    have hshared : sharedOf fields = .ok { Shared.none with
        description := c.description, history := history } := by
      rw [sharedOf, hd, h.asText_description, hp, hprov]
      rfl
    obtain ⟨n, hn, hs, hextras, hagent⟩ := neutralOf_of_sharedOf hshared a content path
    exact ⟨n, hto.trans hn, by rw [hs], by rw [hs, hitems], hextras.trans hx, hagent⟩
  cases c with
  | markdown fields content path => exact hread (by rw [toNeutral, if_neg hb]) rfl rfl rfl
  | table prompt description fields path =>
    have hlacks : fields.Lacks (.text descriptionKey) := h.apart h.form
    have hfields : withDescription description fields =
        fields ++ Neutral.optionalField descriptionKey description :=
      Neutral.addField_of_lacks hlacks _
    have hempty : Mapping.Lacks [] (.text descriptionKey) :=
      fun _ he => absurd he List.not_mem_nil
    have hlast : Mapping.get? (Neutral.optionalField descriptionKey description)
        (.text provenanceKey) = none :=
      Mapping.get?_eq_none_iff.mpr fun e he => by rw [Neutral.key_of_mem_optionalField he]; decide
    refine hread rfl ?_ ?_ ?_
    · rw [hfields, Skill.field_append_of_lacks hlacks,
        ← List.append_nil (Neutral.optionalField descriptionKey description)]
      exact Skill.field_optionalField_append _ _ hempty
    · rw [hfields, Mapping.field, Mapping.get?_append, hlast, Option.or_none]
      rfl
    · rw [hfields, extrasOf_append, extrasOf_description, List.append_nil]
      rfl
  | plain content path => exact absurd (Agent.eq_cursor_of_plain h.form) hc

end Command

namespace Neutral

variable {a b : Agent} {n : Neutral}

/-! ## There -/

/-- What an agent can keep of any command: extras with values, none of them with a name
that a form of a command has a place for. -/
structure Kept (extras : Mapping) : Prop where
  distinct : extras.Distinct
  description : extras.Lacks (.text descriptionKey)
  provenance : extras.Lacks (.text provenanceKey)
  prompt : extras.Lacks (.text promptKey)
  full : ∀ e ∈ extras, e.2.isNull = false

theorem Kept.of_whole {c : Command} (h : c.Whole a) : Kept (Command.extrasOf c.otherFields) where
  distinct := Command.distinct_extrasOf h.distinct
  description := Command.extrasOf_lacks_description _
  provenance := Command.extrasOf_lacks_provenance _
  prompt := fun e he => h.prompt e (Command.mem_of_mem_extrasOf he)
  full := fun e he => h.full e (Command.mem_of_mem_extrasOf he)

/-- Every agent with fields gives the command's agent back what the command told. -/
theorem given_back (ha : a ∈ Agent.spokes) (hc : b ≠ .cursor) (hs : Command.Told n.shared)
    (hx : Kept n.extras) (hagent : n.background.agent = some a.name) :
    ∃ m, Command.toNeutral b (some a.name) (n.toCommand b ⟨false, []⟩) = .ok m ∧
      m.shared = n.shared ∧ m.extras = n.extras := by
  by_cases hb : b = Agent.hub
  · subst hb
    -- The hub has the extras in the block of the command's agent.
    have hread := Hub.toNeutral_put_command ⟨a, false, n⟩ [] (some a.name)
      (bodyText Agent.hub n.body) (n.commandPath Agent.hub)
    rw [hs.description] at hread
    refine ⟨_, hread, ?_, ?_⟩
    · simp only [hs.keptHistory, hs.eq]
    · have hblock : Hub.block a.name (Hub.put Hub.commandBase [] ⟨a, false, n⟩) = n.extras := by
        rw [Hub.put, hagent, Hub.block_addSection_new ha _ (Hub.plain_commandBase _),
          Mapping.clean_eq_self hx.full]
      simp only [Hub.extrasFor_spoke ha, hblock, Mapping.merge_nil_of_distinct hx.distinct]
  · obtain ⟨m, hm, hshared, hextras, -⟩ := plain_command_read_written hb hc hs hx.distinct
      hx.description hx.provenance hx.prompt [] (some a.name)
    exact ⟨m, hm, hshared, hextras⟩

/-! ## And back -/

/-- A command is written with its description in its place, and with all other fields
behind it. -/
theorem others_written (hb : a ≠ Agent.hub) (hc : a ≠ .cursor) (hx : Kept n.extras) :
    (n.toCommand a ⟨false, []⟩).HasForm a ∧
      (n.toCommand a ⟨false, []⟩).description = n.shared.description ∧
      (n.toCommand a ⟨false, []⟩).otherFields =
        (if a.format = .table then [] else optionalField descriptionKey n.shared.description) ++
          n.extras ++ historyField n.shared.history := by
  have hfields := commandFields_of_added (addCommandExtras_of_plain (a := a) hx.distinct
    hx.prompt fun e he => optionalField_lacks_of_lacks hx.description he) hx.provenance
  have hfield : Mapping.field (n.commandFields a false) descriptionKey =
      n.shared.description := by
    rw [hfields, List.append_assoc]
    exact Skill.field_optionalField_append _ _ (lacks_append_history hx.description _)
  cases hf : a.format with
  | plain => exact absurd (Agent.eq_cursor_of_plain hf) hc
  | markdown =>
    have hcommand : n.toCommand a ⟨false, []⟩ = .markdown (n.commandFields a false)
        (bodyText a n.body) (n.commandPath a) := by
      simp [toCommand, hf, hb]
    rw [hcommand]
    exact ⟨hf, hfield, by simp only [Command.otherFields, hfields, reduceCtorEq, if_false]⟩
  | table =>
    have hcommand : n.toCommand a ⟨false, []⟩ = .table (bodyText a n.body) n.shared.description
        (n.extras ++ historyField n.shared.history) (n.commandPath a) := by
      simp only [toCommand, hf, hfield]
      rw [hfields, without_prompt_description hx.description, Hub.without_of_lacks hx.prompt]
    rw [hcommand]
    exact ⟨hf, rfl, by simp only [Command.otherFields, if_true, List.nil_append]⟩

/-- Beside the history stand the description, where the form keeps it there, and the
extras. -/
theorem without_provenance_written {lead extras : Mapping} (hl : lead.Lacks (.text provenanceKey))
    (hx : extras.Lacks (.text provenanceKey)) (history : Option (List Phrase)) :
    Mapping.without (lead ++ extras ++ historyField history) provenanceKey = lead ++ extras := by
  have hhistory : Mapping.without (historyField history) provenanceKey = [] :=
    List.filter_eq_nil_iff.mpr fun e he => by rw [key_of_mem_historyField he]; decide
  rw [Mapping.without_append, Mapping.without_append, Hub.without_of_lacks hl,
    Hub.without_of_lacks hx, hhistory, List.append_nil]

end Neutral

namespace Command

open Neutral (optionalField historyField)

/-- The fields of a command beside its history: its description, where its form keeps it
among them, and the extras. -/
theorem Whole.alike_extrasOf {a : Agent} {c : Command} (h : c.Whole a) (hc : a ≠ .cursor) :
    Mapping.Alike
      ((if a.format = .table then [] else optionalField descriptionKey c.description) ++
        extrasOf c.otherFields)
      (Mapping.without c.otherFields provenanceKey) := by
  have hcomm : extrasOf c.otherFields =
      (Mapping.without c.otherFields provenanceKey).without descriptionKey := by
    simp only [extrasOf, Mapping.without, List.filter_filter, Bool.and_comm]
  by_cases ht : a.format = .table
  · have hlacks : (Mapping.without c.otherFields provenanceKey).Lacks (.text descriptionKey) :=
      fun e he => h.apart ht e (List.mem_filter.mp he).1
    rw [if_pos ht, hcomm, Hub.without_of_lacks hlacks, List.nil_append]
    exact List.Perm.refl _
  · -- The entry of the description is taken out and put in front.
    have hdescription : Mapping.field c.otherFields descriptionKey = c.description := by
      cases c with
      | markdown fields content path => rfl
      | table prompt description fields path => exact absurd h.form ht
      | plain content path => exact absurd (Agent.eq_cursor_of_plain h.form) hc
    have hnull : ∀ v, Mapping.get? c.otherFields (.text descriptionKey) = some v →
        v.isNull = false := by
      intro v hv
      obtain ⟨k, hmem, -⟩ := Mapping.mem_of_get? hv
      exact h.full _ hmem
    have hout : (Mapping.without c.otherFields provenanceKey).filter
        (fun e => e.1.same (.text descriptionKey)) =
          optionalField descriptionKey c.description := by
      have hget : Mapping.get? (Mapping.without c.otherFields provenanceKey)
          (.text descriptionKey) = Mapping.get? c.otherFields (.text descriptionKey) := by
        rw [Mapping.get?_without, if_neg (by decide)]
      have hdistinct : (Mapping.without c.otherFields provenanceKey).Distinct :=
        h.distinct.filter _
      rw [Mapping.filter_text_of_distinct hdistinct, hget, ← hdescription, Mapping.field]
      cases hv : Mapping.get? c.otherFields (.text descriptionKey) with
      | none => rfl
      | some v => simp [optionalField, hnull v hv]
    rw [if_neg ht, hcomm, ← hout]
    exact List.filter_append_perm _ _

/-- A command that goes to another agent with fields, or to the hub, and straight back
has the description and all other fields it had. -/
theorem returns_with_fields {a b : Agent} (ha : a ∈ Agent.spokes) (hca : a ≠ .cursor)
    (hcb : b ≠ .cursor) {c : Command} (h : c.Whole a) :
    ∃ there back, hop a b ⟨false, []⟩ c = .ok there ∧ hop b a ⟨false, []⟩ there = .ok back ∧
      back.HasForm a ∧ SameFields c back := by
  have hne := Hub.ne_hub_of_spoke ha
  obtain ⟨n, hn, hdescription, hhistory, hextras, hagent⟩ := read_whole hne hca h (some b.name)
  have htold := told_of_toNeutral hn
  have hkept : Neutral.Kept n.extras := hextras ▸ Neutral.Kept.of_whole h
  obtain ⟨m, hm, hshared, hmx⟩ := Neutral.given_back ha hcb htold hkept hagent
  obtain ⟨hform, hd, hfields⟩ := Neutral.others_written hne hca (hmx ▸ hkept)
  rw [hshared] at hd
  rw [hshared, hmx] at hfields
  refine ⟨_, _, hop_of_ok hn, hop_of_ok hm, hform, hd.trans hdescription, ?_, ?_⟩
  · have hlead : Mapping.Lacks
        ((if a.format = .table then [] else optionalField descriptionKey n.shared.description) ++
          n.extras) (.text provenanceKey) := by
      split
      · exact hkept.provenance
      · exact Neutral.lacks_description_append hkept.provenance _
    rw [hhistory, hfields, Mapping.get?_append, Mapping.get?_eq_none_iff.mpr hlead,
      Option.none_or]
    exact Hub.get?_historyField htold.history
  · have hlead : Mapping.Lacks
        (if a.format = .table then [] else optionalField descriptionKey n.shared.description)
        (.text provenanceKey) := by
      split
      · exact nofun
      · exact fun e he => by rw [Neutral.key_of_mem_optionalField he]; decide
    rw [hfields, Neutral.without_provenance_written hlead hkept.provenance, hextras, hdescription]
    exact h.alike_extrasOf hca

/-- A command with a description, a history and a field that only some agents know. -/
def reviewCommand : Command :=
  .markdown
    [(.text "model", .text "opus"), (.text descriptionKey, .text "Review"),
      (.text provenanceKey, Value.list [.text "codex"])]
    "Look at $ARGUMENTS" "review.md"

theorem reviewCommand_whole : reviewCommand.Whole .claude where
  form := rfl
  distinct := by unfold Mapping.Distinct; decide
  description := Or.inr ⟨.whole "Review", rfl⟩
  history := Or.inr ⟨.own, "codex", [], rfl⟩
  prompt := by unfold Mapping.Lacks; decide
  full := by decide
  apart := nofun

/-- The command comes back from the hub. -/
theorem review_returns_from_hub :
    reviewCommand.Whole .claude ∧ ∃ there back,
      hop .claude Agent.hub ⟨false, []⟩ reviewCommand = .ok there ∧
      hop Agent.hub .claude ⟨false, []⟩ there = .ok back ∧ back.HasForm .claude ∧
      SameFields reviewCommand back :=
  ⟨reviewCommand_whole, returns_with_fields (by decide) (by decide) (by decide)
    reviewCommand_whole⟩

end Command

end AgentRelay
