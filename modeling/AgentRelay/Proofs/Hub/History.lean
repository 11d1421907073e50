import AgentRelay.Neutral.Command
import AgentRelay.Proofs.Except
import AgentRelay.Proofs.Skill.RoundTrip

/-
  The hub after a run of imports.

  Each import puts one document of a spoke on top of what the hub had, and the
  block of a spoke is the one of its last import with extras
  (`block_putAll_of_extras`). An import without extras leaves the block as it
  was, empty or not (`block_putAll_eq_nil_iff`). So a spoke reads the extras of
  its last import, unless there are none and an older block is still there
  (`reads_last_import_iff`).
-/

namespace AgentRelay

/-- A document of a spoke on its way into the hub. -/
structure Import where
  agent : Agent
  removeForeign : Bool
  neutral : Neutral

/-- The document comes from a spoke, and its extras are a mapping that stands
alone. -/
structure Import.Sound (i : Import) : Prop where
  spoke : i.agent ∈ Agent.spokes
  origin : i.neutral.background.agent = some i.agent.name
  distinct : i.neutral.extras.Distinct
  closed : i.neutral.extras.Sealed

/-- The extras of an import that are not null. -/
def Import.extras (i : Import) : Mapping := i.neutral.extras.clean

namespace Hub

/-! ## Imports on top of each other -/

/-- The hub's command after an import; a command that is not there has no
fields. -/
def importCommand (hub : Option Command) (i : Import) : Option Command :=
  some (i.neutral.toCommand Agent.hub ⟨i.removeForeign, (hub.map Command.fields).getD []⟩)

/-- The hub's skill after an import; a skill that is not there has no fields. -/
def importSkill (hub : Option Skill) (i : Import) : Option Skill :=
  some (i.neutral.toSkill Agent.hub ⟨i.removeForeign, (hub.map Skill.fields).getD []⟩)

/-- The fields of a command besides the section. -/
def commandBase (i : Import) : Mapping :=
  addHistory i.neutral.shared.history (addField descriptionKey i.neutral.shared.description [])

/-- The fields of a skill besides the section. -/
def skillBase (i : Import) : Mapping :=
  (i.neutral.skillFields Agent.hub i.removeForeign).filter fun e =>
    Neutral.hubKeys.any fun k => e.1.same (.text k)

/-- The fields after an import, whatever stands beside the section. -/
def put (base : Import → Mapping) (fields : Mapping) (i : Import) : Mapping :=
  addSection i.neutral.background.agent i.neutral.extras fields (base i)

/-- The fields after a run of imports. -/
def putAll (base : Import → Mapping) (fields : Mapping) (is : List Import) : Mapping :=
  is.foldl (put base) fields

theorem fields_importCommand (hub : Option Command) (i : Import) :
    ((importCommand hub i).map Command.fields).getD [] =
      put commandBase ((hub.map Command.fields).getD []) i := rfl

theorem fields_importSkill (hub : Option Skill) (i : Import) :
    ((importSkill hub i).map Skill.fields).getD [] =
      put skillBase ((hub.map Skill.fields).getD []) i := by
  simp [importSkill, Neutral.toSkill, Neutral.hubSkillFields, put, skillBase]

theorem fields_importCommands (hub : Option Command) (is : List Import) :
    ((is.foldl importCommand hub).map Command.fields).getD [] =
      putAll commandBase ((hub.map Command.fields).getD []) is := by
  induction is generalizing hub with
  | nil => rfl
  | cons i is ih => rw [List.foldl_cons, ih, fields_importCommand]; rfl

theorem fields_importSkills (hub : Option Skill) (is : List Import) :
    ((is.foldl importSkill hub).map Skill.fields).getD [] =
      putAll skillBase ((hub.map Skill.fields).getD []) is := by
  induction is generalizing hub with
  | nil => rfl
  | cons i is ih => rw [List.foldl_cons, ih, fields_importSkill]; rfl

theorem putAll_append (base : Import → Mapping) (fields : Mapping) (is js : List Import) :
    putAll base fields (is ++ js) = putAll base (putAll base fields is) js :=
  List.foldl_append ..

/-! ## The blocks after a run -/

/-- The fields beside the section have no section of their own. -/
def Plain (base : Import → Mapping) : Prop := ∀ i, (base i).Lacks (.text sectionKey)

theorem lacks_addField (key : String) {other : String} {m : Mapping} (hne : key ≠ other)
    (h : m.Lacks (.text other)) (v : Value) : (addField key v m).Lacks (.text other) := by
  unfold addField
  split
  · exact h
  · rw [← Mapping.get?_eq_none_iff] at h ⊢
    rw [Mapping.get?_set_text, if_neg (by simpa using hne.symm), h]

theorem lacks_addHistory {other : String} {m : Mapping} (hne : provenanceKey ≠ other)
    (h : m.Lacks (.text other)) (hs : Option (List Phrase)) :
    (addHistory hs m).Lacks (.text other) := by
  match hs with
  | none => exact h
  | some [] => exact h
  | some (_ :: _) =>
    rw [← Mapping.get?_eq_none_iff] at h ⊢
    rw [addHistory, Mapping.get?_set_text, if_neg (by simpa using hne.symm), h]

theorem plain_commandBase : Plain commandBase := fun _ =>
  lacks_addHistory (by decide)
    (lacks_addField _ (by decide) (fun _ he => absurd he List.not_mem_nil) _) _

theorem plain_skillBase : Plain skillBase := by
  intro i e he
  obtain ⟨k, hk, hs⟩ := List.any_eq_true.mp (List.mem_filter.mp he).2
  rw [(Scalar.same_text_iff k _).mp hs]
  have hall : ∀ k ∈ Neutral.hubKeys, (Scalar.text k).same (.text sectionKey) = false := by decide
  exact hall k hk

variable {base : Import → Mapping} {fields : Mapping}

theorem put_eq {i : Import} (hi : i.Sound) :
    put base fields i = addSection (some i.agent.name) i.neutral.extras fields (base i) := by
  rw [put, hi.origin]

/-- One import of another agent keeps the block of an agent as it is kept. -/
theorem get?_rawBlocks_put (hb : Plain base) {i : Import} (hi : i.Sound) {a : Agent}
    (ha : i.agent ≠ a) :
    Mapping.get? (rawBlocks (sectionOf (put base fields i))) (.text a.name) =
      Mapping.get? (rawBlocks (sectionOf fields)) (.text a.name) := by
  rw [put_eq hi, rawBlocks_addSection hi.spoke _ _ (hb i), keptBlocks]
  split
  · rfl
  · exact Mapping.get?_set_of_ne _ _ _ _ fun hn => ha (name_injective hn).symm

theorem get?_rawBlocks_put_same (hb : Plain base) {i : Import} (hi : i.Sound)
    (hx : i.extras ≠ []) :
    Mapping.get? (rawBlocks (sectionOf (put base fields i))) (.text i.agent.name) =
      some (Value.mapping i.extras) := by
  have hc : i.neutral.extras.clean ≠ [] := hx
  rw [put_eq hi, rawBlocks_addSection hi.spoke _ _ (hb i), keptBlocks, if_neg hc,
    Mapping.get?_set_same, Import.extras]

/-- A run of imports of other agents keeps the block of an agent as it is kept. -/
theorem get?_rawBlocks_putAll (hb : Plain base) {is : List Import} {a : Agent}
    (hi : ∀ i ∈ is, i.Sound) (ha : ∀ i ∈ is, i.agent ≠ a) :
    Mapping.get? (rawBlocks (sectionOf (putAll base fields is))) (.text a.name) =
      Mapping.get? (rawBlocks (sectionOf fields)) (.text a.name) := by
  induction is generalizing fields with
  | nil => rfl
  | cons i is ih =>
    rw [putAll, List.foldl_cons, ← putAll,
      ih (fun j hj => hi j (List.mem_cons_of_mem _ hj))
        (fun j hj => ha j (List.mem_cons_of_mem _ hj)),
      get?_rawBlocks_put hb (hi i (by simp)) (ha i (by simp))]

/-- A closed block is read as it is kept. -/
theorem block_of_kept {a : Agent} {m : Mapping} (hm : m.Sealed)
    (h : Mapping.get? (rawBlocks (sectionOf fields)) (.text a.name) = some (Value.mapping m)) :
    block a.name fields = m := by
  rw [block_eq, h]
  simp only [readBlock]
  split
  · rw [Value.fill_of_sealed, blocks_mapping]
    simp [Value.mapping, Value.sealedFrom, hm _]
  · exact blocks_mapping m

/-- The block of an agent whose last import has extras. -/
theorem block_putAll_of_extras (hb : Plain base) {i : Import} {after : List Import}
    (hi : i.Sound) (hafter : ∀ j ∈ after, j.Sound) (hlast : ∀ j ∈ after, j.agent ≠ i.agent)
    (hx : i.extras ≠ []) :
    block i.agent.name (putAll base fields (i :: after)) = i.extras := by
  refine block_of_kept (hi.closed.filter _) ?_
  rw [putAll, List.foldl_cons, ← putAll, get?_rawBlocks_putAll hb hafter hlast,
    get?_rawBlocks_put_same hb hi hx]

/-- Imports of other agents, and imports without extras, leave an empty block
empty and a full one full. -/
theorem block_putAll_eq_nil_iff (hb : Plain base) {is : List Import} {a : Agent}
    (hi : ∀ i ∈ is, i.Sound) (ha : ∀ i ∈ is, i.agent ≠ a ∨ i.extras = []) :
    block a.name (putAll base fields is) = [] ↔ block a.name fields = [] := by
  induction is generalizing fields with
  | nil => exact Iff.rfl
  | cons i is ih =>
    have hstep : block a.name (put base fields i) = [] ↔ block a.name fields = [] := by
      rw [put_eq (hi i (by simp))]
      exact block_addSection_eq_nil_iff (hi i (by simp)).spoke (hb i) (ha i (by simp))
    rw [putAll, List.foldl_cons, ← putAll,
      ih (fun j hj => hi j (List.mem_cons_of_mem _ hj))
        (fun j hj => ha j (List.mem_cons_of_mem _ hj)), hstep]

/-- The block of an agent is what its last import brought, exactly when that
brought something or there was no block before it. -/
theorem block_putAll_alike_iff (hb : Plain base) {before after : List Import} {i : Import}
    (hi : i.Sound) (hafter : ∀ j ∈ after, j.Sound) (hlast : ∀ j ∈ after, j.agent ≠ i.agent) :
    Mapping.Alike (Mapping.merge [] (block i.agent.name (putAll base fields (before ++ i :: after))))
        i.extras ↔
      i.extras ≠ [] ∨ block i.agent.name (putAll base fields before) = [] := by
  rw [putAll_append]
  by_cases hx : i.extras = []
  · -- Without extras the import changes no block, like those behind it.
    have hsound : ∀ j ∈ i :: after, j.Sound := by
      intro j hj
      rcases List.mem_cons.mp hj with rfl | hj
      · exact hi
      · exact hafter j hj
    have hother : ∀ j ∈ i :: after, j.agent ≠ i.agent ∨ j.extras = [] := by
      intro j hj
      rcases List.mem_cons.mp hj with rfl | hj
      · exact Or.inr hx
      · exact Or.inl (hlast j hj)
    rw [← block_putAll_eq_nil_iff hb hsound hother, hx]
    constructor
    · intro h
      exact Or.inr (Mapping.merge_nil_eq_nil_iff.mp (List.perm_nil.mp h))
    · rintro (h | h)
      · exact absurd rfl h
      · rw [h]
        exact List.Perm.refl _
  · have hmerge : Mapping.merge [] i.extras = i.extras :=
      Mapping.merge_nil_of_distinct hi.distinct.clean
    rw [block_putAll_of_extras hb hi hafter hlast hx, hmerge]
    exact ⟨fun _ => Or.inl hx, fun _ => List.Perm.refl _⟩

/-! ## Reading after an import -/

/-- The history as the fields of a document keep it: an empty one is none. -/
def keptHistory : Option (List Phrase) → Option (List Phrase)
  | some (h :: hs) => some (h :: hs)
  | _ => none

theorem commandBase_eq (i : Import) :
    commandBase i = Neutral.optionalField descriptionKey i.neutral.shared.description ++
      Neutral.historyField i.neutral.shared.history := by
  rw [commandBase, Neutral.addField_of_lacks (fun _ he => absurd he List.not_mem_nil),
    List.nil_append, Neutral.addHistory_of_lacks]
  exact Neutral.lacks_of_ne fun e he => by rw [Neutral.key_of_mem_optionalField he]; decide

theorem provenance_historyField (history : Option (List Phrase)) :
    provenance (Mapping.field (Neutral.historyField history) provenanceKey) =
      .ok (keptHistory history) := by
  match history with
  | none => rfl
  | some [] => rfl
  | some (h :: hs) =>
    have hfield : Mapping.field (Neutral.historyField (some (h :: hs))) provenanceKey =
        Value.list ((h :: hs).map Value.phrase) := by
      simp [Neutral.historyField, Mapping.field, Mapping.get?]
    rw [hfield, Skill.provenance_phrases]
    rfl

theorem sharedOf_commandBase (i : Import) :
    Command.sharedOf (commandBase i) =
      i.neutral.shared.description.asText.map fun description =>
        { Shared.none with
            description := description
            history := keptHistory i.neutral.shared.history } := by
  have hdescription : Mapping.field (commandBase i) descriptionKey =
      i.neutral.shared.description := by
    rw [commandBase_eq]
    refine Skill.field_optionalField_append _ _ (Neutral.lacks_of_ne fun e he => ?_)
    rw [Neutral.key_of_mem_historyField he]; decide
  have hhistory : provenance (Mapping.field (commandBase i) provenanceKey) =
      .ok (keptHistory i.neutral.shared.history) := by
    rw [commandBase_eq, Skill.field_append_of_lacks
      (Neutral.lacks_of_ne fun e he => by rw [Neutral.key_of_mem_optionalField he]; decide)]
    exact provenance_historyField _
  rw [Command.sharedOf, hdescription, hhistory]
  cases i.neutral.shared.description.asText <;> rfl

theorem extrasOf_commandBase (i : Import) : Command.extrasOf (commandBase i) = [] := by
  rw [Command.extrasOf, Mapping.without, Mapping.without, List.filter_filter, commandBase_eq]
  refine List.filter_eq_nil_iff.mpr fun e he => ?_
  rcases List.mem_append.mp he with he | he
  · rw [Neutral.key_of_mem_optionalField he]; decide
  · rw [Neutral.key_of_mem_historyField he]; decide

/-- What is read of a command that was put in. -/
theorem toNeutral_put_command (i : Import) (fields : Mapping) (d : Option String)
    (content path : String) :
    Command.toNeutral Agent.hub d (.markdown (put commandBase fields i) content path) =
      i.neutral.shared.description.asText.map fun description =>
        ⟨.command, bodyOf Agent.hub content,
          { Shared.none with
              description := description
              history := keptHistory i.neutral.shared.history },
          extrasFor d (put commandBase fields i) [], ⟨path, some Agent.hub.name, none, .null⟩⟩ := by
  have hown : Mapping.without (put commandBase fields i) sectionKey = commandBase i :=
    without_addSection _ _ _ (plain_commandBase i)
  simp only [Command.toNeutral, if_true, hown, Command.neutralOf, sharedOf_commandBase,
    extrasOf_commandBase]
  cases i.neutral.shared.description.asText <;> rfl

/-! ### Skills -/

/-- A history among the extras is used where the skill tells none. -/
theorem get?_addSkillExtras (removeForeign : Bool) (extras fields : Mapping) (key : String) :
    Mapping.get? (Neutral.addSkillExtras Agent.hub removeForeign extras fields) (.text key) =
      (Mapping.get? fields (.text key)).or (Mapping.get? extras (.text key)) := by
  have hkept : ∀ k, Neutral.keptName Agent.hub k = k := by intro k; cases k <;> rfl
  have hforeign : ∀ k, Neutral.isForeign Agent.hub k = false := fun _ => rfl
  unfold Neutral.addSkillExtras
  induction extras generalizing fields with
  | nil => simp [Mapping.get?]
  | cons e extras ih =>
    obtain ⟨k, v⟩ := e
    rw [List.foldl_cons, ih]
    simp only [hkept, hforeign, Bool.false_and, Bool.false_or]
    by_cases hc : Mapping.contains fields k = true
    · simp only [hc, if_true, Mapping.get?_cons]
      split
      · rename_i hs
        rw [(Scalar.same_text_iff key k).mp hs, Mapping.contains, Option.isSome_iff_exists] at hc
        obtain ⟨w, hw⟩ := hc
        simp [hw]
      · rfl
    · have hl : fields.Lacks k := Mapping.contains_eq_false_iff.mp (Bool.eq_false_iff.mpr hc)
      simp only [hc, Bool.false_eq_true, if_false, Mapping.set_of_lacks hl, Mapping.get?_append,
        Mapping.get?_cons, Mapping.get?_nil, Option.or_assoc]
      split <;> simp

/-- The history a hub's skill is read with: its own, or one among the extras. -/
theorem field_skillBase (i : Import) :
    provenance (Mapping.field (skillBase i) provenanceKey) =
      match i.neutral.shared.history with
      | some (h :: hs) => .ok (some (h :: hs))
      | _ => provenance (Mapping.field i.neutral.extras provenanceKey) := by
  have hfilter : Mapping.field (skillBase i) provenanceKey =
      Mapping.field (i.neutral.skillFields Agent.hub i.removeForeign) provenanceKey := by
    rw [Mapping.field, skillBase, Mapping.get?_filter]
    · rfl
    · intro e _ hs
      rw [(Scalar.same_text_iff _ _).mp hs]
      decide
  -- No leading field has the name of the history, so only extras can.
  have hlead : Mapping.get? (Neutral.addInvocation Agent.hub i.removeForeign
      i.neutral.shared.invocation (addField descriptionKey i.neutral.shared.description
        (addField nameKey i.neutral.shared.name []))) (.text provenanceKey) = none := by
    refine Mapping.get?_eq_none_iff.mpr ?_
    have hstart : (addField descriptionKey i.neutral.shared.description
        (addField nameKey i.neutral.shared.name [])).Lacks (.text provenanceKey) :=
      lacks_addField descriptionKey (by decide)
        (lacks_addField nameKey (by decide) (fun _ he => absurd he List.not_mem_nil) _) _
    cases i.neutral.shared.invocation with
    | none => exact hstart
    | some b =>
      refine Mapping.get?_eq_none_iff.mp ?_
      have hset := Mapping.get?_set_text (addField descriptionKey i.neutral.shared.description
        (addField nameKey i.neutral.shared.name [])) invocationKey (.bool !b)
        (.text provenanceKey)
      rw [if_neg (by decide), Mapping.get?_eq_none_iff.mpr hstart] at hset
      exact hset
  rw [hfilter, Neutral.skillFields]
  cases i.neutral.shared.history with
  | none => simp only [addHistory, Mapping.field, get?_addSkillExtras, hlead, Option.none_or]
  | some l =>
    cases l with
    | nil => simp only [addHistory, Mapping.field, get?_addSkillExtras, hlead, Option.none_or]
    | cons h hs =>
      rw [addHistory, Mapping.field, Mapping.get?_set_same]
      exact Skill.provenance_phrases h hs

/-- A field of the hub's own is read without giving an extra. -/
theorem addField_hubKey (acc : Shared × Mapping) {e : Scalar × Value} {key : String}
    (hk : key ∈ Neutral.hubKeys) (he : e.1 = .text key) :
    (key = provenanceKey ∧ Skill.addField Agent.hub acc e =
        (provenance e.2).map fun h => ({ acc.1 with history := h }, acc.2)) ∨
      (key ≠ provenanceKey ∧ ∃ s, Skill.addField Agent.hub acc e = .ok (s, acc.2)) := by
  obtain ⟨k, v⟩ := e
  obtain ⟨s, m⟩ := acc
  obtain rfl : k = .text key := he
  simp only [Neutral.hubKeys, List.mem_cons, List.not_mem_nil, or_false] at hk
  rcases hk with rfl | rfl | rfl | rfl
  · exact Or.inr ⟨by decide, s, rfl⟩
  · exact Or.inr ⟨by decide, s, rfl⟩
  · exact Or.inr ⟨by decide, _, rfl⟩
  · exact Or.inl ⟨rfl, rfl⟩

/-- Only histories keep fields of the hub's own from being read. -/
theorem foldlM_hubKeys {m : Mapping} (hk : ∀ e ∈ m, ∃ k ∈ Neutral.hubKeys, e.1 = .text k)
    (acc : Shared × Mapping) :
    (∃ r, m.foldlM (Skill.addField Agent.hub) acc = .ok r ∧ r.2 = acc.2) ∧
        (∀ e ∈ m, e.1 = .text provenanceKey → ∃ h, provenance e.2 = .ok h) ∨
      (∀ r, m.foldlM (Skill.addField Agent.hub) acc ≠ .ok r) ∧
        ∃ e ∈ m, e.1 = .text provenanceKey ∧ ∀ h, provenance e.2 ≠ .ok h := by
  induction m generalizing acc with
  | nil => exact Or.inl ⟨⟨acc, rfl, rfl⟩, fun e he => absurd he List.not_mem_nil⟩
  | cons e m ih =>
    obtain ⟨key, hkey, he⟩ := hk e (by simp)
    have hrest := fun acc => ih (fun f hf => hk f (List.mem_cons_of_mem _ hf)) acc
    rcases addField_hubKey acc hkey he with ⟨rfl, hstep⟩ | ⟨hne, s, hstep⟩
    · cases hp : provenance e.2 with
      | error x =>
        rw [hp] at hstep
        refine Or.inr ⟨fun r hr => ?_, e, by simp, he, fun h hh => ?_⟩
        · rw [List.foldlM_cons, hstep] at hr
          exact nomatch hr
        · rw [hp] at hh
          exact nomatch hh
      | ok h =>
        rw [hp] at hstep
        rw [List.foldlM_cons, hstep]
        rcases hrest ({ acc.1 with history := h }, acc.2) with ⟨hr, hall⟩ | ⟨hr, f, hf, hbad⟩
        · refine Or.inl ⟨hr, fun f hf hfk => ?_⟩
          rcases List.mem_cons.mp hf with rfl | hf
          · exact ⟨h, hp⟩
          · exact hall f hf hfk
        · exact Or.inr ⟨hr, f, List.mem_cons_of_mem _ hf, hbad⟩
    · rw [List.foldlM_cons, hstep]
      rcases hrest (s, acc.2) with ⟨hr, hall⟩ | ⟨hr, f, hf, hbad⟩
      · refine Or.inl ⟨hr, fun f hf hfk => ?_⟩
        rcases List.mem_cons.mp hf with rfl | hf
        · exact absurd (Scalar.text.inj (he.symm.trans hfk)) hne
        · exact hall f hf hfk
      · exact Or.inr ⟨hr, f, List.mem_cons_of_mem _ hf, hbad⟩

/-- The hub's own fields are read exactly when their history is. -/
theorem split_skillBase (i : Import) :
    (∃ shared, Skill.split Agent.hub (skillBase i) = .ok (shared, [])) ∧
        (∃ h, provenance (Mapping.field (skillBase i) provenanceKey) = .ok h) ∨
      (∀ r, Skill.split Agent.hub (skillBase i) ≠ .ok r) ∧
        ∀ h, provenance (Mapping.field (skillBase i) provenanceKey) ≠ .ok h := by
  have hkeys : ∀ e ∈ skillBase i, ∃ k ∈ Neutral.hubKeys, e.1 = .text k := by
    intro e he
    obtain ⟨k, hk, hs⟩ := List.any_eq_true.mp (List.mem_filter.mp he).2
    exact ⟨k, hk, (Scalar.same_text_iff k _).mp hs⟩
  have hdistinct : (skillBase i).Distinct := (Neutral.distinct_skillFields _ _ _).filter _
  have hsplit := foldlM_hubKeys hkeys
    ({ Shared.none with
        name := Mapping.field (skillBase i) nameKey
        description := Mapping.field (skillBase i) descriptionKey }, [])
  rcases hsplit with ⟨⟨r, hr, hnil⟩, hall⟩ | ⟨hr, e, he, hek, hbad⟩
  · refine Or.inl ⟨⟨r.1, ?_⟩, ?_⟩
    · obtain ⟨shared, extras⟩ := r
      obtain rfl : extras = [] := hnil
      exact hr
    · cases hget : Mapping.get? (skillBase i) (.text provenanceKey) with
      | none => exact ⟨none, by rw [Mapping.field, hget]; rfl⟩
      | some v =>
        obtain ⟨k, hmem, hs⟩ := Mapping.mem_of_get? hget
        obtain ⟨h, hh⟩ := hall (k, v) hmem ((Scalar.same_text_iff _ _).mp hs)
        exact ⟨h, by rw [Mapping.field, hget]; exact hh⟩
  · refine Or.inr ⟨hr, fun h hh => hbad h ?_⟩
    rw [Mapping.field, Mapping.get?_of_mem hdistinct he hek] at hh
    exact hh

/-! ## The last import -/

/-- A command that was put in last can be read. Every command of a spoke can
(`readable_of_toNeutral`). -/
def CommandReadable (i : Import) : Prop := ∃ d, i.neutral.shared.description.asText = .ok d

/-- A skill that was put in last can be read: it tells its history, or a history
among its extras can be told. -/
def SkillReadable (i : Import) : Prop :=
  (∃ h hs, i.neutral.shared.history = some (h :: hs)) ∨
    ∃ h, provenance (Mapping.field i.neutral.extras provenanceKey) = .ok h

/-- An agent reads the extras from the hub's command. -/
def CommandGives (hub : Option Command) (a : Agent) (extras : Mapping) : Prop :=
  ∃ c n, hub = some c ∧ Command.toNeutral Agent.hub (some a.name) c = .ok n ∧
    Mapping.Alike n.extras extras

/-- An agent reads the extras from the hub's skill. -/
def SkillGives (hub : Option Skill) (a : Agent) (extras : Mapping) : Prop :=
  ∃ s n, hub = some s ∧ Skill.toNeutral Agent.hub (some a.name) s = .ok n ∧
    Mapping.Alike n.extras extras

theorem asText_phrase (p : Phrase) : (Value.phrase p).asText = .ok (.phrase p) := by
  cases p <;> rfl

theorem asText_of_asText {v t : Value} (h : v.asText = .ok t) : t.asText = .ok t := by
  unfold Value.asText at h
  split at h
  · obtain rfl := Except.ok.inj h
    rfl
  · obtain ⟨s, -, rfl⟩ := exists_of_map_eq_ok h
    exact asText_phrase s

theorem asText_of_sharedOf {fields : Mapping} {s : Shared} (h : Command.sharedOf fields = .ok s) :
    s.description.asText = .ok s.description := by
  obtain ⟨t, ht, h⟩ := exists_of_bind_eq_ok h
  obtain ⟨history, -, h⟩ := exists_of_bind_eq_ok h
  obtain rfl := Except.ok.inj h
  exact asText_of_asText ht

theorem sharedOf_of_neutralOf {a : Agent} {fields : Mapping} {content path : String} {n : Neutral}
    (h : Command.neutralOf a fields content path = .ok n) :
    Command.sharedOf fields = .ok n.shared := by
  obtain ⟨s, hs, h⟩ := exists_of_bind_eq_ok h
  obtain rfl := Except.ok.inj h
  exact hs

/-- A command that a spoke has read can be put in and read again. -/
theorem readable_of_toNeutral {i : Import} (hi : i.agent ∈ Agent.spokes) {d : Option String}
    {c : Command} (h : Command.toNeutral i.agent d c = .ok i.neutral) : CommandReadable i := by
  have hne := ne_hub_of_spoke hi
  -- A spoke has read the description as text, and text is read as it is.
  suffices hs : ∃ fields, Command.sharedOf fields = .ok i.neutral.shared by
    obtain ⟨fields, hs⟩ := hs
    exact ⟨_, asText_of_sharedOf hs⟩
  cases c with
  | markdown fields content path =>
    rw [Command.toNeutral, if_neg hne] at h
    exact ⟨_, sharedOf_of_neutralOf h⟩
  | table prompt description fields path => exact ⟨_, sharedOf_of_neutralOf h⟩
  | plain content path => exact ⟨_, sharedOf_of_neutralOf h⟩

theorem commandGives_put {a : Agent} (ha : a ∈ Agent.spokes) (hub : Option Command) (i : Import)
    (extras : Mapping) :
    CommandGives (importCommand hub i) a extras ↔
      CommandReadable i ∧ Mapping.Alike (Mapping.merge [] (block a.name
        (put commandBase ((hub.map Command.fields).getD []) i))) extras := by
  have hread : ∀ c p, Command.toNeutral Agent.hub (some a.name) (.markdown
      (put commandBase ((hub.map Command.fields).getD []) i) c p) = _ :=
    toNeutral_put_command i _ _
  have himport : importCommand hub i = some (.markdown
      (put commandBase ((hub.map Command.fields).getD []) i) (bodyText Agent.hub i.neutral.body)
      (i.neutral.commandPath Agent.hub)) := rfl
  constructor
  · rintro ⟨c, n, hc, hn, halike⟩
    rw [himport] at hc
    obtain rfl := Option.some.inj hc
    rw [hread] at hn
    cases hd : i.neutral.shared.description.asText with
    | error e => rw [hd] at hn; exact nomatch hn
    | ok d =>
      rw [hd] at hn
      obtain rfl := Except.ok.inj hn
      rw [extrasFor_spoke ha] at halike
      exact ⟨⟨d, hd⟩, halike⟩
  · rintro ⟨⟨d, hd⟩, halike⟩
    refine ⟨_, _, himport, by rw [hread, hd]; rfl, ?_⟩
    simp only [extrasFor_spoke ha]
    exact halike

theorem skillReadable_iff (i : Import) :
    SkillReadable i ↔ ∃ h, provenance (Mapping.field (skillBase i) provenanceKey) = .ok h := by
  rw [field_skillBase, SkillReadable]
  match i.neutral.shared.history with
  | none => simp
  | some [] => simp
  | some (h :: hs) => simp

theorem skillGives_put {a : Agent} (ha : a ∈ Agent.spokes) (hub : Option Skill) (i : Import)
    (extras : Mapping) :
    SkillGives (importSkill hub i) a extras ↔
      SkillReadable i ∧ Mapping.Alike (Mapping.merge [] (block a.name
        (put skillBase ((hub.map Skill.fields).getD []) i))) extras := by
  have himport : ∃ s, importSkill hub i = some s ∧
      s.fields = put skillBase ((hub.map Skill.fields).getD []) i := by
    refine ⟨_, rfl, ?_⟩
    simp [Neutral.toSkill, Neutral.hubSkillFields, put, skillBase]
  obtain ⟨s, hs, hfields⟩ := himport
  have hown : Mapping.without s.fields sectionKey = skillBase i := by
    rw [hfields]
    exact without_addSection _ _ _ (plain_skillBase i)
  rw [hs, skillReadable_iff, ← hfields]
  rcases split_skillBase i with ⟨⟨shared, hsplit⟩, hread⟩ | ⟨hsplit, hread⟩
  · have hn := Skill.toNeutral_of_split (a := Agent.hub) (s := s) (some a.name)
      (by rw [if_pos rfl, hown]; exact hsplit)
    simp only [Skill.extrasWith, if_true, extrasFor_spoke ha] at hn
    constructor
    · rintro ⟨t, n, ht, htn, halike⟩
      obtain rfl := Option.some.inj ht
      obtain rfl := Except.ok.inj (hn.symm.trans htn)
      exact ⟨hread, halike⟩
    · rintro ⟨-, halike⟩
      exact ⟨s, _, rfl, hn, halike⟩
  · constructor
    · rintro ⟨t, n, ht, htn, -⟩
      obtain rfl := Option.some.inj ht
      obtain ⟨r, hok⟩ := Skill.split_of_toNeutral htn
      rw [if_pos rfl, hown] at hok
      exact absurd hok (hsplit r)
    · rintro ⟨⟨h, hh⟩, -⟩
      exact absurd hh (hread h)

theorem eq_concat_last (i : Import) (before after : List Import) :
    ∃ init, before ++ i :: after = init ++ [after.getLastD i] := by
  rcases List.eq_nil_or_concat after with rfl | ⟨init, j, rfl⟩
  · exact ⟨before, rfl⟩
  · exact ⟨before ++ i :: init, by simp⟩

/-- After any run of imports, on top of anything, a spoke reads the extras of its
last import exactly when there are some or its block was empty before, and what
came last can be read. An import without extras so leaves the older block of its
agent in the hub. -/
theorem reads_last_import_iff (command : Option Command) (skill : Option Skill)
    (before after : List Import) (i : Import) (hi : i.Sound) (hafter : ∀ j ∈ after, j.Sound)
    (hlast : ∀ j ∈ after, j.agent ≠ i.agent) :
    (CommandGives ((before ++ i :: after).foldl importCommand command) i.agent i.extras ↔
        CommandReadable (after.getLastD i) ∧
          (i.extras ≠ [] ∨ block i.agent.name
            (((before.foldl importCommand command).map Command.fields).getD []) = [])) ∧
      (SkillGives ((before ++ i :: after).foldl importSkill skill) i.agent i.extras ↔
        SkillReadable (after.getLastD i) ∧
          (i.extras ≠ [] ∨ block i.agent.name
            (((before.foldl importSkill skill).map Skill.fields).getD []) = [])) := by
  -- The document is the one that came last of all, the section that of the whole run.
  obtain ⟨init, hinit⟩ := eq_concat_last i before after
  have hput : ∀ (base : Import → Mapping) (fields : Mapping),
      put base (putAll base fields init) (after.getLastD i) =
        putAll base fields (before ++ i :: after) := by
    intro base fields
    rw [hinit, putAll_append]
    rfl
  constructor
  · rw [fields_importCommands, ← block_putAll_alike_iff plain_commandBase hi hafter hlast, ← hput,
      ← fields_importCommands, ← commandGives_put hi.spoke, hinit, List.foldl_append]
    rfl
  · rw [fields_importSkills, ← block_putAll_alike_iff plain_skillBase hi hafter hlast, ← hput,
      ← fields_importSkills, ← skillGives_put hi.spoke, hinit, List.foldl_append]
    rfl

/-- A command that says nothing but what it has as extras. -/
def commandOf (a : Agent) (extras : Mapping) : Import :=
  ⟨a, false, ⟨.command, [], Shared.none, extras, ⟨"x.md", some a.name, none, .null⟩⟩⟩

theorem commandOf_sound {a : Agent} {extras : Mapping} (ha : a ∈ Agent.spokes)
    (hd : extras.Distinct) (hs : extras.Sealed) : (commandOf a extras).Sound :=
  ⟨ha, rfl, hd, hs⟩

theorem sound_without_extras {a : Agent} (ha : a ∈ Agent.spokes) : (commandOf a []).Sound :=
  commandOf_sound ha List.Pairwise.nil fun _ => rfl

/-- A model for one agent. -/
def modelExtras : Mapping := [(.text "model", .text "opus")]

theorem sound_with_model {a : Agent} (ha : a ∈ Agent.spokes) : (commandOf a modelExtras).Sound :=
  commandOf_sound ha (List.pairwise_singleton _ _) fun _ => rfl

/-- The model of one agent is read after another agent's import. -/
theorem model_read_after_other_import :
    (commandOf .claude modelExtras).Sound ∧ (commandOf .gemini []).Sound ∧
      CommandGives ([commandOf .claude [], commandOf .claude modelExtras,
        commandOf .gemini []].foldl importCommand none) .claude modelExtras := by
  have hclaude := sound_with_model (a := .claude) (by decide)
  have hgemini := sound_without_extras (a := .gemini) (by decide)
  have hiff := reads_last_import_iff none none [commandOf .claude []] [commandOf .gemini []]
    (commandOf .claude modelExtras) hclaude
    (fun j hj => by rw [List.mem_singleton.mp hj]; exact hgemini)
    (fun j hj => by rw [List.mem_singleton.mp hj]; decide)
  exact ⟨hclaude, hgemini, hiff.1.mpr ⟨⟨.null, rfl⟩, Or.inl (List.cons_ne_nil _ _)⟩⟩

/-- The model is still read when the agent's command comes again without one. -/
theorem model_read_after_import_without :
    (commandOf .claude modelExtras).Sound ∧ (commandOf .claude []).Sound ∧
      CommandGives ([commandOf .claude modelExtras, commandOf .claude []].foldl
        importCommand none) .claude modelExtras ∧
      ¬ CommandGives ([commandOf .claude modelExtras, commandOf .claude []].foldl
        importCommand none) .claude (commandOf .claude []).extras := by
  refine ⟨sound_with_model (by decide), sound_without_extras (by decide),
    ⟨_, _, rfl, rfl, List.Perm.refl _⟩, ?_⟩
  rintro ⟨c, n, hc, hn, halike⟩
  obtain rfl := Option.some.inj hc
  obtain rfl := Except.ok.inj hn
  exact absurd (List.Perm.length_eq halike) (by decide)

end Hub

end AgentRelay
