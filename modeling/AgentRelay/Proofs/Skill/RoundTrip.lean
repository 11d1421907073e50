import AgentRelay.Proofs.Hub.Section
import AgentRelay.Proofs.Skill.Fields

/-
  Skills written for an agent and read back.

  What one agent knows of a skill, another agent may keep under marked names,
  under an alias, in a configuration of its own or in a block of the hub. Read
  back, it is what it was (`toNeutral_toSkill`): nothing collides, and nothing
  is left out.
-/

namespace AgentRelay

/-- A skill that says nothing twice: its extras have plain names and values, it
has a name, and its history is not empty where it is told. -/
structure Portable (n : Neutral) : Prop where
  extras : PlainExtras n.extras
  full : ∀ e ∈ n.extras, e.2.isNull = false
  history : n.shared.history ≠ some []
  named : n.background.skillName.truthy = true
  support : n.background.support.isSome = true

/-- The skill comes from a spoke, goes into a hub that does not know it, and is
read for that spoke. -/
def ThroughHub (o : WriteOptions) (destination : Option String) (n : Neutral) : Prop :=
  o.existing = [] ∧
    ∃ a ∈ Agent.spokes, n.background.agent = some a.name ∧ destination = some a.name

namespace Skill

/-- The shared properties an agent adds to what its fields say. -/
def sharedWith (a : Agent) (config : Mapping) (s : Shared) : Shared :=
  if a = .codex then
    { s with invocation := match permission? config with
        | some b => some b
        | none => s.invocation }
  else s

/-- The extras an agent adds to what its fields say. -/
def extrasWith (a : Agent) (destination : Option String) (s : Skill) (extras : Mapping) : Mapping :=
  if a = Agent.hub then Hub.extrasFor destination s.fields extras
  else if a = .codex then withConfig (s.config.getD []) extras
  else extras

/-- Reading a skill whose fields are understood. -/
theorem toNeutral_of_split {a : Agent} {s : Skill} {shared : Shared} {extras : Mapping}
    (destination : Option String)
    (h : split a (if a = Agent.hub then Mapping.without s.fields Hub.sectionKey else s.fields) =
      .ok (shared, extras)) :
    toNeutral a destination s =
      .ok ⟨.skill, bodyOf a s.content, sharedWith a (s.config.getD []) shared,
        extrasWith a destination s extras, ⟨s.folder, some a.name, some s.support, s.name⟩⟩ := by
  unfold toNeutral
  simp only [h, bind, Except.bind, pure, Except.pure]
  cases a <;> rfl

/-- A skill whose fields are not understood is not read. -/
theorem split_of_toNeutral {a : Agent} {s : Skill} {destination : Option String} {n : Neutral}
    (h : toNeutral a destination s = .ok n) :
    ∃ r, split a (if a = Agent.hub then Mapping.without s.fields Hub.sectionKey else s.fields) =
      .ok r := by
  unfold toNeutral at h
  cases hs : split a (if a = Agent.hub then Mapping.without s.fields Hub.sectionKey
      else s.fields) with
  | error e =>
    simp only [hs] at h
    exact nomatch h
  | ok r => exact ⟨r, rfl⟩

end Skill

namespace Neutral

/-! ## Fields -/

theorem PlainExtras.withoutConfig {n : Neutral} (h : PlainExtras n.extras) :
    PlainExtras n.withoutConfig.extras :=
  (h.without _).without _

/-- The fields an agent that is not the hub writes are read back. -/
theorem split_toSkill {b : Agent} (hb : b ≠ Agent.hub) {n : Neutral} (h : Portable n)
    {o : WriteOptions} (ho : o.removeForeign = false) :
    Skill.split b (n.toSkill b o).fields =
      .ok (n.shared, if b = .codex then n.withoutConfig.extras else n.extras) := by
  have hc := PlainExtras.withoutConfig h.extras
  by_cases hx : b = .codex
  · subst hx
    have hf : (n.toSkill .codex o).fields = n.withoutConfig.skillFields .codex false := by
      simp [toSkill, Agent.hub, ho]
    rw [hf, skillFields_eq _ _ hc, if_pos rfl]
    exact Skill.split_skillFields .codex n.shared hc h.history
  · have hf : (n.toSkill b o).fields = n.skillFields b false := by simp [toSkill, hb, hx, ho]
    rw [hf, skillFields_eq b _ h.extras, if_neg hx]
    exact Skill.split_skillFields b n.shared h.extras h.history

/-! ## The configuration -/

/-- The part of a configuration that comes from extras. -/
def routedExtras (extras : Mapping) : Mapping :=
  optionalField "interface" (Mapping.field extras "interface") ++
    optionalField "dependencies" (Mapping.field extras "dependencies")

/-- The permission in front of the routed extras. -/
theorem skillConfig_eq (n : Neutral) :
    n.skillConfig =
      (match n.shared.invocation with
        | some b =>
          [(.text Skill.policyKey, Value.mapping [(.text Skill.permissionKey, .bool b)])]
        | none => []) ++ routedExtras n.extras := by
  -- The routed extras go behind a permission, or behind nothing.
  have key : ∀ start : Mapping, (∀ e ∈ start, e.1 = .text Skill.policyKey) →
      configKeys.foldl (fun m k => addField k (Mapping.field n.extras k) m) start =
        start ++ routedExtras n.extras := by
    intro start hs
    simp only [configKeys, List.foldl_cons, List.foldl_nil, routedExtras]
    rw [addField_of_lacks, addField_of_lacks, List.append_assoc]
    · exact lacks_of_ne fun e he => by rw [hs e he]; decide
    · rw [addField_of_lacks]
      · refine lacks_of_ne fun e he => ?_
        rcases List.mem_append.mp he with he | he
        · rw [hs e he]; decide
        · rw [key_of_mem_optionalField he]; decide
      · exact lacks_of_ne fun e he => by rw [hs e he]; decide
  unfold skillConfig
  cases n.shared.invocation with
  | none => exact key [] fun e he => absurd he List.not_mem_nil
  | some b => exact key _ fun e he => by rw [List.mem_singleton.mp he]

theorem without_routedExtras (extras : Mapping) :
    Mapping.without (routedExtras extras) Skill.policyKey = routedExtras extras := by
  refine List.filter_eq_self.mpr fun e he => ?_
  rcases List.mem_append.mp he with he | he <;> rw [key_of_mem_optionalField he] <;> decide

theorem without_skillConfig (n : Neutral) :
    Mapping.without n.skillConfig Skill.policyKey = routedExtras n.extras := by
  rw [skillConfig_eq]
  cases n.shared.invocation with
  | none => exact without_routedExtras _
  | some b =>
    rw [Mapping.without, List.filter_append, ← Mapping.without, ← Mapping.without,
      without_routedExtras]
    rfl

theorem permission_skillConfig (n : Neutral) :
    Skill.permission? n.skillConfig = n.shared.invocation := by
  rw [skillConfig_eq]
  cases n.shared.invocation with
  | none =>
    have hl : (routedExtras n.extras).Lacks (.text Skill.policyKey) := by
      refine lacks_of_ne fun e he => ?_
      rcases List.mem_append.mp he with he | he <;> rw [key_of_mem_optionalField he] <;> decide
    simp [Skill.permission?, Mapping.field_of_lacks hl, Value.entries?]
  | some b => cases b <;> rfl

/-- The configuration a reader finds, also where an empty one is left out. -/
theorem config_toSkill (n : Neutral) (o : WriteOptions) :
    (n.toSkill .codex o).config.getD [] = n.skillConfig := by
  by_cases h : n.skillConfig = []
  · simp [toSkill, h]
  · simp [toSkill, h]

/-- A field that is taken out and put behind the others. -/
theorem alike_without {m : Mapping} (h : m.Distinct) (hfull : ∀ e ∈ m, e.2.isNull = false)
    (key : String) :
    Mapping.Alike (Mapping.without m key ++ optionalField key (Mapping.field m key)) m := by
  have hfield : optionalField key (Mapping.field m key) =
      m.filter fun e => e.1.same (.text key) := by
    rw [Mapping.filter_text_of_distinct h, Mapping.field]
    cases hget : Mapping.get? m (.text key) with
    | none => rfl
    | some v =>
      obtain ⟨k, hmem, -⟩ := Mapping.mem_of_get? hget
      simp [optionalField, hfull _ hmem]
  rw [hfield]
  exact List.perm_append_comm.trans (List.filter_append_perm _ m)

/-- Extras that went into the configuration are put behind the others. -/
theorem alike_withConfig {n : Neutral} (h : PlainExtras n.extras)
    (hfull : ∀ e ∈ n.extras, e.2.isNull = false) :
    Mapping.Alike (Skill.withConfig n.skillConfig n.withoutConfig.extras) n.extras := by
  have hlacks : ∀ e ∈ routedExtras n.extras, n.withoutConfig.extras.Lacks e.1 := by
    intro e he
    refine Mapping.get?_eq_none_iff.mp ?_
    rw [withoutConfig]
    simp only [configKeys, List.foldl_cons, List.foldl_nil, Mapping.get?_without]
    rcases List.mem_append.mp he with he | he <;> rw [key_of_mem_optionalField he] <;> simp
  have hdistinct : (routedExtras n.extras).Distinct := by
    refine List.pairwise_append.mpr ⟨?_, ?_, fun e he f hf => ?_⟩
    · unfold optionalField; split <;> simp
    · unfold optionalField; split <;> simp
    · rw [key_of_mem_optionalField he, key_of_mem_optionalField hf]; decide
  -- Taking out the interface first leaves the dependencies where they were.
  have hsecond : Mapping.field n.extras "dependencies" =
      Mapping.field (Mapping.without n.extras "interface") "dependencies" := by
    simp [Mapping.field, Mapping.get?_without]
  rw [Skill.withConfig, without_skillConfig, Mapping.merge_of_distinct hdistinct hlacks,
    routedExtras, hsecond]
  simp only [withoutConfig, configKeys, List.foldl_cons, List.foldl_nil]
  have hinner := alike_without (h.without "interface").distinct
    (fun e he => hfull e (List.mem_filter.mp he).1) "dependencies"
  calc List.Perm _ _ := List.Perm.append_left _ List.perm_append_comm
    _ = _ := (List.append_assoc ..).symm
    List.Perm _ _ := List.Perm.append_right _ hinner
    List.Perm _ n.extras := alike_without h.distinct hfull "interface"

/-! ## The hub -/

/-- The hub keeps the shared properties outside its section, and nothing else. -/
theorem hub_filter (s : Shared) {fields : Mapping} (hu : Unshared fields) :
    ((leadingFields Agent.hub s ++ fields ++ historyField s.history).filter
        fun e => hubKeys.any fun k => e.1.same (.text k)) =
      leadingFields Agent.hub s ++ historyField s.history := by
  have hnone : (fields.filter fun e => hubKeys.any fun k => e.1.same (.text k)) = [] := by
    refine List.filter_eq_nil_iff.mpr fun e he hk => ?_
    obtain ⟨k, hmem, hs⟩ := List.any_eq_true.mp hk
    have hshared : ∀ k ∈ hubKeys, k ∈ sharedNames := by decide
    exact hu e he k (hshared k hmem) ((Scalar.same_text_iff k _).mp hs)
  have hlead : ((leadingFields Agent.hub s).filter
      fun e => hubKeys.any fun k => e.1.same (.text k)) = leadingFields Agent.hub s := by
    refine List.filter_eq_self.mpr fun e he => ?_
    rcases key_of_mem_leadingFields he with hk | hk | hk <;> rw [hk] <;> decide
  have hhist : ((historyField s.history).filter
      fun e => hubKeys.any fun k => e.1.same (.text k)) = historyField s.history := by
    refine List.filter_eq_self.mpr fun e he => ?_
    rw [key_of_mem_historyField he]; decide
  rw [List.filter_append, List.filter_append, hnone, hlead, hhist, List.append_nil]

/-- The fields of a hub's skill besides its section. -/
def hubFields (s : Shared) : Mapping := leadingFields Agent.hub s ++ historyField s.history

theorem hubFields_lacks (s : Shared) : (hubFields s).Lacks (.text Hub.sectionKey) := by
  refine lacks_of_ne fun e he => ?_
  rcases List.mem_append.mp he with he | he
  · rcases key_of_mem_leadingFields he with hk | hk | hk <;> rw [hk] <;> decide
  · rw [key_of_mem_historyField he]; decide

theorem fields_toSkill_hub {n : Neutral} (h : PlainExtras n.extras) (o : WriteOptions)
    (ho : o.removeForeign = false) :
    (n.toSkill Agent.hub o).fields =
      Hub.addSection n.background.agent n.extras o.existing (hubFields n.shared) := by
  simp only [toSkill, hubSkillFields, ho, skillFields_eq _ _ h,
    hub_filter _ (unshared_keptExtras h), hubFields, if_true]

theorem split_hubFields {s : Shared} (h : s.history ≠ some []) :
    Skill.split Agent.hub (hubFields s) = .ok (s, []) := by
  have hnil : PlainExtras [] := ⟨List.Pairwise.nil, fun e he => absurd he List.not_mem_nil⟩
  simpa [keptExtras, hubFields] using Skill.split_skillFields Agent.hub s hnil h

/-! ## Both ways -/

/-- A skill that is written for an agent and read back is what it was: its
shared properties, its extras and its background. -/
theorem toNeutral_toSkill (b : Agent) (o : WriteOptions) (destination : Option String)
    (n : Neutral) (h : Portable n) (ho : o.removeForeign = false)
    (hhub : b = Agent.hub → ThroughHub o destination n) :
    ∃ m, Skill.toNeutral b destination (n.toSkill b o) = .ok m ∧ m.shared = n.shared ∧
      Mapping.Alike m.extras n.extras ∧ m.background.skillName = n.background.skillName ∧
      m.background.path = n.background.path ∧ m.background.support = n.background.support := by
  have hname : (n.toSkill b o).name = n.background.skillName := by simp [toSkill, h.named]
  have hsupport : some (n.toSkill b o).support = n.background.support := by
    obtain ⟨fs, hfs⟩ := Option.isSome_iff_exists.mp h.support
    simp [toSkill, hfs]
  by_cases hb : b = Agent.hub
  · subst hb
    -- All extras go through the block of the agent the skill comes from.
    obtain ⟨hexisting, a, ha, hagent, hdest⟩ := hhub rfl
    have hfields := fields_toSkill_hub h.extras o ho
    rw [hexisting, hagent] at hfields
    have hown : Mapping.without (n.toSkill Agent.hub o).fields Hub.sectionKey =
        hubFields n.shared := by
      rw [hfields, Hub.without_addSection _ _ _ (hubFields_lacks _)]
    have hextras : Hub.extrasFor destination (n.toSkill Agent.hub o).fields [] = n.extras := by
      rw [hdest, Hub.extrasFor_spoke ha, hfields,
        Hub.block_addSection_new ha _ (hubFields_lacks _), Mapping.clean_eq_self h.full,
        Mapping.merge_nil_of_distinct h.extras.distinct]
    have hsplit : Skill.split Agent.hub (if Agent.hub = Agent.hub then
        Mapping.without (n.toSkill Agent.hub o).fields Hub.sectionKey
          else (n.toSkill Agent.hub o).fields) = .ok (n.shared, []) := by
      rw [if_pos rfl, hown, split_hubFields h.history]
    refine ⟨_, Skill.toNeutral_of_split destination hsplit, rfl, ?_, hname, rfl, hsupport⟩
    · simp only [Skill.extrasWith, if_true, hextras]
      exact List.Perm.refl _
  · have hsplit := split_toSkill hb h ho
    refine ⟨_, Skill.toNeutral_of_split destination (by rw [if_neg hb]; exact hsplit), ?_, ?_,
      hname, rfl, hsupport⟩
    · by_cases hx : b = .codex
      · subst hx
        simp only [Skill.sharedWith, config_toSkill, permission_skillConfig, if_true]
        cases hinv : n.shared.invocation <;> simp [← hinv]
      · simp [Skill.sharedWith, hx]
    · by_cases hx : b = .codex
      · subst hx
        simp only [Skill.extrasWith, config_toSkill, hb, if_false, if_true]
        exact alike_withConfig h.extras h.full
      · simp only [Skill.extrasWith, hb, hx, if_false]
        exact List.Perm.refl _

/-- A review skill of one spoke, with a tool list and an interface. -/
def reviewSkill : Neutral where
  kind := .skill
  body := []
  shared := ⟨.text "Reviews changes", .text "review", some false, some ["claude"]⟩
  extras := [(.text "allowed-tools", .text "Read"), (.text "interface", Value.mapping [])]
  background := ⟨"skills/review", some "claude", some [], .text "review"⟩

theorem portable_reviewSkill : Portable reviewSkill where
  extras :=
    { distinct := by unfold Mapping.Distinct; decide
      plain := by
        intro e he
        simp only [reviewSkill, List.mem_cons, List.not_mem_nil, or_false] at he
        rcases he with rfl | rfl
        · exact ⟨by decide, by decide⟩
        · exact ⟨by decide, by decide⟩ }
  full := by decide
  history := by decide
  named := by decide
  support := rfl

/-- The review skill goes through the hub and back to its agent. -/
theorem reviewSkill_through_hub :
    ∃ m, Skill.toNeutral Agent.hub (some "claude") (reviewSkill.toSkill Agent.hub ⟨false, []⟩) =
        .ok m ∧
      m.shared = reviewSkill.shared ∧ Mapping.Alike m.extras reviewSkill.extras ∧
      m.background.skillName = reviewSkill.background.skillName ∧
      m.background.path = reviewSkill.background.path ∧
      m.background.support = reviewSkill.background.support :=
  toNeutral_toSkill Agent.hub ⟨false, []⟩ (some "claude") reviewSkill portable_reviewSkill rfl
    fun _ => ⟨rfl, .claude, by decide, rfl, rfl⟩

end Neutral

end AgentRelay
