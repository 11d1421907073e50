import AgentRelay.Document.SkillFolder
import AgentRelay.Neutral.Command
import AgentRelay.Neutral.Skill
import AgentRelay.Proofs.Except
import AgentRelay.Proofs.Toml.Relabelling
import AgentRelay.Proofs.Yaml.Relabelling

/-
  Documents whose nodes have other numbers, on their way from agent to agent.

  Reading such a document gives the same shared properties and extras but for their
  nodes (`Command.sharedOf_via`, `Skill.split_via`), writing it for a spoke gives the
  same fields but for their nodes (`toCommand_via`, `toSkill_via`), and these have the
  same text (`Command.text_via`, `Skill.text_via`) and make the same files
  (`Skill.write_via`).
-/

namespace AgentRelay

variable {g : Labels}

def Shared.via (g : Labels) (s : Shared) : Shared :=
  { s with description := s.description.via g, name := s.name.via g }

/-- The document with other nodes. -/
def Neutral.via (g : Labels) (n : Neutral) : Neutral :=
  { n with
    shared := n.shared.via g
    extras := n.extras.via g
    background := { n.background with skillName := n.background.skillName.via g } }

/-- The command with other nodes. -/
def Command.via (g : Labels) : Command → Command
  | .markdown fields content path => .markdown (fields.via g) content path
  | .table prompt description fields path =>
    .table prompt (description.via g) (fields.via g) path
  | .plain content path => .plain content path

/-- The skill with other nodes. -/
def Skill.via (g : Labels) (s : Skill) : Skill :=
  { s with name := s.name.via g, fields := s.fields.via g, config := s.config.map (Mapping.via g) }

/-! ## Reading -/

/-- A value taken as a text has no nodes. -/
theorem Value.via_of_asText {v t : Value} (h : v.asText = .ok t) : t.via g = t := by
  unfold Value.asText at h
  split at h
  · obtain rfl := Except.ok.inj h
    simp [Scalar.via]
  · obtain ⟨s, -, rfl⟩ := exists_of_map_eq_ok h
    simp

namespace Command

theorem sharedOf_via (hg : g.Faithful) (fields : Mapping) :
    sharedOf (fields.via g) = (sharedOf fields).map (Shared.via g) := by
  rw [sharedOf, sharedOf, Mapping.field_via, Mapping.field_via, hg.asText_via, hg.provenance_via]
  cases hd : (Mapping.field fields descriptionKey).asText with
  | error e => rfl
  | ok t =>
    cases provenance (Mapping.field fields provenanceKey) with
    | error e => rfl
    | ok history =>
      have ht : t.via g = t := Value.via_of_asText hd
      have hname : Value.null.via g = .null := by simp [Scalar.via]
      simp only [bind, Except.bind, pure, Except.pure, Except.map, Shared.via, Shared.none, ht,
        hname]

theorem extrasOf_via (fields : Mapping) : extrasOf (fields.via g) = (extrasOf fields).via g := by
  rw [extrasOf, Mapping.without_via, Mapping.without_via, ← extrasOf]

theorem neutralOf_via (hg : g.Faithful) (a : Agent) (fields : Mapping) (content path : String) :
    neutralOf a (fields.via g) content path =
      (neutralOf a fields content path).map (Neutral.via g) := by
  have hname : Value.null.via g = .null := by simp [Scalar.via]
  rw [neutralOf, neutralOf, sharedOf_via hg, extrasOf_via]
  cases sharedOf fields with
  | error e => rfl
  | ok s => simp only [Except.map, bind, Except.bind, pure, Except.pure, Neutral.via, hname]


end Command

namespace Skill

theorem sharedName_via (a : Agent) (key : Scalar) :
    sharedName a (key.via g) = (sharedName a key).via g := by
  rw [sharedName, sharedName]
  simp only [Scalar.same_via_text]
  split <;> rfl

theorem extraKey_via (a : Agent) (key : Scalar) :
    extraKey a (key.via g) = (extraKey a key).map (Scalar.via g) := by
  unfold extraKey
  split
  · cases key with
    | text k =>
      have hshared := congrArg (Except.ok (ε := Misfit)) (sharedName_via (g := g) a (.text k))
      simp only [Scalar.via_text] at hshared ⊢
      split
      · rfl
      · exact hshared
    | torn k =>
      have hshared := congrArg (Except.ok (ε := Misfit)) (sharedName_via (g := g) a (.torn k))
      cases hk : FieldKey.unmarkTorn? k with
      | none => simp only [Scalar.via, hk]; exact hshared
      | some l => simp only [Scalar.via, hk]; rfl
    | _ => rfl
  · rw [sharedName_via]; rfl

/-- One field says the same whatever nodes its value has. -/
theorem addField_via (hg : g.Faithful) (a : Agent) (s : Shared) (extras : Mapping)
    (e : Scalar × Value) :
    addField a (s.via g, extras.via g) (e.1.via g, e.2.via g) =
      (addField a (s, extras) e).map fun r => (r.1.via g, r.2.via g) := by
  simp only [addField, Scalar.same_via_text, Value.bool?_via, hg.provenance_via, extraKey_via]
  split
  · rfl
  · split
    · rfl
    · split
      · cases provenance e.2 <;> rfl
      · cases extraKey a e.1 with
        | error x => rfl
        | ok k => simp only [Except.map, Mapping.set_via]

theorem foldlM_addField_via (hg : g.Faithful) (a : Agent) (fields : Mapping) (s : Shared)
    (extras : Mapping) :
    (fields.via g).foldlM (addField a) (s.via g, extras.via g) =
      (fields.foldlM (addField a) (s, extras)).map fun r => (r.1.via g, r.2.via g) := by
  induction fields generalizing s extras with
  | nil => rfl
  | cons e fields ih =>
    obtain ⟨k, v⟩ := e
    have hstep := addField_via hg a s extras (k, v)
    rw [Mapping.via_cons, List.foldlM_cons, List.foldlM_cons, hstep]
    cases addField a (s, extras) (k, v) with
    | error x => rfl
    | ok r => exact ih r.1 r.2

/-- The shared properties and the extras among fields are the same but for their
nodes. -/
theorem split_via (hg : g.Faithful) (a : Agent) (fields : Mapping) :
    split a (fields.via g) = (split a fields).map fun r => (r.1.via g, r.2.via g) := by
  rw [split, Mapping.field_via, Mapping.field_via]
  exact foldlM_addField_via hg a fields
    { Shared.none with
        name := Mapping.field fields nameKey
        description := Mapping.field fields descriptionKey } []

end Skill

/-! ## Writing -/

/-- Adds a field unless it is null. -/
theorem addField_via (key : String) (v : Value) (m : Mapping) :
    addField key (v.via g) (m.via g) = (addField key v m).via g := by
  rw [addField, addField, Value.isNull_via, Mapping.set_via_text]
  split <;> rfl

/-- A command of a spoke is read as what it was but for its nodes. -/
theorem Command.toNeutral_via (hg : g.Faithful) {a : Agent} (ha : a ≠ Agent.hub)
    (destination : Option String) (c : Command) :
    (c.via g).toNeutral a destination = (c.toNeutral a destination).map (Neutral.via g) := by
  cases c with
  | markdown fields content path =>
    simp only [via, toNeutral, if_neg ha, neutralOf_via hg]
  | table prompt description fields path =>
    simp only [via, toNeutral, withDescription, addField_via, neutralOf_via hg]
  | plain content path =>
    exact neutralOf_via hg a [] content path

namespace Skill

theorem permission?_via (hg : g.Faithful) (config : Mapping) :
    permission? (config.via g) = permission? config := by
  rw [permission?, permission?, Mapping.field_via, hg.entries?_via]
  cases (Mapping.field config policyKey).entries? with
  | none => rfl
  | some m => simp only [Option.map_some, Mapping.field_via, Value.bool?_via]

theorem withConfig_via (config extras : Mapping) :
    withConfig (config.via g) (extras.via g) = (withConfig config extras).via g := by
  rw [withConfig, withConfig, Mapping.without_via, Mapping.merge_via]

/-- A skill of a spoke is read as what it was but for its nodes. -/
theorem toNeutral_via (hg : g.Faithful) {a : Agent} (ha : a ≠ Agent.hub)
    (destination : Option String) (s : Skill) :
    (s.via g).toNeutral a destination = (s.toNeutral a destination).map (Neutral.via g) := by
  have hconfig : (s.via g).config.getD [] = (s.config.getD []).via g := by
    rw [via]
    cases s.config <;> rfl
  have hfields : (s.via g).fields = s.fields.via g := rfl
  simp only [toNeutral, if_neg ha, hfields, split_via hg, hconfig, permission?_via hg]
  cases split a s.fields with
  | error e => rfl
  | ok r =>
    simp only [Except.map, bind, Except.bind, pure, Except.pure, withConfig_via]
    by_cases hcodex : a = .codex
    · simp only [if_pos hcodex]
      rfl
    · simp only [if_neg hcodex]
      rfl

end Skill

theorem Value.via_phrases (o : List Phrase) :
    (Value.list (o.map Value.phrase)).via g = Value.list (o.map Value.phrase) := by
  have hmap : (o.map Value.phrase).map (Value.via g) = o.map Value.phrase := by
    rw [List.map_map]
    exact congrArg (fun f => o.map f) (funext fun s => by simp)
  rw [Value.list, Value.via_seq, hmap]
  rfl

theorem addHistory_via (history : Option (List Phrase)) (m : Mapping) :
    addHistory history (m.via g) = (addHistory history m).via g := by
  match history with
  | none => rfl
  | some [] => rfl
  | some (h :: hs) =>
    rw [addHistory, addHistory, ← Mapping.set_via_text, Value.via_phrases]

namespace Neutral

theorem addCommandExtras_via (a : Agent) (removeForeign : Bool) (extras fields : Mapping) :
    addCommandExtras a removeForeign (extras.via g) (fields.via g) =
      (addCommandExtras a removeForeign extras fields).via g := by
  unfold addCommandExtras
  induction extras generalizing fields with
  | nil => rfl
  | cons e extras ih =>
    obtain ⟨k, v⟩ := e
    have hkeeps : keepsCommandExtra a removeForeign (k.via g) =
        keepsCommandExtra a removeForeign k := by
      simp only [keepsCommandExtra, Scalar.same_via_text]
    rw [Mapping.via_cons, List.foldl_cons, List.foldl_cons]
    simp only [Mapping.contains_via, hkeeps, Mapping.set_via]
    split
    · exact ih fields
    · exact ih _

theorem commandFields_via (a : Agent) (removeForeign : Bool) (n : Neutral) :
    (n.via g).commandFields a removeForeign = (n.commandFields a removeForeign).via g := by
  have hdescription := addField_via (g := g) descriptionKey n.shared.description []
  rw [commandFields, commandFields, ← addHistory_via, ← addCommandExtras_via, ← hdescription]
  rfl

/-- A command written for a spoke has the same nodes as what is written. -/
theorem toCommand_via {a : Agent} (ha : a ≠ Agent.hub) (o : WriteOptions) (n : Neutral) :
    (n.via g).toCommand a o = (n.toCommand a o).via g := by
  have hbody : (n.via g).body = n.body := rfl
  have hpath : (n.via g).commandPath a = n.commandPath a := rfl
  simp only [toCommand, hbody, hpath, if_neg ha, commandFields_via]
  cases a.format with
  | plain => rfl
  | table => simp only [Command.via, Mapping.field_via, Mapping.without_via]
  | markdown => rfl

theorem ownName_via (a : Agent) (key : Scalar) : ownName a (key.via g) = (ownName a key).via g := by
  rw [ownName, ownName]
  simp only [Scalar.same_via_text]
  split <;> rfl

theorem isForeign_via (a : Agent) (key : Scalar) : isForeign a (key.via g) = isForeign a key := by
  simp only [isForeign, Scalar.same_via_text]

theorem keptName_via (a : Agent) (key : Scalar) :
    keptName a (key.via g) = (keptName a key).via g := by
  cases key with
  | text k =>
    have hmarked : ∀ b : Bool, ownName a (if b then .text (FieldKey.mark k) else .text k) =
        (ownName a (if b then .text (FieldKey.mark k) else .text k)).via g := by
      intro b
      cases b
      · exact ownName_via a (.text k)
      · exact ownName_via a (.text (FieldKey.mark k))
    exact hmarked _
  | date o d => exact ownName_via a (.date o d)
  | moment o m => exact ownName_via a (.moment o m)
  | null => exact ownName_via a .null
  | bool b => exact ownName_via a (.bool b)
  | int i => exact ownName_via a (.int i)
  | real x => exact ownName_via a (.real x)
  | bytes bs => exact ownName_via a (.bytes bs)
  | time t => exact ownName_via a (.time t)
  | torn k => exact ownName_via a (.torn k)

theorem addSkillExtras_via (a : Agent) (removeForeign : Bool) (extras fields : Mapping) :
    addSkillExtras a removeForeign (extras.via g) (fields.via g) =
      (addSkillExtras a removeForeign extras fields).via g := by
  unfold addSkillExtras
  induction extras generalizing fields with
  | nil => rfl
  | cons e extras ih =>
    obtain ⟨k, v⟩ := e
    rw [Mapping.via_cons, List.foldl_cons, List.foldl_cons]
    simp only [isForeign_via, keptName_via, Mapping.contains_via, Mapping.set_via]
    split
    · exact ih fields
    · exact ih _

theorem addInvocation_via (a : Agent) (removeForeign : Bool) (enabled : Option Bool)
    (m : Mapping) :
    addInvocation a removeForeign enabled (m.via g) =
      (addInvocation a removeForeign enabled m).via g := by
  have hset : ∀ (key : String) (b : Bool),
      Mapping.set (m.via g) (.text key) (.bool b) = (Mapping.set m (.text key) (.bool b)).via g :=
    fun key b => by
      rw [← Mapping.set_via_text, Value.via_scalar]
      rfl
  unfold addInvocation
  split
  · rfl
  · simp only [hset]
    split
    · rfl
    · split <;> rfl

theorem skillFields_via (a : Agent) (removeForeign : Bool) (n : Neutral) :
    (n.via g).skillFields a removeForeign = (n.skillFields a removeForeign).via g := by
  have hname := addField_via (g := g) nameKey n.shared.name []
  rw [skillFields, skillFields, ← addHistory_via, ← addSkillExtras_via, ← addInvocation_via,
    ← addField_via, ← hname]
  rfl

theorem withoutConfig_via (n : Neutral) : (n.via g).withoutConfig = n.withoutConfig.via g := by
  have hextras : configKeys.foldl (fun m k => Mapping.without m k) (n.extras.via g) =
      (configKeys.foldl (fun m k => Mapping.without m k) n.extras).via g := by
    simp only [configKeys, List.foldl_cons, List.foldl_nil, Mapping.without_via]
  rw [withoutConfig, withoutConfig]
  exact congrArg (fun m => { n.via g with extras := m }) hextras

theorem skillConfig_via (n : Neutral) : (n.via g).skillConfig = n.skillConfig.via g := by
  have hfold : ∀ start : Mapping,
      configKeys.foldl (fun m k => addField k (Mapping.field (n.extras.via g) k) m) (start.via g) =
        (configKeys.foldl (fun m k => addField k (Mapping.field n.extras k) m) start).via g := by
    intro start
    simp only [configKeys, List.foldl_cons, List.foldl_nil, Mapping.field_via, addField_via]
  rw [skillConfig, skillConfig, ← hfold]
  have hstart : (n.via g).shared.invocation = n.shared.invocation := rfl
  rw [hstart]
  cases n.shared.invocation with
  | none => rfl
  | some b =>
    have hpolicy : Mapping.via g
        [(.text Skill.policyKey, Value.mapping [(.text Skill.permissionKey, .bool b)])] =
          [(.text Skill.policyKey, Value.mapping [(.text Skill.permissionKey, .bool b)])] := by
      simp [Value.mapping, Origin.via, Scalar.via]
    simp only [hpolicy]
    rfl

/-- A skill written for a spoke has the same nodes as what is written. -/
theorem toSkill_via {a : Agent} (ha : a ≠ Agent.hub) (o : WriteOptions) (n : Neutral) :
    (n.via g).toSkill a o = (n.toSkill a o).via g := by
  have hbody : (n.via g).body = n.body := rfl
  have hname : (n.via g).background.skillName = n.background.skillName.via g := rfl
  have hpath : (n.via g).background.path = n.background.path := rfl
  have hsupport : (n.via g).background.support = n.background.support := rfl
  simp only [toSkill, Skill.via, hbody, hname, hpath, hsupport, if_neg ha, withoutConfig_via,
    skillFields_via, skillConfig_via, Value.truthy_via, Mapping.isEmpty_via]
  congr 1
  · split
    · rfl
    · simp
  · split <;> rfl
  · split <;> rfl

end Neutral

/-! ## Texts and files -/

namespace Draft

theorem describes_via (v : Value) : describes (v.via g) = describes v := by
  cases v with
  | scalar s => cases s <;> simp [describes, Scalar.via]
  | _ => simp [describes]

theorem tableOf_via (prompt : String) (description : Value) (fields : Mapping) :
    tableOf (.text prompt) (description.via g) (fields.via g) =
      (tableOf (.text prompt) description fields).map (Mapping.via g) := by
  have hrest : (Mapping.clean (fields.via g)).filter (fun e =>
      !(e.1.same (.text descriptionKey) || e.1.same (.text promptKey))) =
        Mapping.via g ((Mapping.clean fields).filter fun e =>
          !(e.1.same (.text descriptionKey) || e.1.same (.text promptKey))) := by
    rw [Mapping.clean_via]
    exact Mapping.filter_via (fun e => by simp only [Scalar.same_via_text]) _
  rw [tableOf, tableOf, describes_via, hrest]
  cases describes description with
  | error e => rfl
  | ok told =>
    have hstart : (if told then [(Scalar.text descriptionKey, description.via g)] else []) =
        Mapping.via g (if told then [(Scalar.text descriptionKey, description)] else []) := by
      cases told <;> rfl
    have hprompt : (Value.text prompt).via g = .text prompt := by simp
    simp only [bind, Except.bind, pure, Except.pure, Except.map, hstart, Mapping.merge_via]
    rw [← Mapping.set_via_text, hprompt]

theorem joined_via (hg : g.Faithful) (fields : Mapping) (content : String) :
    joined (fields.via g) content = joined fields content := by
  rw [joined, Frontmatter.join_via hg, ← joined]

end Draft

/-- A command has the same text whatever nodes it has. -/
theorem Command.text_via (hg : g.Faithful) (c : Command) : (c.via g).text = c.text := by
  cases c with
  | markdown fields content path =>
    exact congrArg (Except.map Phrase.whole) (Draft.joined_via hg fields content)
  | table prompt description fields path =>
    rw [via, text, text, Draft.tableOf_via]
    cases Draft.tableOf (.text prompt) description fields with
    | error e => rfl
    | ok t =>
      change (Toml.write (t.via g)).mapError _ = (Toml.write t).mapError _
      rw [Toml.write_via hg]
  | plain content path => rfl

theorem Skill.text_via (hg : g.Faithful) (s : Skill) : (s.via g).text = s.text :=
  Draft.joined_via hg s.fields s.content

/-- A skill makes the same files whatever nodes it has. -/
theorem Skill.write_via (hg : g.Faithful) (a : Agent) (s : Skill) (source : Option Path)
    (target : Path) : write a (s.via g) source target = write a s source target := by
  have hconfig : (s.via g).fullConfig? = s.fullConfig?.map (Mapping.via g) := by
    simp only [fullConfig?, Skill.via]
    cases s.config with
    | none => rfl
    | some m =>
      rw [Option.map_some, Option.filter_some, Option.filter_some, Mapping.isEmpty_via]
      split <;> rfl
  have hwritten : ∀ config, writeConfig target (Mapping.via g config) =
      writeConfig target config := by
    intro config
    rw [writeConfig, Yaml.write_via (Yaml.Sound.of_faithful hg _), ← writeConfig]
  have hsupport : (s.via g).support = s.support := rfl
  unfold write
  rw [Skill.text_via hg, hsupport, hconfig]
  cases s.fullConfig? with
  | none => rfl
  | some config => simp only [Option.map_some, hwritten]

end AgentRelay
