import AgentRelay.Proofs.Hub.History
import AgentRelay.Proofs.Neutral.SharedKeys

/-
  One hop: a document of one agent is read for another agent and written for it.

  An agent adds the extras it keeps behind the shared properties and may leave
  some out. What it added is read back without touching a shared property as long
  as no extra has the name of one (`FreeName`). So a skill that was written is
  read with the shared properties it had (`read_written`), and its extras still
  have such names (`free_read_written`). The same is shown for commands
  (`command_read_written`, `command_lacks_read_written`).
-/

namespace AgentRelay

/-! ## Hops -/

/-- A skill of one agent, written for another one. -/
def Skill.hop (a b : Agent) (o : WriteOptions) (s : Skill) : Except Misfit Skill :=
  (Skill.toNeutral a (some b.name) s).map (Neutral.toSkill b o)

/-- A command of one agent, written for another one. -/
def Command.hop (a b : Agent) (o : WriteOptions) (c : Command) : Except Misfit Command :=
  (Command.toNeutral a (some b.name) c).map (Neutral.toCommand b o)

theorem Skill.hop_of_ok {a b : Agent} {o : WriteOptions} {s : Skill} {n : Neutral}
    (h : toNeutral a (some b.name) s = .ok n) : hop a b o s = .ok (n.toSkill b o) := by
  rw [hop, h]; rfl

theorem Command.hop_of_ok {a b : Agent} {o : WriteOptions} {c : Command} {n : Neutral}
    (h : toNeutral a (some b.name) c = .ok n) : hop a b o c = .ok (n.toCommand b o) := by
  rw [hop, h]; rfl

/-! ## Histories that were read -/

theorem provenance_ne_nil {v : Value} {history : Option (List Phrase)}
    (h : provenance v = .ok history) : history ≠ some [] := by
  rintro rfl
  unfold provenance at h
  split at h
  · rename_i s
    have hs := Except.ok.inj h
    split at hs <;> exact nomatch hs
  · exact nomatch h
  · split at h
    · rename_i xs _
      obtain ⟨ts, -, hs⟩ := exists_of_map_eq_ok h
      unfold nonempty? at hs
      split at hs
      · exact nomatch hs
      · rename_i hne
        obtain rfl := Option.some.inj hs
        exact hne rfl
    · exact nomatch h

theorem contains_historyField {history : Option (List Phrase)} (h : history ≠ some []) :
    Mapping.contains (Neutral.historyField history) (.text provenanceKey) = history.isSome := by
  match history, h with
  | none, _ => rfl
  | some (x :: xs), _ => rfl

/-- The fields tell a history exactly where there is one. -/
theorem contains_provenance {m : Mapping} {history : Option (List Phrase)}
    (hm : m.Lacks (.text provenanceKey)) (h : history ≠ some []) :
    Mapping.contains (m ++ Neutral.historyField history) (.text provenanceKey) =
      history.isSome := by
  rw [Mapping.contains, Mapping.get?_append, Mapping.get?_eq_none_iff.mpr hm, Option.none_or]
  exact contains_historyField h

/-! ## Names of extras -/

/-- The name of an extra that no agent takes for the name of a shared property. -/
def FreeName : Scalar → Prop
  | .text k => k ∉ skillKeys ∧ FieldKey.isMarked k = false
  | .torn k => FieldKey.unmarkTorn? k = none
  | _ => False

def FreeExtras (m : Mapping) : Prop := ∀ e ∈ m, FreeName e.1

/-- One name alone is free and not plain: the alias of an agent. -/
theorem FreeName.plain_or {key : Scalar} (h : FreeName key) :
    PlainName key ∨ key = .text "user-invokable" := by
  cases key with
  | text k =>
    obtain ⟨hk, hm⟩ := h
    by_cases ha : k = "user-invokable"
    · exact Or.inr (by rw [ha])
    · refine Or.inl ⟨?_, hm⟩
      simp only [skillKeys, List.mem_cons, List.not_mem_nil, or_false, not_or] at hk
      simp [reservedNames, hk, ha]
  | torn k => exact Or.inl h
  | _ => exact h.elim

theorem FreeName.of_plain {key : Scalar} (h : PlainName key) : FreeName key := by
  cases key with
  | text k =>
    obtain ⟨hk, hm⟩ := h
    refine ⟨?_, hm⟩
    simp only [reservedNames, List.mem_cons, List.not_mem_nil, or_false, not_or] at hk
    simp [skillKeys, hk]
  | torn k => exact h
  | _ => exact h.elim

/-- A free name is kept under no shared property's name. -/
theorem FreeName.keptName_ne (a : Agent) {key : Scalar} (h : FreeName key) {t : String}
    (ht : t ∈ sharedNames) : Neutral.keptName a key ≠ .text t := by
  rcases h.plain_or with hp | rfl
  · exact AgentRelay.keptName_ne a hp ht
  · have hall : ∀ t ∈ sharedNames, Neutral.keptName a (.text "user-invokable") ≠ .text t := by
      cases a <;> decide
    exact hall t ht

/-- What was kept of a free name is read as a free name. -/
theorem FreeName.extraKey_keptName (a : Agent) {key : Scalar} (h : FreeName key) :
    ∃ k, Skill.extraKey a (Neutral.keptName a key) = .ok k ∧ FreeName k := by
  rcases h.plain_or with hp | rfl
  · exact ⟨key, AgentRelay.extraKey_keptName a hp, h⟩
  · -- The agent with the alias reads the shared name behind it.
    by_cases ha : a = .copilot
    · subst ha
      exact ⟨.text "user-invocable", rfl, by decide, by decide⟩
    · refine ⟨.text "user-invokable", ?_, by decide, by decide⟩
      cases a <;> first | rfl | exact absurd rfl ha

namespace FreeExtras

theorem nil : FreeExtras [] := fun _ he => absurd he List.not_mem_nil

theorem of_subset {m n : Mapping} (h : FreeExtras m) (hs : ∀ e ∈ n, e ∈ m) : FreeExtras n :=
  fun e he => h e (hs e he)

theorem filter {m : Mapping} (h : FreeExtras m) (p : Scalar × Value → Bool) :
    FreeExtras (m.filter p) :=
  h.of_subset fun _ he => (List.mem_filter.mp he).1

theorem set {m : Mapping} (h : FreeExtras m) {key : Scalar} (hk : FreeName key) (v : Value) :
    FreeExtras (Mapping.set m key v) := by
  intro e he
  rcases Mapping.key_of_mem_set he with hkey | ⟨f, hf, hkey⟩
  · rw [hkey]; exact hk
  · rw [hkey]; exact h f hf

theorem merge {m n : Mapping} (hm : FreeExtras m) (hn : FreeExtras n) :
    FreeExtras (Mapping.merge m n) := by
  intro e he
  obtain ⟨f, hf, hkey⟩ := Mapping.key_of_mem_merge he
  rw [hkey]
  rcases List.mem_append.mp hf with hf | hf
  · exact hm f hf
  · exact hn f hf

theorem withoutConfig {n : Neutral} (h : FreeExtras n.extras) :
    FreeExtras n.withoutConfig.extras :=
  (h.filter _).filter _

end FreeExtras

/-! ## Skills that were written -/

namespace Neutral

/-- Extras are added behind the fields that are there, each under its kept name. -/
theorem addSkillExtras_added (a : Agent) (removeForeign : Bool) (extras fields : Mapping) :
    ∃ added, addSkillExtras a removeForeign extras fields = fields ++ added ∧
      ∀ e ∈ added, ∃ f ∈ extras, e.1 = keptName a f.1 := by
  unfold addSkillExtras
  induction extras generalizing fields with
  | nil => exact ⟨[], by simp, fun e he => absurd he List.not_mem_nil⟩
  | cons f extras ih =>
    rw [List.foldl_cons]
    by_cases hc : ((isForeign a f.1 && removeForeign) ||
        Mapping.contains fields (keptName a f.1)) = true
    · obtain ⟨added, heq, hkeys⟩ := ih fields
      refine ⟨added, by simpa only [hc, if_true] using heq, fun e he => ?_⟩
      obtain ⟨g, hg, hk⟩ := hkeys e he
      exact ⟨g, List.mem_cons_of_mem _ hg, hk⟩
    · obtain ⟨added, heq, hkeys⟩ := ih (fields ++ [(keptName a f.1, f.2)])
      have hl : fields.Lacks (keptName a f.1) := by
        rw [← Mapping.contains_eq_false_iff, ← Bool.not_eq_true]
        exact fun h => hc (by rw [h, Bool.or_true])
      refine ⟨(keptName a f.1, f.2) :: added, ?_, fun e he => ?_⟩
      · simp only [hc, Bool.false_eq_true, if_false, Mapping.set_of_lacks hl]
        rw [heq]; simp
      · rcases List.mem_cons.mp he with rfl | he
        · exact ⟨f, by simp, rfl⟩
        · obtain ⟨g, hg, hk⟩ := hkeys e he
          exact ⟨g, List.mem_cons_of_mem _ hg, hk⟩

/-- Extras with free names are added under names that are kept for free ones. -/
theorem free_addSkillExtras (a : Agent) (removeForeign : Bool) {extras : Mapping}
    (hx : FreeExtras extras) (fields : Mapping) :
    ∃ added, addSkillExtras a removeForeign extras fields = fields ++ added ∧
      ∀ e ∈ added, ∃ key, FreeName key ∧ e.1 = keptName a key := by
  obtain ⟨added, hadd, hkeys⟩ := addSkillExtras_added a removeForeign extras fields
  refine ⟨added, hadd, fun e he => ?_⟩
  obtain ⟨f, hf, hk⟩ := hkeys e he
  exact ⟨f.1, hx f hf, hk⟩

/-- What an agent writes the extras of in front of a skill: one agent keeps two of
them in its configuration. -/
def routed (b : Agent) (n : Neutral) : Neutral := if b = .codex then n.withoutConfig else n

/-- The shared properties that are read from what was written: the configuration
tells who may use the skill even where no field does. -/
def arrived (b : Agent) (removeForeign : Bool) (s : Shared) : Shared :=
  if b = .codex then s else toldBy b removeForeign s

theorem fields_toSkill {b : Agent} (hb : b ≠ Agent.hub) (n : Neutral) (o : WriteOptions) :
    (n.toSkill b o).fields = (routed b n).skillFields b o.removeForeign := by
  unfold toSkill routed
  rw [if_neg hb]
  split <;> rfl

theorem shared_routed (b : Agent) (n : Neutral) : (routed b n).shared = n.shared := by
  unfold routed; split <;> rfl

/-- Who may use a skill is read from the configuration, or else from the field. -/
theorem sharedWith_toSkill (b : Agent) (n : Neutral) (o : WriteOptions) :
    Skill.sharedWith b ((n.toSkill b o).config.getD []) (toldBy b o.removeForeign n.shared) =
      arrived b o.removeForeign n.shared := by
  unfold Skill.sharedWith arrived
  split
  · rename_i hb
    subst hb
    rw [config_toSkill, permission_skillConfig]
    obtain ⟨description, name, invocation, history⟩ := n.shared
    cases invocation <;> cases o.removeForeign <;> rfl
  · rfl

/-- What is added behind the shared properties of a skill is read back beside them. -/
theorem read_written {b : Agent} (hb : b ≠ Agent.hub) {n : Neutral} {o : WriteOptions}
    {added extras : Mapping} (hu : Unshared added)
    (hadd : addSkillExtras b o.removeForeign (routed b n).extras
        (leadingFields b (toldBy b o.removeForeign n.shared)) =
      leadingFields b (toldBy b o.removeForeign n.shared) ++ added)
    (hread : ∀ t, added.foldlM (Skill.addField b) (t, []) = .ok (t, extras))
    (hh : n.shared.history ≠ some []) :
    (n.toSkill b o).fields = leadingFields b (toldBy b o.removeForeign n.shared) ++ added ++
        historyField n.shared.history ∧
      ∀ d, ∃ m, Skill.toNeutral b d (n.toSkill b o) = .ok m ∧
        m.shared = arrived b o.removeForeign n.shared ∧
        m.extras = (if b = .codex then Skill.withConfig n.skillConfig extras else extras) ∧
        m.background.agent = some b.name := by
  rw [← shared_routed b n] at hadd
  have hfields : (n.toSkill b o).fields =
      leadingFields b (toldBy b o.removeForeign n.shared) ++ added ++
        historyField n.shared.history := by
    rw [fields_toSkill hb, skillFields_of_added hu hadd, shared_routed]
  refine ⟨hfields, fun d => ?_⟩
  have hsplit : Skill.split b (n.toSkill b o).fields =
      .ok (toldBy b o.removeForeign n.shared, extras) := by
    rw [hfields, ← toldBy_history b o.removeForeign]
    exact Skill.split_written b _ hu hread (by simpa using hh)
  refine ⟨_, Skill.toNeutral_of_split d (by rw [if_neg hb]; exact hsplit),
    sharedWith_toSkill b n o, ?_, rfl⟩
  by_cases hx : b = .codex
  · subst hx
    simp [Skill.extrasWith, config_toSkill, Agent.hub]
  · simp [Skill.extrasWith, hb, hx]

/-- Without loss, extras with plain names and values are read as they were, in some
order. -/
theorem plain_read_written {b : Agent} (hb : b ≠ Agent.hub) {n : Neutral}
    (hx : PlainExtras n.extras) (hfull : ∀ e ∈ n.extras, e.2.isNull = false)
    (hh : n.shared.history ≠ some []) (existing : Mapping) (d : Option String) :
    ∃ m, Skill.toNeutral b d (n.toSkill b ⟨false, existing⟩) = .ok m ∧ m.shared = n.shared ∧
      Mapping.Alike m.extras n.extras ∧ m.background.agent = some b.name := by
  have hrouted : PlainExtras (routed b n).extras := by
    unfold routed
    split
    · exact PlainExtras.withoutConfig hx
    · exact hx
  obtain ⟨-, hall⟩ := read_written (o := ⟨false, existing⟩) hb (unshared_keptExtras hrouted)
    (addSkillExtras_of_plain hrouted fun e he =>
      leadingFields_lacks_keptName b _ (hrouted.plain e he))
    (fun t => Skill.foldlM_keptExtras b t hrouted fun _ _ _ hf => absurd hf List.not_mem_nil) hh
  obtain ⟨m, hm, hshared, hextras, hagent⟩ := hall d
  refine ⟨m, hm, ?_, ?_, hagent⟩
  · rw [hshared, arrived, toldBy_false, ite_self]
  · rw [hextras]
    split
    · rename_i hcodex
      simp only [routed, hcodex, if_true, List.nil_append]
      exact alike_withConfig hx hfull
    · rename_i hcodex
      simp only [routed, hcodex, if_false, List.nil_append]
      exact List.Perm.refl _

/-- What was kept of free names is read as extras with free names. -/
theorem foldlM_free {b : Agent} {added m : Mapping} (hm : FreeExtras m)
    (h : ∀ e ∈ added, ∃ key, FreeName key ∧ e.1 = keptName b key) :
    ∃ extras, FreeExtras extras ∧
      ∀ t, added.foldlM (Skill.addField b) (t, m) = .ok (t, extras) := by
  induction added generalizing m with
  | nil => exact ⟨m, hm, fun _ => rfl⟩
  | cons e added ih =>
    obtain ⟨key, hkey, he⟩ := h e (by simp)
    obtain ⟨k, hread, hk⟩ := hkey.extraKey_keptName b
    obtain ⟨extras, hfree, hrest⟩ := ih (hm.set hk e.2) fun f hf => h f (List.mem_cons_of_mem _ hf)
    refine ⟨extras, hfree, fun t => ?_⟩
    have hstep : Skill.addField b (t, m) e = .ok (t, Mapping.set m k e.2) := by
      rw [← he] at hread
      exact Skill.addField_unshared (fun s hs => he ▸ hkey.keptName_ne b hs) hread t m e.2
    rw [List.foldlM_cons, hstep]
    exact hrest t

theorem lacks_leading_provenance (b : Agent) (s : Shared) {added : Mapping} (hu : Unshared added) :
    (leadingFields b s ++ added).Lacks (.text provenanceKey) := by
  refine lacks_of_ne fun e he => ?_
  rcases List.mem_append.mp he with he | he
  · have hne : invocationName b ≠ provenanceKey := by cases b <;> decide
    rcases key_of_mem_leadingFields he with hk | hk | hk
    · rw [hk]; decide
    · rw [hk]; decide
    · rw [hk]; simpa using hne
  · exact hu e he provenanceKey (by decide)

/-- The extras that go into a configuration have names of their own. -/
theorem free_routedExtras (extras : Mapping) : FreeExtras (routedExtras extras) := by
  intro e he
  rcases List.mem_append.mp he with he | he <;> rw [key_of_mem_optionalField he]
  · exact ⟨by decide, by decide⟩
  · exact ⟨by decide, by decide⟩

/-- What was kept of free names has no shared property's name. -/
theorem unshared_of_kept {b : Agent} {added : Mapping}
    (h : ∀ e ∈ added, ∃ key, FreeName key ∧ e.1 = keptName b key) : Unshared added := by
  intro e he t ht
  obtain ⟨key, hkey, hk⟩ := h e he
  exact hk ▸ hkey.keptName_ne b ht

/-- The hub keeps the shared properties, and the extras in a block. -/
theorem fields_toSkill_hub_free {n : Neutral} (hx : FreeExtras n.extras) (o : WriteOptions) :
    (n.toSkill Agent.hub o).fields =
      Hub.addSection n.background.agent n.extras o.existing (hubFields n.shared) := by
  have htold : toldBy Agent.hub o.removeForeign n.shared = n.shared := by
    simp [toldBy, Agent.hub, Agent.marksForeignFields]
  obtain ⟨added, hadd, hkept⟩ := free_addSkillExtras Agent.hub o.removeForeign hx
    (leadingFields Agent.hub (toldBy Agent.hub o.removeForeign n.shared))
  have hu : Unshared added := unshared_of_kept hkept
  simp only [toSkill, hubSkillFields, if_true, skillFields_of_added hu hadd, hub_filter _ hu, htold,
    hubFields]

/-- What an agent reads from a skill that was written for it: the shared properties
it was told, and extras with free names. -/
theorem free_read_written (b : Agent) {n : Neutral} (hx : FreeExtras n.extras)
    (hh : n.shared.history ≠ some []) (removeForeign : Bool) (d : Option String) :
    (∃ m, Skill.toNeutral b d (n.toSkill b ⟨removeForeign, []⟩) = .ok m ∧
        m.shared = arrived b removeForeign n.shared ∧ FreeExtras m.extras) ∧
      Mapping.contains (n.toSkill b ⟨removeForeign, []⟩).fields (.text provenanceKey) =
        n.shared.history.isSome := by
  by_cases hb : b = Agent.hub
  · subst hb
    have hfields := fields_toSkill_hub_free hx ⟨removeForeign, []⟩
    have hown : Mapping.without (n.toSkill Agent.hub ⟨removeForeign, []⟩).fields Hub.sectionKey =
        hubFields n.shared := by
      rw [hfields, Hub.without_addSection _ _ _ (hubFields_lacks _)]
    refine ⟨⟨_, Skill.toNeutral_of_split d (by rw [if_pos rfl, hown]; exact split_hubFields hh),
      rfl, ?_⟩, ?_⟩
    · simp only [Skill.extrasWith, if_true, hfields]
      intro e he
      obtain ⟨f, hf, hk⟩ := Hub.key_of_mem_extrasFor_new (hubFields_lacks _) he
      exact hk ▸ hx f hf
    · have hlacks : (leadingFields Agent.hub n.shared ++ []).Lacks (.text provenanceKey) :=
        lacks_leading_provenance Agent.hub n.shared fun _ he => absurd he List.not_mem_nil
      rw [List.append_nil] at hlacks
      rw [hfields, Mapping.contains, Hub.get?_addSection _ _ _ _ (by decide), ← Mapping.contains]
      exact contains_provenance hlacks hh
  · have hrouted : FreeExtras (routed b n).extras := by
      unfold routed
      split
      · exact hx.withoutConfig
      · exact hx
    obtain ⟨added, hadd, hkept⟩ := free_addSkillExtras b removeForeign hrouted
      (leadingFields b (toldBy b removeForeign n.shared))
    have hu := unshared_of_kept hkept
    obtain ⟨extras, hfree, hread⟩ := foldlM_free FreeExtras.nil hkept
    obtain ⟨hfields, hall⟩ := read_written (o := ⟨removeForeign, []⟩) hb hu hadd hread hh
    obtain ⟨m, hm, hshared, hextras, -⟩ := hall d
    refine ⟨⟨m, hm, hshared, ?_⟩, ?_⟩
    · rw [hextras]
      split
      · rw [Skill.withConfig, without_skillConfig]
        exact hfree.merge (free_routedExtras _)
      · exact hfree
    · rw [hfields]
      exact contains_provenance (lacks_leading_provenance b _ hu) hh

end Neutral

/-! ## Commands that were written -/

namespace Command

/-- What a command can tell: a description that is a text or none, and a history. -/
structure Told (s : Shared) : Prop where
  description : s.description.asText = .ok s.description
  name : s.name = .null
  invocation : s.invocation = none
  history : s.history ≠ some []

theorem told_of_sharedOf {fields : Mapping} {s : Shared} (h : sharedOf fields = .ok s) :
    Told s := by
  obtain ⟨t, ht, h⟩ := exists_of_bind_eq_ok h
  obtain ⟨history, hp, h⟩ := exists_of_bind_eq_ok h
  obtain rfl := Except.ok.inj h
  exact ⟨Hub.asText_of_asText ht, rfl, rfl, provenance_ne_nil hp⟩

/-- Every command that was read tells what a command can tell. -/
theorem told_of_toNeutral {a : Agent} {d : Option String} {c : Command} {n : Neutral}
    (h : toNeutral a d c = .ok n) : Told n.shared := by
  cases c with
  | markdown fields content path =>
    by_cases ha : a = Agent.hub
    · rw [toNeutral, if_pos ha] at h
      obtain ⟨m, hn, h⟩ := exists_of_bind_eq_ok h
      obtain rfl := Except.ok.inj h
      exact told_of_sharedOf (s := m.shared) (Hub.sharedOf_of_neutralOf hn)
    · rw [toNeutral, if_neg ha] at h
      exact told_of_sharedOf (Hub.sharedOf_of_neutralOf h)
  | table prompt description fields path => exact told_of_sharedOf (Hub.sharedOf_of_neutralOf h)
  | plain content path => exact told_of_sharedOf (Hub.sharedOf_of_neutralOf h)

theorem Told.eq {s : Shared} (h : Told s) :
    { Shared.none with description := s.description, history := s.history } = s := by
  obtain ⟨description, name, invocation, history⟩ := s
  obtain ⟨-, rfl, rfl, -⟩ := h
  rfl

theorem Told.keptHistory {s : Shared} (h : Told s) : Hub.keptHistory s.history = s.history := by
  match s.history, h.history with
  | none, _ => rfl
  | some (_ :: _), _ => rfl

theorem sharedOf_eq {fields : Mapping} {s : Shared} (hs : Told s)
    (hd : Mapping.field fields descriptionKey = s.description)
    (hp : Mapping.field fields provenanceKey =
      Mapping.field (Neutral.historyField s.history) provenanceKey) :
    sharedOf fields = .ok s := by
  rw [sharedOf, hd, hs.description, hp, Hub.provenance_historyField, hs.keptHistory]
  exact congrArg Except.ok hs.eq

theorem neutralOf_of_sharedOf {fields : Mapping} {s : Shared} (h : sharedOf fields = .ok s)
    (a : Agent) (content path : String) :
    ∃ n, neutralOf a fields content path = .ok n ∧ n.shared = s ∧ n.extras = extrasOf fields ∧
      n.background.agent = some a.name :=
  ⟨⟨.command, bodyOf a content, s, extrasOf fields, ⟨path, some a.name, none, .null⟩⟩,
    by rw [neutralOf, h]; rfl, rfl, rfl, rfl⟩

theorem extrasOf_append (m n : Mapping) : extrasOf (m ++ n) = extrasOf m ++ extrasOf n := by
  simp [extrasOf, Mapping.without]

theorem extrasOf_description (v : Value) :
    extrasOf (Neutral.optionalField descriptionKey v) = [] := by
  rw [extrasOf, Mapping.without, Mapping.without, List.filter_filter]
  refine List.filter_eq_nil_iff.mpr fun e he => ?_
  rw [Neutral.key_of_mem_optionalField he]; decide

theorem extrasOf_history (history : Option (List Phrase)) :
    extrasOf (Neutral.historyField history) = [] := by
  rw [extrasOf, Mapping.without, Mapping.without, List.filter_filter]
  refine List.filter_eq_nil_iff.mpr fun e he => ?_
  rw [Neutral.key_of_mem_historyField he]; decide

theorem extrasOf_of_lacks {m : Mapping} (hd : m.Lacks (.text descriptionKey))
    (hp : m.Lacks (.text provenanceKey)) : extrasOf m = m := by
  rw [extrasOf, Hub.without_of_lacks hd, Hub.without_of_lacks hp]

/-- The fields of a command that have no place of their own in its form. -/
def otherFields : Command → Mapping
  | markdown fields _ _ => fields
  | table _ _ fields _ => fields
  | plain _ _ => []

end Command

namespace Neutral

/-- Extras are added behind the fields that are there, as they are. -/
theorem addCommandExtras_added (a : Agent) (removeForeign : Bool) (extras fields : Mapping) :
    ∃ added, addCommandExtras a removeForeign extras fields = fields ++ added ∧
      ∀ e ∈ added, e ∈ extras := by
  unfold addCommandExtras
  induction extras generalizing fields with
  | nil => exact ⟨[], by simp, fun e he => absurd he List.not_mem_nil⟩
  | cons f extras ih =>
    rw [List.foldl_cons]
    by_cases hc : (Mapping.contains fields f.1 || !keepsCommandExtra a removeForeign f.1) = true
    · obtain ⟨added, heq, hmem⟩ := ih fields
      exact ⟨added, by simpa only [hc, if_true] using heq,
        fun e he => List.mem_cons_of_mem _ (hmem e he)⟩
    · obtain ⟨added, heq, hmem⟩ := ih (fields ++ [f])
      have hl : fields.Lacks f.1 := by
        rw [← Mapping.contains_eq_false_iff, ← Bool.not_eq_true]
        exact fun h => hc (by rw [h, Bool.true_or])
      refine ⟨f :: added, ?_, fun e he => ?_⟩
      · simp only [hc, Bool.false_eq_true, if_false, Mapping.set_of_lacks hl]
        rw [heq]; simp
      · rcases List.mem_cons.mp he with rfl | he
        · simp
        · exact List.mem_cons_of_mem _ (hmem e he)

theorem lacks_description_append {m : Mapping} (hm : m.Lacks (.text provenanceKey)) (v : Value) :
    Mapping.Lacks (optionalField descriptionKey v ++ m) (.text provenanceKey) := by
  intro e he
  rcases List.mem_append.mp he with he | he
  · rw [key_of_mem_optionalField he]; decide
  · exact hm e he

theorem commandFields_of_added {a : Agent} {removeForeign : Bool} {n : Neutral} {added : Mapping}
    (hadd : addCommandExtras a removeForeign n.extras
        (optionalField descriptionKey n.shared.description) =
      optionalField descriptionKey n.shared.description ++ added)
    (hp : added.Lacks (.text provenanceKey)) :
    n.commandFields a removeForeign =
      optionalField descriptionKey n.shared.description ++ added ++
        historyField n.shared.history := by
  rw [commandFields, addField_of_lacks (fun _ he => absurd he List.not_mem_nil), List.nil_append,
    hadd, addHistory_of_lacks (lacks_description_append hp _)]

theorem lacks_append_history {m : Mapping} (hm : m.Lacks (.text descriptionKey))
    (history : Option (List Phrase)) :
    Mapping.Lacks (m ++ historyField history) (.text descriptionKey) := by
  intro e he
  rcases List.mem_append.mp he with he | he
  · exact hm e he
  · rw [key_of_mem_historyField he]; decide

/-- What a table keeps beside its description and its prompt. -/
theorem without_prompt_description {added : Mapping} (hd : added.Lacks (.text descriptionKey))
    (v : Value) (history : Option (List Phrase)) :
    (Mapping.without (optionalField descriptionKey v ++ added ++ historyField history)
        promptKey).without descriptionKey =
      Mapping.without added promptKey ++ historyField history := by
  have hdescription : (Mapping.without (optionalField descriptionKey v) promptKey).without
      descriptionKey = [] := by
    rw [Mapping.without, Mapping.without, List.filter_filter]
    refine List.filter_eq_nil_iff.mpr fun e he => ?_
    rw [key_of_mem_optionalField he]; decide
  have hhistory : ∀ key, key ≠ provenanceKey →
      Mapping.without (historyField history) key = historyField history := by
    intro key hne
    refine Hub.without_of_lacks fun e he => ?_
    rw [key_of_mem_historyField he]
    simpa using hne.symm
  have hadded : (Mapping.without added promptKey).without descriptionKey =
      Mapping.without added promptKey :=
    Hub.without_of_lacks fun e he => hd e (List.mem_filter.mp he).1
  simp only [Mapping.without_append, hdescription, hadded, hhistory promptKey (by decide),
    hhistory descriptionKey (by decide), List.nil_append]

/-- A table with its description put behind the other fields tells what it told. -/
theorem sharedOf_table {s : Shared} (hs : Command.Told s) {added : Mapping}
    (hd : added.Lacks (.text descriptionKey)) (hp : added.Lacks (.text provenanceKey)) :
    Command.sharedOf (added ++ historyField s.history ++
      optionalField descriptionKey s.description) = .ok s := by
  have hempty : Mapping.Lacks [] (.text descriptionKey) := nofun
  refine Command.sharedOf_eq hs ?_ ?_
  · rw [Skill.field_append_of_lacks (lacks_append_history hd _),
      ← List.append_nil (optionalField descriptionKey s.description)]
    exact Skill.field_optionalField_append _ _ hempty
  · have hlast : Mapping.get? (optionalField descriptionKey s.description)
        (.text provenanceKey) = none :=
      Mapping.get?_eq_none_iff.mpr fun e he => by rw [key_of_mem_optionalField he]; decide
    rw [List.append_assoc, Skill.field_append_of_lacks hp, Mapping.field, Mapping.get?_append,
      hlast, Option.or_none, ← Mapping.field]

/-- What is added behind the description of a command is read back beside it. A table
has the prompt at the place of a field of that name. -/
theorem command_read_written {b : Agent} (hb : b ≠ Agent.hub) (hc : b ≠ .cursor) {n : Neutral}
    {o : WriteOptions} {added : Mapping} (hs : Command.Told n.shared)
    (hadd : addCommandExtras b o.removeForeign n.extras
        (optionalField descriptionKey n.shared.description) =
      optionalField descriptionKey n.shared.description ++ added)
    (hd : added.Lacks (.text descriptionKey)) (hp : added.Lacks (.text provenanceKey)) :
    (∀ d, ∃ m, Command.toNeutral b d (n.toCommand b o) = .ok m ∧ m.shared = n.shared ∧
        m.extras = (if b.format = .table then Mapping.without added promptKey else added) ∧
        m.background.agent = some b.name) ∧
      Mapping.contains (n.toCommand b o).otherFields (.text provenanceKey) =
        n.shared.history.isSome := by
  have hfields := commandFields_of_added hadd hp
  have hfield : Mapping.field (n.commandFields b o.removeForeign) descriptionKey =
      n.shared.description := by
    rw [hfields, List.append_assoc]
    exact Skill.field_optionalField_append _ _ (lacks_append_history hd _)
  cases hf : b.format with
  | plain => exact absurd (by cases b <;> first | rfl | cases hf) hc
  | markdown =>
    have hcommand : n.toCommand b o = .markdown (n.commandFields b o.removeForeign)
        (bodyText b n.body) (n.commandPath b) := by
      simp [toCommand, hf, hb]
    have hshared : Command.sharedOf (n.commandFields b o.removeForeign) = .ok n.shared := by
      refine Command.sharedOf_eq hs hfield ?_
      rw [hfields]
      exact Skill.field_append_of_lacks (lacks_description_append hp _)
    have hextras : Command.extrasOf (n.commandFields b o.removeForeign) = added := by
      rw [hfields, Command.extrasOf_append, Command.extrasOf_append, Command.extrasOf_description,
        Command.extrasOf_history, Command.extrasOf_of_lacks hd hp, List.nil_append, List.append_nil]
    refine ⟨fun d => ?_, ?_⟩
    · rw [hcommand, Command.toNeutral, if_neg hb, if_neg (by simp), ← hextras]
      exact Command.neutralOf_of_sharedOf hshared _ _ _
    · rw [hcommand, Command.otherFields, hfields]
      exact contains_provenance (lacks_description_append hp _) hs.history
  | table =>
    have hcommand : n.toCommand b o = .table (bodyText b n.body) n.shared.description
        (Mapping.without added promptKey ++ historyField n.shared.history) (n.commandPath b) := by
      simp only [toCommand, hf, hfield]
      rw [hfields, without_prompt_description hd]
    have hd' : (Mapping.without added promptKey).Lacks (.text descriptionKey) :=
      fun e he => hd e (List.mem_filter.mp he).1
    have hp' : (Mapping.without added promptKey).Lacks (.text provenanceKey) :=
      fun e he => hp e (List.mem_filter.mp he).1
    have hextras : Command.extrasOf (Mapping.without added promptKey ++
        historyField n.shared.history ++ optionalField descriptionKey n.shared.description) =
          Mapping.without added promptKey := by
      rw [Command.extrasOf_append, Command.extrasOf_append, Command.extrasOf_description,
        Command.extrasOf_history, Command.extrasOf_of_lacks hd' hp', List.append_nil,
        List.append_nil]
    refine ⟨fun d => ?_, ?_⟩
    · -- The description goes behind the other fields when the table is read.
      rw [hcommand, Command.toNeutral, Command.withDescription,
        addField_of_lacks (lacks_append_history hd' _), if_pos rfl]
      have hread := Command.neutralOf_of_sharedOf (sharedOf_table hs hd' hp') b
        (bodyText b n.body) (n.commandPath b)
      rwa [hextras] at hread
    · rw [hcommand, Command.otherFields]
      exact contains_provenance hp' hs.history

/-- Extras of other names are all added, unless one is the prompt's. -/
theorem addCommandExtras_of_plain {a : Agent} {extras fields : Mapping} (hd : extras.Distinct)
    (hp : extras.Lacks (.text promptKey)) (hl : ∀ e ∈ extras, fields.Lacks e.1) :
    addCommandExtras a false extras fields = fields ++ extras := by
  unfold addCommandExtras
  induction extras generalizing fields with
  | nil => simp
  | cons e extras ih =>
    obtain ⟨he, hrest⟩ := Mapping.Distinct.cons_iff.mp hd
    have hkeeps : keepsCommandExtra a false e.1 = true := by
      have hskip : ∀ s ∈ a.skippedCommandFields, s = promptKey := by cases a <;> decide
      have hne : e.1.same (.text promptKey) = false := hp e (by simp)
      simp only [keepsCommandExtra, Bool.false_and, Bool.not_false, Bool.and_true,
        Bool.not_eq_true', List.any_eq_false]
      intro s hs
      rw [hskip s hs, hne]
      exact Bool.false_ne_true
    have hc := Mapping.contains_eq_false_iff.mpr (hl e (by simp))
    have hstep : ∀ f ∈ extras, (fields ++ [(e.1, e.2)]).Lacks f.1 := by
      intro f hf g hg
      rcases List.mem_append.mp hg with hg | hg
      · exact hl f (List.mem_cons_of_mem _ hf) g hg
      · obtain rfl := List.mem_singleton.mp hg
        exact he f hf
    rw [List.foldl_cons]
    simp only [hc, hkeeps, Bool.not_true, Bool.or_self, Bool.false_eq_true, if_false,
      Mapping.set_of_lacks (hl e (by simp))]
    rw [ih hrest (fun f hf => hp f (List.mem_cons_of_mem _ hf)) hstep]
    simp

/-- A field that stands alone has another name than what lacks its name. -/
theorem optionalField_lacks_of_lacks {m : Mapping} {key : String} (h : m.Lacks (.text key))
    {v : Value} {e : Scalar × Value} (he : e ∈ m) : (optionalField key v).Lacks e.1 := by
  intro f hf
  rw [key_of_mem_optionalField hf]
  refine Bool.eq_false_iff.mpr fun hsame => ?_
  have hne := h e he
  rw [(Scalar.same_text_iff' _ _).mp hsame] at hne
  simp at hne

/-- Without loss, the extras of a command are read as they were. -/
theorem plain_command_read_written {b : Agent} (hb : b ≠ Agent.hub) (hc : b ≠ .cursor)
    {n : Neutral} (hs : Command.Told n.shared) (hdist : n.extras.Distinct)
    (hd : n.extras.Lacks (.text descriptionKey)) (hp : n.extras.Lacks (.text provenanceKey))
    (hprompt : n.extras.Lacks (.text promptKey)) (existing : Mapping) (d : Option String) :
    ∃ m, Command.toNeutral b d (n.toCommand b ⟨false, existing⟩) = .ok m ∧
      m.shared = n.shared ∧ m.extras = n.extras ∧ m.background.agent = some b.name := by
  obtain ⟨hread, -⟩ := command_read_written (o := ⟨false, existing⟩) hb hc hs
    (addCommandExtras_of_plain hdist hprompt fun e he => optionalField_lacks_of_lacks hd he) hd hp
  obtain ⟨m, hm, hshared, hextras, hagent⟩ := hread d
  refine ⟨m, hm, hshared, ?_, hagent⟩
  rw [hextras, Hub.without_of_lacks hprompt, ite_self]

/-- What an agent with fields reads from a command that was written for it: what the
command told, and extras without the names of that. -/
theorem command_lacks_read_written {b : Agent} (hc : b ≠ .cursor) {n : Neutral}
    (hs : Command.Told n.shared) (hd : n.extras.Lacks (.text descriptionKey))
    (hp : n.extras.Lacks (.text provenanceKey)) (removeForeign : Bool) (d : Option String) :
    (∃ m, Command.toNeutral b d (n.toCommand b ⟨removeForeign, []⟩) = .ok m ∧
        m.shared = n.shared ∧ m.extras.Lacks (.text descriptionKey) ∧
        m.extras.Lacks (.text provenanceKey)) ∧
      Mapping.contains (n.toCommand b ⟨removeForeign, []⟩).otherFields (.text provenanceKey) =
        n.shared.history.isSome := by
  by_cases hb : b = Agent.hub
  · subst hb
    -- The hub keeps what the command tells, and the extras in a block.
    have hput := Hub.toNeutral_put_command ⟨Agent.hub, removeForeign, n⟩ [] d
      (bodyText Agent.hub n.body) (n.commandPath Agent.hub)
    have hplain := Hub.plain_commandBase ⟨Agent.hub, removeForeign, n⟩
    rw [hs.description] at hput
    refine ⟨⟨_, hput, ?_, ?_, ?_⟩, ?_⟩
    · rw [← hs.eq]
      simp only [hs.keptHistory]
    · intro e he
      obtain ⟨f, hf, hk⟩ := Hub.key_of_mem_extrasFor_new hplain he
      exact hk ▸ hd f hf
    · intro e he
      obtain ⟨f, hf, hk⟩ := Hub.key_of_mem_extrasFor_new hplain he
      exact hk ▸ hp f hf
    · have hfields : (n.toCommand Agent.hub ⟨removeForeign, []⟩).otherFields =
          Hub.put Hub.commandBase [] ⟨Agent.hub, removeForeign, n⟩ := rfl
      have hlacks := lacks_description_append (m := []) nofun n.shared.description
      rw [List.append_nil] at hlacks
      rw [hfields, Mapping.contains, Hub.put, Hub.get?_addSection _ _ _ _ (by decide),
        ← Mapping.contains, Hub.commandBase_eq]
      exact contains_provenance hlacks hs.history
  · obtain ⟨added, hadd, hmem⟩ := addCommandExtras_added b removeForeign n.extras
      (optionalField descriptionKey n.shared.description)
    obtain ⟨hread, htold⟩ := command_read_written (o := ⟨removeForeign, []⟩) hb hc hs hadd
      (fun e he => hd e (hmem e he)) (fun e he => hp e (hmem e he))
    obtain ⟨m, hm, hshared, hextras, -⟩ := hread d
    have hsub : ∀ e ∈ m.extras, e ∈ n.extras := by
      intro e he
      rw [hextras] at he
      split at he
      · exact hmem e (List.mem_filter.mp he).1
      · exact hmem e he
    exact ⟨⟨m, hm, hshared, fun e he => hd e (hsub e he), fun e he => hp e (hsub e he)⟩, htold⟩

end Neutral

end AgentRelay
