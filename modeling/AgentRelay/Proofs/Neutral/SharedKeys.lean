import AgentRelay.Neutral.Command
import AgentRelay.Proofs.Except
import AgentRelay.Proofs.Skill.RoundTrip

/-
  The keys of shared properties, and the ways on which one gets among the extras.

  Reading a document takes the keys of its shared properties out of its fields.
  What is laid over the extras afterwards is not looked at again: a block of the
  hub and a configuration may bring such a key back, and so may a marked name
  when its mark is taken off. These three ways are all there are
  (`shared_key_in_extras_iff`).
-/

namespace AgentRelay

/-! ## Keys of mappings that were put together -/

namespace Mapping

theorem contains_set_iff (m : Mapping) (key : Scalar) (v : Value) (t : String) :
    contains (set m key v) (.text t) = true ↔ key = .text t ∨ contains m (.text t) = true := by
  unfold contains
  induction m with
  | nil => simp [set, get?, Scalar.same_text_iff]
  | cons e m ih =>
    obtain ⟨k, w⟩ := e
    by_cases ht : k = .text t
    · -- The key is there before, and setting another one does not take it away.
      subst ht
      unfold set
      split <;> simp [get?]
    · have hk : k.same (.text t) = false :=
        Bool.eq_false_iff.mpr fun hs => ht ((Scalar.same_text_iff t k).mp hs)
      unfold set
      split
      · rename_i hsame
        have hne : key ≠ .text t := by
          rintro rfl
          exact Bool.false_ne_true (hk.symm.trans hsame)
        simp [get?, hk, hne]
      · simpa [get?, hk] using ih

theorem contains_merge_iff (m n : Mapping) (t : String) :
    contains (merge m n) (.text t) = true ↔
      contains m (.text t) = true ∨ contains n (.text t) = true := by
  induction n generalizing m with
  | nil => simp [merge, contains, get?]
  | cons e n ih =>
    obtain ⟨k, w⟩ := e
    have hcons : contains ((k, w) :: n) (.text t) = true ↔
        k = .text t ∨ contains n (.text t) = true := by
      rw [← Scalar.same_text_iff]
      unfold contains
      rw [get?_cons]
      by_cases hk : k.same (.text t) = true <;> simp [hk]
    have hstep : merge m ((k, w) :: n) = merge (set m k w) n := rfl
    rw [hstep, ih, contains_set_iff, hcons]
    grind

theorem contains_without_iff (m : Mapping) (a t : String) :
    contains (m.without a) (.text t) = true ↔ t ≠ a ∧ contains m (.text t) = true := by
  rw [contains, get?_without, contains]
  by_cases h : t = a <;> simp [h]

end Mapping

/-! ## Commands -/

/-- The keys of the shared properties of a command. -/
def commandKeys : List String := [descriptionKey, provenanceKey]

/-- The block of the hub that is read for a destination has a key. -/
def InBlock (destination : Option String) (fields : Mapping) (key : String) : Prop :=
  ∃ d, Hub.blockOwner? destination = some d ∧
    Mapping.contains (Hub.block d fields) (.text key) = true

theorem contains_extrasFor_iff (destination : Option String) (fields extras : Mapping)
    (key : String) :
    Mapping.contains (Hub.extrasFor destination fields extras) (.text key) = true ↔
      Mapping.contains extras (.text key) = true ∨ InBlock destination fields key := by
  unfold Hub.extrasFor InBlock
  cases Hub.blockOwner? destination with
  | none => simp
  | some d => simp [Mapping.contains_merge_iff]

theorem not_inBlock_nil (destination : Option String) (key : String) :
    ¬ InBlock destination [] key := by
  rintro ⟨d, -, h⟩
  exact nomatch h

namespace Command

theorem contains_extrasOf (fields : Mapping) {key : String} (h : key ∈ commandKeys) :
    Mapping.contains (extrasOf fields) (.text key) = false := by
  rw [← Bool.not_eq_true, extrasOf, Mapping.contains_without_iff, Mapping.contains_without_iff]
  simp only [commandKeys, List.mem_cons, List.not_mem_nil, or_false] at h
  rintro ⟨hprov, hdesc, -⟩
  exact h.elim hdesc hprov

theorem extras_of_neutralOf {a : Agent} {fields : Mapping} {content path : String} {n : Neutral}
    (h : neutralOf a fields content path = .ok n) : n.extras = extrasOf fields := by
  obtain ⟨s, -, h⟩ := exists_of_bind_eq_ok h
  obtain rfl := Except.ok.inj h
  rfl

/-- Only the hub brings a shared key of a command back, and only from the block of
the destination. -/
theorem shared_key_iff {a : Agent} {destination : Option String} {c : Command} {n : Neutral}
    (h : toNeutral a destination c = .ok n) {key : String} (hk : key ∈ commandKeys) :
    Mapping.contains n.extras (.text key) = true ↔
      a = Agent.hub ∧ InBlock destination c.fields key := by
  have hplain : ∀ {fields content path m}, neutralOf a fields content path = .ok m →
      ¬ Mapping.contains m.extras (.text key) = true := by
    intro fields content path m hm
    rw [extras_of_neutralOf hm, contains_extrasOf fields hk]
    exact nofun
  cases c with
  | markdown fields content path =>
    by_cases ha : a = Agent.hub
    · rw [toNeutral, if_pos ha] at h
      obtain ⟨m, hm, h⟩ := exists_of_bind_eq_ok h
      obtain rfl := Except.ok.inj h
      simp [contains_extrasFor_iff, hplain hm, ha, Command.fields]
    · rw [toNeutral, if_neg ha] at h
      exact iff_of_false (hplain h) fun hb => ha hb.1
  | table prompt description fields path =>
    exact iff_of_false (hplain h) fun hb => not_inBlock_nil _ _ hb.2
  | plain content path =>
    exact iff_of_false (hplain h) fun hb => not_inBlock_nil _ _ hb.2

end Command

/-! ## Skills -/

/-- The keys of the shared properties of a skill. -/
def skillKeys : List String := [nameKey, descriptionKey, invocationKey, provenanceKey]

/-- A marked name that is a key once its mark is taken off. The marked name of the
permission to use the skill is a shared key itself. -/
def MarkedAs (key : String) (name : Scalar) : Prop :=
  ∃ t, name = .text t ∧ FieldKey.isMarked t = true ∧ FieldKey.unmark t = key ∧
    t ≠ markedInvocationKey

namespace Skill

theorem aliases_shared (a : Agent) : ∀ e ∈ a.aliases, e.2 ∉ skillKeys := by
  cases a <;> decide

theorem sharedName_eq_iff (a : Agent) {name : Scalar} {key : String} (hk : key ∈ skillKeys)
    (h : sharedName a name = .text key) : name = .text key := by
  unfold sharedName at h
  split at h
  · rename_i e hfind
    refine absurd hk ?_
    rw [← Scalar.text.inj h]
    exact aliases_shared a e (List.mem_of_find?_eq_some hfind)
  · exact h

/-- A field that is no shared one becomes an extra with a shared key only when its
name is marked. -/
theorem extraKey_eq_iff (a : Agent) {name : Scalar} {key : String} (hk : key ∈ skillKeys)
    (hne : name ≠ .text key)
    (hinv : a.marksForeignFields = true → name ≠ .text markedInvocationKey) :
    extraKey a name = .ok (.text key) ↔ a.marksForeignFields = true ∧ MarkedAs key name := by
  have hshared : sharedName a name ≠ .text key := fun h => hne (sharedName_eq_iff a hk h)
  unfold extraKey MarkedAs
  split
  · rename_i hmarks
    split
    · rename_i t
      have ht : t ≠ markedInvocationKey := fun h => hinv hmarks (by rw [h])
      split
      · rename_i hm
        simp [hmarks, hm, ht]
      · rename_i hm
        simp [hmarks, hm, hshared]
    · rename_i k
      -- A torn name stays torn without its mark.
      cases FieldKey.unmarkTorn? k with
      | none => simpa using hshared
      | some l => simp
    · simp
    · rename_i htext _ _
      refine iff_of_false nofun ?_
      rintro ⟨-, t, ht, -⟩
      exact htext t ht
  · rename_i hmarks
    simp [hmarks, hshared]

/-- Reading one field adds a shared key to the extras only from a marked name. -/
theorem contains_addField {a : Agent} {acc acc' : Shared × Mapping} {e : Scalar × Value}
    (h : addField a acc e = .ok acc') {key : String} (hk : key ∈ skillKeys) :
    Mapping.contains acc'.2 (.text key) = true ↔
      Mapping.contains acc.2 (.text key) = true ∨
        (a.marksForeignFields = true ∧ MarkedAs key e.1) := by
  obtain ⟨s, m⟩ := acc
  obtain ⟨name, v⟩ := e
  -- A name that is a shared key, marked or not, gives no extra.
  have hmarked : ∀ t ∈ skillKeys, FieldKey.isMarked t = false := by decide
  have hshared : ∀ {t}, t ∈ skillKeys → ¬ MarkedAs key (.text t) := by
    rintro t ht ⟨u, hu, hm, -, -⟩
    obtain rfl := Scalar.text.inj hu
    exact Bool.false_ne_true ((hmarked t ht).symm.trans hm)
  have hkept : ∀ {s' : Shared} {t}, t ∈ skillKeys → name = .text t → acc' = (s', m) →
      (Mapping.contains acc'.2 (.text key) = true ↔ Mapping.contains m (.text key) = true ∨
        (a.marksForeignFields = true ∧ MarkedAs key name)) := by
    rintro s' t ht rfl rfl
    simp [hshared ht]
  simp only [addField] at h
  split at h
  · rename_i hkey
    rw [Bool.or_eq_true, Scalar.same_text_iff, Scalar.same_text_iff] at hkey
    obtain rfl := Except.ok.inj h
    rcases hkey with hkey | hkey
    · exact hkept (t := nameKey) (by decide) hkey rfl
    · exact hkept (t := descriptionKey) (by decide) hkey rfl
  · rename_i htitle
    split at h
    · rename_i hkey
      obtain ⟨t, ht, hsame⟩ := List.any_eq_true.mp hkey
      obtain rfl := Except.ok.inj h
      have hname := (Scalar.same_text_iff t name).mp hsame
      have hcases : t = invocationKey ∨ t = markedInvocationKey := by
        unfold invocationKeys at ht
        split at ht <;> simp_all
      rcases hcases with rfl | rfl
      · exact hkept (t := invocationKey) (by decide) hname rfl
      · have hnot : ¬ MarkedAs key name := by
          rintro ⟨u, hu, -, -, hne⟩
          rw [hname] at hu
          exact hne (Scalar.text.inj hu).symm
        simp [hnot]
    · rename_i hinv
      split at h
      · rename_i hkey
        obtain ⟨history, -, h⟩ := exists_of_bind_eq_ok h
        obtain rfl := Except.ok.inj h
        exact hkept (t := provenanceKey) (by decide) ((Scalar.same_text_iff _ _).mp hkey) rfl
      · rename_i hprov
        obtain ⟨k, hx, h⟩ := exists_of_bind_eq_ok h
        obtain rfl := Except.ok.inj h
        have hinv' : ∀ t ∈ invocationKeys a, name ≠ .text t := by
          rintro t ht rfl
          exact hinv (List.any_eq_true.mpr ⟨t, ht, (Scalar.same_text_iff _ _).mpr rfl⟩)
        have hne : name ≠ .text key := by
          rintro rfl
          simp only [skillKeys, List.mem_cons, List.not_mem_nil, or_false] at hk
          rcases hk with rfl | rfl | rfl | rfl
          · exact htitle (by simp)
          · exact htitle (by simp)
          · exact hinv' invocationKey (by unfold invocationKeys; split <;> simp) rfl
          · exact hprov (by simp)
        have hname := extraKey_eq_iff a hk hne fun hmarks => hinv' _ (by
          simp [invocationKeys, hmarks])
        rw [Mapping.contains_set_iff, ← hname, hx, Except.ok.injEq]
        exact or_comm

theorem contains_foldlM {a : Agent} {fields : Mapping} {acc acc' : Shared × Mapping}
    (h : fields.foldlM (addField a) acc = .ok acc') {key : String} (hk : key ∈ skillKeys) :
    Mapping.contains acc'.2 (.text key) = true ↔
      Mapping.contains acc.2 (.text key) = true ∨
        (a.marksForeignFields = true ∧ ∃ e ∈ fields, MarkedAs key e.1) := by
  induction fields generalizing acc with
  | nil =>
    obtain rfl := Except.ok.inj h
    simp
  | cons e fields ih =>
    rw [List.foldlM_cons] at h
    obtain ⟨mid, hstep, h⟩ := exists_of_bind_eq_ok h
    rw [ih h, contains_addField hstep hk]
    simp only [List.mem_cons, exists_eq_or_imp]
    grind

/-- The fields of a skill give a shared key to the extras only by a marked name. -/
theorem contains_split {a : Agent} {fields extras : Mapping} {s : Shared}
    (h : split a fields = .ok (s, extras)) {key : String} (hk : key ∈ skillKeys) :
    Mapping.contains extras (.text key) = true ↔
      a.marksForeignFields = true ∧ ∃ e ∈ fields, MarkedAs key e.1 := by
  have hfold := contains_foldlM (a := a) h hk
  simpa [Mapping.contains, Mapping.get?] using hfold

/-- What an agent lays over the extras, a configuration or a block, may hold a
shared key. -/
theorem contains_extrasWith {a : Agent} (destination : Option String) (s : Skill)
    (extras : Mapping) {key : String} (hk : key ∈ skillKeys) :
    Mapping.contains (extrasWith a destination s extras) (.text key) = true ↔
      Mapping.contains extras (.text key) = true ∨
        (a = .codex ∧ Mapping.contains (s.config.getD []) (.text key) = true) ∨
        (a = Agent.hub ∧ InBlock destination s.fields key) := by
  unfold extrasWith
  split
  · rename_i ha
    subst ha
    simp [contains_extrasFor_iff, Agent.hub]
  · rename_i hhub
    split
    · -- The policy of a configuration stays out of the extras, and is no shared key.
      have hpolicy : key ≠ policyKey := by
        rintro rfl
        exact absurd hk (by decide)
      rename_i ha
      subst ha
      simp [withConfig, Mapping.contains_merge_iff, Mapping.contains_without_iff, hpolicy,
        Agent.hub]
    · rename_i hcodex
      simp [hhub, hcodex]

/-- A shared key of a skill comes back by a marked name, from the configuration or
from the block of the destination. -/
theorem shared_key_iff {a : Agent} {destination : Option String} {s : Skill} {n : Neutral}
    (h : toNeutral a destination s = .ok n) {key : String} (hk : key ∈ skillKeys) :
    Mapping.contains n.extras (.text key) = true ↔
      (a.marksForeignFields = true ∧ ∃ e ∈ s.fields, MarkedAs key e.1) ∨
        (a = .codex ∧ Mapping.contains (s.config.getD []) (.text key) = true) ∨
        (a = Agent.hub ∧ InBlock destination s.fields key) := by
  obtain ⟨⟨shared, extras⟩, hsplit⟩ := split_of_toNeutral h
  obtain rfl := Except.ok.inj ((toNeutral_of_split destination hsplit).symm.trans h)
  have hfields : Mapping.contains extras (.text key) = true ↔
      a.marksForeignFields = true ∧ ∃ e ∈ s.fields, MarkedAs key e.1 := by
    rw [contains_split hsplit hk]
    refine and_congr_right fun hmarks => ?_
    -- The hub, which leaves its section out, marks no name.
    have hhub : a ≠ Agent.hub := by
      rintro rfl
      exact nomatch hmarks
    rw [if_neg hhub]
  exact (contains_extrasWith destination s extras hk).trans (or_congr_left hfields)

end Skill

/-- The shared keys of a document are among its extras exactly where a marked name, a
configuration or the block of the destination brings them there. -/
theorem shared_key_in_extras_iff (a : Agent) (destination : Option String) :
    (∀ c n, Command.toNeutral a destination c = .ok n → ∀ key ∈ commandKeys,
      (Mapping.contains n.extras (.text key) = true ↔
        a = Agent.hub ∧ InBlock destination c.fields key)) ∧
    (∀ s n, Skill.toNeutral a destination s = .ok n → ∀ key ∈ skillKeys,
      (Mapping.contains n.extras (.text key) = true ↔
        (a.marksForeignFields = true ∧ ∃ e ∈ s.fields, MarkedAs key e.1) ∨
          (a = .codex ∧ Mapping.contains (s.config.getD []) (.text key) = true) ∨
          (a = Agent.hub ∧ InBlock destination s.fields key))) :=
  ⟨fun _ _ h _ hk => Command.shared_key_iff h hk, fun _ _ h _ hk => Skill.shared_key_iff h hk⟩

/-- A skill with one field. -/
def oneFieldSkill (field value : String) : Skill :=
  ⟨.text "s", "x", "", [], [(.text field, .text value)], none⟩

/-- A skill with a model as its only field has no name among its extras, for an agent
that marks fields. -/
theorem name_not_in_extras_of_model :
    ∃ n, Skill.toNeutral .gemini none (oneFieldSkill "model" "opus") = .ok n ∧
      ¬ Mapping.contains n.extras (.text nameKey) = true := by
  have h := @Skill.toNeutral_of_split .gemini (oneFieldSkill "model" "opus") Shared.none
    [(.text "model", .text "opus")] none rfl
  refine ⟨_, h, ?_⟩
  rw [(shared_key_in_extras_iff .gemini none).2 _ _ h nameKey (by decide)]
  rintro (⟨-, e, he, t, ht, hm, -⟩ | ⟨ha, -⟩ | ⟨ha, -⟩)
  · obtain rfl := List.mem_singleton.mp he
    obtain rfl := Scalar.text.inj ht
    exact nomatch hm
  · exact nomatch ha
  · exact nomatch ha

/-- A marked name brings the name of a skill among its extras. -/
theorem marked_name_in_extras :
    ¬ ∀ (a : Agent) (destination : Option String) (s : Skill) (n : Neutral),
      Skill.toNeutral a destination s = .ok n →
      ∀ key ∈ skillKeys, ¬ Mapping.contains n.extras (.text key) = true := by
  intro h
  have hread := @Skill.toNeutral_of_split .gemini (oneFieldSkill "_claude_name" "X") Shared.none
    [(.text nameKey, .text "X")] none rfl
  exact h .gemini none _ _ hread nameKey (by decide) rfl

end AgentRelay
