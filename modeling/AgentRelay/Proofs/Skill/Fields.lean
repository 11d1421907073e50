import AgentRelay.Neutral.Skill
import AgentRelay.Proofs.Mapping

/-
  The fields an agent writes for a skill, and what it reads from them.

  An extra with a plain name (`PlainName`) is written under one name and read
  back under its own (`extraKey_keptName`), and that one name is no shared
  field's (`keptName_ne`). So the written fields are the shared ones with every
  extra in its place (`skillFields_eq`), and reading them gives the shared
  properties and the extras back (`split_skillFields`).
-/

namespace AgentRelay

/-- Names of fields with a meaning of their own in some agent's skills. -/
def reservedNames : List String :=
  [nameKey, descriptionKey, invocationKey, provenanceKey, "user-invokable"]

/-- The name of an extra that means the same to all agents: it is a text, it is
not reserved, and it carries no mark. -/
def PlainName : Scalar → Prop
  | .text k => k ∉ reservedNames ∧ FieldKey.isMarked k = false
  | .torn k => FieldKey.unmarkTorn? k = none
  | _ => False

/-- Extras with plain names, no two of them the same. -/
structure PlainExtras (extras : Mapping) : Prop where
  distinct : extras.Distinct
  plain : ∀ e ∈ extras, PlainName e.1

namespace PlainExtras

theorem tail {e : Scalar × Value} {m : Mapping} (h : PlainExtras (e :: m)) : PlainExtras m :=
  ⟨(Mapping.Distinct.cons_iff.mp h.distinct).2, fun f hf => h.plain f (List.mem_cons_of_mem _ hf)⟩

theorem filter {m : Mapping} (h : PlainExtras m) (p : Scalar × Value → Bool) :
    PlainExtras (m.filter p) :=
  ⟨h.distinct.filter p, fun e he => h.plain e (List.mem_filter.mp he).1⟩

theorem without {m : Mapping} (h : PlainExtras m) (key : String) :
    PlainExtras (Mapping.without m key) := h.filter _

end PlainExtras

/-! ## Names of extras -/

theorem aliases_of_marks {a : Agent} (h : a.marksForeignFields = true) : a.aliases = [] := by
  cases a <;> first | rfl | exact nomatch h

theorem foreign_no_underscore {a : Agent} {k : String} (h : k ∈ a.foreignSkillFields) :
    '_' ∉ k.toList := by
  have hall : ∀ s ∈ a.foreignSkillFields, '_' ∉ s.toList := by cases a <;> decide
  exact hall k h

theorem isForeign_text {a : Agent} {k : String} :
    Neutral.isForeign a (.text k) = true ↔ k ∈ a.foreignSkillFields := by
  simp [Neutral.isForeign]

theorem sharedName_of_nil {a : Agent} (h : a.aliases = []) (key : Scalar) :
    Skill.sharedName a key = key := by
  simp [Skill.sharedName, h]

theorem ownName_of_nil {a : Agent} (h : a.aliases = []) (key : Scalar) :
    Neutral.ownName a key = key := by
  simp [Neutral.ownName, h]

/-- An alias is taken back, unless the shared name is itself the alias. -/
theorem sharedName_ownName {a : Agent} {k : String} (hk : k ∉ reservedNames) :
    Skill.sharedName a (Neutral.ownName a (.text k)) = .text k := by
  by_cases ha : a = .copilot
  · subst ha
    have hne : k ≠ "user-invokable" := fun e => hk (by simp [reservedNames, e])
    by_cases h : k = "user-invocable"
    · subst h; rfl
    · simp [Skill.sharedName, Neutral.ownName, Agent.aliases, h, hne]
  · have hnil : a.aliases = [] := by cases a <;> first | rfl | exact absurd rfl ha
    rw [ownName_of_nil hnil, sharedName_of_nil hnil]

/-- A torn name is kept as it is. -/
theorem keptName_torn (a : Agent) (k : Torn) : Neutral.keptName a (.torn k) = .torn k := by
  cases a <;> rfl

theorem extraKey_torn (a : Agent) {k : Torn} (h : FieldKey.unmarkTorn? k = none) :
    Skill.extraKey a (.torn k) = .ok (.torn k) := by
  have hshared : Skill.sharedName a (.torn k) = .torn k := by cases a <;> rfl
  simp [Skill.extraKey, h, hshared]

/-- An extra with a whole name is read back under the name it had. -/
theorem extraKey_keptName_text (a : Agent) {k : String} (hk : k ∉ reservedNames)
    (hm : FieldKey.isMarked k = false) :
    Skill.extraKey a (Neutral.keptName a (.text k)) = .ok (.text k) := by
  cases hmarks : a.marksForeignFields with
  | false => simp [Neutral.keptName, Skill.extraKey, hmarks, sharedName_ownName hk]
  | true =>
    have hnil := aliases_of_marks hmarks
    by_cases hf : Neutral.isForeign a (.text k) = true
    · have hu := FieldKey.unmark_mark k (foreign_no_underscore (isForeign_text.mp hf))
      simp [Neutral.keptName, Skill.extraKey, hmarks, hf, ownName_of_nil hnil,
        FieldKey.isMarked_mark, hu]
    · simp [Neutral.keptName, Skill.extraKey, hmarks, hf, ownName_of_nil hnil, hm,
        sharedName_of_nil hnil]

/-- An extra is read back under the name it had. -/
theorem extraKey_keptName (a : Agent) {key : Scalar} (h : PlainName key) :
    Skill.extraKey a (Neutral.keptName a key) = .ok key := by
  cases key with
  | text k => exact extraKey_keptName_text a h.1 h.2
  | torn k => rw [keptName_torn, extraKey_torn a h]
  | _ => exact h.elim

/-- Names under which shared properties are written. -/
def sharedNames : List String :=
  [nameKey, descriptionKey, invocationKey, markedInvocationKey, provenanceKey]

/-- Read as an extra, the name of a shared property would not be plain. -/
theorem not_plain_of_shared (a : Agent) {s : String} (hs : s ∈ sharedNames) {key : Scalar}
    (h : Skill.extraKey a (.text s) = .ok key) : ¬ PlainName key := by
  intro hplain
  -- Five names and seven agents: each pair reads to a name that is reserved or marked.
  have hread : ∀ s ∈ sharedNames, ∀ a ∈ Agent.all,
      ∃ r ∈ s :: reservedNames, (Skill.extraKey a (.text s)).toOption = some (.text r) ∧
        (r ∈ reservedNames ∨ FieldKey.isMarked r = true) := by decide
  have ha : a ∈ Agent.all := by cases a <;> decide
  obtain ⟨r, -, hr, hbad⟩ := hread s hs a ha
  rw [h] at hr
  obtain rfl : key = .text r := by simpa [Except.toOption] using hr
  rcases hbad with hbad | hbad
  · exact hplain.1 hbad
  · simp [hplain.2] at hbad

/-- The name of a kept extra is no shared property's. -/
theorem keptName_ne (a : Agent) {key : Scalar} (h : PlainName key) {s : String}
    (hs : s ∈ sharedNames) : Neutral.keptName a key ≠ .text s := by
  intro he
  have hread := extraKey_keptName a h
  rw [he] at hread
  exact not_plain_of_shared a hs hread h

theorem keptName_phrase (a : Agent) {key : Scalar} (h : PlainName key) :
    ∃ p, Neutral.keptName a key = .phrase p := by
  cases key with
  | text k =>
    simp only [Neutral.keptName, Neutral.ownName]
    split
    · exact ⟨.whole _, rfl⟩
    · split <;> exact ⟨.whole _, rfl⟩
  | torn k => exact ⟨.torn k, keptName_torn a k⟩
  | _ => exact h.elim

/-- Extras with different names are kept under different names. -/
theorem keptName_same {a : Agent} {k l : Scalar} (hk : PlainName k) (hl : PlainName l)
    (h : (Neutral.keptName a k).same (Neutral.keptName a l) = true) : k = l := by
  have hread := extraKey_keptName a hk
  obtain ⟨p, ht⟩ := keptName_phrase a hl
  rw [ht] at h
  rw [(Scalar.same_phrase_iff p _).mp h, ← ht, extraKey_keptName a hl] at hread
  exact (Except.ok.inj hread).symm

/-! ## Written fields -/

namespace Neutral

/-- A field, unless its value is null. -/
def optionalField (key : String) (v : Value) : Mapping := if v.isNull then [] else [(.text key, v)]

/-- The name under which an agent writes whether the model may use a skill. -/
def invocationName (a : Agent) : String :=
  if a.marksForeignFields then markedInvocationKey else invocationKey

/-- The field that says whether the model may use a skill. -/
def invocationField (a : Agent) : Option Bool → Mapping
  | none => []
  | some b => [(.text (invocationName a), .bool !b)]

/-- The field that tells the history. -/
def historyField : Option (List Phrase) → Mapping
  | some (h :: hs) => [(.text provenanceKey, Value.list ((h :: hs).map Value.phrase))]
  | _ => []

/-- The shared properties in front of the extras. -/
def leadingFields (a : Agent) (s : Shared) : Mapping :=
  optionalField nameKey s.name ++ optionalField descriptionKey s.description ++
    invocationField a s.invocation

/-- The extras under the names an agent keeps them. -/
def keptExtras (a : Agent) (extras : Mapping) : Mapping :=
  extras.map fun e => (keptName a e.1, e.2)

/-- The shared properties an agent writes in front of a skill. Without the fields it
does not understand, it may leave out who may use the skill. -/
def toldBy (a : Agent) (removeForeign : Bool) (s : Shared) : Shared :=
  if a.marksForeignFields && removeForeign then { s with invocation := none } else s

/-- No field has the name of a shared property. -/
def Unshared (m : Mapping) : Prop := ∀ e ∈ m, ∀ t ∈ sharedNames, e.1 ≠ .text t

theorem toldBy_false (a : Agent) (s : Shared) : toldBy a false s = s := by
  simp [toldBy]

@[simp] theorem toldBy_name (a : Agent) (removeForeign : Bool) (s : Shared) :
    (toldBy a removeForeign s).name = s.name := by
  unfold toldBy; split <;> rfl

@[simp] theorem toldBy_description (a : Agent) (removeForeign : Bool) (s : Shared) :
    (toldBy a removeForeign s).description = s.description := by
  unfold toldBy; split <;> rfl

@[simp] theorem toldBy_history (a : Agent) (removeForeign : Bool) (s : Shared) :
    (toldBy a removeForeign s).history = s.history := by
  unfold toldBy; split <;> rfl

theorem toldBy_invocation (a : Agent) (removeForeign : Bool) (s : Shared) :
    (toldBy a removeForeign s).invocation =
      if a.marksForeignFields && removeForeign then none else s.invocation := by
  unfold toldBy; split <;> rfl

theorem key_of_mem_optionalField {key : String} {v : Value} {e : Scalar × Value}
    (h : e ∈ optionalField key v) : e.1 = .text key := by
  unfold optionalField at h
  split at h
  · exact absurd h List.not_mem_nil
  · rw [List.mem_singleton.mp h]

theorem key_of_mem_invocationField {a : Agent} {o : Option Bool} {e : Scalar × Value}
    (h : e ∈ invocationField a o) : e.1 = .text (invocationName a) := by
  cases o with
  | none => exact absurd h List.not_mem_nil
  | some b => rw [List.mem_singleton.mp h]

theorem key_of_mem_historyField {o : Option (List Phrase)} {e : Scalar × Value}
    (h : e ∈ historyField o) : e.1 = .text provenanceKey := by
  match o, h with
  | some (_ :: _), h => rw [List.mem_singleton.mp h]

theorem invocationName_mem (a : Agent) : invocationName a ∈ sharedNames := by
  cases a <;> decide

theorem key_of_mem_leadingFields {a : Agent} {s : Shared} {e : Scalar × Value}
    (h : e ∈ leadingFields a s) :
    e.1 = .text nameKey ∨ e.1 = .text descriptionKey ∨ e.1 = .text (invocationName a) := by
  simp only [leadingFields, List.mem_append] at h
  rcases h with (h | h) | h
  · exact Or.inl (key_of_mem_optionalField h)
  · exact Or.inr (Or.inl (key_of_mem_optionalField h))
  · exact Or.inr (Or.inr (key_of_mem_invocationField h))

theorem shared_of_mem_leadingFields {a : Agent} {s : Shared} {e : Scalar × Value}
    (h : e ∈ leadingFields a s) : ∃ t ∈ sharedNames, e.1 = .text t := by
  rcases key_of_mem_leadingFields h with h | h | h
  · exact ⟨_, by decide, h⟩
  · exact ⟨_, by decide, h⟩
  · exact ⟨_, invocationName_mem a, h⟩

/-- No leading field has the name under which an extra is kept. -/
theorem leadingFields_lacks_keptName (a : Agent) (s : Shared) {key : Scalar} (h : PlainName key) :
    (leadingFields a s).Lacks (keptName a key) := by
  intro f hf
  obtain ⟨t, ht, hft⟩ := shared_of_mem_leadingFields hf
  refine Bool.eq_false_iff.mpr fun hs => keptName_ne a h ht ?_
  rw [hft] at hs
  exact (Scalar.same_text_iff' t _).mp hs

theorem addField_of_lacks {m : Mapping} {key : String} (h : m.Lacks (.text key)) (v : Value) :
    addField key v m = m ++ optionalField key v := by
  unfold addField optionalField
  split
  · simp
  · exact Mapping.set_of_lacks h v

theorem addInvocation_of_lacks {a : Agent} {m : Mapping} (h : m.Lacks (.text (invocationName a)))
    (removeForeign : Bool) (s : Shared) :
    addInvocation a removeForeign s.invocation m =
      m ++ invocationField a (toldBy a removeForeign s).invocation := by
  rw [toldBy_invocation]
  cases s.invocation with
  | none => simp [addInvocation, invocationField]
  | some b =>
    have hset := Mapping.set_of_lacks h (.bool !b)
    unfold invocationName at hset
    cases hmarks : a.marksForeignFields <;> cases removeForeign <;>
      simp only [hmarks, if_true, if_false, Bool.false_eq_true] at hset <;>
      simp [addInvocation, invocationField, invocationName, hmarks, hset]

theorem addHistory_of_lacks {m : Mapping} (h : m.Lacks (.text provenanceKey))
    (o : Option (List Phrase)) : addHistory o m = m ++ historyField o := by
  match o with
  | none => simp [addHistory, historyField]
  | some [] => simp [addHistory, historyField]
  | some (_ :: _) => exact Mapping.set_of_lacks h _

theorem addSkillExtras_cons_of_lacks {a : Agent} {e : Scalar × Value} {fields : Mapping}
    (h : fields.Lacks (keptName a e.1)) (extras : Mapping) :
    addSkillExtras a false (e :: extras) fields =
      addSkillExtras a false extras (fields ++ [(keptName a e.1, e.2)]) := by
  have hc := Mapping.contains_eq_false_iff.mpr h
  rw [← Mapping.set_of_lacks h]
  simp only [addSkillExtras, List.foldl_cons, hc, Bool.and_false, Bool.or_self, Bool.false_eq_true,
    if_false]

/-- Every extra is added behind the fields that are there. -/
theorem addSkillExtras_of_plain {a : Agent} {extras fields : Mapping} (h : PlainExtras extras)
    (hl : ∀ e ∈ extras, fields.Lacks (keptName a e.1)) :
    addSkillExtras a false extras fields = fields ++ keptExtras a extras := by
  induction extras generalizing fields with
  | nil => simp [addSkillExtras, keptExtras]
  | cons e extras ih =>
    have he := hl e (by simp)
    have hrest : ∀ f ∈ extras, (fields ++ [(keptName a e.1, e.2)]).Lacks (keptName a f.1) := by
      intro f hf g hg
      rcases List.mem_append.mp hg with hg | hg
      · exact hl f (List.mem_cons_of_mem _ hf) g hg
      · obtain rfl := List.mem_singleton.mp hg
        refine Bool.eq_false_iff.mpr fun hs => ?_
        -- Two extras under one kept name would be read back under one name.
        have hne := (Mapping.Distinct.cons_iff.mp h.distinct).1 f hf
        have hsame := keptName_same (h.plain e (by simp)) (h.plain f (List.mem_cons_of_mem _ hf)) hs
        rw [hsame, Scalar.same_refl] at hne
        exact nomatch hne
    rw [addSkillExtras_cons_of_lacks he, ih h.tail hrest]
    simp [keptExtras]

theorem lacks_of_ne {m : Mapping} {key : String} (h : ∀ e ∈ m, e.1 ≠ .text key) :
    m.Lacks (.text key) :=
  fun e he => Bool.eq_false_iff.mpr fun hs => h e he ((Scalar.same_text_iff key e.1).mp hs)

theorem unshared_keptExtras {a : Agent} {extras : Mapping} (h : PlainExtras extras) :
    Unshared (keptExtras a extras) := by
  intro e he t ht
  obtain ⟨f, hf, rfl⟩ := List.mem_map.mp he
  exact keptName_ne a (h.plain f hf) ht

/-- The leading fields, what was added behind them, and the history. -/
theorem skillFields_of_added {a : Agent} {removeForeign : Bool} {n : Neutral} {added : Mapping}
    (hu : Unshared added)
    (h : addSkillExtras a removeForeign n.extras
        (leadingFields a (toldBy a removeForeign n.shared)) =
      leadingFields a (toldBy a removeForeign n.shared) ++ added) :
    n.skillFields a removeForeign =
      leadingFields a (toldBy a removeForeign n.shared) ++ added ++
        historyField n.shared.history := by
  have hi : invocationName a ≠ nameKey ∧ invocationName a ≠ descriptionKey ∧
      invocationName a ≠ provenanceKey := by cases a <;> decide
  have h1 : (optionalField nameKey n.shared.name).Lacks (.text descriptionKey) :=
    lacks_of_ne fun e he => by rw [key_of_mem_optionalField he]; decide
  have h2 : (optionalField nameKey n.shared.name ++
      optionalField descriptionKey n.shared.description).Lacks (.text (invocationName a)) := by
    refine lacks_of_ne fun e he => ?_
    rcases List.mem_append.mp he with he | he
    · rw [key_of_mem_optionalField he]; simpa using hi.1.symm
    · rw [key_of_mem_optionalField he]; simpa using hi.2.1.symm
  have h3 : (leadingFields a (toldBy a removeForeign n.shared) ++ added).Lacks
      (.text provenanceKey) := by
    refine lacks_of_ne fun e he => ?_
    rcases List.mem_append.mp he with he | he
    · rcases key_of_mem_leadingFields he with hk | hk | hk
      · rw [hk]; decide
      · rw [hk]; decide
      · rw [hk]; simpa using hi.2.2
    · exact hu e he provenanceKey (by decide)
  have hstart : addField nameKey n.shared.name [] = optionalField nameKey n.shared.name :=
    addField_of_lacks (fun _ he => absurd he List.not_mem_nil) _
  have hlead : addInvocation a removeForeign n.shared.invocation
      (addField descriptionKey n.shared.description (addField nameKey n.shared.name [])) =
        leadingFields a (toldBy a removeForeign n.shared) := by
    rw [hstart, addField_of_lacks h1, addInvocation_of_lacks h2, leadingFields, toldBy_name,
      toldBy_description]
  rw [skillFields, hlead, h, addHistory_of_lacks h3]

/-- The leading fields, the extras and the history, one behind the other. -/
theorem skillFields_eq (a : Agent) (n : Neutral) (h : PlainExtras n.extras) :
    n.skillFields a false =
      leadingFields a n.shared ++ keptExtras a n.extras ++ historyField n.shared.history := by
  -- The writer skips an extra whose name is there already; none is.
  have hadd := addSkillExtras_of_plain h fun e he =>
    leadingFields_lacks_keptName a n.shared (h.plain e he)
  rw [← toldBy_false a n.shared] at hadd
  rw [skillFields_of_added (unshared_keptExtras h) hadd, toldBy_false]

theorem distinct_addSkillExtras (a : Agent) (removeForeign : Bool) (extras : Mapping)
    {fields : Mapping} (h : fields.Distinct) :
    (addSkillExtras a removeForeign extras fields).Distinct := by
  unfold addSkillExtras
  induction extras generalizing fields with
  | nil => exact h
  | cons e extras ih =>
    rw [List.foldl_cons]
    refine ih ?_
    simp only
    split
    · exact h
    · exact h.set _ _

theorem distinct_skillFields (a : Agent) (removeForeign : Bool) (n : Neutral) :
    (n.skillFields a removeForeign).Distinct := by
  have hfield : ∀ (key : String) (v : Value) {m : Mapping}, m.Distinct →
      (addField key v m).Distinct := by
    intro key v m hm
    unfold addField
    split
    · exact hm
    · exact hm.set _ _
  have hlead := hfield descriptionKey n.shared.description
    (hfield nameKey n.shared.name List.Pairwise.nil)
  have hinvocation : (addInvocation a removeForeign n.shared.invocation
      (addField descriptionKey n.shared.description
        (addField nameKey n.shared.name []))).Distinct := by
    unfold addInvocation
    split
    · exact hlead
    · split
      · exact hlead.set _ _
      · split
        · exact hlead
        · exact hlead.set _ _
  have hextras := distinct_addSkillExtras a removeForeign n.extras hinvocation
  unfold skillFields addHistory
  split
  · exact hextras.set _ _
  · exact hextras

end Neutral

/-! ## Fields read back -/

namespace Skill

open Neutral

theorem addField_title (a : Agent) (acc : Shared × Mapping) {e : Scalar × Value}
    (h : e.1 = .text nameKey ∨ e.1 = .text descriptionKey) : addField a acc e = .ok acc := by
  rcases h with h | h <;> simp [addField, h]

theorem addField_invocation (a : Agent) (s : Shared) (m : Mapping) (b : Bool) :
    addField a (s, m) (.text (invocationName a), .bool b) =
      .ok ({ s with invocation := some !b }, m) := by
  cases a <;> rfl

/-- A field without the name of a shared property becomes an extra. -/
theorem addField_unshared {a : Agent} {name key : Scalar} (hu : ∀ t ∈ sharedNames, name ≠ .text t)
    (hk : extraKey a name = .ok key) (s : Shared) (m : Mapping) (v : Value) :
    addField a (s, m) (name, v) = .ok (s, Mapping.set m key v) := by
  have hne : ∀ t ∈ sharedNames, name.same (.text t) = false := fun t ht =>
    Bool.eq_false_iff.mpr fun hs => hu t ht ((Scalar.same_text_iff t _).mp hs)
  have hinv : ((invocationKeys a).any fun k => name.same (.text k)) = false := by
    rw [List.any_eq_false]
    intro k hk
    have hmem : k ∈ sharedNames := by
      have : ∀ k ∈ invocationKeys a, k ∈ sharedNames := by cases a <;> decide
      exact this k hk
    simp [hne k hmem]
  simp [addField, hne _ (show nameKey ∈ sharedNames by decide),
    hne _ (show descriptionKey ∈ sharedNames by decide),
    hne _ (show provenanceKey ∈ sharedNames by decide), hinv, hk, Except.map]

theorem addField_kept (a : Agent) (s : Shared) (m : Mapping) {key : Scalar} (h : PlainName key)
    (v : Value) : addField a (s, m) (keptName a key, v) = .ok (s, Mapping.set m key v) :=
  addField_unshared (fun _ ht => keptName_ne a h ht) (extraKey_keptName a h) s m v

theorem mapM_shown_phrase (hs : List Phrase) :
    (hs.map Value.phrase).mapM Value.shown = .ok hs := by
  induction hs with
  | nil => rfl
  | cons p hs ih =>
    have hp : (Value.phrase p).shown = .ok p := by cases p <;> rfl
    rw [List.map_cons, List.mapM_cons, ih, hp]
    rfl

theorem itemTexts_map_phrase (hs : List Phrase) : itemTexts (hs.map Value.phrase) = .ok hs := by
  have hfilter : (hs.map Value.phrase).filter (fun v => !v.isNull) = hs.map Value.phrase := by
    refine List.filter_eq_self.mpr fun v hv => ?_
    obtain ⟨p, -, rfl⟩ := List.mem_map.mp hv
    cases p <;> rfl
  rw [itemTexts, hfilter, mapM_shown_phrase]

theorem provenance_phrases (h : Phrase) (hs : List Phrase) :
    provenance (Value.list ((h :: hs).map Value.phrase)) = .ok (some (h :: hs)) := by
  have ht := itemTexts_map_phrase (h :: hs)
  simp only [provenance, Value.list, Value.items?, Value.isNode, Bool.false_eq_true, if_false, ht]
  rfl

theorem addField_history (a : Agent) (s : Shared) (m : Mapping) (h : Phrase) (hs : List Phrase) :
    addField a (s, m) (.text provenanceKey, Value.list ((h :: hs).map Value.phrase)) =
      .ok ({ s with history := some (h :: hs) }, m) := by
  have hinv : ((invocationKeys a).any fun k => provenanceKey == k) = false := by
    cases a <;> decide
  have hn : (provenanceKey == nameKey) = false := by decide
  have hd : (provenanceKey == descriptionKey) = false := by decide
  simp only [addField, Scalar.same_text_text, hn, hd, hinv, beq_self_eq_true, provenance_phrases,
    Except.map, Bool.or_self, Bool.false_eq_true, if_false, if_true]

/-- Reading fields one by one goes on behind the fields that were read. -/
theorem foldlM_append_ok {a : Agent} {acc mid : Shared × Mapping} {m n : Mapping}
    (h : m.foldlM (addField a) acc = .ok mid) :
    (m ++ n).foldlM (addField a) acc = n.foldlM (addField a) mid := by
  rw [List.foldlM_append, h]; rfl

theorem foldlM_optionalField (a : Agent) (acc : Shared × Mapping) {key : String}
    (h : key = nameKey ∨ key = descriptionKey) (v : Value) :
    (optionalField key v).foldlM (addField a) acc = .ok acc := by
  unfold optionalField
  split
  · rfl
  · have hk : Scalar.text key = .text nameKey ∨ Scalar.text key = .text descriptionKey := by
      simpa using h
    rw [List.foldlM_cons, addField_title a acc hk]; rfl

theorem foldlM_invocationField (a : Agent) (s : Shared) (m : Mapping) (h : s.invocation = none)
    (o : Option Bool) :
    (invocationField a o).foldlM (addField a) (s, m) = .ok ({ s with invocation := o }, m) := by
  cases o with
  | none =>
    obtain ⟨d, n, i, hs⟩ := s
    obtain rfl : i = none := h
    rfl
  | some b =>
    rw [invocationField, List.foldlM_cons, addField_invocation, Bool.not_not]
    rfl

theorem foldlM_keptExtras (a : Agent) (s : Shared) {extras m : Mapping} (h : PlainExtras extras)
    (hl : ∀ e ∈ extras, m.Lacks e.1) :
    (keptExtras a extras).foldlM (addField a) (s, m) = .ok (s, m ++ extras) := by
  induction extras generalizing m with
  | nil => simp [keptExtras]; rfl
  | cons e extras ih =>
    have hrest : ∀ f ∈ extras, (m ++ [(e.1, e.2)]).Lacks f.1 := by
      intro f hf g hg
      rcases List.mem_append.mp hg with hg | hg
      · exact hl f (List.mem_cons_of_mem _ hf) g hg
      · obtain rfl := List.mem_singleton.mp hg
        exact (Mapping.Distinct.cons_iff.mp h.distinct).1 f hf
    have hstep := addField_kept a s m (h.plain e (by simp)) e.2
    rw [Mapping.set_of_lacks (hl e (by simp))] at hstep
    rw [keptExtras, List.map_cons, List.foldlM_cons, hstep]
    calc (keptExtras a extras).foldlM (addField a) (s, m ++ [(e.1, e.2)])
        = .ok (s, (m ++ [(e.1, e.2)]) ++ extras) := ih h.tail hrest
      _ = .ok (s, m ++ e :: extras) := by simp

theorem foldlM_historyField (a : Agent) (s : Shared) (m : Mapping) (h : s.history = none)
    {o : Option (List Phrase)} (ho : o ≠ some []) :
    (historyField o).foldlM (addField a) (s, m) = .ok ({ s with history := o }, m) := by
  match o, ho with
  | none, _ =>
    obtain ⟨d, n, i, hs⟩ := s
    obtain rfl : hs = none := h
    rfl
  | some (t :: ts), _ =>
    rw [historyField, List.foldlM_cons, addField_history]
    rfl

theorem field_optionalField_append (key : String) (v : Value) {m : Mapping}
    (h : m.Lacks (.text key)) : Mapping.field (optionalField key v ++ m) key = v := by
  unfold optionalField
  split
  · rename_i hv
    rw [List.nil_append, Mapping.field_of_lacks h]
    cases v with
    | scalar s => cases s <;> first | rfl | exact nomatch hv
    | _ => exact nomatch hv
  · simp [Mapping.field, Mapping.get?]

theorem field_append_of_lacks {m n : Mapping} {key : String} (h : m.Lacks (.text key)) :
    Mapping.field (m ++ n) key = Mapping.field n key := by
  rw [Mapping.field, Mapping.get?_append, Mapping.get?_eq_none_iff.mpr h, Option.none_or]
  rfl

/-- The shared properties are read back from in front of any fields that are read,
without names of shared properties. -/
theorem split_written (a : Agent) (s : Shared) {fields extras : Mapping} (hu : Unshared fields)
    (hread : ∀ t, fields.foldlM (addField a) (t, []) = .ok (t, extras))
    (hh : s.history ≠ some []) :
    split a (leadingFields a s ++ fields ++ historyField s.history) = .ok (s, extras) := by
  -- What follows the titles cannot be taken for one of them.
  have hbehind : ∀ t ∈ [nameKey, descriptionKey],
      (invocationField a s.invocation ++ fields ++ historyField s.history).Lacks (.text t) := by
    intro t ht
    have hi : invocationName a ≠ t ∧ provenanceKey ≠ t := by
      have : ∀ t ∈ [nameKey, descriptionKey], invocationName a ≠ t ∧ provenanceKey ≠ t := by
        cases a <;> decide
      exact this t ht
    have hs : t ∈ sharedNames := by
      have : ∀ t ∈ [nameKey, descriptionKey], t ∈ sharedNames := by decide
      exact this t ht
    refine lacks_of_ne fun e he => ?_
    simp only [List.mem_append] at he
    rcases he with (he | he) | he
    · rw [key_of_mem_invocationField he]; simpa using hi.1
    · exact hu e he t hs
    · rw [key_of_mem_historyField he]; simpa using hi.2
  have hname : Mapping.field (leadingFields a s ++ fields ++ historyField s.history) nameKey =
      s.name := by
    simp only [leadingFields, List.append_assoc]
    refine field_optionalField_append _ _ (lacks_of_ne fun e he => ?_)
    rcases List.mem_append.mp he with he | he
    · rw [key_of_mem_optionalField he]; decide
    · rw [← List.append_assoc] at he
      intro hk
      have := hbehind nameKey (by simp) e he
      rw [hk] at this
      simp at this
  have hdescription : Mapping.field (leadingFields a s ++ fields ++ historyField s.history)
      descriptionKey = s.description := by
    simp only [leadingFields, List.append_assoc]
    rw [field_append_of_lacks]
    · refine field_optionalField_append _ _ ?_
      rw [← List.append_assoc]
      exact hbehind descriptionKey (by simp)
    · exact lacks_of_ne fun e he => by rw [key_of_mem_optionalField he]; decide
  unfold split
  rw [hname, hdescription]
  simp only [leadingFields, List.append_assoc]
  rw [foldlM_append_ok (foldlM_optionalField a _ (Or.inl rfl) _),
    foldlM_append_ok (foldlM_optionalField a _ (Or.inr rfl) _),
    foldlM_append_ok (foldlM_invocationField a _ _ rfl _), foldlM_append_ok (hread _),
    foldlM_historyField a _ _ rfl hh]

/-- What is written in front of a skill is read back as it was. -/
theorem split_skillFields (a : Agent) (s : Shared) {extras : Mapping} (h : PlainExtras extras)
    (hh : s.history ≠ some []) :
    split a (leadingFields a s ++ keptExtras a extras ++ historyField s.history) =
      .ok (s, extras) :=
  split_written a s (unshared_keptExtras h)
    (fun t => foldlM_keptExtras a t h fun _ _ _ hf => absurd hf List.not_mem_nil) hh

end Skill

end AgentRelay
