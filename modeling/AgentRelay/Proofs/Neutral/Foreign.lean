import AgentRelay.Proofs.Neutral.Hop

/-
  What an agent leaves out when it writes a document without the fields it does not
  understand.

  The writer asks at three places whether a field is left out, before and after it
  has renamed it. The result is plain all the same: the document is the one with the
  foreign fields, less the entries of the names in a list that depends on the agent
  alone (`foreignCommandFields`, `leftOutNames`). For commands the two are compared
  entry by entry, since an extra that is left out must not make room for another one
  (`addCommandExtras_true`). A skill is put together without collisions as long as
  its extras have plain names, so the list is taken out of each part by itself
  (`skillFields_true`, `skillFields_among`).
-/

namespace AgentRelay

namespace Mapping

/-! ## Entries of given names -/

/-- The key is one of these names. -/
def isNamed (names : List String) (key : Scalar) : Bool := names.any fun s => key.same (.text s)

/-- The entries of these names. -/
def among (m : Mapping) (names : List String) : Mapping := m.filter fun e => isNamed names e.1

/-- The entries of other names than these. -/
def besides (m : Mapping) (names : List String) : Mapping := m.filter fun e => !isNamed names e.1

variable {names : List String}

theorem isNamed_iff {key : Scalar} : isNamed names key = true ↔ ∃ s ∈ names, key = .text s := by
  simp [isNamed, Scalar.same_text_iff]

theorem isNamed_text {s : String} : isNamed names (.text s) = true ↔ s ∈ names := by
  simp [isNamed_iff]

theorem not_isNamed_text {s : String} (h : s ∉ names) : isNamed names (.text s) = false :=
  Bool.eq_false_iff.mpr fun hs => h (isNamed_text.mp hs)

/-- Keys that are the same have the same names. -/
theorem isNamed_of_same {k key : Scalar} (h : k.same key = true) :
    isNamed names k = isNamed names key := by
  rw [Bool.eq_iff_iff, isNamed_iff, isNamed_iff]
  constructor
  · rintro ⟨s, hs, rfl⟩
    exact ⟨s, hs, (Scalar.same_text_iff' s key).mp h⟩
  · rintro ⟨s, hs, rfl⟩
    exact ⟨s, hs, (Scalar.same_text_iff s k).mp h⟩

theorem besides_nil (m : Mapping) : m.besides [] = m :=
  List.filter_eq_self.mpr fun _ _ => rfl

theorem among_nil (m : Mapping) : m.among [] = [] :=
  List.filter_eq_nil_iff.mpr fun _ _ => Bool.false_ne_true

theorem besides_append (m n : Mapping) (names : List String) :
    Mapping.besides (m ++ n) names = m.besides names ++ n.besides names :=
  List.filter_append m n

theorem among_append (m n : Mapping) (names : List String) :
    Mapping.among (m ++ n) names = m.among names ++ n.among names :=
  List.filter_append m n

theorem without_besides (m : Mapping) (names : List String) (key : String) :
    (m.besides names).without key = (m.without key).besides names := by
  simp only [besides, without, List.filter_filter, Bool.and_comm]

theorem among_without {key : String} (h : key ∉ names) (m : Mapping) :
    (m.without key).among names = m.among names := by
  rw [among, without, List.filter_filter]
  refine List.filter_congr fun e _ => ?_
  cases hk : e.1.same (.text key) with
  | false => simp
  | true => simp [isNamed_of_same hk, not_isNamed_text h]

theorem get?_besides (m : Mapping) {key : Scalar} (h : isNamed names key = false) :
    get? (m.besides names) key = get? m key :=
  get?_filter fun e _ hs => by rw [isNamed_of_same hs, h]; rfl

theorem contains_besides (m : Mapping) {key : Scalar} (h : isNamed names key = false) :
    contains (m.besides names) key = contains m key := by
  rw [contains, get?_besides m h, contains]

theorem field_besides (m : Mapping) {key : String} (h : key ∉ names) :
    field (m.besides names) key = field m key := by
  rw [field, get?_besides m (not_isNamed_text h), field]

theorem besides_set (m : Mapping) {key : Scalar} (h : isNamed names key = false) (v : Value) :
    (set m key v).besides names = set (m.besides names) key v := by
  induction m with
  | nil => simp [besides, set, h]
  | cons e m ih =>
    obtain ⟨k, w⟩ := e
    unfold besides at ih ⊢
    by_cases hs : k.same key = true
    · simp [set, hs, isNamed_of_same hs, h]
    · cases hk : isNamed names k <;> simp [set, hs, hk, ih]

/-- What is set under one of the names is left out. -/
theorem besides_set_of_isNamed (m : Mapping) {key : Scalar} (h : isNamed names key = true)
    (v : Value) : (set m key v).besides names = m.besides names := by
  induction m with
  | nil => simp [besides, set, h]
  | cons e m ih =>
    obtain ⟨k, w⟩ := e
    unfold besides at ih ⊢
    by_cases hs : k.same key = true
    · simp [set, hs, isNamed_of_same hs, h]
    · cases hk : isNamed names k <;> simp [set, hs, hk, ih]

/-- What is set under another name is none of the entries of the names. -/
theorem among_set (m : Mapping) {key : Scalar} (h : isNamed names key = false) (v : Value) :
    (set m key v).among names = m.among names := by
  induction m with
  | nil => simp [among, set, h]
  | cons e m ih =>
    obtain ⟨k, w⟩ := e
    unfold among at ih ⊢
    by_cases hs : k.same key = true
    · simp [set, hs, isNamed_of_same hs, h]
    · cases hk : isNamed names k <;> simp [set, hs, hk, ih]

theorem among_eq_nil {m : Mapping} (h : ∀ e ∈ m, isNamed names e.1 = false) :
    m.among names = [] :=
  List.filter_eq_nil_iff.mpr fun e he => by simp [h e he]

theorem besides_eq_self {m : Mapping} (h : ∀ e ∈ m, isNamed names e.1 = false) :
    m.besides names = m :=
  List.filter_eq_self.mpr fun e he => by simp [h e he]

end Mapping

open Mapping (isNamed isNamed_iff isNamed_text not_isNamed_text)

/-! ## Commands -/

/-- The command without the fields of these names. -/
def Command.besides (names : List String) : Command → Command
  | markdown fields content path => .markdown (fields.besides names) content path
  | table prompt description fields path => .table prompt description (fields.besides names) path
  | plain content path => .plain content path

theorem Command.besides_nil (c : Command) : c.besides [] = c := by
  cases c <;> simp [besides, Mapping.besides_nil]

namespace Neutral

variable {a : Agent}

/-- What an agent does not understand in front of a command is none of the names that
have a meaning in one. -/
theorem not_mem_foreignCommandFields {key : String}
    (h : key ∈ [descriptionKey, promptKey, provenanceKey]) : key ∉ a.foreignCommandFields := by
  have hall : ∀ key ∈ [descriptionKey, promptKey, provenanceKey],
      key ∉ a.foreignCommandFields := by cases a <;> decide
  exact hall key h

/-- An extra that is understood is written or not, whatever is left out. -/
theorem keepsCommandExtra_true {key : Scalar} (h : isNamed a.foreignCommandFields key = false) :
    keepsCommandExtra a true key = keepsCommandExtra a false key := by
  unfold isNamed at h
  simp [keepsCommandExtra, h]

theorem keepsCommandExtra_foreign {key : Scalar}
    (h : isNamed a.foreignCommandFields key = true) :
    keepsCommandExtra a true key = false ∧ keepsCommandExtra a false key = true := by
  obtain ⟨s, hs, rfl⟩ := isNamed_iff.mp h
  have hskip : ∀ k ∈ a.skippedCommandFields, k = promptKey := by cases a <;> decide
  have hne : s ≠ promptKey := fun e => not_mem_foreignCommandFields (by simp) (e ▸ hs)
  have hkept : (a.skippedCommandFields.any fun k => s == k) = false := by
    rw [List.any_eq_false]
    intro k hk
    rw [hskip k hk]
    simpa using hne
  simp [keepsCommandExtra, hkept, hs]

/-- To leave foreign extras out is to take what they added away again: an extra that is
left out makes room for no other one. -/
theorem addCommandExtras_true (a : Agent) (extras fields : Mapping) :
    addCommandExtras a true extras (fields.besides a.foreignCommandFields) =
      (addCommandExtras a false extras fields).besides a.foreignCommandFields := by
  unfold addCommandExtras
  induction extras generalizing fields with
  | nil => rfl
  | cons e extras ih =>
    rw [List.foldl_cons, List.foldl_cons]
    cases hf : isNamed a.foreignCommandFields e.1 with
    | true =>
      obtain ⟨ht, hk⟩ := keepsCommandExtra_foreign hf
      simp only [ht, hk, Bool.not_false, Bool.not_true, Bool.or_true, Bool.or_false, if_true]
      split
      · exact ih fields
      · rw [← Mapping.besides_set_of_isNamed fields hf e.2]
        exact ih _
    | false =>
      rw [keepsCommandExtra_true hf, Mapping.contains_besides fields hf]
      split
      · exact ih fields
      · rw [← Mapping.besides_set fields hf]
        exact ih _

theorem besides_addField {names : List String} {key : String} (h : key ∉ names) (v : Value)
    (m : Mapping) : (addField key v m).besides names = addField key v (m.besides names) := by
  unfold addField
  split
  · rfl
  · exact Mapping.besides_set m (not_isNamed_text h) v

theorem besides_addHistory {names : List String} (h : provenanceKey ∉ names)
    (history : Option (List Phrase)) (m : Mapping) :
    (addHistory history m).besides names = addHistory history (m.besides names) := by
  unfold addHistory
  split
  · exact Mapping.besides_set m (not_isNamed_text h) _
  · rfl

/-- The fields in front of a command with and without what is foreign to the agent. -/
theorem commandFields_true (a : Agent) (n : Neutral) :
    n.commandFields a true = (n.commandFields a false).besides a.foreignCommandFields := by
  have hstart : addField descriptionKey n.shared.description [] =
      (addField descriptionKey n.shared.description []).besides a.foreignCommandFields := by
    rw [besides_addField (not_mem_foreignCommandFields (by simp))]; rfl
  rw [commandFields, commandFields, besides_addHistory (not_mem_foreignCommandFields (by simp)),
    ← addCommandExtras_true, ← hstart]

theorem hub_toCommand (n : Neutral) (existing : Mapping) :
    n.toCommand Agent.hub ⟨true, existing⟩ = n.toCommand Agent.hub ⟨false, existing⟩ := rfl

theorem toCommand_true (a : Agent) (n : Neutral) (existing : Mapping) :
    n.toCommand a ⟨true, existing⟩ =
      (n.toCommand a ⟨false, existing⟩).besides a.foreignCommandFields := by
  by_cases ha : a = Agent.hub
  · subst ha
    rw [hub_toCommand]
    exact (Command.besides_nil _).symm
  · have hkey : descriptionKey ∉ a.foreignCommandFields := not_mem_foreignCommandFields (by simp)
    have hfield := Mapping.field_besides (n.commandFields a false) hkey
    cases hf : a.format with
    | plain => simp [toCommand, hf, Command.besides]
    | markdown => simp [toCommand, hf, ha, Command.besides, commandFields_true]
    | table =>
      simp [toCommand, hf, Command.besides, commandFields_true, hfield, Mapping.without_besides]

/-- Foreign extras are all written, each once, when nothing is left out. -/
theorem among_addCommandExtras {extras fields : Mapping} (hd : extras.Distinct)
    (hl : ∀ e ∈ extras, isNamed a.foreignCommandFields e.1 = true → fields.Lacks e.1) :
    (addCommandExtras a false extras fields).among a.foreignCommandFields =
      fields.among a.foreignCommandFields ++ extras.among a.foreignCommandFields := by
  unfold addCommandExtras
  induction extras generalizing fields with
  | nil => simp [Mapping.among]
  | cons e extras ih =>
    obtain ⟨he, hrest⟩ := Mapping.Distinct.cons_iff.mp hd
    have htail : ∀ f ∈ extras, isNamed a.foreignCommandFields f.1 = true → fields.Lacks f.1 :=
      fun f hf => hl f (List.mem_cons_of_mem _ hf)
    have hset : ∀ f ∈ extras, isNamed a.foreignCommandFields f.1 = true →
        Mapping.Lacks (fields ++ [e]) f.1 := by
      intro f hf hn g hg
      rcases List.mem_append.mp hg with hg | hg
      · exact htail f hf hn g hg
      · obtain rfl := List.mem_singleton.mp hg
        exact he f hf
    rw [List.foldl_cons]
    cases hf : isNamed a.foreignCommandFields e.1 with
    | true =>
      have hlacks := hl e (by simp) hf
      have hkeeps := (keepsCommandExtra_foreign hf).2
      simp only [Mapping.contains_eq_false_iff.mpr hlacks, hkeeps, Bool.not_true, Bool.or_self,
        Bool.false_eq_true, if_false, Mapping.set_of_lacks hlacks]
      rw [ih hrest hset, Mapping.among_append]
      simp [Mapping.among, hf]
    | false =>
      have hskip : Mapping.among (e :: extras) a.foreignCommandFields =
          Mapping.among extras a.foreignCommandFields := by simp [Mapping.among, hf]
      rw [hskip]
      split
      · exact ih hrest htail
      · rename_i hc
        rw [Bool.not_eq_true, Bool.or_eq_false_iff, Mapping.contains_eq_false_iff] at hc
        rw [Mapping.set_of_lacks hc.1, ih hrest hset, Mapping.among_append]
        simp [Mapping.among, hf]

theorem among_addField {names : List String} {key : String} (h : key ∉ names) (v : Value)
    (m : Mapping) : (addField key v m).among names = m.among names := by
  unfold addField
  split
  · rfl
  · exact Mapping.among_set m (not_isNamed_text h) v

theorem among_addHistory {names : List String} (h : provenanceKey ∉ names)
    (history : Option (List Phrase)) (m : Mapping) :
    (addHistory history m).among names = m.among names := by
  unfold addHistory
  split
  · exact Mapping.among_set m (not_isNamed_text h) _
  · rfl

/-- What would be left out of a command is written as the extras have it. -/
theorem among_toCommand {n : Neutral} (hd : n.extras.Distinct) (existing : Mapping) :
    (n.toCommand a ⟨false, existing⟩).otherFields.among a.foreignCommandFields =
      n.extras.among a.foreignCommandFields := by
  have hlacks : ∀ e ∈ n.extras, isNamed a.foreignCommandFields e.1 = true →
      (addField descriptionKey n.shared.description []).Lacks e.1 := by
    rintro e - hn
    obtain ⟨s, hs, hkey⟩ := isNamed_iff.mp hn
    have hne : s ≠ descriptionKey := fun h => not_mem_foreignCommandFields (by simp) (h ▸ hs)
    rw [addField_of_lacks (fun _ he => absurd he List.not_mem_nil), List.nil_append, hkey]
    exact lacks_of_ne fun f hf => by rw [key_of_mem_optionalField hf]; simpa using hne.symm
  have hfields : (n.commandFields a false).among a.foreignCommandFields =
      n.extras.among a.foreignCommandFields := by
    rw [commandFields, among_addHistory (not_mem_foreignCommandFields (by simp)),
      among_addCommandExtras hd hlacks, among_addField (not_mem_foreignCommandFields (by simp))]
    rfl
  by_cases ha : a = Agent.hub
  · subst ha
    exact (Mapping.among_nil _).trans (Mapping.among_nil _).symm
  · cases hf : a.format with
    | plain => 
      have hnil : a.foreignCommandFields = [] := by cases a <;> first | rfl | cases hf
      rw [hnil, Mapping.among_nil, Mapping.among_nil]
    | markdown => simpa [toCommand, hf, ha, Command.otherFields] using hfields
    | table =>
      simp only [toCommand, hf, Command.otherFields]
      rw [Mapping.among_without (not_mem_foreignCommandFields (by simp)),
        Mapping.among_without (not_mem_foreignCommandFields (by simp)), hfields]

/-! ## Skills -/

/-- The name under which an agent writes a skill field that it does not understand. -/
def foreignName : Agent → String → String
  | .gemini, k | .codex, k | .opencode, k => FieldKey.mark k
  | .copilot, k => if k = "user-invocable" then "user-invokable" else k
  | _, k => k

/-- The names an agent leaves out in front of a skill. -/
def leftOutNames (a : Agent) : List String :=
  (if a.marksForeignFields then [markedInvocationKey] else []) ++
    a.foreignSkillFields.map (foreignName a)

/-- The entries an agent writes for extras that it does not understand. -/
def foreignEntries (a : Agent) (extras : Mapping) : Mapping :=
  (extras.among a.foreignSkillFields).map fun e =>
    match e.1 with
    | .text k => (.text (foreignName a k), e.2)
    | key => (key, e.2)

/-- The entry about the use of a skill that an agent leaves out. -/
def leftOutInvocation (a : Agent) (s : Shared) : Mapping :=
  if a.marksForeignFields then invocationField a s.invocation else []

theorem plain_foreign {k : String} (h : k ∈ a.foreignSkillFields) : PlainName (.text k) := by
  have hall : ∀ k ∈ a.foreignSkillFields, k ∉ reservedNames ∧ FieldKey.isMarked k = false := by
    cases a <;> decide
  exact hall k h

theorem keptName_foreign {k : String} (h : k ∈ a.foreignSkillFields) :
    keptName a (.text k) = .text (foreignName a k) := by
  have hall : ∀ k ∈ a.foreignSkillFields, keptName a (.text k) = .text (foreignName a k) := by
    cases a <;> decide
  exact hall k h

/-- An extra is kept under a name that is left out exactly when it is foreign. -/
theorem isNamed_keptName {key : Scalar} (h : PlainName key) :
    isNamed (leftOutNames a) (keptName a key) = isForeign a key := by
  rw [Bool.eq_iff_iff, isNamed_iff]
  constructor
  · rintro ⟨s, hs, hkept⟩
    rcases List.mem_append.mp hs with hs | hs
    · -- The name that says who may use the skill is a shared property's.
      have hmarked : s = markedInvocationKey := by
        split at hs
        · exact List.mem_singleton.mp hs
        · exact absurd hs List.not_mem_nil
      exact absurd (hmarked ▸ hkept) (keptName_ne a h (by decide))
    · obtain ⟨f, hf, rfl⟩ := List.mem_map.mp hs
      have hsame : (keptName a key).same (keptName a (.text f)) = true := by
        rw [hkept, keptName_foreign hf]
        simp
      rw [keptName_same h (plain_foreign hf) hsame]
      exact isForeign_text.mpr hf
  · intro hf
    obtain ⟨k, hmem, hk⟩ := List.any_eq_true.mp hf
    rw [(Scalar.same_text_iff k key).mp hk]
    exact ⟨foreignName a k, List.mem_append_right _ (List.mem_map_of_mem hmem),
      keptName_foreign hmem⟩

/-- To leave foreign extras out is to have none. -/
theorem addSkillExtras_true (a : Agent) (extras fields : Mapping) :
    addSkillExtras a true extras fields =
      addSkillExtras a false (extras.filter fun e => !isForeign a e.1) fields := by
  unfold addSkillExtras
  induction extras generalizing fields with
  | nil => rfl
  | cons e extras ih =>
    rw [List.foldl_cons, List.filter_cons]
    cases hf : isForeign a e.1 with
    | true => exact ih fields
    | false =>
      simp only [hf, Bool.not_false, if_true, List.foldl_cons, Bool.false_and]
      exact ih _

theorem besides_keptExtras {extras : Mapping} (h : PlainExtras extras) :
    (keptExtras a extras).besides (leftOutNames a) =
      keptExtras a (extras.filter fun e => !isForeign a e.1) := by
  rw [keptExtras, Mapping.besides, List.filter_map]
  congr 1
  exact List.filter_congr fun e he => by simp [isNamed_keptName (h.plain e he)]

theorem among_keptExtras {extras : Mapping} (h : PlainExtras extras) :
    (keptExtras a extras).among (leftOutNames a) = foreignEntries a extras := by
  have hfilter : (extras.filter fun e => isNamed (leftOutNames a) (keptName a e.1)) =
      extras.among a.foreignSkillFields :=
    List.filter_congr fun e he => isNamed_keptName (h.plain e he)
  rw [keptExtras, Mapping.among, List.filter_map]
  refine (congrArg (List.map _) hfilter).trans (List.map_congr_left fun e he => ?_)
  obtain ⟨k, hk, hkey⟩ := isNamed_iff.mp (List.mem_filter.mp he).2
  rw [hkey, keptName_foreign hk]

theorem not_mem_leftOutNames {key : String} (h : key ∈ [nameKey, descriptionKey, provenanceKey]) :
    key ∉ leftOutNames a := by
  have hall : ∀ key ∈ [nameKey, descriptionKey, provenanceKey], key ∉ leftOutNames a := by
    cases a <;> decide
  exact hall key h

theorem invocationName_mem_leftOutNames_iff :
    invocationName a ∈ leftOutNames a ↔ a.marksForeignFields = true := by
  cases a <;> decide

/-- Of the leading fields an agent leaves out who may use the skill. -/
theorem besides_leadingFields (a : Agent) (s : Shared) :
    (leadingFields a s).besides (leftOutNames a) = leadingFields a (toldBy a true s) := by
  have hkept : ∀ {key : String} {v : Value}, key ∈ [nameKey, descriptionKey, provenanceKey] →
      (optionalField key v).besides (leftOutNames a) = optionalField key v := fun hkey =>
    Mapping.besides_eq_self fun e he => by
      rw [key_of_mem_optionalField he, not_isNamed_text (not_mem_leftOutNames hkey)]
  have hinvocation : (invocationField a s.invocation).besides (leftOutNames a) =
      invocationField a (toldBy a true s).invocation := by
    rw [toldBy_invocation, Bool.and_true]
    cases hm : a.marksForeignFields with
    | true =>
      refine List.filter_eq_nil_iff.mpr fun e he => ?_
      rw [key_of_mem_invocationField he,
        isNamed_text.mpr (invocationName_mem_leftOutNames_iff.mpr hm)]
      exact Bool.false_ne_true
    | false =>
      refine Mapping.besides_eq_self fun e he => ?_
      rw [key_of_mem_invocationField he]
      exact not_isNamed_text fun h =>
        Bool.false_ne_true (hm.symm.trans (invocationName_mem_leftOutNames_iff.mp h))
  rw [leadingFields, Mapping.besides_append, Mapping.besides_append, hkept (by simp),
    hkept (by simp), hinvocation, leadingFields, toldBy_name, toldBy_description]

theorem among_leadingFields (a : Agent) (s : Shared) :
    (leadingFields a s).among (leftOutNames a) = leftOutInvocation a s := by
  have hkept : ∀ {key : String} {v : Value}, key ∈ [nameKey, descriptionKey, provenanceKey] →
      (optionalField key v).among (leftOutNames a) = [] := fun hkey =>
    Mapping.among_eq_nil fun e he => by
      rw [key_of_mem_optionalField he, not_isNamed_text (not_mem_leftOutNames hkey)]
  rw [leadingFields, Mapping.among_append, Mapping.among_append, hkept (by simp), hkept (by simp),
    List.nil_append, List.nil_append, leftOutInvocation]
  cases hm : a.marksForeignFields with
  | true =>
    refine List.filter_eq_self.mpr fun e he => ?_
    rw [key_of_mem_invocationField he]
    exact isNamed_text.mpr (invocationName_mem_leftOutNames_iff.mpr hm)
  | false =>
    refine Mapping.among_eq_nil fun e he => ?_
    rw [key_of_mem_invocationField he]
    exact not_isNamed_text fun h =>
      Bool.false_ne_true (hm.symm.trans (invocationName_mem_leftOutNames_iff.mp h))

theorem not_isNamed_historyField {o : Option (List Phrase)} {e : Scalar × Value}
    (h : e ∈ historyField o) : isNamed (leftOutNames a) e.1 = false := by
  rw [key_of_mem_historyField h]
  exact not_isNamed_text (not_mem_leftOutNames (by simp))

/-- The fields in front of a skill with and without what is foreign to the agent. -/
theorem skillFields_true {n : Neutral} (h : PlainExtras n.extras) :
    n.skillFields a true = (n.skillFields a false).besides (leftOutNames a) := by
  have hunderstood := h.filter fun e => !isForeign a e.1
  have hadd := addSkillExtras_of_plain hunderstood fun e he =>
    leadingFields_lacks_keptName a (toldBy a true n.shared) (hunderstood.plain e he)
  rw [← addSkillExtras_true] at hadd
  rw [skillFields_of_added (unshared_keptExtras hunderstood) hadd, skillFields_eq a n h,
    Mapping.besides_append, Mapping.besides_append, besides_leadingFields, besides_keptExtras h,
    Mapping.besides_eq_self fun _ he => not_isNamed_historyField he]

/-- What would be left out of a skill: who may use it, and the foreign extras. -/
theorem among_skillFields {n : Neutral} (h : PlainExtras n.extras) :
    (n.skillFields a false).among (leftOutNames a) =
      leftOutInvocation a n.shared ++ foreignEntries a n.extras := by
  rw [skillFields_eq a n h, Mapping.among_append, Mapping.among_append, among_leadingFields,
    among_keptExtras h, Mapping.among_eq_nil fun _ he => not_isNamed_historyField he,
    List.append_nil]

theorem hub_toSkill (n : Neutral) (existing : Mapping) :
    n.toSkill Agent.hub ⟨true, existing⟩ = n.toSkill Agent.hub ⟨false, existing⟩ := by
  have hall : (n.extras.filter fun e => !isForeign Agent.hub e.1) = n.extras :=
    List.filter_eq_self.mpr fun _ _ => rfl
  have hextras : ∀ fields, addSkillExtras Agent.hub true n.extras fields =
      addSkillExtras Agent.hub false n.extras fields := fun fields => by
    rw [addSkillExtras_true, hall]
  have hfields : n.skillFields Agent.hub true = n.skillFields Agent.hub false := by
    rw [skillFields, skillFields, hextras]; rfl
  simp only [toSkill, hubSkillFields, hfields, if_true]

/-- The fields that travel in a configuration are foreign to no agent. -/
theorem foreignEntries_routed (a b : Agent) (n : Neutral) :
    foreignEntries a (routed b n).extras = foreignEntries a n.extras := by
  have hconfig : ∀ k ∈ configKeys, k ∉ a.foreignSkillFields := by cases a <;> decide
  have hamong : n.withoutConfig.extras.among a.foreignSkillFields =
      n.extras.among a.foreignSkillFields := by
    simp only [withoutConfig, configKeys, List.foldl_cons, List.foldl_nil]
    rw [Mapping.among_without (hconfig _ (by decide)), Mapping.among_without (hconfig _ (by decide))]
  unfold routed foreignEntries
  split
  · rw [hamong]
  · rfl

theorem plain_routed {n : Neutral} (h : PlainExtras n.extras) (b : Agent) :
    PlainExtras (routed b n).extras := by
  unfold routed
  split
  · exact PlainExtras.withoutConfig h
  · exact h

theorem toSkill_true {n : Neutral} (h : PlainExtras n.extras) (existing : Mapping) :
    n.toSkill a ⟨true, existing⟩ =
      { n.toSkill a ⟨false, existing⟩ with
        fields := (n.toSkill a ⟨false, existing⟩).fields.besides (leftOutNames a) } := by
  by_cases ha : a = Agent.hub
  · subst ha
    rw [hub_toSkill, show leftOutNames Agent.hub = [] from rfl, Mapping.besides_nil]
  · have hfields : (n.toSkill a ⟨true, existing⟩).fields =
        (n.toSkill a ⟨false, existing⟩).fields.besides (leftOutNames a) := by
      rw [fields_toSkill ha, fields_toSkill ha, skillFields_true (plain_routed h a)]
    rw [← hfields]
    rfl

theorem among_toSkill {n : Neutral} (h : PlainExtras n.extras) (existing : Mapping) :
    (n.toSkill a ⟨false, existing⟩).fields.among (leftOutNames a) =
      leftOutInvocation a n.shared ++ foreignEntries a n.extras := by
  by_cases ha : a = Agent.hub
  · subst ha
    have hnone : foreignEntries Agent.hub n.extras = [] := by
      rw [foreignEntries, show Agent.hub.foreignSkillFields = [] from rfl, Mapping.among_nil]
      rfl
    rw [hnone]
    exact Mapping.among_nil _
  · rw [fields_toSkill ha, among_skillFields (plain_routed h a), shared_routed,
      foreignEntries_routed]

/-! ## Both kinds of documents -/

/-- Written without what the agent does not understand, a document is the one with it,
less exactly these entries: the extras of a command with foreign names; of a skill with
plain extras, the foreign ones under the names they are written with and, where foreign
fields are marked, who may use the skill. The hub's documents are the same. -/
theorem foreign_fields_left_out (a : Agent) (n : Neutral) (existing : Mapping)
    (hd : n.extras.Distinct) :
    (n.toCommand a ⟨true, existing⟩ =
        (n.toCommand a ⟨false, existing⟩).besides a.foreignCommandFields ∧
      (n.toCommand a ⟨false, existing⟩).otherFields.among a.foreignCommandFields =
        n.extras.among a.foreignCommandFields) ∧
    ((∀ e ∈ n.extras, PlainName e.1) →
      n.toSkill a ⟨true, existing⟩ =
          { n.toSkill a ⟨false, existing⟩ with
            fields := (n.toSkill a ⟨false, existing⟩).fields.besides (leftOutNames a) } ∧
        (n.toSkill a ⟨false, existing⟩).fields.among (leftOutNames a) =
          leftOutInvocation a n.shared ++ foreignEntries a n.extras) ∧
    n.toCommand Agent.hub ⟨true, existing⟩ = n.toCommand Agent.hub ⟨false, existing⟩ ∧
    n.toSkill Agent.hub ⟨true, existing⟩ = n.toSkill Agent.hub ⟨false, existing⟩ := by
  refine ⟨⟨toCommand_true a n existing, among_toCommand hd existing⟩, fun hplain => ?_,
    hub_toCommand n existing, hub_toSkill n existing⟩
  exact ⟨toSkill_true ⟨hd, hplain⟩ existing, among_toSkill ⟨hd, hplain⟩ existing⟩

/-- A skill with a model of its own, which the model may use. -/
def modelled : Neutral :=
  ⟨.skill, [], { Shared.none with name := .text "s", invocation := some true },
    [(.text "color", .text "red"), (.text "model", .text "m")], ⟨"s", none, none, .null⟩⟩

/-- Without what is foreign the model and who may use the skill are left out. -/
theorem foreign_fields_left_out_of_modelled :
    modelled.extras.Distinct ∧ (∀ e ∈ modelled.extras, PlainName e.1) ∧
      modelled.toSkill .gemini ⟨true, []⟩ =
        { modelled.toSkill .gemini ⟨false, []⟩ with
          fields := [(.text "name", .text "s"), (.text "color", .text "red")] } ∧
      (modelled.toSkill .gemini ⟨false, []⟩).fields.among (leftOutNames .gemini) =
        [(.text "_claude_disable_model_invocation", .bool false),
          (.text "_claude_model", .text "m")] := by
  have hd : modelled.extras.Distinct := by simp [modelled, Mapping.Distinct]
  have hplain : ∀ e ∈ modelled.extras, PlainName e.1 := by
    intro e he
    rcases List.mem_cons.mp he with rfl | he
    · exact ⟨by decide, by decide⟩
    · obtain rfl := List.mem_singleton.mp he
      exact ⟨by decide, by decide⟩
  obtain ⟨hwritten, hout⟩ := (foreign_fields_left_out .gemini modelled [] hd).2.1 hplain
  exact ⟨hd, hplain, hwritten, hout⟩

end Neutral

end AgentRelay
