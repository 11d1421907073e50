import AgentRelay.Proofs.Document.Reading
import AgentRelay.Proofs.Frontmatter
import AgentRelay.Proofs.Neutral.Relabelling
import AgentRelay.Proofs.Skill.RoundTrip
import AgentRelay.Proofs.Toml.Origins

/-
  Where the nodes of a document on its way come from.

  A spoke changes no node of a document on its way (`toNeutral_via`), so what it brings
  has no nodes of a document it was not read from (`Command.clear_toNeutral`,
  `Skill.clear_toNeutral`).
-/

namespace AgentRelay

open Yaml (InDocument)

/-- The origin is no node of the document. -/
abbrev Elsewhere (doc : Nat) (o : Origin) : Prop := ¬ InDocument doc o

/-! ## Numbers that move -/

/-- The nodes of one document get other numbers. -/
def Labels.moving (doc : Nat) : Labels := fun i =>
  if i.1 = doc then .node doc (i.2 + 1) else .node i.1 i.2

variable {doc : Nat}

theorem Labels.faithful_moving (doc : Nat) : (Labels.moving doc).Faithful where
  node i := by
    unfold moving
    split <;> rfl
  injective i j h := by
    unfold moving at h
    by_cases hi : i.1 = doc
    · by_cases hj : j.1 = doc
      · rw [if_pos hi, if_pos hj] at h
        exact Prod.ext (hi.trans hj.symm) (Nat.succ.inj (Origin.node.inj h).2)
      · rw [if_pos hi, if_neg hj] at h
        exact absurd (Origin.node.inj h).1.symm hj
    · by_cases hj : j.1 = doc
      · rw [if_neg hi, if_pos hj] at h
        exact absurd (Origin.node.inj h).1 hi
      · rw [if_neg hi, if_neg hj] at h
        exact Prod.ext (Origin.node.inj h).1 (Origin.node.inj h).2

theorem Origin.via_moving_iff (o : Origin) : o.via (.moving doc) = o ↔ Elsewhere doc o := by
  cases o with
  | node d n =>
    have hvia : (Origin.node d n).via (.moving doc) =
        if d = doc then .node doc (n + 1) else .node d n := rfl
    rw [hvia]
    by_cases hd : d = doc
    · rw [if_pos hd]
      refine iff_of_false (fun h => ?_) fun h => h ⟨n, by rw [hd]⟩
      exact absurd (Origin.node.inj h).2 (Nat.succ_ne_self n)
    · rw [if_neg hd]
      exact iff_of_true rfl fun ⟨_, h⟩ => hd (Origin.node.inj h).1
  | own => exact iff_of_true rfl fun ⟨_, h⟩ => by cases h
  | inlineTable => exact iff_of_true rfl fun ⟨_, h⟩ => by cases h

/-- A mapping has no node of a document exactly when these may have other numbers. -/
theorem Mapping.elsewhere_iff {m : Mapping} :
    m.From (Elsewhere doc) ↔ m.via (.moving doc) = m := by
  rw [via_eq_self_iff]
  exact ⟨fun h => h.mono fun o => (o.via_moving_iff).mpr,
    fun h => h.mono fun o => (o.via_moving_iff).mp⟩

theorem elsewhere_of_in {other : Nat} (hne : other ≠ doc) {o : Origin} (h : InDocument other o) :
    Elsewhere doc o := fun ⟨_, hn⟩ => by
  obtain ⟨n, rfl⟩ := h
  exact hne (Origin.node.inj hn).1

/-! ## What is read -/

/-- The command has no nodes of a document. -/
def Command.Clear (doc : Nat) (c : Command) : Prop := c.via (.moving doc) = c

/-- The skill has no nodes of a document. -/
def Skill.Clear (doc : Nat) (s : Skill) : Prop := s.via (.moving doc) = s

/-- The document on its way has no nodes of a document. -/
def Neutral.Clear (doc : Nat) (n : Neutral) : Prop := n.via (.moving doc) = n

/-- What was read from one document has no nodes of another. -/
theorem Mapping.via_of_in {other : Nat} (hne : other ≠ doc) {m : Mapping}
    (h : m.From (InDocument other)) : m.via (.moving doc) = m :=
  elsewhere_iff.mp (h.mono fun _ ho => elsewhere_of_in hne ho)

theorem Mapping.via_of_bare {m : Mapping} (h : m.From Toml.Bare) : m.via (.moving doc) = m :=
  elsewhere_iff.mp (h.mono fun _ ho ⟨n, hn⟩ => ho doc n hn)

theorem Command.clear_of_ofText {a : Agent} {other : Nat} (hne : other ≠ doc) {path text : String}
    {c : Command} (h : ofText a other path text = .ok c) : c.Clear doc := by
  unfold ofText at h
  split at h
  · obtain rfl := Except.ok.inj h
    rfl
  · obtain ⟨m, hm, h⟩ := exists_of_bind_eq_ok h
    obtain ⟨description, hdescription, h⟩ := exists_of_bind_eq_ok h
    obtain rfl := Except.ok.inj h
    have hread := ok_of_mapError hm
    have htext := Value.via_of_asText (g := .moving doc) (ok_of_mapError hdescription)
    have hfields := @Mapping.via_of_bare doc _ (Toml.bare_readDocument hread)
    rw [Clear, via, htext, ← Mapping.without_via, ← Mapping.without_via, hfields]
  · obtain ⟨⟨fields, content⟩, hsplit, rfl⟩ := exists_of_map_eq_ok h
    rw [Clear, via, Mapping.via_of_in hne (Frontmatter.from_split (ok_of_mapError hsplit))]

theorem Skill.clear_of_readFrom {w : World} {a : Agent} {other : Nat} (hne : other ≠ doc)
    (hconfig : 2 ≠ doc) {p : Path} {s : Skill} (h : ReadFrom w a other p s) : s.Clear doc := by
  obtain ⟨text, hsplit⟩ := h.parts.own
  have hfields := Mapping.via_of_in hne (Frontmatter.from_split hsplit)
  have hname : s.name.via (.moving doc) = s.name := by
    rcases h.name with hname | hname
    · rw [hname, ← Mapping.field_via, hfields]
    · rw [hname]
      rfl
  have hsame : s.config.map (Mapping.via (.moving doc)) = s.config := by
    cases hc : s.config with
    | none => rfl
    | some m =>
      obtain ⟨t, v, hread, hentries⟩ := h.config m hc
      exact congrArg some (Mapping.via_of_in hconfig
        (Value.from_entries? (Yaml.from_readSource hread) hentries))
  rw [Clear, via, hname, hfields, hsame]

/-! ## What a spoke brings -/

section
variable {a : Agent} {destination : Option String} {n : Neutral}

theorem Command.clear_toNeutral (ha : a ≠ Agent.hub) {c : Command} (hc : c.Clear doc)
    (h : c.toNeutral a destination = .ok n) : n.Clear doc := by
  have hvia := toNeutral_via (Labels.faithful_moving doc) ha destination c
  rw [hc, h] at hvia
  exact (Except.ok.inj hvia).symm

theorem Skill.clear_toNeutral (ha : a ≠ Agent.hub) {s : Skill} (hs : s.Clear doc)
    (h : s.toNeutral a destination = .ok n) : n.Clear doc := by
  have hvia := toNeutral_via (Labels.faithful_moving doc) ha destination s
  rw [hs, h] at hvia
  exact (Except.ok.inj hvia).symm

theorem Neutral.Clear.extras (h : n.Clear doc) : n.extras.From (Elsewhere doc) :=
  Mapping.elsewhere_iff.mpr (congrArg Neutral.extras h)

/-- A document on its way tells which agent it comes from. -/
theorem Command.agent_toNeutral {c : Command} (h : c.toNeutral a destination = .ok n) :
    n.background.agent = some a.name := by
  have hneutral {fields : Mapping} {content path : String} {n : Neutral}
      (h : neutralOf a fields content path = .ok n) : n.background.agent = some a.name := by
    obtain ⟨s, -, h⟩ := exists_of_bind_eq_ok h
    obtain rfl := Except.ok.inj h
    rfl
  cases c with
  | markdown fields content path =>
    simp only [toNeutral] at h
    split at h
    · obtain ⟨m, hm, h⟩ := exists_of_bind_eq_ok h
      have hagent := hneutral hm
      obtain rfl := Except.ok.inj h
      exact hagent
    · exact hneutral h
  | table prompt description fields path => exact hneutral h
  | plain content path => exact hneutral h

theorem Skill.agent_toNeutral {s : Skill} (h : s.toNeutral a destination = .ok n) :
    n.background.agent = some a.name := by
  obtain ⟨⟨shared, extras⟩, hsplit⟩ := split_of_toNeutral h
  rw [toNeutral_of_split destination hsplit] at h
  obtain rfl := Except.ok.inj h
  rfl

end

end AgentRelay
