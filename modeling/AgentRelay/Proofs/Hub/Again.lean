import AgentRelay.Proofs.Hub.History
import AgentRelay.Proofs.Neutral.Origins

/-
  A document of the hub that is written on top of itself.

  What a spoke brings is put into a document of the hub, and the document is written
  and read again. The nodes it has then stand for those it had (`Mapping.Rereads`). The
  same put into it once more gives the same document: the block of the spoke takes its
  own place, and every other block is where it was (`kept_again`). A section that was
  built anew is a node when it is read, but one that nothing else in the document is.
  So the document is the one that was there but for its nodes (`addSection_again`), and
  its text is the same (`join_again`).
-/

namespace AgentRelay

open Yaml (Identity identity? InDocument Meetings)

namespace Hub

/-- A node of the document, and nothing else. -/
def within (doc : Nat) : Origin → Origin
  | .node d n => if d = doc then .node d n else .own
  | _ => .own

/-- What the nodes of a document that is read again stand for: what they came from, if
that was a node of the document, and nothing in particular otherwise. -/
def again (doc : Nat) (g : Labels) : Labels := fun i =>
  if i.1 = doc then within doc (g i) else .node i.1 i.2

variable {doc : Nat} {g : Labels}

theorem within_of_in {o : Origin} (h : InDocument doc o) : within doc o = o := by
  obtain ⟨n, rfl⟩ := h
  exact if_pos rfl

theorem within_of_elsewhere {o : Origin} (h : Elsewhere doc o) : within doc o = .own := by
  cases o with
  | node d n => exact if_neg fun hd => h ⟨n, by rw [hd]⟩
  | _ => rfl

/-- What was never in the document stays what it is. -/
theorem via_again_of_elsewhere {o : Origin} (h : Elsewhere doc o) : o.via (again doc g) = o := by
  cases o with
  | node d n => exact if_neg fun hd => h ⟨n, by rw [← hd]⟩
  | _ => rfl

theorem via_again_of_in {o : Origin} (h : InDocument doc o) :
    o.via (again doc g) = within doc (o.via g) := by
  obtain ⟨n, rfl⟩ := h
  exact if_pos rfl

/-- A node of the document that came from one stands for it. -/
theorem via_again_of_stays {o : Origin} (h : InDocument doc o) (hg : InDocument doc (o.via g)) :
    o.via (again doc g) = o.via g := by
  rw [via_again_of_in h, within_of_in hg]

theorem via_again_of_free {m : Mapping} (h : m.From (Elsewhere doc)) :
    m.via (again doc g) = m :=
  Mapping.via_eq_self_iff.mpr (h.mono fun _ ho => via_again_of_elsewhere ho)

/-- The nodes of the document that are met twice when a mapping is written came from nodes of
the document, so the mapping is written by what they stand for. -/
theorem sound_again (hapart : ∀ i j k, identity? (g i) = some k → identity? (g j) = some k → i = j)
    {named : List Identity} (hkept : ∀ i ∈ named, i.1 = doc → InDocument doc (g i)) :
    Yaml.Sound (again doc g) named where
  apart i j k hi hj := by
    unfold again at hi hj
    have hin {o : Origin} (ho : identity? (within doc o) = some k) :
        identity? o = some k ∧ k.1 = doc := by
      by_cases hd : InDocument doc o
      · rw [within_of_in hd] at ho
        obtain ⟨n, rfl⟩ := hd
        exact ⟨ho, (congrArg Prod.fst (Option.some.inj ho)).symm⟩
      · rw [within_of_elsewhere hd] at ho
        cases ho
    have hout {l : Identity} (hl : identity? (.node l.1 l.2) = some k) : l = k := Option.some.inj hl
    by_cases hdi : i.1 = doc
    · rw [if_pos hdi] at hi
      by_cases hdj : j.1 = doc
      · rw [if_pos hdj] at hj
        exact hapart i j k (hin hi).1 (hin hj).1
      · rw [if_neg hdj] at hj
        exact absurd ((congrArg Prod.fst (hout hj)).trans (hin hi).2) hdj
    · rw [if_neg hdi] at hi
      by_cases hdj : j.1 = doc
      · rw [if_pos hdj] at hj
        exact absurd ((congrArg Prod.fst (hout hi)).trans (hin hj).2) hdi
      · rw [if_neg hdj] at hj
        exact (hout hi).trans (hout hj).symm
  kept i hi := by
    unfold again
    split
    · rename_i hd
      obtain ⟨n, hn⟩ := hkept i hi hd
      rw [hn, within_of_in ⟨n, rfl⟩]
      rfl
    · rfl
  block i hi := by
    unfold again at hi
    split at hi
    · by_cases hd : InDocument doc (g i)
      · rw [within_of_in hd] at hi
        obtain ⟨n, hn⟩ := hd
        rw [hn] at hi
        cases hi
      · rw [within_of_elsewhere hd] at hi
        cases hi
    · cases hi

/-! ## The blocks -/

/-- The origin is no node of the document, or one that came from a node of it. -/
def Stays (doc : Nat) (g : Labels) (o : Origin) : Prop :=
  Elsewhere doc o ∨ InDocument doc (o.via g)

/-- What came from nodes of the document stands for them. -/
theorem via_again_of_from {m : Mapping} (hm : m.From (InDocument doc))
    (hg : Mapping.From (InDocument doc) (m.via g)) :
    m.via (again doc g) = m.via g ∧ m.From (Stays doc g) := by
  have hboth := hm.and (Mapping.from_via.mp hg)
  exact ⟨Mapping.via_eq_via_iff.mpr (hboth.mono fun _ ho => via_again_of_stays ho.1 ho.2),
    hboth.mono fun _ ho => .inr ho.2⟩

/-- A key that is a text in what the nodes stand for is that text. -/
theorem eq_text_of_via {k : Scalar} {a : String} (h : k.via g = .text a) : k = .text a := by
  rw [← Scalar.same_text_iff, ← Scalar.same_via_text (g := g), h, Scalar.same_text_iff]

/-- An entry whose key and value stay is the entry it came from. -/
theorem entry_again {e f : Scalar × Value} (he : e.1.From (InDocument doc) ∧ e.2.From (InDocument doc))
    (hf : f.1.From (InDocument doc) ∧ f.2.From (InDocument doc))
    (hsame : (e.1.via g, e.2.via g) = f) :
    (e.1.via (again doc g), e.2.via (again doc g)) = f ∧
      e.1.From (Stays doc g) ∧ e.2.From (Stays doc g) := by
  have hm : Mapping.From (InDocument doc) [e] := by simpa [Mapping.From] using he
  obtain ⟨hvia, hstays⟩ := via_again_of_from hm (g := g)
    (by simpa [Mapping.From, Mapping.via, hsame] using hf)
  refine ⟨?_, hstays e (by simp)⟩
  rw [← hsame]
  exact List.singleton_inj.mp hvia

/-- What is set under a key that was set before takes its own place. -/
theorem set_again {a : String} {v : Value} (hv : v.From (Elsewhere doc)) {m n : Mapping}
    (hm : m.From (InDocument doc)) (hn : n.From (InDocument doc))
    (hsame : n.via g = Mapping.set m (.text a) v) :
    Mapping.via (again doc g) (Mapping.set n (.text a) v) = Mapping.set m (.text a) v ∧
      Mapping.From (Stays doc g) (Mapping.set n (.text a) v) := by
  have hstays : v.From (Stays doc g) := Value.from_mono (fun _ ho => .inl ho) v hv
  have hkeep : v.via (again doc g) = v :=
    v.via_eq_self_iff.mpr (Value.from_mono (fun _ ho => via_again_of_elsewhere ho) v hv)
  induction m generalizing n with
  | nil =>
    obtain ⟨⟨k, x⟩, rfl, he⟩ := List.map_eq_singleton_iff.mp hsame
    obtain rfl := eq_text_of_via (congrArg Prod.fst he)
    have hset : Mapping.set [(.text a, x)] (.text a) v = [(.text a, v)] := by simp [Mapping.set]
    rw [hset]
    exact ⟨by simp [hkeep, Mapping.set], by simpa [Mapping.From] using ⟨trivial, hstays⟩⟩
  | cons f m ih =>
    obtain ⟨j, w⟩ := f
    obtain ⟨hf, hrest⟩ := List.forall_mem_cons.mp hm
    unfold Mapping.set at hsame
    split at hsame
    · rename_i hj
      obtain ⟨⟨k, x⟩, n, rfl, he, rfl⟩ := List.map_eq_cons_iff.mp hsame
      obtain ⟨-, hn'⟩ := List.forall_mem_cons.mp hn
      obtain rfl := (Scalar.same_text_iff a j).mp hj
      obtain rfl := eq_text_of_via (congrArg Prod.fst he)
      obtain ⟨hvia, hfrom⟩ := via_again_of_from hn' hrest
      rw [Mapping.set, if_pos hj, Mapping.set, if_pos hj, Mapping.via_cons, hkeep, hvia]
      exact ⟨rfl, Mapping.From.cons ⟨trivial, hstays⟩ hfrom⟩
    · rename_i hj
      obtain ⟨⟨k, x⟩, n, rfl, he, hsame'⟩ := List.map_eq_cons_iff.mp hsame
      obtain ⟨hkx, hn'⟩ := List.forall_mem_cons.mp hn
      obtain ⟨hvia, hfrom⟩ := ih hrest hn' hsame'
      obtain ⟨hentry, hstay⟩ := entry_again hkx hf he
      have hk : ¬ k.same (.text a) = true := by
        have hkey : k.via g = j := congrArg Prod.fst he
        rw [← Scalar.same_via_text (g := g), hkey]
        exact hj
      rw [Mapping.set, if_neg hk, Mapping.set, if_neg hj, Mapping.via_cons, hvia, hentry]
      exact ⟨rfl, Mapping.From.cons hstay hfrom⟩

/-- The blocks are those that were kept before. -/
theorem kept_again {a : Agent} {extras : Mapping} (hextras : extras.From (Elsewhere doc))
    {section_ : Value} (hsection : section_.From (InDocument doc)) {o : Origin} {n : Mapping}
    (hn : n.From (InDocument doc)) (hsame : n.via g = keptBlocks a extras section_) :
    Mapping.via (again doc g) (keptBlocks a extras (.map o n)) = keptBlocks a extras section_ ∧
      Mapping.From (Stays doc g) (keptBlocks a extras (.map o n)) := by
  have hraw : (rawBlocks section_).From (InDocument doc) := by
    cases section_ with
    | map o m => exact Value.fromEntries_iff.mp hsection.2
    | _ => exact fun e he => absurd he List.not_mem_nil
  unfold keptBlocks at hsame ⊢
  split at hsame
  · rename_i hnone
    rw [if_pos hnone, if_pos hnone]
    rw [← hsame] at hraw ⊢
    exact via_again_of_from hn hraw
  · rename_i hsome
    rw [if_neg hsome, if_neg hsome]
    refine set_again ?_ hraw hn hsame
    have hclean : extras.clean.From (Elsewhere doc) := hextras.sub (List.filter_subset_self _)
    refine ⟨?_, Value.fromEntries_iff.mpr hclean⟩
    rintro ⟨_, hown⟩
    cases hown

/-! ## The document -/

/-- What a spoke brings stands in the section behind the other fields, when there is any. -/
theorem addSection_eq {a : Agent} (ha : a ∈ Agent.spokes) (extras existing : Mapping)
    {fields : Mapping} (h : fields.Lacks (.text sectionKey)) :
    addSection (some a.name) extras existing fields =
      if keptBlocks a extras (sectionOf existing) = [] then fields
      else fields ++ [(.text sectionKey, .map (sectionOrigin (sectionOf existing))
        (keptBlocks a extras (sectionOf existing)))] := by
  simp only [addSection, updated_spoke ha, Value.truthy]
  by_cases hk : keptBlocks a extras (sectionOf existing) = []
  · simp [hk]
  · simp [hk, Mapping.set_of_lacks h]

theorem sectionOf_append {m : Mapping} (h : m.Lacks (.text sectionKey)) (v : Value) :
    sectionOf (m ++ [(.text sectionKey, v)]) = v := by
  rw [sectionOf, Mapping.field, Mapping.get?_append, Mapping.get?_eq_none_iff.mpr h]
  simp [Mapping.get?]

/-- An origin that stays is no node of the document that came from elsewhere. -/
theorem ne_of_stays {o : Origin} {i : Identity} (hd : i.1 = doc)
    (hi : ¬ InDocument doc (g i)) (ho : Stays doc g o) : o ≠ .node i.1 i.2 := by
  rintro rfl
  rcases ho with hout | hin
  · exact hout ⟨i.2, by rw [hd]⟩
  · exact hi hin

theorem lacks_of_via {m : Mapping} {a : String} (h : (m.via g).Lacks (.text a)) :
    m.Lacks (.text a) := fun e he => by
  rw [← Scalar.same_via_text (g := g)]
  exact h _ (List.mem_map_of_mem he)

theorem clean_behind (m : Mapping) (key : Scalar) (o : Origin) (n : Mapping) :
    Mapping.clean (m ++ [(key, .map o n)]) = m.clean ++ [(key, .map o n)] := by
  simp [Mapping.clean, Value.isNull]

/-- Where nothing is put, nothing was put before. -/
theorem kept_null_of_nil {a : Agent} {extras : Mapping} {section_ : Value}
    (h : keptBlocks a extras section_ = []) : keptBlocks a extras .null = [] := by
  unfold keptBlocks at h ⊢
  split at h
  · rename_i hnone
    rw [if_pos hnone]
    rfl
  · exact absurd h (Mapping.set_ne_nil _ _ _)

/-- The origin of a section that is read again is that of the section, if it has one in the
document. -/
theorem sectionOrigin_again {section_ : Value} (hsection : section_.From (InDocument doc))
    {o : Origin} (ho : InDocument doc o) (hsame : o.via g = sectionOrigin section_) :
    o.via (again doc g) = sectionOrigin section_ := by
  rw [via_again_of_in ho, hsame]
  cases section_ with
  | map p m => exact within_of_in hsection.1
  | _ => rfl

/-- A document with a section is read as one that has its section behind the other
fields. -/
theorem exists_of_via_section {n fields blocks : Mapping} {o : Origin}
    (h : n.via g = fields ++ [(.text sectionKey, .map o blocks)]) :
    ∃ (m : Mapping) (p : Origin) (read : Mapping), n = m ++ [(.text sectionKey, .map p read)] ∧
      m.via g = fields ∧ p.via g = o ∧ read.via g = blocks := by
  obtain ⟨m, last, rfl, hm, hlast⟩ := List.map_eq_append_iff.mp h
  obtain ⟨⟨k, v⟩, rfl, he⟩ := List.map_eq_singleton_iff.mp hlast
  obtain ⟨hk, hv⟩ := Prod.mk.inj he
  obtain rfl := eq_text_of_via hk
  cases v with
  | map p read =>
    rw [Value.via_map] at hv
    obtain ⟨hp, hread⟩ := Value.map.inj hv
    exact ⟨m, p, read, rfl, hm, hp, hread⟩
  | _ => simp at hv

/-- What a spoke brings, put into a document that has it already and was read again, gives the
same document but for its nodes. -/
theorem addSection_again {a : Agent} (ha : a ∈ Agent.spokes) {extras fields existing n : Mapping}
    (hextras : extras.From (Elsewhere doc)) (hfields : fields.From (Elsewhere doc))
    (hlacks : fields.Lacks (.text sectionKey)) (hold : existing.From (InDocument doc))
    (hnew : n.From (InDocument doc))
    (hread : n.Rereads g (addSection (some a.name) extras existing fields).clean) :
    ∃ h, Yaml.Sound h
        (Meetings.entries (addSection (some a.name) extras n fields).clean ⟨[], []⟩).twice ∧
      (addSection (some a.name) extras n fields).clean.via h =
        (addSection (some a.name) extras existing fields).clean := by
  have hclean : fields.clean.From (Elsewhere doc) := hfields.sub (List.filter_subset_self _)
  have hlacks' : fields.clean.Lacks (.text sectionKey) :=
    fun e he => hlacks e (List.mem_filter.mp he).1
  have hsection : (sectionOf existing).From (InDocument doc) := by
    rw [sectionOf, Mapping.field]
    cases hget : Mapping.get? existing (.text sectionKey) with
    | none => trivial
    | some v => exact hold.get? hget
  obtain ⟨hsame, hapart⟩ := hread
  rw [addSection_eq ha _ _ hlacks] at hsame ⊢
  rw [addSection_eq ha _ _ hlacks]
  split at hsame
  · rename_i hnil
    have hnull : sectionOf n = .null := by
      refine sectionOf_of_lacks (lacks_of_via (g := g) ?_)
      rw [hsame]
      exact hlacks'
    rw [hnull, if_pos (kept_null_of_nil hnil), if_pos hnil]
    exact ⟨.same, Yaml.Sound.of_faithful Labels.faithful_same _, Mapping.via_same _⟩
  · rename_i hkept
    rw [clean_behind] at hsame
    obtain ⟨m, p, read, rfl, hm, hp, hblocks⟩ := exists_of_via_section hsame
    have hmlacks : m.Lacks (.text sectionKey) := lacks_of_via (g := g) (hm ▸ hlacks')
    obtain ⟨-, hpin, hreadIn⟩ := hnew _ (List.mem_append_right _ (List.mem_singleton.mpr rfl))
    obtain ⟨hvia, hstays⟩ := kept_again (o := p) hextras hsection
      (Value.fromEntries_iff.mp hreadIn) hblocks
    have hkept' : keptBlocks a extras (.map p read) ≠ [] := fun hnil => by
      rw [hnil] at hvia
      exact hkept hvia.symm
    rw [sectionOf_append hmlacks, if_neg hkept', if_neg hkept, clean_behind, clean_behind]
    refine ⟨again doc g, sound_again hapart fun i hi hd => ?_, ?_⟩
    · -- A node that came from elsewhere can only be the section itself.
      refine Classical.byContradiction fun hout => ?_
      refine Meetings.not_twice_of_last (hclean.mono ?_) (hstays.mono ?_) sectionKey p hi
      · exact fun o ho => ne_of_stays hd hout (.inl ho)
      · exact fun o ho => ne_of_stays hd hout ho
    · have horigin : (sectionOrigin (.map p read)).via (again doc g) =
          sectionOrigin (sectionOf existing) := sectionOrigin_again hsection hpin hp
      rw [Mapping.via_append, via_again_of_free hclean, Mapping.via_cons, Mapping.via_nil,
        Scalar.via_text, Value.via_map, horigin, hvia]

/-- What a spoke brings, put into a document that has it already and was read again, is written
with the text that was read. -/
theorem join_again {a : Agent} (ha : a ∈ Agent.spokes) {extras fields existing n : Mapping}
    (hextras : extras.From (Elsewhere doc)) (hfields : fields.From (Elsewhere doc))
    (hlacks : fields.Lacks (.text sectionKey)) (hold : existing.From (InDocument doc))
    (hnew : n.From (InDocument doc))
    (hread : n.Rereads g (addSection (some a.name) extras existing fields).clean)
    (content : String) :
    Frontmatter.join (addSection (some a.name) extras n fields) content =
      Frontmatter.join (addSection (some a.name) extras existing fields) content := by
  obtain ⟨h, hsound, hvia⟩ := addSection_again ha hextras hfields hlacks hold hnew hread
  rw [Frontmatter.join, Frontmatter.join]
  simp only [← hvia, Yaml.write_via hsound, Mapping.isEmpty_via]

/-! ## What a spoke brings -/

section
variable {a : Agent} (ha : a ∈ Agent.spokes) {n : Neutral} (hn : n.Clear doc)
  (hagent : n.background.agent = some a.name) (removeForeign : Bool) {existing read : Mapping}
  (hold : existing.From (InDocument doc)) (hnew : read.From (InDocument doc))
include ha hn hagent hold hnew

/-- A command that a spoke brings is written with the text that was read. -/
theorem text_toCommand_again
    (hread : read.Rereads g (n.toCommand Agent.hub ⟨removeForeign, existing⟩).fields.clean) :
    (n.toCommand Agent.hub ⟨removeForeign, read⟩).text =
      (n.toCommand Agent.hub ⟨removeForeign, existing⟩).text := by
  have hbase : (commandBase ⟨a, removeForeign, n⟩).From (Elsewhere doc) := by
    refine Mapping.elsewhere_iff.mpr ?_
    have hdescription := addField_via (g := .moving doc) descriptionKey n.shared.description []
    have hclear : n.shared.description.via (.moving doc) = n.shared.description :=
      congrArg (fun n => n.shared.description) hn
    rw [commandBase, ← addHistory_via, ← hdescription, hclear]
    rfl
  have hwrites (fields : Mapping) : n.toCommand Agent.hub ⟨removeForeign, fields⟩ =
      .markdown (addSection (some a.name) n.extras fields (commandBase ⟨a, removeForeign, n⟩))
        (bodyText Agent.hub n.body) (n.commandPath Agent.hub) := by
    rw [← hagent]
    rfl
  rw [hwrites] at hread ⊢
  rw [hwrites]
  have hjoined := congrArg (Except.mapError Draft.fieldsFailure)
    (join_again ha hn.extras hbase (plain_commandBase _) hold hnew hread (bodyText Agent.hub n.body))
  exact congrArg (Except.map Phrase.whole) hjoined

/-- A skill that a spoke brings is written with the text that was read. -/
theorem text_toSkill_again
    (hread : read.Rereads g (n.toSkill Agent.hub ⟨removeForeign, existing⟩).fields.clean) :
    (n.toSkill Agent.hub ⟨removeForeign, read⟩).text =
      (n.toSkill Agent.hub ⟨removeForeign, existing⟩).text := by
  have hbase : (skillBase ⟨a, removeForeign, n⟩).From (Elsewhere doc) := by
    refine Mapping.elsewhere_iff.mpr ?_
    have hfields := Neutral.skillFields_via (g := .moving doc) Agent.hub removeForeign n
    rw [hn] at hfields
    have hfilter := Mapping.filter_via (g := .moving doc) (p := fun e =>
      Neutral.hubKeys.any fun k => e.1.same (.text k)) (q := fun e =>
      Neutral.hubKeys.any fun k => e.1.same (.text k)) (fun e => by simp only [Scalar.same_via_text])
      (n.skillFields Agent.hub removeForeign)
    rw [skillBase, ← hfilter, ← hfields]
  have hwrites (fields : Mapping) : (n.toSkill Agent.hub ⟨removeForeign, fields⟩).fields =
      addSection (some a.name) n.extras fields (skillBase ⟨a, removeForeign, n⟩) := by
    rw [← hagent]
    rfl
  rw [hwrites] at hread
  rw [Skill.text, Skill.text, hwrites, hwrites]
  exact congrArg (Except.mapError Draft.fieldsFailure)
    (join_again ha hn.extras hbase (plain_skillBase _) hold hnew hread _)

end

end Hub

end AgentRelay
