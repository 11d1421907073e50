import AgentRelay.Neutral.Hub
import AgentRelay.Proofs.Value.Closed

/-
  The hub's section, before and after one document is put into it.

  A document with extras replaces the block of its agent by them
  (`block_addSection`), also in a section that holds itself, as long as no loop in
  the extras points at it. None does in a block that was read from it
  (`sealed_block`). A document without extras, or of another agent,
  leaves a block that is empty empty and one that is not empty full
  (`block_addSection_eq_nil_iff`).
-/

namespace AgentRelay

namespace Hub

/-! ## The blocks as they are kept -/

/-- The blocks of a section as they are kept, loops and all. -/
def rawBlocks : Value → Mapping
  | .map _ m => m
  | _ => []

/-- Where a section came from; one that is no mapping is built anew. -/
def sectionOrigin : Value → Origin
  | .map o _ => o
  | _ => .own

/-- A kept block as a reader of the section finds it. -/
def readBlock (section_ v : Value) : Value :=
  if Value.isNode (sectionOrigin section_) then Value.fill (sectionOrigin section_) section_ v
  else v

theorem readBlock_map (o : Origin) (m : Mapping) (v : Value) :
    readBlock (.map o m) v = if Value.isNode o then Value.fill o (.map o m) v else v := rfl

theorem blocks_eq (v : Value) :
    blocks v = (rawBlocks v).map fun e => (e.1, readBlock v e.2) := by
  cases v with
  | map o m =>
    cases ho : Value.isNode o with
    | true =>
      simp [blocks, Value.entries?, ho, rawBlocks, readBlock, sectionOrigin,
        Value.fillEntries_eq_map]
    | false => simp [blocks, Value.entries?, ho, rawBlocks, readBlock, sectionOrigin]
  | _ => rfl

theorem block_eq (agent : String) (fields : Mapping) :
    block agent fields =
      match Mapping.get? (rawBlocks (sectionOf fields)) (.text agent) with
      | none => []
      | some v => blocks (readBlock (sectionOf fields) v) := by
  rw [block, Mapping.field, blocks_eq (sectionOf fields), Mapping.get?_map_value]
  cases Mapping.get? (rawBlocks (sectionOf fields)) (.text agent) <;> rfl

/-- No loop in a block that is read points at the section around it. -/
theorem sealed_block {agent : String} {fields : Mapping}
    (hnode : Value.isNode (sectionOrigin (sectionOf fields)) = true) :
    Value.sealedEntries (sectionOrigin (sectionOf fields)) (block agent fields) = true := by
  rw [block_eq]
  cases Mapping.get? (rawBlocks (sectionOf fields)) (.text agent) with
  | none => rfl
  | some v =>
    cases hsec : sectionOf fields with
    | map o m =>
      rw [hsec] at hnode
      have ho : Value.isNode o = true := hnode
      have hself : ∀ n, Value.sealedFrom o (.map o n) = true := fun n => by
        simp [Value.sealedFrom]
      have hread : (readBlock (.map o m) v).sealedFrom o = true := by
        rw [readBlock_map, if_pos ho]
        exact Value.sealed_fill (hself m) v (Or.inl rfl)
      -- Taking the entries of the block fills the places for the block itself.
      simp only [sectionOrigin]
      cases hv : readBlock (.map o m) v with
      | map q b =>
        rw [hv] at hread
        simp only [blocks, Value.entries?, Option.getD_some]
        by_cases hq : q = o
        · subst hq
          rw [if_pos ho]
          exact Value.sealed_fillEntries (hself b) b (Or.inl rfl)
        · have hb : Value.sealedEntries o b = true := by
            simpa [Value.sealedFrom, hq] using hread
          split
          · exact Value.sealed_fillEntries hread b (Or.inr hb)
          · exact hb
      | _ => rfl
    | _ => rw [hsec] at hnode; cases hnode

/-- A spoke is the owner of a block. -/
theorem blockOwner_spoke {a : Agent} (h : a ∈ Agent.spokes) :
    blockOwner? (some a.name) = some a.name := by
  revert h
  cases a <;> decide

theorem ne_hub_of_spoke {a : Agent} (h : a ∈ Agent.spokes) : a ≠ Agent.hub := by
  rintro rfl
  revert h
  decide

theorem sectionOf_of_lacks {fields : Mapping} (h : fields.Lacks (.text sectionKey)) :
    sectionOf fields = .null :=
  Mapping.field_of_lacks h

theorem sectionOf_set (fields : Mapping) (v : Value) :
    sectionOf (Mapping.set fields (.text sectionKey) v) = v := by
  simp [sectionOf, Mapping.field, Mapping.get?_set_same]

/-- The blocks that are kept after a document of an agent was put in. -/
def keptBlocks (a : Agent) (extras : Mapping) (section_ : Value) : Mapping :=
  if extras.clean = [] then rawBlocks section_
  else Mapping.set (rawBlocks section_) (.text a.name) (Value.mapping extras.clean)

theorem updated_spoke {a : Agent} (ha : a ∈ Agent.spokes) (extras : Mapping) (section_ : Value) :
    updated (some a.name) extras section_ =
      .map (sectionOrigin section_) (keptBlocks a extras section_) := by
  unfold updated keptBlocks
  rw [blockOwner_spoke ha]
  by_cases hc : extras.clean = []
  · simp only [hc, List.isEmpty_nil, if_true]
    cases section_ <;> rfl
  · have he : extras.clean.isEmpty = false := by simpa using hc
    simp only [he, hc, Bool.false_eq_true, if_false]
    cases section_ <;> rfl

/-- The new fields have a section exactly when a block is kept. -/
theorem sectionOf_addSection {a : Agent} (ha : a ∈ Agent.spokes) (extras existing : Mapping)
    {fields : Mapping} (h : fields.Lacks (.text sectionKey)) :
    sectionOf (addSection (some a.name) extras existing fields) =
      if keptBlocks a extras (sectionOf existing) = [] then .null
      else .map (sectionOrigin (sectionOf existing)) (keptBlocks a extras (sectionOf existing)) := by
  simp only [addSection, updated_spoke ha, Value.truthy]
  by_cases hk : keptBlocks a extras (sectionOf existing) = []
  · simp [hk, sectionOf_of_lacks h]
  · simp [hk, sectionOf_set]

theorem rawBlocks_addSection {a : Agent} (ha : a ∈ Agent.spokes) (extras existing : Mapping)
    {fields : Mapping} (h : fields.Lacks (.text sectionKey)) :
    rawBlocks (sectionOf (addSection (some a.name) extras existing fields)) =
      keptBlocks a extras (sectionOf existing) := by
  rw [sectionOf_addSection ha extras existing h]
  split
  · rename_i hk; rw [hk]; rfl
  · rfl

theorem blocks_mapping (m : Mapping) : blocks (Value.mapping m) = m := rfl

/-- The extras of a document that has some are what its agent reads back. -/
theorem block_addSection {a : Agent} (ha : a ∈ Agent.spokes) {extras existing fields : Mapping}
    (h : fields.Lacks (.text sectionKey)) (hc : extras.clean ≠ [])
    (hs : Value.isNode (sectionOrigin (sectionOf existing)) = true →
      Value.sealedEntries (sectionOrigin (sectionOf existing)) extras = true) :
    block a.name (addSection (some a.name) extras existing fields) = extras.clean := by
  have hget : Mapping.get? (keptBlocks a extras (sectionOf existing)) (.text a.name) =
      some (Value.mapping extras.clean) := by
    rw [keptBlocks, if_neg hc, Mapping.get?_set_same]
  have hne : keptBlocks a extras (sectionOf existing) ≠ [] := by
    intro hk
    rw [hk] at hget
    exact nomatch hget
  have hread : readBlock (sectionOf (addSection (some a.name) extras existing fields))
      (Value.mapping extras.clean) = Value.mapping extras.clean := by
    rw [sectionOf_addSection ha extras existing h, if_neg hne, readBlock_map]
    split
    · rename_i ho
      -- The extras have no loop into the section they go into.
      have hseal := Value.sealedEntries_iff.mp (hs ho)
      have hclean : Value.sealedEntries (sectionOrigin (sectionOf existing)) extras.clean = true :=
        Value.sealedEntries_iff.mpr fun e he => hseal e (List.mem_filter.mp he).1
      refine Value.fill_of_sealed _ _ _ ?_
      simp [Value.mapping, Value.sealedFrom, hclean]
    · rfl
  rw [block_eq, rawBlocks_addSection ha extras existing h, hget]
  simp only [hread, blocks_mapping]

theorem name_injective {a b : Agent} (h : a.name = b.name) : a = b := by
  have hsome := congrArg Agent.ofName? h
  rw [Agent.ofName?_name, Agent.ofName?_name] at hsome
  exact Option.some.inj hsome

/-- Whether a kept block is empty depends on where its section came from, but not
on the blocks beside it. -/
theorem blocks_readBlock_eq_nil {o : Origin} {m n : Mapping} (hm : m ≠ []) (hn : n ≠ [])
    (v : Value) :
    blocks (readBlock (.map o m) v) = [] ↔ blocks (readBlock (.map o n) v) = [] := by
  rw [readBlock_map, readBlock_map]
  split
  · cases v with
    | map p b =>
      by_cases hp : p = o
      · simp [Value.fill, hp, blocks_eq, rawBlocks]
      · simp [Value.fill, hp, blocks_eq, rawBlocks, Value.fillEntries_eq_map]
    | loop s p =>
      by_cases hp : p = o
      · simp [Value.fill, hp, blocks_eq, rawBlocks, hm, hn]
      · simp [Value.fill, hp]
    | _ => simp [Value.fill, blocks_eq, rawBlocks]
  · exact Iff.rfl

/-- A block that no document with extras came for is empty where it was empty,
and full where it was full. -/
theorem block_addSection_eq_nil_iff {a b : Agent} (ha : a ∈ Agent.spokes)
    {extras existing fields : Mapping} (h : fields.Lacks (.text sectionKey))
    (hab : a ≠ b ∨ extras.clean = []) :
    block b.name (addSection (some a.name) extras existing fields) = [] ↔
      block b.name existing = [] := by
  have hget : Mapping.get? (keptBlocks a extras (sectionOf existing)) (.text b.name) =
      Mapping.get? (rawBlocks (sectionOf existing)) (.text b.name) := by
    unfold keptBlocks
    split
    · rfl
    · rename_i hc
      exact Mapping.get?_set_of_ne _ _ _ _ fun hn => hab.resolve_right hc (name_injective hn).symm
  rw [block_eq, block_eq, rawBlocks_addSection ha extras existing h, hget]
  -- Where the block is kept, the section is there before and after.
  cases hv : Mapping.get? (rawBlocks (sectionOf existing)) (.text b.name) with
  | none => simp
  | some v =>
    have hkept : keptBlocks a extras (sectionOf existing) ≠ [] := by
      intro hk
      rw [hk, hv] at hget
      exact nomatch hget
    have hraw : rawBlocks (sectionOf existing) ≠ [] := by
      intro hk
      rw [hk] at hv
      exact nomatch hv
    rw [sectionOf_addSection ha extras existing h, if_neg hkept]
    cases hsec : sectionOf existing with
    | map o m =>
      rw [hsec] at hraw
      exact blocks_readBlock_eq_nil (hsec ▸ hkept) hraw v
    | _ => rw [hsec] at hraw; exact absurd rfl hraw

theorem without_of_lacks {m : Mapping} {key : String} (h : m.Lacks (.text key)) :
    Mapping.without m key = m :=
  List.filter_eq_self.mpr fun e he => by simp [h e he]

/-- Without its section, a document has the fields it was given. -/
theorem without_addSection (agent : Option String) (extras existing : Mapping) {fields : Mapping}
    (h : fields.Lacks (.text sectionKey)) :
    Mapping.without (addSection agent extras existing fields) sectionKey = fields := by
  simp only [addSection]
  split
  · rw [Mapping.set_of_lacks h, Mapping.without, List.filter_append, ← Mapping.without,
      without_of_lacks h]
    simp
  · exact without_of_lacks h

/-- The section is the only field that is added. -/
theorem get?_addSection (agent : Option String) (extras existing fields : Mapping) {key : Scalar}
    (h : key ≠ .text sectionKey) :
    Mapping.get? (addSection agent extras existing fields) key = Mapping.get? fields key := by
  simp only [addSection]
  split
  · rw [Mapping.get?_set_text, if_neg h]
  · rfl

/-- What a spoke reads: its block over the other extras. -/
theorem extrasFor_spoke {a : Agent} (ha : a ∈ Agent.spokes) (fields extras : Mapping) :
    extrasFor (some a.name) fields extras = Mapping.merge extras (block a.name fields) := by
  simp only [extrasFor, blockOwner_spoke ha]

/-- A document put into a hub that does not exist yet is read back whole. -/
theorem block_addSection_new {a : Agent} (ha : a ∈ Agent.spokes) (extras : Mapping)
    {fields : Mapping} (h : fields.Lacks (.text sectionKey)) :
    block a.name (addSection (some a.name) extras [] fields) = extras.clean := by
  by_cases hc : extras.clean = []
  · rw [hc]
    exact (block_addSection_eq_nil_iff ha h (Or.inr hc)).mpr rfl
  · exact block_addSection ha h hc fun ho => nomatch ho

/-- A hub that does not exist yet gets no section, or one with a single block. -/
theorem sectionOf_addSection_new (agent : Option String) (extras : Mapping) {fields : Mapping}
    (h : fields.Lacks (.text sectionKey)) :
    sectionOf (addSection agent extras [] fields) = .null ∨
      ∃ a, sectionOf (addSection agent extras [] fields) =
        .map .own [(.text a, Value.mapping extras.clean)] := by
  have hsection : sectionOf [] = .null := rfl
  unfold addSection updated
  rw [hsection]
  cases blockOwner? agent with
  | none => exact Or.inl (sectionOf_of_lacks h)
  | some a =>
    by_cases hc : extras.clean.isEmpty = true
    · simp only [hc, if_true]
      exact Or.inl (sectionOf_of_lacks h)
    · simp only [hc, Bool.false_eq_true, if_false]
      exact Or.inr ⟨a, sectionOf_set _ _⟩

/-- Whatever block is read from it, it holds extras of the document. -/
theorem mem_of_mem_block_new {agent : Option String} {extras fields : Mapping}
    (h : fields.Lacks (.text sectionKey)) {d : String} {e : Scalar × Value}
    (he : e ∈ block d (addSection agent extras [] fields)) : e ∈ extras := by
  unfold block at he
  rcases sectionOf_addSection_new agent extras h with hs | ⟨a, hs⟩
  · rw [hs] at he
    exact absurd he List.not_mem_nil
  · have hblocks : blocks (.map .own [(.text a, Value.mapping extras.clean)]) =
        [(.text a, Value.mapping extras.clean)] := rfl
    rw [hs, hblocks, Mapping.field, Mapping.get?_cons] at he
    split at he
    · exact (List.mem_filter.mp he).1
    · exact absurd he List.not_mem_nil

/-- So every destination reads names of extras that the document had. -/
theorem key_of_mem_extrasFor_new {agent : Option String} {extras fields : Mapping}
    (h : fields.Lacks (.text sectionKey)) {d : Option String} {e : Scalar × Value}
    (he : e ∈ extrasFor d (addSection agent extras [] fields) []) :
    ∃ f ∈ extras, e.1 = f.1 := by
  unfold extrasFor at he
  split at he
  · exact absurd he List.not_mem_nil
  · obtain ⟨f, hf, hk⟩ := Mapping.key_of_mem_merge he
    exact ⟨f, mem_of_mem_block_new h hf, hk⟩

end Hub

end AgentRelay
