import AgentRelay.Proofs.Hub.Return
import AgentRelay.Proofs.Neutral.Relabelling

/-
  The blocks of different agents in the hub's section.

  An import touches the block of its own agent alone (`others_kept_by_put`), and so
  does a run of imports (`others_kept_by_run`). Imports of two agents may change
  places (`same_section_of_swap`). A spoke reads its own block and what stands beside
  the section, so what other agents have there changes neither what is read nor what
  is written from it (`read_command_agreeing`, `read_skill_agreeing`). Together the
  blocks are isolated (`blocks_isolated`).

  A block that holds the section it stands in is not: it holds the changed section
  afterwards (`section_in_a_block_changes`).
-/

namespace AgentRelay

/-- The document comes from a spoke. -/
structure Import.Owned (i : Import) : Prop where
  spoke : i.agent ∈ Agent.spokes
  origin : i.neutral.background.agent = some i.agent.name

namespace Hub

variable {base : Import → Mapping} {fields : Mapping}

/-! ## Blocks that an import keeps -/

/-- Two documents of the hub have the same blocks but for the one of an agent: the
entries are the same, in the same order, and those in which the section does not stand
itself are read as before. A place where it does goes on standing for the section. -/
structure OthersKept (a : Agent) (old new : Mapping) : Prop where
  blocks : Mapping.without (rawBlocks (sectionOf new)) a.name =
    Mapping.without (rawBlocks (sectionOf old)) a.name
  origin : rawBlocks (sectionOf new) ≠ [] →
    sectionOrigin (sectionOf new) = sectionOrigin (sectionOf old)
  read : ∀ (key : Scalar) (v : Value), key ≠ .text a.name →
    Mapping.get? (rawBlocks (sectionOf old)) key = some v →
    v.sealedFrom (sectionOrigin (sectionOf old)) = true →
    Mapping.get? (Hub.blocks (sectionOf new)) key = some v ∧
      Mapping.get? (Hub.blocks (sectionOf old)) key = some v

theorem put_eq_of_owned {i : Import} (hi : i.Owned) :
    put base fields i = addSection (some i.agent.name) i.neutral.extras fields (base i) := by
  rw [put, hi.origin]

theorem rawBlocks_put (hb : Plain base) {i : Import} (hi : i.Owned) :
    rawBlocks (sectionOf (put base fields i)) =
      keptBlocks i.agent i.neutral.extras (sectionOf fields) := by
  rw [put_eq_of_owned hi, rawBlocks_addSection hi.spoke _ _ (hb i)]

theorem sectionOrigin_put (hb : Plain base) {i : Import} (hi : i.Owned)
    (h : rawBlocks (sectionOf (put base fields i)) ≠ []) :
    sectionOrigin (sectionOf (put base fields i)) = sectionOrigin (sectionOf fields) := by
  rw [rawBlocks_put hb hi] at h
  rw [put_eq_of_owned hi, sectionOf_addSection hi.spoke _ _ (hb i), if_neg h]
  rfl

/-- A value without loops into its section is read as it is kept. -/
theorem readBlock_of_sealed {section_ v : Value}
    (h : v.sealedFrom (sectionOrigin section_) = true) : readBlock section_ v = v := by
  unfold readBlock
  split
  · exact Value.fill_of_sealed _ _ _ h
  · rfl

theorem get?_blocks (section_ : Value) (key : Scalar) :
    Mapping.get? (blocks section_) key =
      (Mapping.get? (rawBlocks section_) key).map (readBlock section_) := by
  rw [blocks_eq, Mapping.get?_map_value]

/-- Other keys are found in what remains without a key. -/
theorem get?_of_without_eq {m n : Mapping} {a : String}
    (h : Mapping.without m a = Mapping.without n a) {key : Scalar} (hk : key ≠ .text a) :
    Mapping.get? m key = Mapping.get? n key := by
  have hm := Mapping.get?_without m a key
  have hn := Mapping.get?_without n a key
  rw [if_neg hk] at hm hn
  rw [← hm, ← hn, h]

/-- An import keeps every block but the one of its agent, and brings no other. -/
theorem others_kept_by_put (hb : Plain base) {i : Import} (hi : i.Owned) :
    OthersKept i.agent fields (put base fields i) := by
  have hblocks : Mapping.without (rawBlocks (sectionOf (put base fields i))) i.agent.name =
      Mapping.without (rawBlocks (sectionOf fields)) i.agent.name := by
    rw [rawBlocks_put hb hi, keptBlocks]
    split
    · rfl
    · exact Mapping.without_set _ _ _
  refine ⟨hblocks, sectionOrigin_put hb hi, fun key v hk hv hs => ⟨?_, ?_⟩⟩
  · have hnew : Mapping.get? (rawBlocks (sectionOf (put base fields i))) key = some v := by
      rw [get?_of_without_eq hblocks hk, hv]
    have hne : rawBlocks (sectionOf (put base fields i)) ≠ [] := fun h => by
      rw [h, Mapping.get?_nil] at hnew
      cases hnew
    have horigin := sectionOrigin_put hb hi hne
    rw [get?_blocks, hnew, Option.map_some, readBlock_of_sealed (by rw [horigin]; exact hs)]
  · rw [get?_blocks, hv, Option.map_some, readBlock_of_sealed hs]

/-- The blocks that none of the agents owns. -/
def othersThan (agents : List Agent) (m : Mapping) : Mapping :=
  m.filter fun e => !agents.any fun a => e.1.same (.text a.name)

theorem othersThan_cons (a : Agent) (agents : List Agent) (m : Mapping) :
    othersThan (a :: agents) m = othersThan agents (Mapping.without m a.name) := by
  simp only [othersThan, Mapping.without, List.filter_filter, List.any_cons, Bool.not_or]
  refine List.filter_congr fun e _ => ?_
  rw [Bool.and_comm]

/-- A run of imports keeps every block but those of its agents, and brings no other. -/
theorem others_kept_by_run (hb : Plain base) {is : List Import} (hi : ∀ i ∈ is, i.Owned) :
    othersThan (is.map Import.agent) (rawBlocks (sectionOf (putAll base fields is))) =
      othersThan (is.map Import.agent) (rawBlocks (sectionOf fields)) := by
  induction is generalizing fields with
  | nil => rfl
  | cons i is ih =>
    have hstep : Mapping.without (rawBlocks (sectionOf (put base fields i))) i.agent.name =
        Mapping.without (rawBlocks (sectionOf fields)) i.agent.name :=
      (others_kept_by_put hb (hi i (by simp))).blocks
    have hrest := @ih (put base fields i) fun j hj => hi j (List.mem_cons_of_mem _ hj)
    have hcomm : ∀ m : Mapping, othersThan (i.agent :: is.map Import.agent) m =
        Mapping.without (othersThan (is.map Import.agent) m) i.agent.name := by
      intro m
      rw [othersThan_cons]
      simp only [othersThan, Mapping.without, List.filter_filter, Bool.and_comm]
    rw [putAll, List.foldl_cons, ← putAll, List.map_cons, hcomm, hrest, ← hcomm, othersThan_cons,
      hstep, ← othersThan_cons]

/-! ## Imports that change places -/

/-- Two documents of the hub that came from one have the same section but for the order of
its blocks. Where there were blocks before, loops in them point at the same section. -/
structure SameSection (old m n : Mapping) : Prop where
  present : Mapping.contains m (.text sectionKey) = Mapping.contains n (.text sectionKey)
  origin : rawBlocks (sectionOf old) ≠ [] →
    sectionOrigin (sectionOf m) = sectionOrigin (sectionOf n)
  blocks : Mapping.Alike (rawBlocks (sectionOf m)) (rawBlocks (sectionOf n))

theorem keptBlocks_swap {a b : Agent} (hne : a ≠ b) (x y : Mapping) (o : Origin) (s : Value) :
    Mapping.Alike (keptBlocks b y (.map o (keptBlocks a x s)))
      (keptBlocks a x (.map o (keptBlocks b y s))) := by
  have hname : a.name ≠ b.name := fun h => hne (name_injective h)
  have hraw : ∀ m : Mapping, rawBlocks (.map o m) = m := fun _ => rfl
  unfold keptBlocks
  by_cases hx : x.clean = []
  · by_cases hy : y.clean = []
    · simp only [hx, hy, if_true, hraw]
      exact List.Perm.refl _
    · simp only [hx, hy, if_true, if_false, hraw]
      exact List.Perm.refl _
  · by_cases hy : y.clean = []
    · simp only [hx, hy, if_true, if_false, hraw]
      exact List.Perm.refl _
    · simp only [hx, hy, if_false, hraw]
      exact Mapping.set_set_alike _ hname _ _

theorem keptBlocks_congr {a : Agent} (x : Mapping) {s t : Value} (h : rawBlocks s = rawBlocks t) :
    keptBlocks a x s = keptBlocks a x t := by
  rw [keptBlocks, keptBlocks, h]

/-- Whether a document has a section shows in its blocks. -/
theorem contains_section_put (hb : Plain base) {i : Import} (hi : i.Owned) :
    Mapping.contains (put base fields i) (.text sectionKey) =
      !(rawBlocks (sectionOf (put base fields i))).isEmpty := by
  rw [rawBlocks_put hb hi, put_eq_of_owned hi, Mapping.contains,
    get?_section_addSection hi.spoke _ _ (hb i)]
  cases keptBlocks i.agent i.neutral.extras (sectionOf fields) <;> rfl

/-- A section with blocks keeps some, and where it came from. -/
theorem sectionOrigin_put_of_blocks (hb : Plain base) {i : Import} (hi : i.Owned)
    (h : rawBlocks (sectionOf fields) ≠ []) :
    rawBlocks (sectionOf (put base fields i)) ≠ [] ∧
      sectionOrigin (sectionOf (put base fields i)) = sectionOrigin (sectionOf fields) := by
  have hkept : rawBlocks (sectionOf (put base fields i)) ≠ [] := by
    rw [rawBlocks_put hb hi, keptBlocks]
    split
    · exact h
    · exact Mapping.set_ne_nil _ _ _
  exact ⟨hkept, sectionOrigin_put hb hi hkept⟩

/-- Documents of two agents can be imported in any order. -/
theorem same_section_of_swap (hb : Plain base) {i j : Import} (hi : i.Owned) (hj : j.Owned)
    (hne : i.agent ≠ j.agent) :
    SameSection fields (put base (put base fields i) j) (put base (put base fields j) i) := by
  have hblocks : Mapping.Alike (rawBlocks (sectionOf (put base (put base fields i) j)))
      (rawBlocks (sectionOf (put base (put base fields j) i))) := by
    rw [rawBlocks_put hb hj, rawBlocks_put hb hi,
      keptBlocks_congr (t := .map .own (keptBlocks i.agent i.neutral.extras (sectionOf fields))) _
        (rawBlocks_put hb hi),
      keptBlocks_congr (t := .map .own (keptBlocks j.agent j.neutral.extras (sectionOf fields))) _
        (rawBlocks_put hb hj)]
    exact keptBlocks_swap hne i.neutral.extras j.neutral.extras .own (sectionOf fields)
  refine ⟨?_, fun h => ?_, hblocks⟩
  · rw [contains_section_put hb hj, contains_section_put hb hi, hblocks.isEmpty_eq]
  · have hfirst := sectionOrigin_put_of_blocks hb hi h
    have hother := sectionOrigin_put_of_blocks hb hj h
    rw [(sectionOrigin_put_of_blocks hb hj hfirst.1).2, hfirst.2,
      (sectionOrigin_put_of_blocks hb hi hother.1).2, hother.2]

/-! ## Blocks that are not looked at -/

/-- Two documents of the hub agree for an agent: they have the same fields beside the
section, and the same entry of the agent in it, each with nodes of its own. -/
structure AgreeFor (g : Labels) (a : Agent) (m n : Mapping) : Prop where
  beside : Mapping.without n sectionKey = (Mapping.without m sectionKey).via g
  entry : Mapping.get? (blocks (sectionOf n)) (.text a.name) =
    (Mapping.get? (blocks (sectionOf m)) (.text a.name)).map (Value.via g)

theorem blocks_via {g : Labels} (hg : g.Faithful) (v : Value) :
    blocks (v.via g) = (blocks v).via g := by
  rw [blocks, blocks, hg.entries?_via]
  cases v.entries? <;> rfl

/-- The same block is read for the agent, but for its nodes. -/
theorem AgreeFor.block {g : Labels} (hg : g.Faithful) {a : Agent} {m n : Mapping}
    (h : AgreeFor g a m n) : Hub.block a.name n = (Hub.block a.name m).via g := by
  have hnull : Value.null.via g = .null := by simp [Scalar.via]
  rw [Hub.block, Hub.block, Mapping.field, Mapping.field, h.entry, ← blocks_via hg]
  cases Mapping.get? (Hub.blocks (sectionOf m)) (.text a.name) with
  | none => exact congrArg Hub.blocks hnull.symm
  | some v => rfl

theorem AgreeFor.extrasFor {g : Labels} (hg : g.Faithful) {a : Agent} (ha : a ∈ Agent.spokes)
    {m n : Mapping} (h : AgreeFor g a m n) (extras : Mapping) :
    Hub.extrasFor (some a.name) n (extras.via g) =
      (Hub.extrasFor (some a.name) m extras).via g := by
  rw [extrasFor_spoke ha, extrasFor_spoke ha, h.block hg, Mapping.merge_via]

/-- The same command is read for the agent, but for its nodes. -/
theorem read_command_agreeing {g : Labels} (hg : g.Faithful) {a : Agent} (ha : a ∈ Agent.spokes)
    {m n : Mapping} (h : AgreeFor g a m n) (content path : String) :
    Command.toNeutral Agent.hub (some a.name) (.markdown n content path) =
      (Command.toNeutral Agent.hub (some a.name) (.markdown m content path)).map
        (Neutral.via g) := by
  simp only [Command.toNeutral, if_true, h.beside, Command.neutralOf_via hg]
  cases Command.neutralOf Agent.hub (Mapping.without m sectionKey) content path with
  | error e => rfl
  | ok r =>
    have hextras := h.extrasFor hg ha r.extras
    have hown : (r.via g).extras = r.extras.via g := rfl
    simp only [Except.map, bind, Except.bind, pure, Except.pure, hown, hextras]
    rfl

/-- The same skill is read for the agent, but for its nodes. -/
theorem read_skill_agreeing {g : Labels} (hg : g.Faithful) {a : Agent} (ha : a ∈ Agent.spokes)
    {s t : Skill} (h : AgreeFor g a s.fields t.fields) (hname : t.name = s.name.via g)
    (hcontent : t.content = s.content) (hfolder : t.folder = s.folder)
    (hsupport : t.support = s.support) :
    Skill.toNeutral Agent.hub (some a.name) t =
      (Skill.toNeutral Agent.hub (some a.name) s).map (Neutral.via g) := by
  simp only [Skill.toNeutral, if_true, h.beside, Skill.split_via hg, hname, hcontent, hfolder,
    hsupport]
  cases Skill.split Agent.hub (Mapping.without s.fields sectionKey) with
  | error e => rfl
  | ok r =>
    have hextras := h.extrasFor hg ha r.2
    simp only [Except.map, bind, Except.bind, pure, Except.pure, hextras]
    rfl

/-! ## All together -/

/-- What an agent is handed of the hub's command that agrees for it has the same text. -/
theorem text_of_agreeing {g : Labels} (hg : g.Faithful) {a : Agent} (ha : a ∈ Agent.spokes)
    {m n : Mapping} (h : AgreeFor g a m n) (content path : String) (o : WriteOptions) :
    (Command.hop Agent.hub a o (.markdown n content path)).map Command.text =
      (Command.hop Agent.hub a o (.markdown m content path)).map Command.text := by
  rw [Command.hop, Command.hop, read_command_agreeing hg ha h]
  cases Command.toNeutral Agent.hub (some a.name) (.markdown m content path) with
  | error e => rfl
  | ok r =>
    simp only [Except.map, Neutral.toCommand_via (ne_hub_of_spoke ha), Command.text_via hg]

/-- The same for a skill, and for the files it makes. -/
theorem files_of_agreeing {g : Labels} (hg : g.Faithful) {a : Agent} (ha : a ∈ Agent.spokes)
    {s t : Skill} (h : AgreeFor g a s.fields t.fields) (hname : t.name = s.name.via g)
    (hcontent : t.content = s.content) (hfolder : t.folder = s.folder)
    (hsupport : t.support = s.support) (o : WriteOptions) :
    (Skill.hop Agent.hub a o t).map Skill.text = (Skill.hop Agent.hub a o s).map Skill.text ∧
      ∀ (source : Option Path) (target : Path),
        (Skill.hop Agent.hub a o t).map (fun u => Skill.write a u source target) =
          (Skill.hop Agent.hub a o s).map fun u => Skill.write a u source target := by
  rw [Skill.hop, Skill.hop, read_skill_agreeing hg ha h hname hcontent hfolder hsupport]
  cases Skill.toNeutral Agent.hub (some a.name) s with
  | error e => exact ⟨rfl, fun _ _ => rfl⟩
  | ok r =>
    simp only [Except.map, Neutral.toSkill_via (ne_hub_of_spoke ha), Skill.text_via hg,
      Skill.write_via hg, implies_true, and_self]

/-- The blocks of the hub's documents are isolated. An import changes no block but that of
its agent; imports of two agents give the same section in any order; and an agent reads
the same document, and is handed the same text and files, whatever blocks other agents
have. -/
theorem blocks_isolated :
    (∀ (command : Option Command) (skill : Option Skill) (i : Import), i.Owned →
      OthersKept i.agent ((command.map Command.fields).getD [])
          (((importCommand command i).map Command.fields).getD []) ∧
        OthersKept i.agent ((skill.map Skill.fields).getD [])
          (((importSkill skill i).map Skill.fields).getD [])) ∧
    (∀ (command : Option Command) (skill : Option Skill) (i j : Import), i.Owned → j.Owned →
      i.agent ≠ j.agent →
      SameSection ((command.map Command.fields).getD [])
          ((([i, j].foldl importCommand command).map Command.fields).getD [])
          ((([j, i].foldl importCommand command).map Command.fields).getD []) ∧
        SameSection ((skill.map Skill.fields).getD [])
          ((([i, j].foldl importSkill skill).map Skill.fields).getD [])
          ((([j, i].foldl importSkill skill).map Skill.fields).getD [])) ∧
    (∀ (g : Labels) (a : Agent), g.Faithful → a ∈ Agent.spokes →
      (∀ (m n : Mapping) (content path : String) (o : WriteOptions), AgreeFor g a m n →
        Command.toNeutral Agent.hub (some a.name) (.markdown n content path) =
            (Command.toNeutral Agent.hub (some a.name) (.markdown m content path)).map
              (Neutral.via g) ∧
          (Command.hop Agent.hub a o (.markdown n content path)).map Command.text =
            (Command.hop Agent.hub a o (.markdown m content path)).map Command.text) ∧
      (∀ (s t : Skill) (o : WriteOptions), AgreeFor g a s.fields t.fields →
        t.name = s.name.via g → t.content = s.content → t.folder = s.folder →
        t.support = s.support →
        Skill.toNeutral Agent.hub (some a.name) t =
            (Skill.toNeutral Agent.hub (some a.name) s).map (Neutral.via g) ∧
          (Skill.hop Agent.hub a o t).map Skill.text =
            (Skill.hop Agent.hub a o s).map Skill.text ∧
          ∀ (source : Option Path) (target : Path),
            (Skill.hop Agent.hub a o t).map (fun u => Skill.write a u source target) =
              (Skill.hop Agent.hub a o s).map fun u => Skill.write a u source target)) := by
  refine ⟨fun command skill i hi => ⟨?_, ?_⟩, fun command skill i j hi hj hne => ⟨?_, ?_⟩,
    fun g a hg ha => ⟨fun m n content path o h => ?_,
      fun s t o h hname hcontent hfolder hsupport => ?_⟩⟩
  · rw [fields_importCommand]
    exact others_kept_by_put plain_commandBase hi
  · rw [fields_importSkill]
    exact others_kept_by_put plain_skillBase hi
  · rw [fields_importCommands, fields_importCommands]
    exact same_section_of_swap plain_commandBase hi hj hne
  · rw [fields_importSkills, fields_importSkills]
    exact same_section_of_swap plain_skillBase hi hj hne
  · exact ⟨read_command_agreeing hg ha h content path, text_of_agreeing hg ha h content path o⟩
  · exact ⟨read_skill_agreeing hg ha h hname hcontent hfolder hsupport,
      files_of_agreeing hg ha h hname hcontent hfolder hsupport o⟩

/-- A document with a block of one agent and something else for another. -/
def pairedFields (other : Value) (n : Nat) : Mapping :=
  [(.text descriptionKey, .text "Review"),
    (.text sectionKey, .map (.node 0 1)
      [(.text "gemini", other),
        (.text "claude", .map (.node 0 n) [(.text "tools", .seq (.node 0 (n + 1)) [])])])]

/-- Nodes in front of a node move it along. -/
def shifted : Labels := fun i => if i = (0, 1) then .node 0 1 else .node i.1 (i.2 + 2)

theorem shifted_faithful : shifted.Faithful where
  node i := by
    unfold shifted
    split <;> rfl
  injective i j h := by
    obtain ⟨d, n⟩ := i
    obtain ⟨e, k⟩ := j
    unfold shifted at h
    split at h <;> split at h <;> simp_all

theorem paired_agree : AgreeFor shifted .claude (pairedFields (.int 1) 2)
    (pairedFields (.map (.node 0 2) [(.text "model", .seq (.node 0 3) [])]) 4) where
  beside := by rfl
  entry := by rfl

/-- One agent's command and another's are put into a document in either order, and what
the other has there does not reach the first. -/
theorem paired_isolated :
    (commandOf .claude modelExtras).Owned ∧ (commandOf .gemini modelExtras).Owned ∧
      OthersKept .claude (pairedFields (.int 1) 2)
        (((importCommand (some (.markdown (pairedFields (.int 1) 2) "x" "x.md"))
          (commandOf .claude modelExtras)).map Command.fields).getD []) ∧
      SameSection (pairedFields (.int 1) 2)
        ((([commandOf .claude modelExtras, commandOf .gemini modelExtras].foldl importCommand
          (some (.markdown (pairedFields (.int 1) 2) "x" "x.md"))).map Command.fields).getD [])
        ((([commandOf .gemini modelExtras, commandOf .claude modelExtras].foldl importCommand
          (some (.markdown (pairedFields (.int 1) 2) "x" "x.md"))).map Command.fields).getD []) ∧
      (Command.hop Agent.hub .claude ⟨false, []⟩ (.markdown
          (pairedFields (.map (.node 0 2) [(.text "model", .seq (.node 0 3) [])]) 4) "x"
          "x.md")).map Command.text =
        (Command.hop Agent.hub .claude ⟨false, []⟩ (.markdown (pairedFields (.int 1) 2) "x"
          "x.md")).map Command.text := by
  have hclaude : (commandOf .claude modelExtras).Owned := ⟨by decide, rfl⟩
  have hgemini : (commandOf .gemini modelExtras).Owned := ⟨by decide, rfl⟩
  obtain ⟨hkept, hswap, hread⟩ := blocks_isolated
  exact ⟨hclaude, hgemini,
    (hkept (some (.markdown (pairedFields (.int 1) 2) "x" "x.md")) none _ hclaude).1,
    (hswap (some (.markdown (pairedFields (.int 1) 2) "x" "x.md")) none _ _ hclaude hgemini
      (by decide)).1,
    ((hread shifted .claude shifted_faithful (by decide)).1 _ _ "x" "x.md" ⟨false, []⟩
      paired_agree).2⟩

/-- A document with a section that one of its blocks, the one of OpenCode, is itself. -/
def selfHoldingFields : Mapping :=
  [(.text sectionKey, .map (.node 0 0)
    [(.text "claude", .map (.node 0 1) [(.text "model", .text "sonnet")]),
      (.text "opencode", .loop .map (.node 0 0))])]

/-- A block that is the section holds another block of Claude after an import from there. -/
theorem section_in_a_block_changes :
    ∃ fields : Mapping, (commandOf .claude modelExtras).Owned ∧
      (importCommand (some (.markdown selfHoldingFields "x" "x.md"))
        (commandOf .claude modelExtras)).map Command.fields = some fields ∧
      blocks (Mapping.field (block "opencode" selfHoldingFields) "claude") =
        [(.text "model", .text "sonnet")] ∧
      blocks (Mapping.field (block "opencode" fields) "claude") = modelExtras ∧
      Mapping.get? (blocks (sectionOf fields)) (.text "opencode") ≠
        Mapping.get? (blocks (sectionOf selfHoldingFields)) (.text "opencode") := by
  refine ⟨_, ⟨by decide, rfl⟩, rfl, rfl, rfl, fun h => ?_⟩
  have hmodel : Value.text "opus" = .text "sonnet" :=
    congrArg (fun v : Option Value =>
      Mapping.field (blocks (Mapping.field (blocks (v.getD .null)) "claude")) "model") h
  exact absurd hmodel (by simp)

end Hub

end AgentRelay
