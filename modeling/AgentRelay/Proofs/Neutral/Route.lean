import AgentRelay.Proofs.Neutral.Hop

/-
  Documents on a route from agent to agent.

  Every hop keeps the shared properties of a document and leaves its extras with
  names that no later agent takes for one of theirs (`free_read_written`,
  `command_lacks_read_written`), so a whole route keeps them, however long it is
  (`shared_survives_route`). Only who may use a skill is lost, on the way into an
  agent that marks it as foreign and leaves foreign fields out.
-/

namespace AgentRelay

/-- The agents a document goes to in turn, and whether each leaves out the fields
it does not understand. -/
abbrev Route := List (Agent × Bool)

namespace Route

/-- Whom the document is read for at first. -/
def next (d : Option String) : Route → Option String
  | [] => d
  | (b, _) :: _ => some b.name

/-- The agent that has the document in the end. -/
def last (a : Agent) : Route → Agent
  | [] => a
  | (b, _) :: route => last b route

/-- Who may use a skill is left out on this hop. One agent that marks foreign fields
tells it in its configuration. -/
def silences (hop : Agent × Bool) : Bool := hop.2 && (hop.1 == .gemini || hop.1 == .opencode)

/-- The shared properties at the end of a route. -/
def arriving (route : Route) (s : Shared) : Shared :=
  if route.any silences then { s with invocation := none } else s

end Route

/-- A skill at the end of a route. -/
def Skill.travel : Agent → Route → Skill → Except Misfit Skill
  | _, [], s => .ok s
  | a, (b, removeForeign) :: route, s =>
    (Skill.hop a b ⟨removeForeign, []⟩ s).bind (Skill.travel b route)

/-- A command at the end of a route. -/
def Command.travel : Agent → Route → Command → Except Misfit Command
  | _, [], c => .ok c
  | a, (b, removeForeign) :: route, c =>
    (Command.hop a b ⟨removeForeign, []⟩ c).bind (Command.travel b route)

/-! ## Skills -/

theorem Route.arrived_eq (b : Agent) (removeForeign : Bool) (s : Shared) :
    Neutral.arrived b removeForeign s = arriving [(b, removeForeign)] s := by
  cases b <;> cases removeForeign <;> rfl

theorem Route.arriving_cons (hop : Agent × Bool) (route : Route) (s : Shared) :
    arriving route (arriving [hop] s) = arriving (hop :: route) s := by
  cases hh : silences hop <;> cases hr : route.any silences <;>
    simp [arriving, hh, hr]

theorem Route.history_arriving (route : Route) (s : Shared) :
    (arriving route s).history = s.history := by
  unfold arriving; split <;> rfl

namespace Skill

theorem history_of_addField {a : Agent} {acc acc' : Shared × Mapping} {e : Scalar × Value}
    (h : addField a acc e = .ok acc') (hh : acc.1.history ≠ some []) :
    acc'.1.history ≠ some [] := by
  obtain ⟨s, m⟩ := acc
  simp only [addField] at h
  split at h
  · obtain rfl := Except.ok.inj h
    exact hh
  · split at h
    · obtain rfl := Except.ok.inj h
      exact hh
    · split at h
      · obtain ⟨history, hp, h⟩ := exists_of_bind_eq_ok h
        obtain rfl := Except.ok.inj h
        exact provenance_ne_nil hp
      · obtain ⟨k, -, h⟩ := exists_of_bind_eq_ok h
        obtain rfl := Except.ok.inj h
        exact hh

theorem history_of_foldlM {a : Agent} {fields : Mapping} {acc acc' : Shared × Mapping}
    (h : fields.foldlM (addField a) acc = .ok acc') (hh : acc.1.history ≠ some []) :
    acc'.1.history ≠ some [] := by
  induction fields generalizing acc with
  | nil =>
    obtain rfl := Except.ok.inj h
    exact hh
  | cons e fields ih =>
    rw [List.foldlM_cons] at h
    obtain ⟨mid, hstep, h⟩ := exists_of_bind_eq_ok h
    exact ih h (history_of_addField hstep hh)

/-- A history that was read from a skill is not empty. -/
theorem history_of_toNeutral {a : Agent} {d : Option String} {s : Skill} {n : Neutral}
    (h : toNeutral a d s = .ok n) : n.shared.history ≠ some [] := by
  obtain ⟨⟨shared, extras⟩, hsplit⟩ := split_of_toNeutral h
  obtain rfl := Except.ok.inj ((toNeutral_of_split d hsplit).symm.trans h)
  have hshared : shared.history ≠ some [] := history_of_foldlM hsplit nofun
  have hsame : (sharedWith a (s.config.getD []) shared).history = shared.history := by
    unfold sharedWith; split <;> rfl
  rw [hsame]
  exact hshared

/-- A route keeps the shared properties of a skill. -/
theorem travel_shared (route : Route) {a : Agent} {d : Option String} {s : Skill} {n : Neutral}
    (hn : toNeutral a (route.next d) s = .ok n) (hx : FreeExtras n.extras) :
    ∃ t m, travel a route s = .ok t ∧ toNeutral (route.last a) d t = .ok m ∧
      m.shared = route.arriving n.shared ∧ FreeExtras m.extras ∧
      (route ≠ [] →
        Mapping.contains t.fields (.text provenanceKey) = n.shared.history.isSome) := by
  induction route generalizing a s n with
  | nil => exact ⟨s, n, rfl, hn, rfl, hx, fun h => absurd rfl h⟩
  | cons hop route ih =>
    obtain ⟨b, removeForeign⟩ := hop
    obtain ⟨⟨n', hn', hshared, hx'⟩, hfrom⟩ :=
      Neutral.free_read_written b hx (history_of_toNeutral hn) removeForeign (Route.next d route)
    rw [Route.arrived_eq] at hshared
    obtain ⟨t, m, ht, hm, hms, hmx, hlast⟩ := ih hn' hx'
    refine ⟨t, m, ?_, hm, ?_, hmx, fun _ => ?_⟩
    · rw [travel, hop_of_ok hn]
      exact ht
    · rw [hms, hshared, Route.arriving_cons]
    · by_cases hr : route = []
      · -- The hop is the last one.
        subst hr
        obtain rfl := Except.ok.inj ht
        exact hfrom
      · rw [hlast hr, hshared, Route.history_arriving]

end Skill

/-! ## Commands -/

/-- A route of agents with command fields keeps what a command tells. -/
theorem Command.travel_shared (route : Route) (hr : ∀ hop ∈ route, hop.1 ≠ .cursor) {a : Agent}
    {d : Option String} {c : Command} {n : Neutral}
    (hn : toNeutral a (route.next d) c = .ok n) (hd : n.extras.Lacks (.text descriptionKey))
    (hp : n.extras.Lacks (.text provenanceKey)) :
    ∃ t m, travel a route c = .ok t ∧ toNeutral (route.last a) d t = .ok m ∧
      m.shared = n.shared ∧ m.extras.Lacks (.text descriptionKey) ∧
      m.extras.Lacks (.text provenanceKey) ∧
      (route ≠ [] →
        Mapping.contains t.otherFields (.text provenanceKey) = n.shared.history.isSome) := by
  induction route generalizing a c n with
  | nil => exact ⟨c, n, rfl, hn, rfl, hd, hp, fun h => absurd rfl h⟩
  | cons hop route ih =>
    obtain ⟨b, removeForeign⟩ := hop
    obtain ⟨⟨n', hn', hshared, hd', hp'⟩, hfrom⟩ := Neutral.command_lacks_read_written
      (hr (b, removeForeign) (by simp)) (told_of_toNeutral hn) hd hp removeForeign (Route.next d route)
    obtain ⟨t, m, ht, hm, hms, hmd, hmp, hlast⟩ :=
      ih (fun h hmem => hr h (List.mem_cons_of_mem _ hmem)) hn' hd' hp'
    refine ⟨t, m, ?_, hm, hms.trans hshared, hmd, hmp, fun _ => ?_⟩
    · rw [travel, hop_of_ok hn]
      exact ht
    · by_cases hnil : route = []
      · subst hnil
        obtain rfl := Except.ok.inj ht
        exact hfrom
      · rw [hlast hnil, hshared]

/-! ## Both -/

/-- Whatever agents a document passes, and whether or not they leave out what they do
not understand: as long as no extra of what was read at first has the name of a shared
property, the document arrives, and it is read with the shared properties it had at
first. A history that was not told does not appear. Only who may use a skill is gone
after a hop that leaves it out. -/
theorem shared_survives_route (a : Agent) (route : Route) (d : Option String) :
    (∀ s n, Skill.toNeutral a (route.next d) s = .ok n → FreeExtras n.extras →
      ∃ t m, Skill.travel a route s = .ok t ∧ Skill.toNeutral (route.last a) d t = .ok m ∧
        m.shared = route.arriving n.shared ∧ FreeExtras m.extras ∧
        (route ≠ [] →
          Mapping.contains t.fields (.text provenanceKey) = n.shared.history.isSome)) ∧
    (∀ c n, Command.toNeutral a (route.next d) c = .ok n →
      (∀ hop ∈ route, hop.1 ≠ .cursor) → n.extras.Lacks (.text descriptionKey) →
      n.extras.Lacks (.text provenanceKey) →
      ∃ t m, Command.travel a route c = .ok t ∧
        Command.toNeutral (route.last a) d t = .ok m ∧ m.shared = n.shared ∧
        m.extras.Lacks (.text descriptionKey) ∧ m.extras.Lacks (.text provenanceKey) ∧
        (route ≠ [] →
          Mapping.contains t.otherFields (.text provenanceKey) = n.shared.history.isSome)) :=
  ⟨fun _ _ hn hx => Skill.travel_shared route hn hx,
    fun _ _ hn hr hd hp => Command.travel_shared route hr hn hd hp⟩

/-- A skill that plans, which its agent may not use on its own. -/
def planSkill : Skill where
  name := .text "plan"
  content := "x"
  folder := "skills/plan"
  support := []
  fields := [(.text nameKey, .text "plan"), (.text invocationKey, .bool true),
    (.text "model", .text "opus")]
  config := none

/-- The same as a command, with its history. -/
def planFields : Mapping :=
  [(.text descriptionKey, .text "Plans"), (.text "model", .text "opus"),
    (.text provenanceKey, Value.list [.text "claude"])]

def planRoute : Route := [(.gemini, true), (.chimera, false), (.copilot, false)]

/-- The plan arrives over the hub; who may use the skill is left out on the first hop. -/
theorem plan_survives_route :
    (∃ n t m, Skill.toNeutral .claude (some "gemini") planSkill = .ok n ∧
      FreeExtras n.extras ∧ Skill.travel .claude planRoute planSkill = .ok t ∧
      Skill.toNeutral .copilot none t = .ok m ∧
      m.shared = { Shared.none with name := .text "plan" }) ∧
    ∃ n t m, Command.toNeutral .claude (some "gemini") (.markdown planFields "x" "plan.md") =
        .ok n ∧
      (∀ hop ∈ planRoute, hop.1 ≠ .cursor) ∧ n.extras.Lacks (.text descriptionKey) ∧
      n.extras.Lacks (.text provenanceKey) ∧
      Command.travel .claude planRoute (.markdown planFields "x" "plan.md") = .ok t ∧
      Command.toNeutral .copilot none t = .ok m ∧
      m.shared = { Shared.none with
        description := .text "Plans", history := some ["claude"] } := by
  constructor
  · have hn := @Skill.toNeutral_of_split .claude planSkill
      { Shared.none with name := .text "plan", invocation := some false }
      [(.text "model", .text "opus")] (some "gemini") rfl
    have hx : FreeExtras [(.text "model", .text "opus")] := by
      intro e he
      rw [List.mem_singleton.mp he]
      exact ⟨by decide, by decide⟩
    obtain ⟨t, m, ht, hm, hshared, -, -⟩ :=
      (shared_survives_route .claude planRoute none).1 planSkill _ hn hx
    exact ⟨_, t, m, hn, hx, ht, hm, hshared⟩
  · have htold : Command.Told { Shared.none with
        description := .text "Plans", history := some ["claude"] } :=
      ⟨Hub.asText_phrase (.whole "Plans"), rfl, rfl, by decide⟩
    have hs : Command.sharedOf planFields = .ok { Shared.none with
        description := .text "Plans", history := some ["claude"] } :=
      Command.sharedOf_eq htold rfl rfl
    obtain ⟨n, hn, hshared, hextras, -⟩ :=
      Command.neutralOf_of_sharedOf hs .claude "x" "plan.md"
    have hd : n.extras.Lacks (.text descriptionKey) := by
      rw [hextras]; unfold Mapping.Lacks; decide
    have hp : n.extras.Lacks (.text provenanceKey) := by
      rw [hextras]; unfold Mapping.Lacks; decide
    have hr : ∀ hop ∈ planRoute, hop.1 ≠ .cursor := by decide
    obtain ⟨t, m, ht, hm, hms, -, -, -⟩ :=
      (shared_survives_route .claude planRoute none).2 (.markdown planFields "x" "plan.md") n hn
        hr hd hp
    exact ⟨n, t, m, hn, hr, hd, hp, ht, hm, hms.trans hshared⟩

end AgentRelay
