import AgentRelay.CommandLine.Program
import AgentRelay.Proofs.Settings.Cascade
import AgentRelay.Proofs.Sync.Spared

/-
  The subcommands that preview.

  `plan` previews `apply`, and `drift` previews `import`: both of a pair take the same
  words (`ofWords_pair`), and come to the same agents and to the same order but for two
  choices (`resolved_pair`). One of them is that a preview by its name does not look up
  whether orphans are to be deleted in the settings, though the run does. So the preview
  tells what the run does, less the deletions that only the settings ask for
  (`preview_subcommand_tells`, `plan_misses_deletion`).
-/

namespace AgentRelay

open Work

namespace CommandLine

/-! ## A run in three steps -/

/-- What a command line and the settings come to: two agents and an order. -/
def resolved (c : Subcommand) (a : Arguments) : Work (Agent × Agent × Sync.Order) := do
  let source ← Work.ofExcept (agent (ends c a).1)
  let destination ← Work.ofExcept (agent (ends c a).2)
  let effective ← Settings.effective (repository a (← get))
  effective.warnings.forM fun m => World.warn (.setting m)
  let o ← Work.ofExcept (order c a (← get) effective.settings)
  return (source, destination, o)

/-- Tells what is begun. -/
def announced (s d : Agent) (o : Sync.Order) : Work Unit := do
  World.say ("Starting " ++ s.name ++ " -> " ++ d.name ++ " conversion (" ++
    o.contents.name ++ ")...")
  if o.preview then World.say "DRY RUN MODE - No files will be modified"

/-- Tells what is begun, and carries it out. -/
def carried (s d : Agent) (o : Sync.Order) : Work Sync.Report := do
  announced s d o
  Sync.runNamed s.name d.name o.contents.name o

theorem runSync_eq (w : Wording) (c : Subcommand) (a : Arguments) :
    runSync w c a = (do
      let (s, d, o) ← resolved c a
      let r ← carried s d o
      (resultLines w r o.preview).forM World.say
      return if r.success then 0 else 1) := by
  simp only [runSync, resolved, carried, announced, bind_assoc, pure_bind]
  refine bind_congr fun s => bind_congr fun d => bind_congr fun w' => bind_congr fun e =>
    bind_congr fun _ => bind_congr fun w'' => bind_congr fun o => bind_congr fun _ => ?_
  cases o.preview <;> simp

theorem still_resolved (c : Subcommand) (a : Arguments) : Still (resolved c a) := by
  refine Still.bind (Still.ofExcept _) fun s => Still.bind (Still.ofExcept _) fun d => ?_
  refine Still.get_bind fun w => Still.bind (Settings.still_effective _) fun e => ?_
  refine Still.bind (Still.forM fun _ _ => Still.warn _) fun _ => Still.get_bind fun w => ?_
  exact Still.bind (Still.ofExcept _) fun o => Still.pure _

theorem still_announced (s d : Agent) (o : Sync.Order) : Still (announced s d o) := by
  refine Still.bind (Still.say _) fun _ => ?_
  split
  · exact Still.say _
  · exact Still.pure _

/-! ## The words of a subcommand -/

theorem word_name (c : Subcommand) :
    Token.ofWord? Subcommand.helpOptions c.name.toList = some (.word c.name.toList) := by
  cases c <;> decide +kernel

theorem name_ne_dashes (c : Subcommand) : c.name.toList ≠ ['-', '-'] := by cases c <;> decide

theorem ofName?_name (c : Subcommand) :
    Subcommand.ofName? (String.ofList c.name.toList) = some c := by cases c <;> decide

/-- What is asked for behind the name of a subcommand. -/
theorem ofWords_name (c : Subcommand) (rest : List String) :
    Request.ofWords (c.name :: rest) =
      match Token.ofWords? Subcommand.helpOptions (rest.map String.toList) with
      | none => .misuse
      | some _ =>
        match arguments c.options c.slots (rest.map String.toList) with
        | .error .help => .help
        | .error .misuse => .misuse
        | .ok a => .subcommand c a := by
  rw [Request.ofWords, List.map_cons, Token.ofWords?, if_neg (name_ne_dashes c), word_name]
  cases Token.ofWords? Subcommand.helpOptions (rest.map String.toList) with
  | none => rfl
  | some tokens =>
    change Request.ofSubcommand false c.name.toList (rest.map String.toList) = _
    rw [Request.ofSubcommand, ofName?_name]
    rfl

/-! ## A subcommand and its preview -/

/-- The subcommand that previews another one. -/
def Subcommand.preview? : Subcommand → Option Subcommand
  | apply => some plan
  | gather => some drift
  | _ => none

section
variable {c p : Subcommand} (hp : c.preview? = some p)
include hp

theorem cases_of_preview? : (c = .apply ∧ p = .plan) ∨ (c = .gather ∧ p = .drift) := by
  cases c <;> cases hp
  · exact Or.inr ⟨rfl, rfl⟩
  · exact Or.inl ⟨rfl, rfl⟩

theorem isPreview_pair : c.isPreview = false ∧ p.isPreview = true := by
  obtain ⟨rfl, rfl⟩ | ⟨rfl, rfl⟩ := cases_of_preview? hp <;> exact ⟨rfl, rfl⟩

/-- Both take the same words. -/
theorem ofWords_pair {rest : List String} {a : Arguments}
    (h : Request.ofWords (c.name :: rest) = .subcommand c a) :
    Request.ofWords (p.name :: rest) = .subcommand p a := by
  have hsame : p.options = c.options ∧ p.slots = c.slots := by
    obtain ⟨rfl, rfl⟩ | ⟨rfl, rfl⟩ := cases_of_preview? hp <;> exact ⟨rfl, rfl⟩
  rw [ofWords_name] at h ⊢
  rw [hsame.1, hsame.2]
  cases htokens : Token.ofWords? Subcommand.helpOptions (rest.map String.toList) with
  | none =>
    rw [htokens] at h
    cases h
  | some tokens =>
    rw [htokens] at h
    cases harguments : arguments c.options c.slots (rest.map String.toList) with
    | error stop =>
      rw [harguments] at h
      cases stop <;> cases h
    | ok a' =>
      rw [harguments] at h
      obtain ⟨-, rfl⟩ := Request.subcommand.inj h
      rfl

/-- Both are about the same agents. -/
theorem ends_pair (a : Arguments) : ends p a = ends c a := by
  obtain ⟨rfl, rfl⟩ | ⟨rfl, rfl⟩ := cases_of_preview? hp <;> rfl

theorem carryOut_pair (w : Wording) (a : Arguments) :
    carryOut w c a = runSync w c a ∧ carryOut w p a = runSync w p a := by
  obtain ⟨rfl, rfl⟩ | ⟨rfl, rfl⟩ := cases_of_preview? hp <;> exact ⟨rfl, rfl⟩

/-- Where there is an order for the run, the preview is asked for the same, but for the
deletions: it has them where the command line asks for them, and then so has the run. -/
theorem order_pair {a : Arguments} {w : World} {settings : Mapping} {o : Sync.Order}
    (h : order c a w settings = .ok o) :
    order p a w settings = .ok (o.asked (a.has .deleteOrphans)) ∧
      (a.has .deleteOrphans = true → o.deleteOrphans = true) := by
  obtain ⟨hc, hp⟩ := isPreview_pair hp
  unfold order at h ⊢
  rw [hc] at h
  obtain ⟨contents, hcontents, h⟩ := exists_of_bind_eq_ok h
  obtain ⟨removeForeign, hremove, h⟩ := exists_of_bind_eq_ok h
  obtain ⟨keepExisting, hkeep, h⟩ := exists_of_bind_eq_ok h
  obtain ⟨deletions, hdeletions, h⟩ := exists_of_bind_eq_ok h
  obtain ⟨places, hplaces, h⟩ := exists_of_bind_eq_ok h
  obtain rfl := Except.ok.inj h
  obtain ⟨standard, -, hdeletions⟩ := exists_of_bind_eq_ok hdeletions
  rw [hp, hcontents, hremove, hkeep, hplaces]
  refine ⟨rfl, fun hhas => ?_⟩
  rw [← Except.ok.inj hdeletions, hhas]
  rfl

/-- Both come to the same agents and the same order, but for what is asked. -/
theorem resolved_pair {a : Arguments} {v u : World} {s d : Agent} {o : Sync.Order}
    (h : (resolved c a).run v = (.ok (s, d, o), u)) :
    (resolved p a).run v = (.ok (s, d, o.asked (a.has .deleteOrphans)), u) ∧
      (a.has .deleteOrphans = true → o.deleteOrphans = true) := by
  unfold resolved at h ⊢
  obtain ⟨source, hs, h⟩ := ok_of_run_ofExcept_bind h
  obtain ⟨destination, hd, h⟩ := ok_of_run_ofExcept_bind h
  rw [run_get_bind] at h
  obtain ⟨effective, w, heffective, h⟩ := ok_of_run_bind h
  obtain ⟨_, w', hwarnings, h⟩ := ok_of_run_bind h
  rw [run_get_bind] at h
  obtain ⟨o', ho, h⟩ := ok_of_run_ofExcept_bind h
  obtain ⟨hresult, rfl⟩ := Prod.mk.inj h
  obtain ⟨rfl, rfl, rfl⟩ : source = s ∧ destination = d ∧ o' = o := by
    simpa using Except.ok.inj hresult
  obtain ⟨hasked, hdeletions⟩ := order_pair hp ho
  refine ⟨?_, hdeletions⟩
  rw [ends_pair hp, hs, hd, ofExcept_ok_bind, ofExcept_ok_bind, run_get_bind, run_bind,
    heffective]
  dsimp only
  rw [run_bind, hwarnings]
  dsimp only
  rw [run_get_bind, hasked, ofExcept_ok_bind]
  rfl

end

/-! ## What is printed -/

theorem run_forM_say (lines : List String) (w : World) :
    (lines.forM World.say).run w =
      (.ok (), { w with printed := w.printed ++ lines.map (· ++ "\n") }) := by
  induction lines generalizing w with
  | nil => simp; rfl
  | cons line lines ih =>
    change ((World.say line >>= fun _ => lines.forM World.say).run w) = _
    rw [run_bind]
    change (lines.forM World.say).run { w with printed := w.printed ++ [line ++ "\n"] } = _
    rw [ih]
    simp

/-- The program comes from some words to an order, carries it out, prints the report and
ends with the status that goes with it. -/
def Reports (w : Wording) (words : List String) (v : World) (o : Sync.Order)
    (r : Sync.Report) : Prop :=
  ∃ c a s d u u', Request.ofWords words = .subcommand c a ∧
    (resolved c a).run v = (.ok (s, d, o), u) ∧ (carried s d o).run u = (.ok r, u') ∧
    (program w words).run v = (.ok (.done (if r.success then 0 else 1)),
      { u' with printed := u'.printed ++ (resultLines w r o.preview).map (· ++ "\n") })

section
variable {w : Wording} {words : List String} {c : Subcommand} {a : Arguments} {v u u' : World}
  {s d : Agent} {o : Sync.Order} {r : Sync.Report}

theorem run_runSync (hresolved : (resolved c a).run v = (.ok (s, d, o), u))
    (hcarried : (carried s d o).run u = (.ok r, u')) :
    (runSync w c a).run v = (.ok (if r.success then 0 else 1),
      { u' with printed := u'.printed ++ (resultLines w r o.preview).map (· ++ "\n") }) := by
  rw [runSync_eq, run_bind, hresolved]
  dsimp only
  rw [run_bind, hcarried]
  dsimp only
  rw [run_bind, run_forM_say]
  rfl

variable (hwords : Request.ofWords words = .subcommand c a)
  (hrun : carryOut w c a = runSync w c a)
include hwords hrun

theorem run_program : (program w words).run v =
    match (runSync w c a).run v with
    | (.ok status, u) => (.ok (.done status), u)
    | (.error e, u) =>
      (if complains e then .ok (.complaint ("Error: " ++ (e.text? w).getD "")) else .error e, u) := by
  rw [program, hwords, carryOutRequest, hrun, run_bind, run_attempt]
  cases (runSync w c a).run v with
  | mk found u =>
    cases found with
    | ok status => rfl
    | error e =>
      dsimp only
      split <;> rfl

theorem reports_of_run (hresolved : (resolved c a).run v = (.ok (s, d, o), u))
    (hcarried : (carried s d o).run u = (.ok r, u')) : Reports w words v o r := by
  refine ⟨c, a, s, d, u, u', hwords, hresolved, hcarried, ?_⟩
  rw [run_program hwords hrun, run_runSync hresolved hcarried]

/-- A program that is done has carried out an order. -/
theorem exists_run_of_done {status : Nat} (hdone : ((program w words).run v).1 = .ok (.done status)) :
    ∃ s d o r u u', (resolved c a).run v = (.ok (s, d, o), u) ∧
      (carried s d o).run u = (.ok r, u') ∧ status = if r.success then 0 else 1 := by
  rw [run_program hwords hrun] at hdone
  cases hsync : (runSync w c a).run v with
  | mk found x =>
    rw [hsync] at hdone
    cases found with
    | error e =>
      dsimp only at hdone
      split at hdone <;> cases hdone
    | ok n =>
      rw [runSync_eq] at hsync
      obtain ⟨⟨s, d, o⟩, u, hresolved, hsync⟩ := ok_of_run_bind hsync
      obtain ⟨r, u', hcarried, hsync⟩ := ok_of_run_bind hsync
      refine ⟨s, d, o, r, u, u', hresolved, hcarried, ?_⟩
      rw [run_bind, run_forM_say] at hsync
      obtain rfl := Outcome.done.inj (Except.ok.inj hdone)
      exact (Except.ok.inj (Prod.mk.inj hsync).1).symm

end

/-- What is reported decides the status that the program ends with. -/
theorem Reports.done {w : Wording} {words : List String} {v : World} {o : Sync.Order}
    {r : Sync.Report} (h : Reports w words v o r) :
    ((program w words).run v).1 = .ok (.done (if r.success then 0 else 1)) := by
  obtain ⟨c, a, s, d, u, u', -, -, -, hrun⟩ := h
  rw [hrun]

/-- The words and the world decide what is reported. -/
theorem Reports.unique {w : Wording} {words : List String} {v : World} {o o' : Sync.Order}
    {r r' : Sync.Report} (h : Reports w words v o r) (h' : Reports w words v o' r') : r = r' := by
  obtain ⟨c, a, s, d, u, x, hwords, hresolved, hcarried, -⟩ := h
  obtain ⟨c', a', s', d', u', x', hwords', hresolved', hcarried', -⟩ := h'
  obtain ⟨rfl, rfl⟩ := Request.subcommand.inj (hwords.symm.trans hwords')
  obtain ⟨hresult, rfl⟩ := Prod.mk.inj (hresolved.symm.trans hresolved')
  obtain ⟨rfl, rfl, rfl⟩ : s = s' ∧ d = d' ∧ o = o' := by simpa using Except.ok.inj hresult
  exact Except.ok.inj (Prod.mk.inj (hcarried.symm.trans hcarried')).1

/-! ## The preview of a run -/

/-- By their names, two agents are the same or are known. -/
theorem runNamed_names (s d : Agent) (o : Sync.Order) :
    Sync.runNamed s.name d.name o.contents.name o =
      if s.name = d.name then Work.ofExcept (.error (.sameAgents s.name)) else Sync.run s d o := by
  have hknown : ∀ a : Agent, Sync.known a.name = .ok a := by
    intro a
    rw [Sync.known, Agent.ofName?_name]
  rw [Sync.runNamed, Sync.check]
  split
  · rfl
  · rw [Contents.ofName?_name, hknown, hknown]
    rfl

section
variable {s d : Agent} {o : Sync.Order} {u u' : World} {r : Sync.Report}

/-- What is carried out is a run, in the world in which it was announced. -/
theorem run_carried (h : (carried s d o).run u = (.ok r, u')) :
    s.name ≠ d.name ∧ ∃ x, (announced s d o).run u = (.ok (), x) ∧
      (Sync.run s d o).run x = (.ok r, u') := by
  obtain ⟨_, x, hannounced, h⟩ := ok_of_run_bind h
  rw [runNamed_names] at h
  split at h
  · exact nomatch h
  · rename_i hne
    exact ⟨hne, x, hannounced, h⟩

theorem carried_of_run (hne : s.name ≠ d.name) {r : Sync.Report}
    (h : ((Sync.run s d o).run ((announced s d o).run u).2).1 = .ok r) :
    ((carried s d o).run u).1 = .ok r := by
  have hok : ((announced s d o).run u).1 = .ok () := by
    unfold announced
    split <;> rfl
  rw [carried, run_bind, runNamed_names, if_neg hne]
  rw [← h]
  cases hrun : (announced s d o).run u with
  | mk found x =>
    rw [hrun] at hok
    obtain rfl : found = .ok () := hok
    rfl

/-- When an order has been carried out without failures, then the preview of the order tells
the same changes, but for deletions that it is not asked for. -/
theorem exists_carried_preview {w : World} (hregular : Sync.Regular s d o w)
    (hsame : w.SameFiles u) {deletions : Bool} (hasked : deletions = true → o.deleteOrphans = true)
    (h : (carried s d o).run u = (.ok r, u')) (hfine : r.failures = []) :
    ∃ r', ((carried s d (o.asked deletions)).run u).1 = .ok r' ∧ Sync.TellsKeys deletions r' r := by
  obtain ⟨hne, x, hannounced, hrun⟩ := run_carried h
  have hx : w.SameFiles x := by
    have hstill := still_announced s d o u
    rw [hannounced] at hstill
    exact hsame.trans hstill
  cases hp : o.preview with
  | false =>
    have hx' := hsame.trans (still_announced s d (o.asked deletions) u)
    obtain ⟨r', hr', hkeys⟩ := Sync.preview_tells hasked hregular hp _ x hx' hx r
      (congrArg Prod.fst hrun) hfine
    exact ⟨r', carried_of_run hne hr', hkeys⟩
  | true =>
    -- Then both are announced alike, and the preview starts in the very same world.
    have hlike : announced s d (o.asked deletions) = announced s d o := by
      rw [announced, announced, hp]
      rfl
    obtain ⟨r', hr', hkeys⟩ := Sync.asked_tells hasked hp hrun hfine
    refine ⟨r', carried_of_run hne ?_, hkeys⟩
    rw [hlike, hannounced]
    exact hr'

/-- A preview that is carried out leaves the files alone. -/
theorem still_carried (hp : o.preview = true) : Still (carried s d o) := by
  have hsame : o.as true = o := by
    rw [Sync.Order.as, ← hp]
  refine Still.bind (still_announced s d o) fun _ => ?_
  rw [runNamed_names]
  split
  · exact Still.ofExcept _
  · rw [← hsame]
    exact Sync.still_run_preview s d o

end

/-- A program that is done with a subcommand has understood its words. -/
theorem exists_arguments_of_done {w : Wording} {c : Subcommand} {rest : List String} {v : World}
    {status : Nat} (h : ((program w (c.name :: rest)).run v).1 = .ok (.done status)) :
    ∃ a, Request.ofWords (c.name :: rest) = .subcommand c a := by
  rw [program, ofWords_name] at h
  rw [ofWords_name]
  cases htokens : Token.ofWords? Subcommand.helpOptions (rest.map String.toList) with
  | none =>
    rw [htokens] at h
    cases Except.ok.inj h
  | some tokens =>
    rw [htokens] at h
    cases harguments : arguments c.options c.slots (rest.map String.toList) with
    | ok a => exact ⟨a, rfl⟩
    | error stop =>
      rw [harguments] at h
      cases stop <;> cases Except.ok.inj h

/-- When a subcommand ends with status zero, then its preview, for the same words in the
same world, changes no file and ends with status zero, and it tells the same changes to the
same paths in the same order, less the deletions that the words do not ask for. So the two
tell the same exactly when the words ask for the deletions or the run deletes nothing. -/
theorem preview_subcommand_tells (w : Wording) (c p : Subcommand) (hp : c.preview? = some p)
    (rest : List String) (v : World)
    (hregular : ∀ a s d o u, Request.ofWords (c.name :: rest) = .subcommand c a →
      (resolved c a).run v = (.ok (s, d, o), u) → Sync.Regular s d o v)
    (hdone : ((program w (c.name :: rest)).run v).1 = .ok (.done 0)) :
    ∃ a o r r', Request.ofWords (c.name :: rest) = .subcommand c a ∧
      Reports w (c.name :: rest) v o r ∧
      Reports w (p.name :: rest) v (o.asked (a.has .deleteOrphans)) r' ∧
      ((program w (p.name :: rest)).run v).1 = .ok (.done 0) ∧
      ((program w (p.name :: rest)).run v).2.tree = v.tree ∧
      Sync.TellsKeys (a.has .deleteOrphans) r' r ∧
      (r'.operations.map Sync.Operation.key = r.operations.map Sync.Operation.key ↔
        a.has .deleteOrphans = true ∨ r.count .deleted = 0) := by
  obtain ⟨a, hwords⟩ := exists_arguments_of_done hdone
  have hwords' := ofWords_pair hp hwords
  obtain ⟨hrun, hrun'⟩ := carryOut_pair hp w a
  obtain ⟨s, d, o, r, u, u', hresolved, hcarried, hstatus⟩ :=
    exists_run_of_done hwords hrun hdone
  have hfine : r.failures = [] := by
    cases hsuccess : r.success with
    | true => exact List.isEmpty_iff.mp hsuccess
    | false =>
      rw [hsuccess] at hstatus
      exact nomatch hstatus
  have hsame : v.SameFiles u := by
    have hstill := still_resolved c a v
    rw [hresolved] at hstill
    exact hstill
  obtain ⟨hresolved', hasked⟩ := resolved_pair hp hresolved
  obtain ⟨r', hcarried', htells⟩ := exists_carried_preview
    (hregular a s d o u hwords hresolved) hsame hasked hcarried hfine
  have hprogram := run_program (w := w) (v := v) hwords' hrun'
  rw [run_runSync hresolved' (Prod.ext hcarried' rfl)] at hprogram
  have hsuccess : r'.success = true := List.isEmpty_iff.mpr htells.1
  refine ⟨a, o, r, r', hwords, reports_of_run hwords hrun hresolved hcarried,
    reports_of_run hwords' hrun' hresolved' (Prod.ext hcarried' rfl), ?_, ?_, htells,
    htells.same_iff⟩
  · rw [hprogram, hsuccess]
    rfl
  · rw [hprogram]
    exact (still_carried rfl u).tree.trans hsame.tree

/-- A skill of the hub, a command of another agent that the hub does not have, and settings
that ask for the deletion of such commands. -/
def settledWorld : World where
  tree :=
    [(["w"], .folder), (["w", ".config"], .folder), (["w", ".config", "acsync"], .folder),
      (["w", ".config", "acsync", "config.yaml"],
        .file (Text.encode "sync:\n  sync_delete: true\n")),
      (["w", ".config", "acsync", "skills"], .folder),
      (["w", ".config", "acsync", "skills", "s"], .folder),
      (["w", ".config", "acsync", "skills", "s", "SKILL.md"], .file (Text.encode "hi\n")),
      (["w", ".claude"], .folder), (["w", ".claude", "commands"], .folder),
      (["w", ".claude", "commands", "b.md"], .file (Text.encode "old\n"))]
  home := ⟨1, ["h"]⟩
  here := ⟨1, ["w"]⟩
  repository := some ⟨1, ["w"]⟩
  held := none
  printed := []
  warnings := []

def shortWording : Wording := ⟨"encoding", "yaml", "toml", "kind", "value"⟩

/-- The order that is carried out with the settings. -/
def settledOrder : Sync.Order where
  contents := .both
  removeForeign := false
  keepExisting := false
  deleteOrphans := true
  only := none
  preview := false
  verbose := false
  setup := ⟨[], some ⟨1, ["w"]⟩, false⟩

/-- Both kinds of content are named in the words. -/
def bothArguments (more : List (Choice × Given)) : Arguments :=
  ⟨[.text "claude"], (.contents, .text "both") :: more, false⟩

theorem regular_settled : Sync.Regular .chimera .claude settledOrder settledWorld := by
  have hs : settledOrder.setup.base .chimera settledWorld = .ok ⟨1, ["w", ".config", "acsync"]⟩ :=
    eq_ok_of_toOption (by decide +kernel)
  have hd : settledOrder.setup.base .claude settledWorld = .ok ⟨1, ["w", ".claude"]⟩ :=
    eq_ok_of_toOption (by decide +kernel)
  have hcommands : settledOrder.setup.commands .chimera settledWorld =
      .ok ⟨1, ["w", ".config", "acsync", "commands"]⟩ :=
    eq_ok_of_toOption (by decide +kernel)
  have hfiles : settledWorld.commandFiles .chimera
      ⟨1, ["w", ".config", "acsync", "commands"]⟩ none = [] := by decide +kernel
  have hclean : Path.Clean ⟨1, ["w"]⟩ := ⟨by decide, by decide⟩
  refine ⟨⟨⟨⟨?_, ?_, ?_, ?_⟩, hclean⟩, rfl, nofun, ?_, ?_⟩, ⟨by decide, by decide⟩, ?_⟩
  all_goals try decide +kernel
  · intro p q hp hq
    rw [hs] at hp
    rw [hd] at hq
    obtain rfl := Except.ok.inj hp
    obtain rfl := Except.ok.inj hq
    constructor <;> decide +kernel
  · intro folder hfolder file hfile
    rw [hcommands] at hfolder
    obtain rfl := Except.ok.inj hfolder
    rw [show settledOrder.only = none from rfl, hfiles] at hfile
    exact absurd hfile List.not_mem_nil
  · intro p hp
    obtain rfl := Option.some.inj hp
    exact hclean

/-- Words that ask for the deletions. -/
def askingWords : List String := ["claude", "-t", "both", "--sync-delete"]

theorem ofWords_asking : Request.ofWords (Subcommand.apply.name :: askingWords) =
    .subcommand .apply (bothArguments [(.deleteOrphans, .text "")]) := by decide +kernel

theorem resolved_asking :
    ((resolved .apply (bothArguments [(.deleteOrphans, .text "")])).run settledWorld).1 =
      .ok (.chimera, .claude, settledOrder) := eq_ok_of_toOption (by decide +kernel)

/-- The report of a run that deletes the command and creates the skill. -/
def settledReport : Sync.Report :=
  ⟨[⟨.deleted, ⟨1, ["w", ".claude", "commands", "b.md"]⟩, false⟩,
    ⟨.created, ⟨1, ["w", ".claude", "skills", "s"]⟩, false⟩], [], 1⟩

/-- Where the words ask for the deletions, the preview tells them. -/
theorem plan_tells_deletion : ∃ o r',
    Reports shortWording (Subcommand.apply.name :: askingWords) settledWorld o settledReport ∧
      Reports shortWording (Subcommand.plan.name :: askingWords) settledWorld (o.asked true) r' ∧
      r'.operations.map Sync.Operation.key =
        [(.deleted, ⟨1, ["w", ".claude", "commands", "b.md"]⟩),
          (.created, ⟨1, ["w", ".claude", "skills", "s"]⟩)] := by
  have hreports : Reports shortWording (Subcommand.apply.name :: askingWords) settledWorld
      settledOrder settledReport :=
    reports_of_run ofWords_asking rfl (Prod.ext resolved_asking rfl)
      (Prod.ext (eq_ok_of_toOption (by decide +kernel)) rfl)
  obtain ⟨a, o, r, r', hwords, hran, hran', -, -, -, hsame⟩ :=
    preview_subcommand_tells shortWording .apply .plan rfl askingWords settledWorld
      (fun a s d o u hwords hresolved => by
        rw [ofWords_asking] at hwords
        obtain ⟨-, rfl⟩ := Request.subcommand.inj hwords
        obtain ⟨rfl, rfl, rfl⟩ : Agent.chimera = s ∧ Agent.claude = d ∧ settledOrder = o := by
          simpa using Except.ok.inj (resolved_asking.symm.trans (congrArg Prod.fst hresolved))
        exact regular_settled)
      hreports.done
  rw [ofWords_asking] at hwords
  obtain ⟨-, rfl⟩ := Request.subcommand.inj hwords
  obtain rfl := hran.unique hreports
  exact ⟨o, r', hran, hran', hsame.mpr (Or.inl rfl)⟩

/-- Where only the settings ask for the deletions, the run deletes the command, and the
preview does not tell it. -/
theorem plan_misses_deletion : ∃ r',
    Sync.Regular .chimera .claude settledOrder settledWorld ∧
      ((program shortWording ["apply", "claude", "-t", "both"]).run settledWorld).1 =
        .ok (.done 0) ∧
      Reports shortWording ["apply", "claude", "-t", "both"] settledWorld settledOrder
        settledReport ∧
      Reports shortWording ["plan", "claude", "-t", "both"] settledWorld
        (settledOrder.asked false) r' ∧
      r'.operations.map Sync.Operation.key =
        [(.created, ⟨1, ["w", ".claude", "skills", "s"]⟩)] := by
  have hwords : ∀ c : Subcommand, c.canDelete = true → c ≠ .sync →
      Request.ofWords [c.name, "claude", "-t", "both"] = .subcommand c (bothArguments []) := by
    intro c
    cases c <;> decide +kernel
  have hresolved : ((resolved .apply (bothArguments [])).run settledWorld).1 =
      .ok (.chimera, .claude, settledOrder) := eq_ok_of_toOption (by decide +kernel)
  have hreports : Reports shortWording ["apply", "claude", "-t", "both"] settledWorld settledOrder
      settledReport :=
    reports_of_run (hwords .apply rfl nofun) rfl (Prod.ext hresolved rfl)
      (Prod.ext (eq_ok_of_toOption (by decide +kernel)) rfl)
  have hpreview : Reports shortWording ["plan", "claude", "-t", "both"] settledWorld
      (settledOrder.asked false)
      ⟨[⟨.created, ⟨1, ["w", ".claude", "skills", "s"]⟩, true⟩], [], 1⟩ :=
    reports_of_run (hwords .plan rfl nofun) rfl (resolved_pair rfl (Prod.ext hresolved rfl)).1
      (Prod.ext (eq_ok_of_toOption (by decide +kernel)) rfl)
  exact ⟨_, regular_settled, hreports.done, hreports, hpreview, rfl⟩

end CommandLine

end AgentRelay
