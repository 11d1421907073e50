import AgentRelay.Proofs.Document.Failing
import AgentRelay.Proofs.Sync.Preview

/-
  What becomes of the items of a run.

  A run takes each item in the world that the items before it have left, also
  where one of those failed (`inTurn`). It comes to its end exactly when no item
  fails for a value in a document, and then its report has one operation or one
  failure for each item (`run_returns_iff`).
-/

namespace AgentRelay.Sync

open Work

/-! ## Items in turn -/

/-- What becomes of the items of a list, each taken in the world that those before it
have left, and the world in the end. -/
def inTurn {α : Type} (item : α → Work Operation) :
    List α → World → List (Except Failure Operation) × World
  | [], w => ([], w)
  | x :: xs, w =>
    let first := (item x).run w
    let rest := inTurn item xs first.2
    (first.1 :: rest.1, rest.2)

/-- The failures of items. -/
def errors (outcomes : List (Except Failure Operation)) : List Failure :=
  outcomes.filterMap fun x => match x with
    | .ok _ => none
    | .error e => some e

theorem mem_errors {outcomes : List (Except Failure Operation)} {e : Failure} :
    e ∈ errors outcomes ↔ .error e ∈ outcomes := by
  simp only [errors, List.mem_filterMap]
  constructor
  · rintro ⟨x, hx, he⟩
    cases x with
    | ok op => exact nomatch he
    | error e' =>
      obtain rfl := Option.some.inj he
      exact hx
  · intro h
    exact ⟨_, h, rfl⟩

/-- Where a failure that is not collected would have ended a run, one that has returned has
collected all. -/
theorem collected_of_ok {outcomes : List (Except Failure Operation)} {x : Except Failure Report}
    {r : Report} (hr : x = .ok r)
    (hnot : ∀ e ∈ errors outcomes, e.isCollected = false → ∃ e', x = .error e') :
    ∀ e ∈ errors outcomes, e.isCollected = true := by
  intro e he
  cases hc : e.isCollected with
  | true => rfl
  | false =>
    obtain ⟨e', he'⟩ := hnot e he hc
    rw [hr] at he'
    exact nomatch he'

/-- The reports on some outcomes, one after the other. -/
def Report.total (make : Except Failure Operation → Report)
    (outcomes : List (Except Failure Operation)) : Report :=
  outcomes.foldr (fun x r => (make x).append r) Report.empty

theorem Report.append_empty (r : Report) : r.append Report.empty = r := by
  simp [Report.append, Report.empty]

/-- Of some items, those that did not fail were processed. -/
theorem processed_total (outcomes : List (Except Failure Operation)) :
    (Report.total Report.ofItem outcomes).processed + (errors outcomes).length =
      outcomes.length := by
  induction outcomes with
  | nil => rfl
  | cons x xs ih =>
    have hrest : (Report.total Report.ofItem (x :: xs)).processed =
        (Report.ofItem x).processed + (Report.total Report.ofItem xs).processed := rfl
    cases x with
    | ok op =>
      have herrors : errors (.ok op :: xs) = errors xs := rfl
      have hone : (Report.ofItem (.ok op)).processed = 1 := rfl
      rw [hrest, herrors, hone, List.length_cons]
      omega
    | error e =>
      have herrors : errors (.error e :: xs) = e :: errors xs := rfl
      have hzero : (Report.ofItem (.error e)).processed = 0 := rfl
      rw [hrest, herrors, hzero, List.length_cons, List.length_cons]
      omega

/-- Deletions process no item. -/
theorem processed_orphans (outcomes : List (Except Failure Operation)) :
    (Report.total Report.ofOrphan outcomes).processed = 0 := by
  induction outcomes with
  | nil => rfl
  | cons x xs ih =>
    have hrest : (Report.total Report.ofOrphan (x :: xs)).processed =
        (Report.ofOrphan x).processed + (Report.total Report.ofOrphan xs).processed := rfl
    rw [hrest, ih]
    cases x <;> rfl

/-- The operations of items. -/
def successes (outcomes : List (Except Failure Operation)) : List Operation :=
  outcomes.filterMap Except.toOption

theorem mem_successes {outcomes : List (Except Failure Operation)} {op : Operation} :
    op ∈ successes outcomes ↔ .ok op ∈ outcomes := by
  rw [successes, List.mem_filterMap]
  constructor
  · rintro ⟨x, hx, hop⟩
    cases x with
    | error e => exact nomatch hop
    | ok op' =>
      obtain rfl := Option.some.inj hop
      exact hx
  · intro h
    exact ⟨_, h, rfl⟩

theorem length_successes (outcomes : List (Except Failure Operation)) :
    (successes outcomes).length + (errors outcomes).length = outcomes.length := by
  induction outcomes with
  | nil => rfl
  | cons x xs ih =>
    cases x with
    | ok op =>
      have hone : successes (.ok op :: xs) = op :: successes xs := rfl
      have hnone : errors (.ok op :: xs) = errors xs := rfl
      rw [hone, hnone, List.length_cons, List.length_cons]
      omega
    | error e =>
      have hnone : successes (.error e :: xs) = successes xs := rfl
      have hone : errors (.error e :: xs) = e :: errors xs := rfl
      rw [hone, hnone, List.length_cons, List.length_cons]
      omega

section
variable {make : Except Failure Operation → Report}
  (h : ∀ x, (make x).operations = successes [x] ∧ (make x).failures = errors [x])
include h

theorem operations_total (xs : List (Except Failure Operation)) :
    (Report.total make xs).operations = successes xs := by
  induction xs with
  | nil => rfl
  | cons x xs ih =>
    change (make x).operations ++ (Report.total make xs).operations = successes ([x] ++ xs)
    rw [(h x).1, ih, successes, successes, successes, List.filterMap_append]

theorem failures_total (xs : List (Except Failure Operation)) :
    (Report.total make xs).failures = errors xs := by
  induction xs with
  | nil => rfl
  | cons x xs ih =>
    change (make x).failures ++ (Report.total make xs).failures = errors ([x] ++ xs)
    rw [(h x).2, ih, errors, errors, errors, List.filterMap_append]

end

theorem ofItem_tells (x : Except Failure Operation) :
    (Report.ofItem x).operations = successes [x] ∧ (Report.ofItem x).failures = errors [x] := by
  cases x <;> exact ⟨rfl, rfl⟩

theorem ofOrphan_tells (x : Except Failure Operation) :
    (Report.ofOrphan x).operations = successes [x] ∧
      (Report.ofOrphan x).failures = errors [x] := by
  cases x <;> exact ⟨rfl, rfl⟩

section
variable {α : Type} {item : α → Work Operation} {xs : List α} {w : World}

theorem length_inTurn (item : α → Work Operation) (xs : List α) (w : World) :
    (inTurn item xs w).1.length = xs.length := by
  induction xs generalizing w with
  | nil => rfl
  | cons x xs ih => simp [inTurn, ih]

theorem inTurn_append (item : α → Work Operation) (xs ys : List α) (w : World) :
    inTurn item (xs ++ ys) w =
      ((inTurn item xs w).1 ++ (inTurn item ys (inTurn item xs w).2).1,
        (inTurn item ys (inTurn item xs w).2).2) := by
  induction xs generalizing w with
  | nil => rfl
  | cons x xs ih =>
    rw [List.cons_append, inTurn, ih]
    rfl

theorem exists_of_mem_inTurn {x : Except Failure Operation} (h : x ∈ (inTurn item xs w).1) :
    ∃ a ∈ xs, ∃ v : World, ((item a).run v).1 = x := by
  induction xs generalizing w with
  | nil => exact absurd h List.not_mem_nil
  | cons a xs ih =>
    rcases List.mem_cons.mp h with rfl | h
    · exact ⟨a, by simp, w, rfl⟩
    · obtain ⟨b, hb, v, hv⟩ := ih h
      exact ⟨b, List.mem_cons_of_mem _ hb, v, hv⟩

/-! ## Reports on items -/

theorem run_collected_error {x : Work Operation} {e : Failure} (h : (x.run w).1 = .error e) :
    (collected x).run w = (if e.isCollected then .ok (.error e) else .error e, (x.run w).2) := by
  rw [collected, run_bind, run_attempt, h]
  simp only
  split <;> rfl

/-- The report on each item of a list. -/
abbrev reportItems (make : Except Failure Operation → Report) (item : α → Work Operation)
    (xs : List α) : Work Report :=
  reports (fun x => do return make (← collected (item x))) xs

/-- When every failure is collected, each item is reported. -/
theorem run_reports_of_collected (make : Except Failure Operation → Report)
    (h : ∀ e ∈ errors (inTurn item xs w).1, e.isCollected = true) :
    (reportItems make item xs).run w =
      (.ok (Report.total make (inTurn item xs w).1), (inTurn item xs w).2) := by
  induction xs generalizing w with
  | nil => rfl
  | cons x xs ih =>
    have hfirst : (do return make (← collected (item x)) : Work Report).run w =
        (.ok (make ((item x).run w).1), ((item x).run w).2) := by
      rw [run_bind]
      cases hx : ((item x).run w).1 with
      | ok op =>
        rw [run_collected_ok hx]
        rfl
      | error e =>
        have he : e.isCollected = true := h e (mem_errors.mpr (by simp [inTurn, hx]))
        rw [run_collected_error hx, he]
        rfl
    have hrest := @ih ((item x).run w).2 fun e he =>
      h e (mem_errors.mpr (List.mem_cons_of_mem _ (mem_errors.mp he)))
    rw [reportItems, reports, run_bind, hfirst]
    simp only
    rw [run_bind, hrest]
    rfl

/-- A failure that is not collected ends the reports. -/
theorem run_reports_of_not_collected (make : Except Failure Operation → Report) {e : Failure}
    (he : e ∈ errors (inTurn item xs w).1) (hnot : e.isCollected = false) :
    ∃ e', ((reportItems make item xs).run w).1 = .error e' := by
  induction xs generalizing w with
  | nil => exact absurd he List.not_mem_nil
  | cons x xs ih =>
    rw [reportItems, reports, run_bind, run_bind]
    cases hx : ((item x).run w).1 with
    | ok op =>
      rw [run_collected_ok hx]
      have htail : e ∈ errors (inTurn item xs ((item x).run w).2).1 := by
        rcases List.mem_cons.mp (mem_errors.mp he) with heq | hmem
        · rw [hx] at heq
          cases heq
        · exact mem_errors.mpr hmem
      obtain ⟨e', he'⟩ := ih htail
      refine ⟨e', ?_⟩
      change ((reportItems make item xs >>= fun r => pure ((make (.ok op)).append r)).run
        ((item x).run w).2).1 = _
      rw [run_map, he']
      rfl
    | error e₁ =>
      rw [run_collected_error hx]
      cases hc : e₁.isCollected with
      | false => exact ⟨e₁, rfl⟩
      | true =>
        have htail : e ∈ errors (inTurn item xs ((item x).run w).2).1 := by
          rcases List.mem_cons.mp (mem_errors.mp he) with heq | hmem
          · rw [hx] at heq
            obtain rfl := Except.error.inj heq
            rw [hc] at hnot
            cases hnot
          · exact mem_errors.mpr hmem
        obtain ⟨e', he'⟩ := ih htail
        refine ⟨e', ?_⟩
        change ((reportItems make item xs >>= fun r => pure ((make (.error e₁)).append r)).run
          ((item x).run w).2).1 = _
        rw [run_map, he']
        rfl

end

/-! ## Deletions -/

/-- What becomes of a deletion: it is told, or the system refuses it. -/
def IsDeletion (x : Except Failure Operation) : Prop :=
  (∃ p preview, x = .ok ⟨.deleted, p, preview⟩) ∨ ∃ e, x = .error (.system e)

theorem isDeletion_of_run (o : Order) (path : Path) {remove : Path → Work Unit}
    (h : ∀ p, Ends (fun e => ∃ x, e = .system x) (remove p)) (w : World) :
    IsDeletion ((delete o path remove).run w).1 := by
  have hends : Ends (fun e => ∃ x, e = .system x) (delete o path remove) := by
    unfold delete
    split
    · exact Ends.bind (h path) fun _ => Ends.pure _
    · exact Ends.pure _
  cases hr : ((delete o path remove).run w).1 with
  | error e =>
    obtain ⟨x, rfl⟩ := (hends w).2 e hr
    exact Or.inr ⟨x, rfl⟩
  | ok op =>
    refine Or.inl ⟨path, o.preview, congrArg _ ?_⟩
    unfold delete at hr
    split at hr
    · exact result_of_writing hr
    · exact (Except.ok.inj hr).symm

/-- Orphans are always reported, because their failures are collected. -/
theorem run_orphans (o : Order) {remove : Path → Work Unit}
    (h : ∀ p, Ends (fun e => ∃ x, e = .system x) (remove p)) (orphans : List Path) (w : World) :
    (∀ x ∈ (inTurn (fun p => delete o p remove) orphans w).1, IsDeletion x) ∧
      (reports (reportOrphan o remove) orphans).run w =
        (.ok (Report.total Report.ofOrphan (inTurn (fun p => delete o p remove) orphans w).1),
          (inTurn (fun p => delete o p remove) orphans w).2) := by
  have hdeletion : ∀ x ∈ (inTurn (fun p => delete o p remove) orphans w).1, IsDeletion x := by
    intro x hx
    obtain ⟨p, -, v, rfl⟩ := exists_of_mem_inTurn hx
    exact isDeletion_of_run o p h v
  refine ⟨hdeletion, run_reports_of_collected Report.ofOrphan fun e he => ?_⟩
  rcases hdeletion _ (mem_errors.mp he) with ⟨p, preview, heq⟩ | ⟨x, heq⟩
  · exact nomatch heq
  · obtain rfl := Except.error.inj heq
    rfl

/-! ## One kind of content -/

/-- The report on some items and on what was swept behind them. -/
def Tells (o : Order) (outcomes : List (Except Failure Operation)) (r : Report) : Prop :=
  ∃ swept, (∀ x ∈ swept, IsDeletion x) ∧ (o.sweeps = false → swept = []) ∧
    r = (Report.total Report.ofItem outcomes).append (Report.total Report.ofOrphan swept)

theorem tells_nil (o : Order) : Tells o [] Report.empty :=
  ⟨[], fun _ hx => absurd hx List.not_mem_nil, fun _ => rfl, rfl⟩

section
variable {α : Type} (o : Order) (item : α → Work Operation) (xs : List α)
  (orphans : World → List Path) {remove : Path → Work Unit}
  (h : ∀ p, Ends (fun e => ∃ x, e = .system x) (remove p)) (w : World)
include h

/-- When every failure of an item is collected, the items are told, and behind them what
was swept in the world that they have left. -/
theorem run_sweeping_of_sweeps (hsweeps : o.sweeps = true)
    (hall : ∀ e ∈ errors (inTurn item xs w).1, e.isCollected = true) :
    let left := (inTurn item xs w).2
    let swept := inTurn (fun p => delete o p remove) (orphans left) left
    (sweeping o (reportItems Report.ofItem item xs) orphans remove).run w =
      (.ok ((Report.total Report.ofItem (inTurn item xs w).1).append
        (Report.total Report.ofOrphan swept.1)), swept.2) := by
  rw [sweeping, if_pos hsweeps, run_bind, run_reports_of_collected Report.ofItem hall]
  simp only
  rw [run_bind, run_get_bind, (run_orphans o h (orphans (inTurn item xs w).2) _).2]
  rfl

variable (remove) in
omit h in
/-- When a failure of an item is not collected, the work ends with it. -/
theorem run_sweeping_of_not_collected {e : Failure} (he : e ∈ errors (inTurn item xs w).1)
    (hnot : e.isCollected = false) :
    ∃ e', ((sweeping o (reportItems Report.ofItem item xs) orphans remove).run w).1 =
      .error e' := by
  obtain ⟨e', he'⟩ := run_reports_of_not_collected Report.ofItem he hnot
  refine ⟨e', ?_⟩
  unfold sweeping
  split
  · rw [run_bind]
    cases hr : (reportItems Report.ofItem item xs).run w with
    | mk r v =>
      rw [hr] at he'
      obtain rfl : r = .error e' := he'
      rfl
  · exact he'

/-- Items and what is swept behind them: all are told when every failure of an item is
collected, and the work ends early otherwise. -/
theorem run_sweeping :
    ((∀ e ∈ errors (inTurn item xs w).1, e.isCollected = true) →
      ∃ r v, (sweeping o (reportItems Report.ofItem item xs) orphans remove).run w = (.ok r, v) ∧
        Tells o (inTurn item xs w).1 r) ∧
    (∀ e ∈ errors (inTurn item xs w).1, e.isCollected = false →
      ∃ e', ((sweeping o (reportItems Report.ofItem item xs) orphans remove).run w).1 =
        .error e') := by
  refine ⟨fun hall => ?_, fun e => run_sweeping_of_not_collected o item xs orphans remove w⟩
  cases hsweeps : o.sweeps with
  | true =>
    refine ⟨_, _, run_sweeping_of_sweeps o item xs orphans h w hsweeps hall, _, ?_, ?_, rfl⟩
    · exact (run_orphans o h (orphans (inTurn item xs w).2) _).1
    · intro hnot
      rw [hsweeps] at hnot
      exact nomatch hnot
  | false =>
    have hrun : (sweeping o (reportItems Report.ofItem item xs) orphans remove).run w =
        (.ok (Report.total Report.ofItem (inTurn item xs w).1), (inTurn item xs w).2) := by
      rw [sweeping_spared hsweeps, run_reports_of_collected Report.ofItem hall]
    exact ⟨_, _, hrun, [], fun _ hx => absurd hx List.not_mem_nil, fun _ => rfl,
      (Report.append_empty _).symm⟩

end

/-! ## The parts of a run -/

variable {s d : Agent} {o : Order} {p q : Path}

/-- Takes a command to the file with its name at the destination. -/
def commandItem (s d : Agent) (o : Order) (source target file : Path) : Work Operation := do
  takeCommand s d o file (← Work.ofExcept (commandTarget s d source target file))

/-- Only a file that lies elsewhere has no target. -/
theorem eq_outside_of_commandTarget {source target file : Path} {e : Failure}
    (h : commandTarget s d source target file = .error e) : e = .outside := by
  unfold commandTarget at h
  split at h
  · cases h
  · exact (Except.error.inj h).symm

theorem reportCommand_eq (s d : Agent) (o : Order) (source target : Path) :
    reportCommand s d o source target = fun file =>
      do return Report.ofItem (← collected (commandItem s d o source target file)) := by
  funext file
  rw [reportCommand, commandItem]
  cases ht : commandTarget s d source target file with
  | ok t => rw [ofExcept_ok_bind, ofExcept_ok_bind]
  | error e =>
    -- The failure is not collected.
    obtain rfl := eq_outside_of_commandTarget ht
    rw [ofExcept_error_bind, ofExcept_error_bind]
    rfl

/-- Takes a skill into a folder of skills. -/
abbrev skillItem (s d : Agent) (o : Order) (target folder : Path) : Work Operation :=
  takeSkill s d o folder (target.append folder.name)

/-- The commands a run takes from a base folder. -/
def commandsFound (s : Agent) (o : Order) (p : Path) (w : World) : List Path :=
  if o.contents.hasCommands then w.commandFiles s (p.append s.commandFolder) o.only else []

/-- The skills a run takes from a base folder. -/
def skillsFound (s : Agent) (o : Order) (p : Path) (w : World) : List Path :=
  if o.contents.hasSkills then w.skillFolders (p.append s.skillFolder) o.only else []

/-- The world after it was told how many items were found. -/
def told (o : Order) (n : Nat) (a : Agent) (what : String) (folder : Path) (w : World) : World :=
  ((tellFound o n a what folder).run w).2

/-- What becomes of the commands between two base folders. -/
def commandOutcomes (s d : Agent) (o : Order) (p q : Path) (w : World) :
    List (Except Failure Operation) :=
  let files := commandsFound s o p w
  (inTurn (commandItem s d o (p.append s.commandFolder) (q.append d.commandFolder)) files
    (told o files.length s "command" (p.append s.commandFolder) w)).1

/-- What becomes of the skills between two base folders. -/
def skillOutcomes (s d : Agent) (o : Order) (p q : Path) (w : World) :
    List (Except Failure Operation) :=
  let folders := skillsFound s o p w
  (inTurn (fun folder => takeSkill s d o folder ((q.append d.skillFolder).append folder.name))
    folders (told o folders.length s "skill" (p.append s.skillFolder) w)).1

theorem run_tellFound_bind {α : Type} (o : Order) (n : Nat) (a : Agent) (what : String)
    (folder : Path) (f : Unit → Work α) (w : World) :
    (tellFound o n a what folder >>= f).run w = (f ()).run (told o n a what folder w) := by
  have hok : (tellFound o n a what folder).run w = (.ok (), told o n a what folder w) := by
    unfold told tellFound
    split <;> rfl
  rw [run_bind, hok]

theorem ends_removing :
    (∀ p, Ends (fun e => ∃ x, e = .system x) (Disk.removeFile p)) ∧
      ∀ p, Ends (fun e => ∃ x, e = .system x) (Disk.removeFolder p) :=
  ⟨fun p => Disk.ends_removeFile (fun e => ⟨e, rfl⟩) p,
    fun p => Disk.ends_removeFolder (fun e => ⟨e, rfl⟩) p⟩

/-- A part of a run tells what becomes of its items when every failure is collected, and
ends the run otherwise. -/
def Settles (o : Order) (outcomes : List (Except Failure Operation)) (x : Work Report)
    (w : World) : Prop :=
  ((∀ e ∈ errors outcomes, e.isCollected = true) →
    ∃ r v, x.run w = (.ok r, v) ∧ Tells o outcomes r) ∧
  (∀ e ∈ errors outcomes, e.isCollected = false → ∃ e', (x.run w).1 = .error e')

theorem settles_commandsPart {w : World} (hs : o.setup.base s w = .ok p)
    (hd : o.setup.base d w = .ok q) :
    Settles o (commandOutcomes s d o p q w) (commandsPart s d o) w := by
  unfold commandOutcomes commandsPart commandsFound
  split
  · have hrun : (runCommands s d o).run w =
        (sweeping o (reportItems Report.ofItem
          (commandItem s d o (p.append s.commandFolder) (q.append d.commandFolder))
          (w.commandFiles s (p.append s.commandFolder) o.only))
          (orphanCommands s d (p.append s.commandFolder) (q.append d.commandFolder)
            (w.commandFiles s (p.append s.commandFolder) o.only)) Disk.removeFile).run
          (told o (w.commandFiles s (p.append s.commandFolder) o.only).length s "command"
            (p.append s.commandFolder) w) := by
      rw [runCommands_eq, run_get_bind, commands_eq_ok hs rfl rfl, commands_eq_ok hd rfl rfl,
        ofExcept_ok_bind, ofExcept_ok_bind, commandsBetween, run_tellFound_bind, reportCommand_eq]
    have hsettled := run_sweeping o
      (commandItem s d o (p.append s.commandFolder) (q.append d.commandFolder))
      (w.commandFiles s (p.append s.commandFolder) o.only)
      (orphanCommands s d (p.append s.commandFolder) (q.append d.commandFolder)
        (w.commandFiles s (p.append s.commandFolder) o.only)) ends_removing.1
      (told o (w.commandFiles s (p.append s.commandFolder) o.only).length s "command"
        (p.append s.commandFolder) w)
    rw [← hrun] at hsettled
    exact hsettled
  · exact ⟨fun _ => ⟨_, _, rfl, tells_nil o⟩, fun e he => absurd he List.not_mem_nil⟩

theorem settles_skillsPart {w : World} (hs : o.setup.base s w = .ok p)
    (hd : o.setup.base d w = .ok q) :
    Settles o (skillOutcomes s d o p q w) (skillsPart s d o) w := by
  unfold skillOutcomes skillsPart skillsFound
  split
  · have hrun : (runSkills s d o).run w =
        (sweeping o (reportItems Report.ofItem
          (fun folder => takeSkill s d o folder ((q.append d.skillFolder).append folder.name))
          (w.skillFolders (p.append s.skillFolder) o.only))
          (orphanSkills (q.append d.skillFolder) (w.skillFolders (p.append s.skillFolder) o.only))
          Disk.removeFolder).run
          (told o (w.skillFolders (p.append s.skillFolder) o.only).length s "skill"
            (p.append s.skillFolder) w) := by
      rw [runSkills_eq, run_get_bind, skills_eq_ok hd rfl rfl, skills_eq_ok hs rfl rfl,
        ofExcept_ok_bind, ofExcept_ok_bind, skillsBetween, run_tellFound_bind]
      rfl
    have hsettled := run_sweeping o
      (fun folder => takeSkill s d o folder ((q.append d.skillFolder).append folder.name))
      (w.skillFolders (p.append s.skillFolder) o.only)
      (orphanSkills (q.append d.skillFolder) (w.skillFolders (p.append s.skillFolder) o.only))
      ends_removing.2
      (told o (w.skillFolders (p.append s.skillFolder) o.only).length s "skill"
        (p.append s.skillFolder) w)
    rw [← hrun] at hsettled
    exact hsettled
  · exact ⟨fun _ => ⟨_, _, rfl, tells_nil o⟩, fun e he => absurd he List.not_mem_nil⟩

/-! ## How an item ends -/

open Failure

theorem ofItem_misfit {α : Type} {r : Except Misfit α} {e : Failure}
    (h : r.mapError .misfit = .error e) : e.OfItem := by
  obtain ⟨m, -, rfl⟩ := exists_of_mapError h
  rfl

theorem ends_tellMissing {P : Failure → Prop} (a : Agent) (body : List Body.Segment)
    (label : String) : Ends P (tellMissing a body label) := Ends.forM fun _ _ => Ends.say _

theorem ends_finish {P : Failure → Prop} (a : Agent) (o : Order) (body : List Body.Segment)
    (label : String) (op : Operation) {write : Work Operation} (h : Ends P write) :
    Ends P (
      have finish : PUnit → Work Operation := fun _ =>
        if o.preview = true then pure op else write
      if o.verbose = true then tellMissing a body label >>= finish else finish PUnit.unit) :=
  of_finish a o body label
    (fun _ hx => Ends.bind (ends_tellMissing a body label) fun _ => hx)
    (fun _ => Ends.pure _) fun _ => h

/-- A command fails for its file or for a value in it. -/
theorem ends_takeCommand (s d : Agent) (o : Order) (file target : Path) :
    Ends OfItem (takeCommand s d o file target) := by
  unfold takeCommand
  refine Ends.bind (Command.ends_read s 0 _) fun command => ?_
  refine Ends.bind (Ends.ofExcept fun e => ofItem_misfit) fun neutral => Ends.get_bind fun w => ?_
  dsimp only
  split
  · exact Ends.pure _
  · refine Ends.bind ?_ fun existing => ?_
    · unfold existingCommand
      split
      · exact Ends.bind (Command.ends_read d 1 _) fun _ => Ends.pure _
      · exact Ends.pure _
    · refine Ends.bind (Ends.ofExcept fun e => Command.ofItem_text) fun text => ?_
      refine ends_finish d o _ _ _ (Ends.bind (Disk.ends_folders ofItem_system _) fun _ => ?_)
      exact Ends.bind (Disk.ends_writeWhole ofItem_system rfl _ _) fun _ => Ends.pure _

/-- A skill fails for its files or for a value in them. -/
theorem ends_takeSkill (s d : Agent) (o : Order) (folder target : Path) :
    Ends OfItem (takeSkill s d o folder target) := by
  unfold takeSkill
  refine Ends.bind (Skill.ends_read s 0 _) fun skill => ?_
  refine Ends.bind (Ends.ofExcept fun e => ofItem_misfit) fun neutral => Ends.get_bind fun w => ?_
  dsimp only
  split
  · exact Ends.pure _
  · refine Ends.bind ?_ fun existing => ?_
    · unfold existingSkill
      split
      · exact Ends.bind (Skill.ends_read d 1 _) fun _ => Ends.pure _
      · exact Ends.pure _
    · exact ends_finish d o _ _ _ (Ends.bind (Skill.ends_write d _ _ _) fun _ => Ends.pure _)

/-- Taking an item deletes nothing. -/
def Takes (op : Operation) : Prop := op.change ≠ .deleted

theorem takes_writing (path : Path) (there preview : Bool) :
    Takes (Operation.writing path there preview) := by
  cases there <;> exact nofun

theorem gives_finish {P : Operation → Prop} (a : Agent) (o : Order) (body : List Body.Segment)
    (label : String) {op : Operation} (hop : P op) {write : Work Operation} (h : Gives P write) :
    Gives P (
      have finish : PUnit → Work Operation := fun _ =>
        if o.preview = true then pure op else write
      if o.verbose = true then tellMissing a body label >>= finish else finish PUnit.unit) :=
  of_finish a o body label (fun _ hx => Gives.bind fun _ => hx) (fun _ => Gives.pure hop) fun _ => h

/-- A command that is taken is skipped, when existing ones are kept, or written. -/
theorem gives_takeCommand {P : Operation → Prop} (s d : Agent) (o : Order) (file target : Path)
    (hskip : o.keepExisting = true → P ⟨.skipped, target, o.preview⟩)
    (hwrite : ∀ there preview, P (.writing target there preview)) :
    Gives P (takeCommand s d o file target) := by
  unfold takeCommand
  refine Gives.bind fun command => Gives.bind fun neutral => Gives.bind fun w => ?_
  dsimp only
  split
  · rename_i hskips
    rw [Order.skips, Bool.and_eq_true] at hskips
    exact Gives.pure (hskip hskips.2)
  · refine Gives.bind fun existing => Gives.bind fun text => gives_finish d o _ _ ?_ ?_
    · exact hwrite _ _
    · exact Gives.bind fun _ => Gives.bind fun _ => Gives.pure (hwrite _ _)

theorem gives_takeSkill (s d : Agent) (o : Order) (folder target : Path) :
    Gives Takes (takeSkill s d o folder target) := by
  unfold takeSkill
  refine Gives.bind fun skill => Gives.bind fun neutral => Gives.bind fun w => ?_
  dsimp only
  split
  · exact Gives.pure nofun
  · refine Gives.bind fun existing => gives_finish d o _ _ (takes_writing _ _ _) ?_
    exact Gives.bind fun _ => Gives.pure (takes_writing _ _ _)

/-! ## The parts stay where they are -/

/-- Work that stays in its home and working folder, however it ends. -/
abbrev Stays {α : Type} (x : Work α) : Prop := Ends (fun _ => True) x

theorem stays_collected {α : Type} {P : Failure → Prop} {x : Work α} (h : Ends P x) :
    Stays (collected x) := by
  refine Ends.attempt_bind h (fun a => Ends.pure _) fun e _ => ?_
  dsimp only
  split
  · exact Ends.pure _
  · exact Ends.throw trivial

theorem stays_reports {α : Type} {report : α → Work Report} {xs : List α}
    (h : ∀ x, Stays (report x)) : Stays (reports report xs) := by
  induction xs with
  | nil => exact Ends.pure _
  | cons x xs ih =>
    rw [reports]
    exact Ends.bind (h x) fun _ => Ends.bind ih fun _ => Ends.pure _

theorem stays_reportOrphan (o : Order) (p : Path) : Stays (reportOrphan o Disk.removeFile p) := by
  have hdelete : Stays (delete o p Disk.removeFile) := by
    unfold delete
    split
    · exact Ends.bind (Disk.ends_removeFile (fun _ => trivial) p) fun _ => Ends.pure _
    · exact Ends.pure _
  exact Ends.bind (stays_collected hdelete) fun _ => Ends.pure _

theorem stays_tellFound (o : Order) (n : Nat) (a : Agent) (what : String) (folder : Path) :
    Stays (tellFound o n a what folder) := by
  unfold tellFound
  split
  · exact Ends.say _
  · exact Ends.pure _

theorem stays_runCommands (s d : Agent) (o : Order) : Stays (runCommands s d o) := by
  rw [runCommands_eq]
  refine Ends.get_bind fun w => Ends.bind (Ends.ofExcept fun _ _ => trivial) fun source => ?_
  refine Ends.bind (Ends.ofExcept fun _ _ => trivial) fun target => ?_
  refine Ends.bind (stays_tellFound _ _ _ _ _) fun _ => ?_
  have hitems : Stays (reports (reportCommand s d o source target)
      (w.commandFiles s source o.only)) := by
    refine stays_reports fun file => Ends.bind (Ends.ofExcept fun _ _ => trivial) fun t => ?_
    exact Ends.bind (stays_collected (ends_takeCommand s d o file t)) fun _ => Ends.pure _
  unfold sweeping
  split
  · refine Ends.bind hitems fun report => Ends.bind ?_ fun _ => Ends.pure _
    exact Ends.get_bind fun _ => stays_reports fun p => stays_reportOrphan o p
  · exact hitems

theorem stays_commandsPart (s d : Agent) (o : Order) : Stays (commandsPart s d o) := by
  unfold commandsPart
  split
  · exact stays_runCommands s d o
  · exact Ends.pure _

/-! ## Whole runs -/

/-- A command that is found has a target. -/
theorem exists_target {w : World} {source file : Path} (d : Agent) (target : Path)
    (h : file ∈ w.commandFiles s source none) :
    ∃ t, commandTarget s d source target file = .ok t := by
  rw [World.commandFiles_all w s source rfl, World.commandsBelow, List.mem_filter] at h
  obtain ⟨names, rfl⟩ : ∃ names, file = ⟨source.root, source.parts ++ names⟩ := by
    have hbelow := h.1
    unfold World.filesBelow at hbelow
    split at hbelow
    · obtain ⟨q, -, rfl⟩ := List.mem_map.mp (Path.mem_sorted.mp hbelow)
      exact ⟨_, rfl⟩
    · exact absurd hbelow List.not_mem_nil
  unfold commandTarget commandName?
  rw [Path.below?_behind]
  exact ⟨_, rfl⟩

/-- Every failure of a command is about its file or about a value in it. -/
theorem ofItem_commandOutcomes {w : World} (honly : o.only = none) :
    ∀ e ∈ errors (commandOutcomes s d o p q w), e.OfItem := by
  intro e he
  obtain ⟨file, hfile, v, hv⟩ := exists_of_mem_inTurn (mem_errors.mp he)
  have hfound : file ∈ w.commandFiles s (p.append s.commandFolder) none := by
    unfold commandsFound at hfile
    rw [honly] at hfile
    split at hfile
    · exact hfile
    · exact absurd hfile List.not_mem_nil
  obtain ⟨t, ht⟩ := exists_target d (q.append d.commandFolder) hfound
  unfold commandItem at hv
  rw [ht, ofExcept_ok_bind] at hv
  exact (ends_takeCommand s d o file t v).2 e hv

theorem ofItem_skillOutcomes {w : World} :
    ∀ e ∈ errors (skillOutcomes s d o p q w), e.OfItem := by
  intro e he
  obtain ⟨folder, -, v, hv⟩ := exists_of_mem_inTurn (mem_errors.mp he)
  exact (ends_takeSkill s d o folder _ v).2 e hv

/-- What becomes of an item that is taken is no deletion. -/
theorem takes_of_mem {w : World} {op : Operation}
    (h : .ok op ∈ commandOutcomes s d o p q w ∨ .ok op ∈ skillOutcomes s d o p q w) :
    Takes op := by
  rcases h with h | h
  · obtain ⟨file, -, v, hv⟩ := exists_of_mem_inTurn h
    have hgives : Gives Takes (commandItem s d o (p.append s.commandFolder)
        (q.append d.commandFolder) file) := Gives.bind fun t =>
      gives_takeCommand s d o file t (fun _ => nofun) (takes_writing t)
    exact hgives v op hv
  · obtain ⟨folder, -, v, hv⟩ := exists_of_mem_inTurn h
    exact gives_takeSkill s d o folder _ v op hv

/-- Takes the lock, unless this is a preview. -/
def locking (o : Order) : Work Unit := if o.preview then pure () else takeLock o.setup

theorem run_eq (s d : Agent) (o : Order) : run s d o = (do locking o; runAll s d o) := by
  unfold run locking
  cases o.preview <;> rfl

/-- The number of items a run finds between two base folders: commands first, and the
skills once those are done. -/
def itemsFound (s d : Agent) (o : Order) (p : Path) (w : World) : Nat :=
  (commandsFound s o p w).length + (skillsFound s o p ((commandsPart s d o).run w).2).length

/-- What becomes of all items of a run. -/
def outcomes (s d : Agent) (o : Order) (p q : Path) (w : World) :
    List (Except Failure Operation) :=
  commandOutcomes s d o p q w ++ skillOutcomes s d o p q ((commandsPart s d o).run w).2

theorem length_outcomes (s d : Agent) (o : Order) (p q : Path) (w : World) :
    (outcomes s d o p q w).length = itemsFound s d o p w := by
  rw [outcomes, List.length_append, commandOutcomes, skillOutcomes, length_inTurn, length_inTurn]
  rfl

theorem mem_errors_outcomes {w : World} {e : Failure} :
    e ∈ errors (outcomes s d o p q w) ↔ e ∈ errors (commandOutcomes s d o p q w) ∨
      e ∈ errors (skillOutcomes s d o p q ((commandsPart s d o).run w).2) := by
  rw [mem_errors, mem_errors, mem_errors, outcomes, List.mem_append]

/-- The report on a whole run: one operation or one failure for each item, in turn, and
behind the items of either kind what was swept. -/
def TellsAll (s d : Agent) (o : Order) (p q : Path) (w : World) (r : Report) : Prop :=
  ∃ commands skills, Tells o (commandOutcomes s d o p q w) commands ∧
    Tells o (skillOutcomes s d o p q ((commandsPart s d o).run w).2) skills ∧
    r = commands.append skills

theorem Tells.processed {xs : List (Except Failure Operation)} {r : Report} (h : Tells o xs r) :
    r.processed + (errors xs).length = xs.length := by
  obtain ⟨swept, -, -, rfl⟩ := h
  have hitems := processed_total xs
  have hswept := processed_orphans swept
  rw [Report.append]
  dsimp only
  omega

/-- What was processed and what failed are all the items together. -/
theorem TellsAll.processed {w : World} {r : Report} (h : TellsAll s d o p q w r) :
    r.processed + (errors (outcomes s d o p q w)).length = itemsFound s d o p w := by
  obtain ⟨commands, skills, hcommands, hskills, rfl⟩ := h
  have hc := hcommands.processed
  have hs := hskills.processed
  have hsplit : (errors (outcomes s d o p q w)).length =
      (errors (commandOutcomes s d o p q w)).length +
        (errors (skillOutcomes s d o p q ((commandsPart s d o).run w).2)).length := by
    rw [outcomes, errors, List.filterMap_append, List.length_append]
    rfl
  rw [← length_outcomes s d o p q w, outcomes, List.length_append, ← outcomes, hsplit,
    Report.append]
  dsimp only
  omega

/-- Between base folders that are known, a run tells what becomes of all items when every
failure is collected, and ends early otherwise. -/
theorem settles_runAll {w : World} (hs : o.setup.base s w = .ok p)
    (hd : o.setup.base d w = .ok q) :
    ((∀ e ∈ errors (outcomes s d o p q w), e.isCollected = true) →
      ∃ r v, (runAll s d o).run w = (.ok r, v) ∧ TellsAll s d o p q w r) ∧
    (∀ e ∈ errors (outcomes s d o p q w), e.isCollected = false →
      ∃ e', ((runAll s d o).run w).1 = .error e') := by
  obtain ⟨hhome, hhere⟩ := (stays_commandsPart s d o w).1
  obtain ⟨hallC, hnotC⟩ := settles_commandsPart (s := s) (d := d) (o := o) hs hd
  -- The skills are met in the world that the commands have left.
  obtain ⟨hallS, hnotS⟩ := settles_skillsPart (s := s) (d := d) (o := o)
    ((Setup.base_eq hhome hhere).trans hs) ((Setup.base_eq hhome hhere).trans hd)
  rw [runAll_eq]
  constructor
  · intro hall
    obtain ⟨commands, u, hrunC, htellsC⟩ :=
      hallC fun e he => hall e (mem_errors_outcomes.mpr (Or.inl he))
    obtain ⟨skills, v, hrunS, htellsS⟩ :=
      hallS fun e he => hall e (mem_errors_outcomes.mpr (Or.inr he))
    refine ⟨commands.append skills, v, ?_, commands, skills, htellsC, htellsS, rfl⟩
    rw [hrunC] at hrunS
    rw [run_bind, hrunC]
    dsimp only
    rw [run_bind, hrunS]
    rfl
  · intro e he hnot
    rw [run_bind]
    cases hrunC : (commandsPart s d o).run w with
    | mk r u =>
      cases r with
      | error e' => exact ⟨e', rfl⟩
      | ok commands =>
        rcases mem_errors_outcomes.mp he with he | he
        · obtain ⟨e', he'⟩ := hnotC e he hnot
          rw [hrunC] at he'
          exact nomatch he'
        · obtain ⟨e', he'⟩ := hnotS e he hnot
          rw [hrunC] at he'
          refine ⟨e', ?_⟩
          change ((skillsPart s d o >>= fun skills => pure (commands.append skills)).run u).1 = _
          rw [run_map, he']
          rfl

/-- A run of all items that has its lock returns exactly when both base folders are known
and no item fails for a value in a document. Then every item has become one operation,
which deletes nothing, or one failure, and the report tells them. -/
theorem run_returns_iff (s d : Agent) (o : Order) (w u : World) (honly : o.only = none)
    (hlock : (locking o).run w = (.ok (), u)) :
    ((∃ r v, (run s d o).run w = (.ok r, v)) ↔
      ∃ p q, o.setup.base s u = .ok p ∧ o.setup.base d u = .ok q ∧
        ∀ e, .error e ∈ outcomes s d o p q u → e.isValue = false) ∧
    ∀ r v, (run s d o).run w = (.ok r, v) →
      ∃ p q, o.setup.base s u = .ok p ∧ o.setup.base d u = .ok q ∧
        TellsAll s d o p q u r ∧ (∀ op, .ok op ∈ outcomes s d o p q u → op.change ≠ .deleted) ∧
        (outcomes s d o p q u).length = itemsFound s d o p u ∧
        r.processed + (errors (outcomes s d o p q u)).length = itemsFound s d o p u := by
  have hrun : (run s d o).run w = (runAll s d o).run u := by
    rw [run_eq, run_bind, hlock]
  have hitem : ∀ p q, ∀ e ∈ errors (outcomes s d o p q u), e.OfItem := by
    intro p q e he
    rcases mem_errors_outcomes.mp he with he | he
    · exact ofItem_commandOutcomes honly e he
    · exact ofItem_skillOutcomes e he
  -- A run that returns has met no failure about a value.
  have hreturns : ∀ r v, (run s d o).run w = (.ok r, v) →
      ∃ p q, o.setup.base s u = .ok p ∧ o.setup.base d u = .ok q ∧
        (∀ e, .error e ∈ outcomes s d o p q u → e.isValue = false) ∧
        TellsAll s d o p q u r := by
    intro r v hr
    rw [hrun] at hr
    obtain ⟨p, q, hs, hd⟩ := bases_of_runAll (s := s) (d := d) (w := u) (congrArg Prod.fst hr)
    obtain ⟨hall, hnot⟩ := settles_runAll hs hd
    have hcollected : ∀ e ∈ errors (outcomes s d o p q u), e.isCollected = true :=
      collected_of_ok (congrArg Prod.fst hr) hnot
    obtain ⟨r', v', hr', htells⟩ := hall hcollected
    rw [hr] at hr'
    obtain ⟨hresult, -⟩ := Prod.mk.inj hr'
    obtain rfl := Except.ok.inj hresult
    refine ⟨p, q, hs, hd, fun e he => ?_, htells⟩
    exact (hitem p q e (mem_errors.mpr he)).isCollected_iff.mp (hcollected e (mem_errors.mpr he))
  refine ⟨⟨fun ⟨r, v, hr⟩ => ?_, fun ⟨p, q, hs, hd, hvalues⟩ => ?_⟩, fun r v hr => ?_⟩
  · obtain ⟨p, q, hs, hd, hvalues, -⟩ := hreturns r v hr
    exact ⟨p, q, hs, hd, hvalues⟩
  · obtain ⟨r, v, hr, -⟩ := (settles_runAll hs hd).1 fun e he =>
      (hitem p q e he).isCollected_iff.mpr (hvalues e (mem_errors.mp he))
    exact ⟨r, v, hrun.trans hr⟩
  · obtain ⟨p, q, hs, hd, -, htells⟩ := hreturns r v hr
    refine ⟨p, q, hs, hd, htells, fun op hop => ?_, length_outcomes s d o p q u, htells.processed⟩
    rw [outcomes, List.mem_append] at hop
    rcases hop with hop | hop
    · exact takes_of_mem (Or.inl hop)
    · exact takes_of_mem (Or.inr hop)

/-- A working folder with a command and a skill of one agent. -/
def mixedWorld (command : String) : World where
  tree :=
    [(["w"], .folder), (["w", ".claude"], .folder), (["w", ".claude", "commands"], .folder),
      (["w", ".claude", "commands", "a.md"], .file (Text.encode command)),
      (["w", ".claude", "skills"], .folder), (["w", ".claude", "skills", "s"], .folder),
      (["w", ".claude", "skills", "s", "SKILL.md"], .file (Text.encode "hi\n"))]
  home := ⟨1, ["h"]⟩
  here := ⟨1, ["w"]⟩
  repository := none
  held := none
  printed := []
  warnings := []

/-- A command whose fields are a list. -/
def listedWorld : World := mixedWorld "---\n- x\n---\nx\n"

/-- A command with a month that does not exist in a field. -/
def datedWorld : World := mixedWorld "---\nwhen: 2024-13-01\n---\nx\n"

/-- A list in the place of the fields fails the command, and the skill is still taken. -/
theorem run_returns_listed : (locking pairOrder).run listedWorld =
      (.ok (), ((locking pairOrder).run listedWorld).2) ∧
    ∃ r v, (run .claude .cursor pairOrder).run listedWorld = (.ok r, v) ∧ r.processed = 1 := by
  have hlock : (locking pairOrder).run listedWorld =
      (.ok (), ((locking pairOrder).run listedWorld).2) :=
    Prod.ext (eq_ok_of_toOption (by decide +kernel)) rfl
  obtain ⟨hiff, hreport⟩ := run_returns_iff .claude .cursor pairOrder _ _ rfl hlock
  have hs : pairOrder.setup.base .claude ((locking pairOrder).run listedWorld).2 =
      .ok ⟨1, ["w", ".claude"]⟩ := eq_ok_of_toOption (by decide +kernel)
  have hd : pairOrder.setup.base .cursor ((locking pairOrder).run listedWorld).2 =
      .ok ⟨1, ["w", ".cursor"]⟩ := eq_ok_of_toOption (by decide +kernel)
  have hvalues : (errors (outcomes .claude .cursor pairOrder ⟨1, ["w", ".claude"]⟩
      ⟨1, ["w", ".cursor"]⟩ ((locking pairOrder).run listedWorld).2)).map Failure.isValue =
        [false] := by decide +kernel
  have hfound : itemsFound .claude .cursor pairOrder ⟨1, ["w", ".claude"]⟩
      ((locking pairOrder).run listedWorld).2 = 2 := by decide +kernel
  obtain ⟨r, v, hr⟩ := hiff.mpr ⟨_, _, hs, hd, fun e he => by
    have hmem := List.mem_map_of_mem (f := Failure.isValue) (mem_errors.mpr he)
    rw [hvalues] at hmem
    exact List.mem_singleton.mp hmem⟩
  obtain ⟨p, q, hp, hq, -, -, -, hcount⟩ := hreport r v hr
  rw [hs] at hp
  rw [hd] at hq
  obtain rfl := Except.ok.inj hp
  obtain rfl := Except.ok.inj hq
  have hone := congrArg List.length hvalues
  rw [List.length_map, List.length_singleton] at hone
  refine ⟨hlock, r, v, hr, ?_⟩
  omega

/-- The month ends the whole run, and the skill is not taken. -/
theorem run_ends_at_bad_month :
    ¬ ∀ (s d : Agent) (o : Order) (w : World), s ≠ d → o.only = none → w.Sound →
      w.tree.get? w.herePlace = some .folder → ((locking o).run w).1 = .ok () →
      ∃ r v, (run s d o).run w = (.ok r, v) := by
  intro hall
  have hsound : datedWorld.Sound := by
    refine ⟨⟨?_, ?_, ?_, ?_⟩, ?_, ?_⟩
    all_goals decide +kernel
  obtain ⟨r, v, hr⟩ := hall .claude .cursor pairOrder datedWorld (by decide) rfl hsound
    (by decide +kernel) (eq_ok_of_toOption (by decide +kernel))
  have hnone : ((run .claude .cursor pairOrder).run datedWorld).1.toOption = none := by
    decide +kernel
  rw [hr] at hnone
  exact nomatch hnone

end AgentRelay.Sync
