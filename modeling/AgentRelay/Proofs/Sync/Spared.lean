import AgentRelay.Proofs.Sync.Outcome

/-
  Previews that do not look for orphans.

  A preview that deletes nothing tells what the preview of the same order tells that
  deletes orphans, but for the deletions (`spares_runAll`): in a preview nothing is
  removed, so what comes behind an orphan meets the same files. With what a preview
  announces of a run, this says what a preview tells of a run whose orphans it does not
  ask for (`foretells_run`).
-/

namespace AgentRelay.Sync

open Work

/-- A report that tells what another one tells, but for the deletions. -/
structure Report.Spares (r' r : Report) : Prop where
  failures : r'.failures = r.failures
  operations : r'.operations = r.operations.filter fun op => op.change ≠ .deleted

theorem Report.Spares.append {r r' s s' : Report} (h : r'.Spares r) (h' : s'.Spares s) :
    (r'.append s').Spares (r.append s) := by
  refine ⟨?_, ?_⟩
  · rw [Report.append, Report.append, h.failures, h'.failures]
  · rw [Report.append, Report.append, List.filter_append, ← h.operations, ← h'.operations]

/-- What is told without the deletions, by the changes and their paths. -/
theorem Report.Spares.keys {r r' : Report} (h : r'.Spares r) :
    r'.operations.map Operation.key =
      (r.operations.map Operation.key).filter fun k => k.1 ≠ .deleted := by
  rw [h.operations, List.filter_map]
  rfl

theorem filter_taken {ops : List Operation} (h : ∀ op ∈ ops, Takes op) :
    (ops.filter fun op => op.change ≠ .deleted) = ops :=
  List.filter_eq_self.mpr fun op hop => decide_eq_true (h op hop)

/-- When `y` returns a report, then `x` returns in the same world with one that spares the
deletions. -/
def Spares (x y : Work Report) : Prop :=
  ∀ w r v, y.run w = (.ok r, v) → ∃ r', x.run w = (.ok r', v) ∧ r'.Spares r

namespace Spares

theorem pure {r r' : Report} (h : r'.Spares r) :
    Spares (Pure.pure r' : Work Report) (Pure.pure r) := by
  intro w s v hs
  obtain ⟨hr, rfl⟩ := Prod.mk.inj hs
  obtain rfl := Except.ok.inj hr
  exact ⟨r', rfl, h⟩

/-- Both begin with the same work. -/
theorem bind {α : Type} (x : Work α) {f g : α → Work Report} (h : ∀ a, Spares (f a) (g a)) :
    Spares (x >>= f) (x >>= g) := by
  intro w r v hr
  obtain ⟨a, u, hx, hg⟩ := ok_of_run_bind hr
  obtain ⟨r', hf, hspares⟩ := h a u r v hg
  refine ⟨r', ?_, hspares⟩
  rw [run_bind, hx, ← hf]

/-- One report behind another. -/
theorem append {x₁ y₁ x₂ y₂ : Work Report} (h₁ : Spares x₁ y₁) (h₂ : Spares x₂ y₂) :
    Spares (do let r ← x₁; let s ← x₂; return r.append s)
      (do let r ← y₁; let s ← y₂; return r.append s) := by
  intro w r v hr
  obtain ⟨r₁, u₁, hy₁, hr⟩ := ok_of_run_bind hr
  obtain ⟨r₂, u₂, hy₂, hr⟩ := ok_of_run_bind hr
  obtain ⟨hresult, rfl⟩ := Prod.mk.inj hr
  obtain rfl := Except.ok.inj hresult
  obtain ⟨s₁, hx₁, hspares₁⟩ := h₁ w r₁ u₁ hy₁
  obtain ⟨s₂, hx₂, hspares₂⟩ := h₂ u₁ r₂ u₂ hy₂
  refine ⟨s₁.append s₂, ?_, hspares₁.append hspares₂⟩
  rw [run_bind, hx₁]
  dsimp only
  rw [run_bind, hx₂]
  rfl

end Spares

/-! ## Orphans in a preview -/

section
variable {o : Order} (hp : o.preview = true)
include hp

/-- In a preview every orphan is told, and none is removed. -/
theorem run_orphans_preview (remove : Path → Work Unit) (orphans : List Path) (w : World) :
    (reports (reportOrphan o remove) orphans).run w =
      (.ok ⟨orphans.map fun p => ⟨.deleted, p, true⟩, [], 0⟩, w) := by
  induction orphans with
  | nil => rfl
  | cons p orphans ih =>
    have hfirst : (reportOrphan o remove p).run w =
        (.ok (Report.ofOrphan (.ok ⟨.deleted, p, true⟩)), w) := by
      rw [reportOrphan, delete, hp]
      rfl
    rw [reports, run_bind, hfirst]
    dsimp only
    rw [run_bind, ih]
    rfl

/-- Items that delete nothing are what is left of them with their orphans. -/
theorem Spares.sweeping {items : Work Report} {orphans : World → List Path}
    {remove : Path → Work Unit}
    (hitems : Gives (fun r => ∀ op ∈ r.operations, Takes op) items) :
    Spares items (sweeping o items orphans remove) := by
  intro w r v hr
  unfold Sync.sweeping at hr
  split at hr
  · obtain ⟨first, u, hfirst, hr⟩ := ok_of_run_bind hr
    rw [run_bind, run_get_bind, run_orphans_preview hp] at hr
    obtain ⟨hresult, rfl⟩ := Prod.mk.inj hr
    obtain rfl := Except.ok.inj hresult
    have htakes := hitems w first (congrArg Prod.fst hfirst)
    refine ⟨first, hfirst, ?_, ?_⟩
    · rw [Report.append, List.append_nil]
    · rw [Report.append, List.filter_append, filter_taken htakes]
      simp
  · have htakes := hitems w r (congrArg Prod.fst hr)
    exact ⟨r, hr, rfl, (filter_taken htakes).symm⟩

end

/-! ## What is told of items -/

theorem gives_reports {α : Type} {report : α → Work Report} {xs : List α}
    (h : ∀ x ∈ xs, Gives (fun r => ∀ op ∈ r.operations, Takes op) (report x)) :
    Gives (fun r => ∀ op ∈ r.operations, Takes op) (reports report xs) := by
  induction xs with
  | nil => exact Gives.pure nofun
  | cons x xs ih =>
    intro w r hr
    rw [reports] at hr
    obtain ⟨first, u, hfirst, hr⟩ := ok_of_run_bind (Prod.ext hr rfl)
    obtain ⟨rest, u', hrest, hr⟩ := ok_of_run_bind hr
    obtain rfl := Except.ok.inj (Prod.mk.inj hr).1
    intro op hop
    rcases List.mem_append.mp hop with hop | hop
    · exact h x (by simp) w first (congrArg Prod.fst hfirst) op hop
    · refine ih (fun y hy => h y (List.mem_cons_of_mem _ hy)) u rest ?_ op hop
      exact congrArg Prod.fst hrest

/-- The report on an item deletes nothing. -/
theorem gives_item {x : Work Operation} (h : Gives Takes x) :
    Gives (fun r : Report => ∀ op ∈ r.operations, Takes op)
      (do return Report.ofItem (← collected x)) := by
  intro w r hr
  rw [run_map] at hr
  cases hx : ((collected x).run w).1 with
  | error e =>
    rw [hx] at hr
    exact nomatch hr
  | ok found =>
    rw [hx] at hr
    obtain rfl := Except.ok.inj hr
    cases found with
    | error e => exact nofun
    | ok op =>
      intro op' hop'
      obtain rfl : op' = op := List.mem_singleton.mp hop'
      exact h w op' (ok_of_run_collected hx)

/-! ## Runs -/

/-- The order, but for the orphans. -/
def Order.sparing (o : Order) : Order := { o with deleteOrphans := false }

section
variable {s d : Agent} {o : Order}

theorem Order.sparing_sweeps (o : Order) : o.sparing.sweeps = false := rfl

theorem spares_commandsPart (hp : o.preview = true) :
    Spares (commandsPart s d o.sparing) (commandsPart s d o) := by
  unfold commandsPart
  by_cases hcontents : o.contents.hasCommands = true
  · rw [if_pos (show o.sparing.contents.hasCommands = true from hcontents), if_pos hcontents,
      runCommands_eq, runCommands_eq]
    refine Spares.bind _ fun w => Spares.bind _ fun source => Spares.bind _ fun target => ?_
    refine Spares.bind _ fun _ => ?_
    rw [sweeping_spared o.sparing_sweeps]
    refine Spares.sweeping hp (gives_reports fun file _ => ?_)
    refine Gives.bind fun t => gives_item ?_
    exact gives_takeCommand s d o file t (fun _ h => by cases h) (takes_writing t)
  · rw [if_neg (show ¬ o.sparing.contents.hasCommands = true from hcontents), if_neg hcontents]
    exact Spares.pure ⟨rfl, rfl⟩

theorem spares_skillsPart (hp : o.preview = true) :
    Spares (skillsPart s d o.sparing) (skillsPart s d o) := by
  unfold skillsPart
  by_cases hcontents : o.contents.hasSkills = true
  · rw [if_pos (show o.sparing.contents.hasSkills = true from hcontents), if_pos hcontents,
      runSkills_eq, runSkills_eq]
    refine Spares.bind _ fun w => Spares.bind _ fun target => Spares.bind _ fun source => ?_
    refine Spares.bind _ fun _ => ?_
    rw [sweeping_spared o.sparing_sweeps]
    exact Spares.sweeping hp (gives_reports fun folder _ => gives_item (gives_takeSkill s d o _ _))
  · rw [if_neg (show ¬ o.sparing.contents.hasSkills = true from hcontents), if_neg hcontents]
    exact Spares.pure ⟨rfl, rfl⟩

/-- A preview that deletes nothing tells what the preview with the deletions tells, but for
these. -/
theorem spares_runAll (hp : o.preview = true) :
    Spares (runAll s d o.sparing) (runAll s d o) := by
  rw [runAll_eq, runAll_eq]
  exact Spares.append (spares_commandsPart hp) (spares_skillsPart hp)

/-- The preview announces the run, on the same files and whatever was printed before. -/
theorem foretells_run {w : World} (h : Regular s d o w) :
    Predicts w w (run s d (o.as true)) (run s d (o.as false)) := by
  intro v v' hv hv' r hr hfine
  rw [run_writing, run_bind] at hr
  rw [run_preview]
  obtain ⟨hsound, hmoved⟩ := takeLock_moved h.sound h.here h.clean hv'
  cases hlock : (takeLock o.setup).run v' with
  | mk b u =>
    rw [hlock] at hr hsound hmoved
    cases b with
    | error e => exact nomatch hr
    | ok _ =>
      obtain ⟨p, q, hp, hq⟩ := bases_of_runAll hr
      have hstart := (stands_of_here h.sound h.here q.root).start
      refine predicts_runAll h ((Setup.base_eq hmoved.home hmoved.here).symm.trans hp)
        ((Setup.base_eq hmoved.home hmoved.here).symm.trans hq)
        ⟨hsound, hmoved.here, hmoved.folder not_false hstart⟩ hmoved v u hv
        (World.SameFiles.refl u) r hr hfine

/-- The order as a preview that is asked for the deletions or not. -/
def Order.asked (o : Order) (deletions : Bool) : Order :=
  { o with deleteOrphans := deletions, preview := true }

theorem Order.asked_self {o : Order} {deletions : Bool} (hd : o.deleteOrphans = deletions)
    (hp : o.preview = true) : o.asked deletions = o := by
  subst hd
  rw [Order.asked, ← hp]

/-- A report without failures that tells the changes of another one, with the deletions or
without them. -/
def TellsKeys (deletions : Bool) (r' r : Report) : Prop :=
  r'.failures = [] ∧ r'.operations.map Operation.key =
    if deletions then r.operations.map Operation.key
    else (r.operations.map Operation.key).filter fun k => k.1 ≠ .deleted

/-- Nothing is missing exactly where the deletions are asked for, or there are none. -/
theorem TellsKeys.same_iff {deletions : Bool} {r r' : Report} (h : TellsKeys deletions r' r) :
    r'.operations.map Operation.key = r.operations.map Operation.key ↔
      deletions = true ∨ r.count .deleted = 0 := by
  have hnone : r.count .deleted = 0 ↔ ∀ op ∈ r.operations, Takes op := by
    rw [Report.count, List.length_eq_zero_iff, List.filter_eq_nil_iff]
    simp [Takes]
  rw [h.2, hnone]
  cases deletions with
  | true => simp
  | false =>
    rw [if_neg Bool.false_ne_true, List.filter_eq_self]
    simp [Takes, Operation.key]

section
variable {deletions : Bool} (hasked : deletions = true → o.deleteOrphans = true)
include hasked

/-- A preview that deletes orphans, and the same one asked for the deletions or not. -/
theorem asked_tells (hp : o.preview = true) {w v : World} {r : Report}
    (hr : (run s d o).run w = (.ok r, v)) (hfine : r.failures = []) :
    ∃ r', ((run s d (o.asked deletions)).run w).1 = .ok r' ∧ TellsKeys deletions r' r := by
  have hrun : run s d o = runAll s d o := by
    rw [run_eq, locking, if_pos hp]
    rfl
  cases deletions with
  | true =>
    rw [Order.asked_self (hasked rfl) hp]
    exact ⟨r, congrArg Prod.fst hr, hfine, rfl⟩
  | false =>
    have hsame : o.asked false = o.sparing := by
      rw [Order.asked, Order.sparing, ← hp]
    rw [hrun] at hr
    obtain ⟨r', hr', hspares⟩ := spares_runAll hp w r v hr
    refine ⟨r', ?_, hspares.failures.trans hfine, hspares.keys⟩
    rw [hsame, run_eq, locking, if_pos (show o.sparing.preview = true from hp)]
    exact congrArg Prod.fst hr'

/-- When a run ends without failures, then the preview of the same order, asked for the
deletions or not, tells the same changes: all of them, or all but the deletions. -/
theorem preview_tells {w : World} (h : Regular s d o w) (hp : o.preview = false) :
    Foretells w w (fun r => r.failures = []) (TellsKeys deletions)
      (run s d (o.asked deletions)) (run s d o) := by
  have hsame : o.as false = o := by
    rw [Order.as, ← hp]
  intro v v' hv hv' r hr hfine
  obtain ⟨r₁, hr₁, hann⟩ := foretells_run h v v' hv hv' r (by rwa [hsame]) hfine
  obtain ⟨r', hr', hfine', hkeys⟩ :=
    asked_tells (o := o.as true) hasked rfl (Prod.ext hr₁ rfl) hann.failures
  refine ⟨r', hr', hfine', ?_⟩
  rw [hkeys, hann.operations]

end

end

end AgentRelay.Sync
