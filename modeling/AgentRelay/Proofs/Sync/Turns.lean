import AgentRelay.Proofs.Document.Again
import AgentRelay.Proofs.Sync.Outcome

/-
  What holds when items were taken in turn.

  What an item needs is kept by the items before it, and what it leaves by those behind
  it: then it holds of all items in the end (`inTurn_leaves`). A run that returns without
  failures has taken every item so (`of_run_sweeping`), and where every item can be taken
  and nothing is left to sweep, the run returns (`run_sweeping_of_successes`).
-/

namespace AgentRelay.Sync

open Work

section
variable {α : Type} {item : α → Work Operation} {xs : List α} {w : World}

theorem inTurn_keeps {I : World → Prop} (h : ∀ x ∈ xs, Keeps I (item x)) (hw : I w) :
    I (inTurn item xs w).2 := by
  induction xs generalizing w with
  | nil => exact hw
  | cons x xs ih => exact ih (fun y hy => h y (List.mem_cons_of_mem _ hy)) (h x (by simp) w hw)

/-- What every item leaves when its turn has come, for what is kept until then and from
then on. -/
theorem inTurn_leaves {Before After : α → World → Prop} (hn : xs.Nodup)
    (hbefore : ∀ x ∈ xs, ∀ y ∈ xs, y ≠ x → Keeps (Before x) (item y))
    (hturn : ∀ x ∈ xs, Leaves (Before x) (item x) (After x))
    (hafter : ∀ x ∈ xs, ∀ y ∈ xs, y ≠ x → Keeps (After x) (item y))
    (hw : ∀ x ∈ xs, Before x w) (hfine : errors (inTurn item xs w).1 = []) :
    ∀ x ∈ xs, After x (inTurn item xs w).2 := by
  intro x hx
  obtain ⟨before, after, rfl⟩ := List.append_of_mem hx
  obtain ⟨-, hfirst, hdisjoint⟩ := List.nodup_append.mp hn
  rw [inTurn_append] at hfine ⊢
  have hready : Before x (inTurn item before w).2 :=
    inTurn_keeps (fun y hy => hbefore x hx y (List.mem_append_left _ hy)
      (hdisjoint y hy x (by simp))) (hw x hx)
  have hdone : After x ((item x).run (inTurn item before w).2).2 := by
    cases hrun : (item x).run (inTurn item before w).2 with
    | mk r v =>
      cases r with
      | ok op => exact hturn x hx _ op v hready hrun
      | error e =>
        have hmem : e ∈ errors ((inTurn item before w).1 ++
            (inTurn item (x :: after) (inTurn item before w).2).1) := by
          refine mem_errors.mpr (List.mem_append_right _ ?_)
          simp [inTurn, hrun]
        rw [hfine] at hmem
        exact absurd hmem List.not_mem_nil
  have hbehind : ∀ y ∈ after, Keeps (After x) (item y) := fun y hy =>
    hafter x hx y (List.mem_append_right _ (List.mem_cons_of_mem _ hy))
      fun heq => (List.nodup_cons.mp hfirst).1 (heq ▸ hy)
  have hlast := inTurn_keeps hbehind hdone
  exact hlast

/-- Where every item ends well when its turn has come, and keeps what the others need, all
end well. -/
theorem inTurn_succeeds {I : World → Prop} {Before : α → World → Prop} {op : α → Operation}
    (hn : xs.Nodup)
    (hturn : ∀ x ∈ xs, ∀ y, I y → Before x y → ∃ z, (item x).run y = (.ok (op x), z) ∧ I z)
    (hbefore : ∀ x ∈ xs, ∀ y ∈ xs, y ≠ x → Keeps (Before x) (item y))
    (hI : I w) (hw : ∀ x ∈ xs, Before x w) :
    (inTurn item xs w).1 = xs.map (fun x => .ok (op x)) ∧ I (inTurn item xs w).2 := by
  induction xs generalizing w with
  | nil => exact ⟨rfl, hI⟩
  | cons x xs ih =>
    obtain ⟨hx, hn⟩ := List.nodup_cons.mp hn
    obtain ⟨z, hrun, hz⟩ := hturn x (by simp) w hI (hw x (by simp))
    have hrest := ih hn (fun y hy => hturn y (List.mem_cons_of_mem _ hy))
      (fun y hy y' hy' => hbefore y (List.mem_cons_of_mem _ hy) y' (List.mem_cons_of_mem _ hy'))
      hz fun y hy => by
        have hkept := hbefore y (List.mem_cons_of_mem _ hy) x (by simp)
          (fun heq => hx (heq ▸ hy)) w (hw y (List.mem_cons_of_mem _ hy))
        rwa [hrun] at hkept
    rw [inTurn, hrun]
    exact ⟨congrArg (.ok (op x) :: ·) hrest.1, hrest.2⟩

theorem errors_map_ok (op : α → Operation) :
    errors (xs.map fun x => .ok (op x)) = [] := by
  induction xs with
  | nil => rfl
  | cons x xs ih => exact ih

theorem successes_map_ok (op : α → Operation) :
    successes (xs.map fun x => .ok (op x)) = xs.map op := by
  induction xs with
  | nil => rfl
  | cons x xs ih => exact congrArg (op x :: ·) ih

variable (o : Order) {orphans : World → List Path} {remove : Path → Work Unit}
  (h : ∀ p, Ends (fun e => ∃ x, e = .system x) (remove p))
include h

/-- The orphans in a world, deleted one after the other. -/
abbrev sweepIn (o : Order) (orphans : World → List Path) (remove : Path → Work Unit) (w : World) :
    List (Except Failure Operation) × World :=
  inTurn (fun p => delete o p remove) (orphans w) w

/-- When a run over some items returns without failures, none of them has failed, and no
deletion behind them has. -/
theorem of_run_sweeping {r : Report} {v : World}
    (hrun : (sweeping o (reportItems Report.ofItem item xs) orphans remove).run w = (.ok r, v))
    (hfine : r.failures = []) :
    errors (inTurn item xs w).1 = [] ∧
      (o.sweeps = false → v = (inTurn item xs w).2) ∧
      (o.sweeps = true → errors (sweepIn o orphans remove (inTurn item xs w).2).1 = [] ∧
        v = (sweepIn o orphans remove (inTurn item xs w).2).2) := by
  have hcollected : ∀ e ∈ errors (inTurn item xs w).1, e.isCollected = true :=
    collected_of_ok (congrArg Prod.fst hrun) fun _ =>
      run_sweeping_of_not_collected o item xs orphans remove w
  cases hsweeps : o.sweeps with
  | true =>
    rw [run_sweeping_of_sweeps o item xs orphans h w hsweeps hcollected] at hrun
    obtain ⟨hr, hv⟩ := Prod.mk.inj hrun
    obtain rfl := Except.ok.inj hr
    obtain ⟨htaken, hswept⟩ := Report.failures_append hfine
    rw [failures_total ofItem_tells] at htaken
    rw [failures_total ofOrphan_tells] at hswept
    exact ⟨htaken, fun hfalse => Bool.noConfusion hfalse, fun _ => ⟨hswept, hv.symm⟩⟩
  | false =>
    rw [sweeping_spared hsweeps, run_reports_of_collected Report.ofItem hcollected] at hrun
    obtain ⟨hr, hv⟩ := Prod.mk.inj hrun
    obtain rfl := Except.ok.inj hr
    rw [failures_total ofItem_tells] at hfine
    exact ⟨hfine, fun _ => hv.symm, fun htrue => Bool.noConfusion htrue⟩

/-- Where every item ends well and no orphan is left, the run returns without failures and
tells the items. -/
theorem run_sweeping_of_successes {op : α → Operation}
    (hitems : (inTurn item xs w).1 = xs.map fun x => .ok (op x))
    (hnone : o.sweeps = true → orphans (inTurn item xs w).2 = []) :
    ∃ r, (sweeping o (reportItems Report.ofItem item xs) orphans remove).run w =
        (.ok r, (inTurn item xs w).2) ∧ r.failures = [] ∧ r.operations = xs.map op := by
  have herrors : errors (inTurn item xs w).1 = [] := by rw [hitems, errors_map_ok]
  have hcollected : ∀ e ∈ errors (inTurn item xs w).1, e.isCollected = true := by
    intro e he
    rw [herrors] at he
    exact absurd he List.not_mem_nil
  have hfailures : (Report.total Report.ofItem (inTurn item xs w).1).failures = [] := by
    rw [failures_total ofItem_tells, herrors]
  have hoperations : (Report.total Report.ofItem (inTurn item xs w).1).operations =
      xs.map op := by
    rw [operations_total ofItem_tells, hitems, successes_map_ok]
  cases hsweeps : o.sweeps with
  | true =>
    have hrun := run_sweeping_of_sweeps o item xs orphans h w hsweeps hcollected
    dsimp only at hrun
    rw [hnone hsweeps] at hrun
    exact ⟨_, hrun, by rw [Report.append]; simpa [inTurn, Report.total, Report.empty] using hfailures,
      by rw [Report.append]; simpa [inTurn, Report.total, Report.empty] using hoperations⟩
  | false =>
    refine ⟨_, ?_, hfailures, hoperations⟩
    rw [sweeping_spared hsweeps, run_reports_of_collected Report.ofItem hcollected]

end

end AgentRelay.Sync
