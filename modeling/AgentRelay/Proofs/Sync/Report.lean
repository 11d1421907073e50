import AgentRelay.Proofs.Location
import AgentRelay.Proofs.Sync.Item

/-
  Runs over many items.

  Every item keeps to its own target, so that what an item needs is still there
  when its turn comes, as long as no other item writes it. Then the reports of a
  preview announce the reports of the run (`predicts_reports`).
-/

namespace AgentRelay.Sync

open Files (Place Tree Entry ValidName)
open Work

/-- What an operation changes. -/
def Operation.key (op : Operation) : Change × Path := (op.change, op.path)

/-- A report without failures that announces what another one tells. -/
structure Report.Announces (r r' : Report) : Prop where
  failures : r.failures = []
  operations : r.operations.map Operation.key = r'.operations.map Operation.key
  processed : r.processed = r'.processed

namespace Report.Announces

variable {r r' s s' : Report}

theorem append (h : r.Announces r') (h' : s.Announces s') :
    (r.append s).Announces (r'.append s') := by
  refine ⟨?_, ?_, ?_⟩
  · rw [Report.append, h.failures, h'.failures]
    rfl
  · rw [Report.append, Report.append, List.map_append, List.map_append, h.operations,
      h'.operations]
  · rw [Report.append, Report.append, h.processed, h'.processed]

/-- The same changes are counted. -/
theorem count_eq (h : r.Announces r') (c : Change) : r.count c = r'.count c := by
  have hcount : ∀ q : Report, q.count c =
      ((q.operations.map Operation.key).filter fun k => k.1 = c).length := by
    intro q
    rw [Report.count, List.filter_map, List.length_map]
    rfl
  rw [hcount, hcount, h.operations]

end Report.Announces

theorem Report.failures_append {r s : Report} (h : (r.append s).failures = []) :
    r.failures = [] ∧ s.failures = [] := List.append_eq_nil_iff.mp h

/-- When `y` ends on the files of `u` and reports no failure, then `x` ends on
those of `w` with a report that announces it. -/
abbrev Predicts (w u : World) (x y : Work Report) : Prop :=
  Foretells w u (fun r => r.failures = []) Report.Announces x y

namespace Predicts

variable {w u : World}

theorem pure {r r' : Report} (h : r.failures = [] → r'.Announces r) :
    Predicts w u (pure r') (pure r) := by
  refine Foretells.pure fun _ s hs hfine => ?_
  obtain rfl := Except.ok.inj hs
  exact h hfine

/-- One report behind another: the second piece of work meets what the first has
left. -/
theorem append {x₁ y₁ x₂ y₂ : Work Report} (hs : Still x₁) (h₁ : Predicts w u x₁ y₁)
    (h₂ : ∀ v' r u', u.SameFiles v' → y₁.run v' = (.ok r, u') → Predicts w u' x₂ y₂) :
    Predicts w u (do let r ← x₁; let s ← x₂; return r.append s)
      (do let r ← y₁; let s ← y₂; return r.append s) := by
  intro v v' hv hv' r hr hfine
  cases hy : y₁.run v' with
  | mk b u₁ =>
    rw [run_bind, hy] at hr
    cases b with
    | error e => exact nomatch hr
    | ok r₁ =>
      cases hy₂ : y₂.run u₁ with
      | mk b₂ u₂ =>
        simp only [run_bind, hy₂] at hr
        cases b₂ with
        | error e => exact nomatch hr
        | ok r₂ =>
          obtain rfl := Except.ok.inj hr
          -- No failure in the whole means none in either part, so each part is announced.
          obtain ⟨hfine₁, hfine₂⟩ := Report.failures_append hfine
          obtain ⟨s₁, hx₁, hann₁⟩ := h₁ v v' hv hv' r₁ (by rw [hy]) hfine₁
          have hstill := hs v
          cases hx : x₁.run v with
          | mk c v₁ =>
            rw [hx] at hx₁ hstill
            obtain rfl : c = .ok s₁ := hx₁
            obtain ⟨s₂, hx₂, hann₂⟩ := h₂ v' r₁ u₁ hv' hy v₁ u₁ (hv.trans hstill)
              (World.SameFiles.refl u₁) r₂ (by rw [hy₂]) hfine₂
            refine ⟨s₁.append s₂, ?_, hann₁.append hann₂⟩
            rw [run_bind, hx]
            cases hxr : x₂.run v₁ with
            | mk c₂ v₂ =>
              rw [hxr] at hx₂
              obtain rfl : c₂ = .ok s₂ := hx₂
              simp only [run_bind, hxr]
              rfl

/-- The same, where the first piece of work keeps to some places. -/
theorem append_confined {here : Path} {root : Nat} {R : Place → Prop} {x₁ y₁ x₂ y₂ : Work Report}
    (hs : Still x₁) (h₁ : Predicts w u x₁ y₁) (hu : u.Stands here root)
    (hR : ConfinedAt u here root R y₁)
    (h₂ : ∀ u', u'.Stands here root → u.Moved R u' → Predicts w u' x₂ y₂) :
    Predicts w u (do let r ← x₁; let s ← x₂; return r.append s)
      (do let r ← y₁; let s ← y₂; return r.append s) := by
  refine append hs h₁ fun v' r u' hv' hy => ?_
  obtain ⟨hstands, hmoved⟩ := hR v' hv' (hv'.stands hu)
  rw [hy] at hstands hmoved
  exact h₂ u' hstands (hv'.moved.trans hmoved)

end Predicts

/-! ## Items one after the other -/

section
variable {α : Type} {f g : α → Work Report} {xs : List α}

theorem still_reports (h : ∀ x ∈ xs, Still (f x)) : Still (reports f xs) := by
  induction xs with
  | nil => exact Still.pure _
  | cons x xs ih =>
    rw [reports]
    refine Still.bind (h x (by simp)) fun first => ?_
    exact Still.bind (ih fun y hy => h y (List.mem_cons_of_mem _ hy)) fun _ => Still.pure _

variable {here : Path} {root : Nat} {cover needs : α → Place → Prop}

/-- A run over items keeps to the places of its items. -/
theorem reports_confined (h : ∀ x ∈ xs, Confined here root (cover x) (g x)) :
    Confined here root (fun q => ∃ x ∈ xs, cover x q) (reports g xs) := by
  induction xs with
  | nil => exact Confined.of_still (Still.pure _)
  | cons x xs ih =>
    rw [reports]
    refine Confined.bind ((h x (by simp)).mono fun q hq => ⟨x, by simp, hq⟩) fun first => ?_
    have hrest := ih fun y hy => h y (List.mem_cons_of_mem _ hy)
    refine Confined.bind (hrest.mono fun q hq => ?_) fun _ => Confined.of_still (Still.pure _)
    obtain ⟨y, hy, hcover⟩ := hq
    exact ⟨y, List.mem_cons_of_mem _ hy, hcover⟩

/-- The invariant is that nothing has moved that an item still to come needs. -/
theorem predicts_reports {w u : World} (hf : ∀ x ∈ xs, Still (f x))
    (hg : ∀ x ∈ xs, Confined here root (cover x) (g x))
    (hitem : ∀ x ∈ xs, ∀ R u, u.Stands here root → w.Moved R u → (∀ q, needs x q → ¬ R q) →
      Predicts w u (f x) (g x))
    (hapart : xs.Pairwise fun x y => ∀ q, needs y q → ¬ cover x q) {R : Place → Prop}
    (hu : u.Stands here root) (hmoved : w.Moved R u) (hR : ∀ x ∈ xs, ∀ q, needs x q → ¬ R q) :
    Predicts w u (reports f xs) (reports g xs) := by
  induction xs generalizing u R with
  | nil => exact Predicts.pure fun _ => ⟨rfl, rfl, rfl⟩
  | cons x xs ih =>
    rw [List.pairwise_cons] at hapart
    rw [reports, reports]
    refine Predicts.append_confined (hf x (by simp))
      (hitem x (by simp) R u hu hmoved (hR x (by simp))) hu
      (ConfinedAt.of_confined (hg x (by simp))) fun u' hu' hmoved' => ?_
    -- The item that is done adds its places to those that may have moved.
    have hall : w.Moved (fun q => R q ∨ cover x q) u' :=
      (hmoved.mono fun _ => Or.inl).trans (hmoved'.mono fun _ => Or.inr)
    refine ih (fun y hy => hf y (List.mem_cons_of_mem _ hy))
      (fun y hy => hg y (List.mem_cons_of_mem _ hy))
      (fun y hy => hitem y (List.mem_cons_of_mem _ hy)) hapart.2 hu' hall fun y hy q hq hor => ?_
    rcases hor with hr | hc
    · exact hR y (List.mem_cons_of_mem _ hy) q hq hr
    · exact hapart.1 y hy q hq hc

end

/-! ## Collected failures -/

theorem still_collected {α : Type} {x : Work α} (h : Still x) : Still (collected x) := by
  refine Still.bind (Still.attempt h) fun found => ?_
  split
  · exact Still.pure _
  · split
    · exact Still.pure _
    · exact Still.throw _

theorem collected_confined {α : Type} {here : Path} {root : Nat} {R : Place → Prop} {x : Work α}
    (h : Confined here root R x) : Confined here root R (collected x) := by
  refine Confined.bind (Confined.attempt h) fun found => Confined.of_still ?_
  split
  · exact Still.pure _
  · split
    · exact Still.pure _
    · exact Still.throw _

theorem run_collected_ok {α : Type} {x : Work α} {w : World} {a : α} (h : (x.run w).1 = .ok a) :
    (collected x).run w = (.ok (.ok a), (x.run w).2) := by
  rw [collected, run_bind, run_attempt, h]
  rfl

theorem ok_of_run_collected {α : Type} {x : Work α} {w : World} {r : Except Failure α}
    (h : ((collected x).run w).1 = .ok r) : (x.run w).1 = r := by
  rw [collected, run_bind, run_attempt] at h
  cases hx : (x.run w).1 with
  | ok a =>
    rw [hx] at h
    exact Except.ok.inj h
  | error e =>
    rw [hx] at h
    dsimp only at h
    split at h
    · exact Except.ok.inj h
    · exact nomatch h

theorem run_map {α β : Type} (x : Work α) (f : α → β) (w : World) :
    ((do return f (← x) : Work β).run w).1 = (x.run w).1.map f := by
  rw [run_bind]
  cases x.run w with
  | mk r v => cases r <;> rfl

/-- An item that is announced is reported as announced. -/
theorem predicts_item {w u : World} {x y : Work Operation}
    (h : Foretells w u (fun _ => True) Announces x y) :
    Predicts w u (do return Report.ofItem (← collected x))
      (do return Report.ofItem (← collected y)) := by
  intro v v' hv hv' r hr hfine
  rw [run_map] at hr
  cases hy : ((collected y).run v').1 with
  | error e =>
    rw [hy] at hr
    exact nomatch hr
  | ok found =>
    rw [hy] at hr
    obtain rfl := Except.ok.inj hr
    cases found with
    | error e => exact nomatch hfine
    | ok op' =>
      obtain ⟨op, hop, hchange, hpath⟩ := h v v' hv hv' op' (ok_of_run_collected hy) trivial
      refine ⟨Report.ofItem (.ok op), ?_, rfl, ?_, rfl⟩
      · rw [run_map, run_collected_ok hop]
        rfl
      · simp [Report.ofItem, Operation.key, hchange, hpath]

/-! ## Orphans -/

theorem still_reportOrphan (o : Order) (remove : Path → Work Unit) (p : Path) :
    Still (reportOrphan (o.as true) remove p) := by
  refine Still.bind (still_collected ?_) fun _ => Still.pure _
  exact Still.pure _

theorem reportOrphan_confined {here : Path} {root : Nat} {R : Place → Prop} (o : Order)
    {remove : Path → Work Unit} {p : Path} (h : Confined here root R (remove p)) :
    Confined here root R (reportOrphan o remove p) := by
  refine Confined.bind (collected_confined ?_) fun _ => Confined.of_still (Still.pure _)
  unfold delete
  split
  · exact Confined.bind h fun _ => Confined.of_still (Still.pure _)
  · exact Confined.of_still (Still.pure _)

theorem predicts_reportOrphan (w u : World) (o : Order) (remove : Path → Work Unit) (p : Path) :
    Predicts w u (reportOrphan (o.as true) remove p) (reportOrphan (o.as false) remove p) := by
  intro v v' _ _ r hr hfine
  rw [reportOrphan, run_map] at hr
  cases hy : ((collected (delete (o.as false) p remove)).run v').1 with
  | error e =>
    rw [hy] at hr
    exact nomatch hr
  | ok found =>
    rw [hy] at hr
    obtain rfl := Except.ok.inj hr
    cases found with
    | error e => exact nomatch hfine
    | ok op' =>
      obtain rfl : op' = ⟨.deleted, p, false⟩ := result_of_writing (ok_of_run_collected hy)
      exact ⟨Report.ofOrphan (.ok ⟨.deleted, p, true⟩), rfl, rfl, rfl, rfl⟩

theorem predicts_swept (w u : World) (o : Order) (remove : Path → Work Unit) (ps : List Path) :
    Predicts w u (reports (reportOrphan (o.as true) remove) ps)
      (reports (reportOrphan (o.as false) remove) ps) := by
  induction ps generalizing u with
  | nil => exact Predicts.pure fun _ => ⟨rfl, rfl, rfl⟩
  | cons p ps ih =>
    rw [reports, reports]
    exact Predicts.append (still_reportOrphan o remove p) (predicts_reportOrphan w u o remove p)
      fun _ _ u' _ _ => ih u'

end AgentRelay.Sync
