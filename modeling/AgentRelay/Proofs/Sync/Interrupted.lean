import AgentRelay.Proofs.Document.Again
import AgentRelay.Proofs.Document.Delivery
import AgentRelay.Proofs.Sync.Targets

/-
  Items that fail.

  A command whose failure is collected has changed no file (`goes_takeCommand`). A skill
  that fails may have broken off while it was written: then its own file and the support
  files in front of the failure have been written, and nothing takes them back
  (`goes_takeSkill`). Items behind and in front of the failing one write elsewhere, so
  this is what the whole run leaves at the target of a failed item
  (`failed_items_leave`).
-/

namespace AgentRelay

open Files (Place Tree Entry ValidName)
open Work
open World (Patched)

namespace Skill

variable {here : Path} {root : Nat} {source : Option Path} {target : Path} {w : World}
  {text : String} {fs : List SupportFile}

/-- A support file is written at its way below the place of the folder. -/
theorem place_support {f : SupportFile} (hf : LiesBelow f) :
    Path.place here (target.append f.path) = Path.place here target ++ way f := by
  rw [hf.append, Path.place_behind hf.valid]

theorem apart_of_fits (h : Fits fs) : Apart here target fs := by
  have hplaces : (target.append ownFile :: fs.map fun f => target.append f.path).map
      (Path.place here) = ([ownFile] :: fs.map way).map (Path.place here target ++ ·) := by
    rw [List.map_cons, List.map_cons, Path.place_append (by decide), List.map_map, List.map_map]
    refine congrArg _ (List.map_congr_left fun f hf => ?_)
    exact place_support (h.below f hf)
  rw [Apart, hplaces, List.nodup_iff_pairwise_ne, List.pairwise_map]
  have hways : ([ownFile] :: fs.map way).Nodup :=
    List.nodup_cons.mpr ⟨fun hown => h.fit.own _ hown rfl, h.fit.distinct⟩
  exact hways.imp fun hne heq => hne (List.append_cancel_left heq)

theorem below_of_parcel (hf : ∀ f ∈ fs, LiesBelow f) {e : FileWrite}
    (he : e ∈ parcel source target text w fs) :
    Path.place here target <+: Path.place here e.1 := by
  rcases List.mem_cons.mp he with rfl | he
  · rw [Path.place_append (by decide)]
    exact List.prefix_append _ _
  · obtain ⟨f, hfmem, hpath⟩ := List.mem_map.mp ((sent_sublist fs).subset (List.mem_map_of_mem he))
    rw [← hpath, place_support (hf f hfmem)]
    exact List.prefix_append _ _

end Skill

namespace Sync

variable {here : Path} {root : Nat} {s d : Agent} {o : Order} {w : World}

/-! ## One item -/

/-- What leaves the files alone, after files have been written. -/
theorem goes_still {α : Type} {x : Work α} (h : Still x) {ws : List FileWrite} {u : World}
    (hu : Patched here root w ws u) : Goes u x
      (fun a v => x.run u = (.ok a, v) ∧ u.SameFiles v ∧ Patched here root w ws v)
      fun _ => Patched here root w ws := by
  have hpatched {v : World} (hv : u.SameFiles v) : Patched here root w ws v :=
    hu.trans_nil (.of_same hu.stands hv)
  exact (Goes.of_still h).mono (fun a v hv => ⟨hv.1, hv.2, hpatched hv.2⟩)
    fun _ v hv => hpatched hv

/-- What a command leaves that fails: where the failure is collected, no file has changed. -/
def CommandFailed (here : Path) (root : Nat) (w : World) (e : Failure) (v : World) : Prop :=
  e.isCollected = true → Patched here root w [] v

theorem goes_writeWhole {u : World} (hu : Patched here root w [] u) {p : Path} (hp : p.Tidy)
    (hroot : p.root = root) (text : Option String) :
    Goes u (Disk.writeWhole p text) (fun _ _ => True) (CommandFailed here root w) := by
  have hwrite (s : String) :
      Goes u (Disk.write p s) (fun _ _ => True) (CommandFailed here root w) :=
    (Disk.goes_writeBytes hu.stands hp hroot (Text.encode s)).mono (fun _ _ _ => trivial)
      fun _ v hv _ => hu.trans_nil hv
  cases text with
  | some s => exact hwrite s
  -- The file has been emptied, and the failure behind that is not collected.
  | none => exact (hwrite "").bind fun _ _ _ => .of_failed rfl nofun

/-- A command whose failure is collected has changed no file. -/
theorem goes_takeCommand (s d : Agent) (o : Order) (file : Path) {target : Path}
    (ht : target.Tidy) (hw : w.Stands here target.root) :
    Goes w (takeCommand s d o file target) (fun _ _ => True)
      (CommandFailed here target.root w) := by
  have hstep {α : Type} {x : Work α} (h : Still x) {u : World}
      (hu : Patched here target.root w [] u) :
      Goes u x (fun _ => Patched here target.root w []) (CommandFailed here target.root w) :=
    (goes_still h hu).mono (fun _ _ hv => hv.2.2) fun _ v hv _ => hv
  unfold takeCommand
  refine (hstep (Command.still_read s 0 _) (.refl hw)).bind fun command u hu => ?_
  refine (hstep (Still.ofExcept _) hu).bind fun neutral u hu => Goes.get_bind ?_
  dsimp only
  split
  · exact .pure trivial
  · refine (hstep (still_existingCommand d target _) hu).bind fun existing u hu => ?_
    refine (hstep (Still.ofExcept _) hu).bind fun text u hu => ?_
    refine of_finish (P := fun x => ∀ u, Patched here target.root w [] u →
      Goes u x (fun _ _ => True) (CommandFailed here target.root w)) d o _ _
      (fun x hx u hu => ?_) (fun _ u _ => .pure trivial) (fun _ u hu => ?_) u hu
    · exact (hstep (still_tellMissing d _ _) hu).bind fun _ v hv => hx v hv
    · have hfolders : Goes u (Disk.folders target.parent) (fun _ => Patched here target.root w [])
          (CommandFailed here target.root w) :=
        (Disk.goes_folders hu.stands ht.parent rfl).mono (fun _ _ hv => hu.trans_nil hv.2)
          fun _ _ hv _ => hu.trans_nil hv
      exact hfolders.bind fun _ v hv => (goes_writeWhole hv ht rfl _).bind fun _ _ _ => .pure trivial

/-- The skill that a destination is to get. -/
def bringSkill (s d : Agent) (o : Order) (folder target : Path) : Work Skill := do
  let skill ← Skill.read s 0 folder.text
  let neutral ← Work.ofExcept ((skill.toNeutral s (some d.name)).mapError .misfit)
  let existing ← existingSkill d target (Skill.isIn (← get) target)
  return neutral.toSkill d ⟨o.removeForeign, existing⟩

/-- The writes of a skill in front of a failure: its own file, and the support files up
to some point. -/
def IsFront (s d : Agent) (o : Order) (folder target : Path) (w : World)
    (ws : List FileWrite) : Prop :=
  ∃ c z text front back, ((bringSkill s d o folder target).run w).1 = .ok c ∧ w.SameFiles z ∧
    c.text = .ok text ∧ Skill.Fits c.support ∧ c.support = front ++ back ∧
    ws = Skill.parcel (some folder) target text z front

namespace IsFront

variable {folder target : Path} {ws : List FileWrite} (h : IsFront s d o folder target w ws)
  (here : Path)
include h

theorem below : ∀ e ∈ ws, Path.place here target <+: Path.place here e.1 := by
  obtain ⟨c, z, text, front, back, -, -, -, hfits, hsplit, rfl⟩ := h
  refine fun e he => Skill.below_of_parcel (fun f hf => hfits.below f ?_) he
  rw [hsplit]
  exact List.mem_append_left _ hf

/-- All of them are written at places of their own. -/
theorem nodup : (ws.map fun e => Path.place here e.1).Nodup := by
  obtain ⟨c, z, text, front, back, -, -, -, hfits, hsplit, rfl⟩ := h
  have hapart : Skill.Apart here target c.support := Skill.apart_of_fits hfits
  rw [hsplit] at hapart
  refine Skill.nodup_parcel (List.Nodup.sublist (List.Sublist.map _ ?_) hapart)
  exact (List.Sublist.map _ (List.sublist_append_left front back)).cons_cons _

end IsFront

/-- What a skill leaves that was taken: the files beside its target are as they were, and
the working folder is still there unless it is the one that the skill may take away. -/
def SkillTaken (d : Agent) (here : Path) (root : Nat) (target : Path) (w v : World) : Prop :=
  (Skill.Spares d here root target → v.Stands here root) ∧
    ∀ q, ¬ Path.place here target <+: q → v.tree.bytes? q = w.tree.bytes? q

/-- What a skill leaves that fails: no file has changed, or the writes in front of the
failure were made. -/
def SkillFailed (s d : Agent) (o : Order) (folder target : Path) (here : Path) (root : Nat)
    (w v : World) : Prop :=
  Patched here root w [] v ∨ ∃ ws, IsFront s d o folder target w ws ∧ Patched here root w ws v

/-- The skill that was brought is written below its target, from a world with the files of
the one it was brought in. -/
theorem goes_writeBrought {folder target : Path} {c : Skill} {z : World}
    (hbring : ((bringSkill s d o folder target).run w).1 = .ok c) (hfits : Skill.Fits c.support)
    (ht : target.Tidy) (hroot : target.root = root) (hwz : w.SameFiles z)
    (hz : Patched here root w [] z) :
    Goes z (Skill.write d c (some folder) target) (fun _ => SkillTaken d here root target w)
      fun _ => SkillFailed s d o folder target here root w := by
  have hroots : ∀ f ∈ c.support, (Path.ofText f.path).root = 0 := fun f hf => by
    obtain ⟨names, hway, -⟩ := hfits.below f hf
    rw [hway]
  refine (Skill.goes_write ht hroot hz.stands hroots).mono (fun paths v hv => ?_)
    fun _ v hv => ?_
  · obtain ⟨text, htext, hsettled⟩ := hv
    refine ⟨hsettled.stands, fun q hq => ?_⟩
    have hconfig : Path.place here target <+: Path.place here (Skill.configPath target) := by
      rw [Skill.place_configPath]
      exact List.prefix_append _ _
    rw [hsettled.files, Skill.settled_of_ne fun _ heq => hq (by rwa [heq]),
      patch_of_ne fun e he heq => hq ?_, hz.files]
    · rfl
    · rw [heq]
      exact Skill.below_of_parcel hfits.below he
  · rcases hv with hv | ⟨text, front, back, htext, hsplit, hv⟩
    · exact .inl (hz.trans_nil hv)
    · exact .inr ⟨_, ⟨c, z, text, front, back, hbring, hwz, htext, hfits, hsplit, rfl⟩, hz.trans hv⟩

/-- A skill is written below its target. When it fails, no file has changed, or it has
broken off behind its own file. -/
theorem goes_takeSkill (s d : Agent) (o : Order) {folder target : Path} (hf : folder.Tidy)
    (ht : target.Tidy) (hroot : target.root = root) (hw : w.Stands here root) :
    Goes w (takeSkill s d o folder target) (fun _ => SkillTaken d here root target w)
      fun _ => SkillFailed s d o folder target here root w := by
  have hstep {α : Type} {x : Work α} (h : Still x) {u : World} (hu : Patched here root w [] u) :
      Goes u x (fun a v => x.run u = (.ok a, v) ∧ u.SameFiles v ∧ Patched here root w [] v)
        fun _ => SkillFailed s d o folder target here root w :=
    (goes_still h hu).mono (fun _ _ h => h) fun _ v hv => .inl hv
  unfold takeSkill
  refine (hstep (Skill.still_read s 0 _) (.refl hw)).bind fun skill u hu => ?_
  obtain ⟨hread, hsame, hu⟩ := hu
  have hfits : Skill.Fits skill.support :=
    (Skill.yields_readFrom s 0 hf w (World.SameFiles.refl w) skill (by rw [hread])).parts.fits
      hw.sound
  refine (hstep (Still.ofExcept _) hu).bind fun neutral u' hu' => ?_
  obtain ⟨hneutral, hsame', hu'⟩ := hu'
  have hcarried : neutral.background.support = some skill.support := by
    cases hto : skill.toNeutral s (some d.name) with
    | error e =>
      rw [hto] at hneutral
      exact nomatch hneutral
    | ok n =>
      rw [hto] at hneutral
      obtain rfl := Except.ok.inj (Prod.mk.inj hneutral).1
      exact support_toNeutral hto
  refine Goes.get_bind ?_
  dsimp only
  have hleft {v : World} (hv : Patched here root w [] v) : SkillTaken d here root target w v :=
    ⟨fun _ => hv.stands, fun q _ => congrFun hv.files q⟩
  split
  · exact .pure (hleft hu')
  · refine (hstep (still_existingSkill d target _) hu').bind fun existing x hx => ?_
    obtain ⟨hexisting, hsame'', hx⟩ := hx
    refine of_finish (P := fun y => ∀ z, w.SameFiles z → Patched here root w [] z →
      Goes z y (fun _ => SkillTaken d here root target w)
        fun _ => SkillFailed s d o folder target here root w) d o _ _
      (fun y hy z hwz hz => ?_) (fun _ z _ hz => .pure (hleft hz)) (fun _ z hwz hz => ?_) x
      ((hsame.trans hsame').trans hsame'') hx
    · exact (hstep (still_tellMissing d _ _) hz).bind fun _ v hv =>
        hy v (hwz.trans hv.2.1) hv.2.2
    · have hbring : ((bringSkill s d o folder target).run w).1 =
          .ok (neutral.toSkill d ⟨o.removeForeign, existing⟩) := by
        rw [bringSkill, run_bind_of_ok hread, run_bind_of_ok hneutral, run_get_bind,
          run_bind_of_ok hexisting]
        rfl
      have hcarried' : (neutral.toSkill d ⟨o.removeForeign, existing⟩).support = skill.support := by
        rw [Neutral.toSkill, hcarried]
        rfl
      exact (goes_writeBrought hbring (hcarried' ▸ hfits) ht hroot hwz hz).bind
        fun _ _ hv => .pure hv

/-! ## Items in turn -/

/-- However the work ends, a fact about the world is kept, and so are the files outside of
some places. -/
def Touches {α : Type} (I : World → Prop) (R : Place → Prop) (x : Work α) : Prop :=
  ∀ w, I w → I (x.run w).2 ∧ ∀ q, ¬ R q → (x.run w).2.tree.bytes? q = w.tree.bytes? q

section
variable {α : Type} {I : World → Prop} {R : α → Place → Prop} {item : α → Work Operation}
  {xs : List α}

theorem inTurn_touches (h : ∀ x ∈ xs, Touches I (R x) (item x)) {w : World} (hw : I w) :
    I (inTurn item xs w).2 ∧
      ∀ q, (∀ x ∈ xs, ¬ R x q) → (inTurn item xs w).2.tree.bytes? q = w.tree.bytes? q := by
  induction xs generalizing w with
  | nil => exact ⟨hw, fun _ _ => rfl⟩
  | cons x xs ih =>
    obtain ⟨hfirst, hkept⟩ := h x (by simp) w hw
    obtain ⟨hrest, hkept'⟩ := ih (fun y hy => h y (List.mem_cons_of_mem _ hy)) hfirst
    exact ⟨hrest, fun q hq => (hkept' q fun y hy => hq y (List.mem_cons_of_mem _ hy)).trans
      (hkept q (hq x (by simp)))⟩

/-- What becomes of an item becomes of it in some world. What no other item touches is
there as it was at first, and in the end it is as the item has left it. -/
theorem turn_of_mem_zip (h : ∀ x ∈ xs, Touches I (R x) (item x)) (hn : xs.Nodup) {w : World}
    (hw : I w) {x : α} {r : Except Failure Operation}
    (hx : (x, r) ∈ xs.zip (inTurn item xs w).1) :
    ∃ y, I y ∧ ((item x).run y).1 = r ∧ ∀ q, (∀ x' ∈ xs, x' ≠ x → ¬ R x' q) →
      y.tree.bytes? q = w.tree.bytes? q ∧
      (inTurn item xs w).2.tree.bytes? q = ((item x).run y).2.tree.bytes? q := by
  induction xs generalizing w with
  | nil => exact absurd hx List.not_mem_nil
  | cons a xs ih =>
    -- It is the turn of `x` now, with the others behind it, or later, with `a` in front.
    obtain ⟨ha, hn⟩ := List.nodup_cons.mp hn
    obtain ⟨hfirst, hkept⟩ := h a (by simp) w hw
    have hrest : ∀ y ∈ xs, Touches I (R y) (item y) := fun y hy =>
      h y (List.mem_cons_of_mem _ hy)
    rw [inTurn, List.zip_cons_cons] at hx
    rcases List.mem_cons.mp hx with heq | hx
    · obtain ⟨rfl, rfl⟩ := Prod.mk.inj heq
      refine ⟨w, hw, rfl, fun q hq => ⟨rfl, (inTurn_touches hrest hfirst).2 q fun y hy => ?_⟩⟩
      exact hq y (List.mem_cons_of_mem _ hy) fun hyx => ha (hyx ▸ hy)
    · obtain ⟨y, hy, hrun, hfiles⟩ := ih hrest hn hfirst hx
      refine ⟨y, hy, hrun, fun q hq => ?_⟩
      obtain ⟨hbefore, hafter⟩ := hfiles q fun x' hx' => hq x' (List.mem_cons_of_mem _ hx')
      have hax : a ≠ x := fun heq => ha (heq ▸ (List.of_mem_zip hx).1)
      exact ⟨hbefore.trans (hkept q (hq a (by simp) hax)), hafter⟩

/-- A run over items that comes to its end has collected and told all their failures. -/
theorem of_run_reports {w v : World} {r : Report}
    (hrun : (reportItems Report.ofItem item xs).run w = (.ok r, v)) :
    r.failures = errors (inTurn item xs w).1 ∧ v = (inTurn item xs w).2 ∧
      ∀ e ∈ errors (inTurn item xs w).1, e.isCollected = true := by
  have hcollected : ∀ e ∈ errors (inTurn item xs w).1, e.isCollected = true :=
    collected_of_ok (congrArg Prod.fst hrun) fun _ => run_reports_of_not_collected Report.ofItem
  rw [run_reports_of_collected Report.ofItem hcollected] at hrun
  obtain ⟨hr, rfl⟩ := Prod.mk.inj hrun
  obtain rfl := Except.ok.inj hr
  exact ⟨failures_total ofItem_tells _, rfl, hcollected⟩

end

/-! ## The parts of a run -/

/-- Items have been taken in turn, from the files of `w` to those of `v`, and their
failures were told. -/
structure Took {α : Type} (item : α → Work Operation) (xs : List α) (w : World)
    (outcomes : List (Except Failure Operation)) (r : Report) (v : World) : Prop where
  failures : r.failures = errors outcomes
  collected : ∀ e ∈ errors outcomes, e.isCollected = true
  turns : ∃ start, w.SameFiles start ∧ outcomes = (inTurn item xs start).1 ∧
    (inTurn item xs start).2.SameFiles v

namespace Took

variable {α : Type} {I : World → Prop} {R : α → Place → Prop} {item : α → Work Operation}
  {xs : List α} {outcomes : List (Except Failure Operation)} {r : Report} {v : World}
  (ht : Took item xs w outcomes r v) (hsame : ∀ u v, u.SameFiles v → I u → I v)
  (h : ∀ x ∈ xs, Touches I (R x) (item x)) (hw : I w)
include ht hsame h hw

theorem kept : I v ∧ ∀ q, (∀ x ∈ xs, ¬ R x q) → v.tree.bytes? q = w.tree.bytes? q := by
  obtain ⟨start, hstart, -, hend⟩ := ht.turns
  obtain ⟨hleft, hbytes⟩ := inTurn_touches h (hsame _ _ hstart hw)
  refine ⟨hsame _ _ hend hleft, fun q hq => ?_⟩
  rw [hend.tree, hbytes q hq, hstart.tree]

theorem turn (hn : xs.Nodup) {x : α} {out : Except Failure Operation}
    (hx : (x, out) ∈ xs.zip outcomes) :
    ∃ y, I y ∧ ((item x).run y).1 = out ∧ ∀ q, (∀ x' ∈ xs, x' ≠ x → ¬ R x' q) →
      y.tree.bytes? q = w.tree.bytes? q ∧
      v.tree.bytes? q = ((item x).run y).2.tree.bytes? q := by
  obtain ⟨start, hstart, rfl, hend⟩ := ht.turns
  obtain ⟨y, hy, hrun, hbytes⟩ := turn_of_mem_zip h hn (hsame _ _ hstart hw) hx
  refine ⟨y, hy, hrun, fun q hq => ?_⟩
  obtain ⟨hbefore, hafter⟩ := hbytes q hq
  exact ⟨by rw [hbefore, hstart.tree], by rw [hend.tree, hafter]⟩

end Took

section
variable {p q : Path} {v : World} {r : Report}

theorem same_told (o : Order) (n : Nat) (a : Agent) (what : String) (folder : Path) (w : World) :
    w.SameFiles (told o n a what folder w) := still_tellFound o n a what folder w

variable (hs : o.setup.base s w = .ok p) (hd : o.setup.base d w = .ok q)
  (hsweeps : o.sweeps = false)
include hs hd hsweeps

theorem took_commandsPart (hrun : (commandsPart s d o).run w = (.ok r, v)) :
    Took (commandItem s d o (p.append s.commandFolder) (q.append d.commandFolder))
      (commandsFound s o p w) w (commandOutcomes s d o p q w) r v := by
  unfold commandsPart at hrun
  cases hkind : o.contents.hasCommands with
  | true =>
    have hfound : commandsFound s o p w = w.commandFiles s (p.append s.commandFolder) o.only :=
      if_pos hkind
    rw [hkind, if_pos rfl, runCommands_eq, run_get_bind, commands_eq_ok hs rfl rfl,
      commands_eq_ok hd rfl rfl, ofExcept_ok_bind, ofExcept_ok_bind, commandsBetween,
      run_tellFound_bind, reportCommand_eq, sweeping_spared hsweeps] at hrun
    obtain ⟨hr, rfl, hcollected⟩ := of_run_reports hrun
    unfold commandOutcomes
    rw [hfound]
    exact ⟨hr, hcollected, _, same_told .., rfl, World.SameFiles.refl _⟩
  | false =>
    have hfound : commandsFound s o p w = [] := if_neg (by simp [hkind])
    rw [hkind] at hrun
    obtain ⟨hr, rfl⟩ := Prod.mk.inj hrun
    obtain rfl := Except.ok.inj hr
    unfold commandOutcomes
    rw [hfound]
    exact ⟨rfl, fun _ he => absurd he List.not_mem_nil, w, World.SameFiles.refl w, rfl,
      World.SameFiles.refl w⟩

theorem took_skillsPart (hrun : (skillsPart s d o).run w = (.ok r, v)) :
    Took (skillItem s d o (q.append d.skillFolder)) (skillsFound s o p w) w
      (skillOutcomes s d o p q w) r v := by
  unfold skillsPart at hrun
  cases hkind : o.contents.hasSkills with
  | true =>
    have hfound : skillsFound s o p w = w.skillFolders (p.append s.skillFolder) o.only :=
      if_pos hkind
    rw [hkind, if_pos rfl, runSkills_eq, run_get_bind, skills_eq_ok hd rfl rfl,
      skills_eq_ok hs rfl rfl, ofExcept_ok_bind, ofExcept_ok_bind, skillsBetween,
      run_tellFound_bind, sweeping_spared hsweeps] at hrun
    obtain ⟨hr, rfl, hcollected⟩ := of_run_reports hrun
    unfold skillOutcomes
    rw [hfound]
    exact ⟨hr, hcollected, _, same_told .., rfl, World.SameFiles.refl _⟩
  | false =>
    have hfound : skillsFound s o p w = [] := if_neg (by simp [hkind])
    rw [hkind] at hrun
    obtain ⟨hr, rfl⟩ := Prod.mk.inj hrun
    obtain rfl := Except.ok.inj hr
    unfold skillOutcomes
    rw [hfound]
    exact ⟨rfl, fun _ he => absurd he List.not_mem_nil, w, World.SameFiles.refl w, rfl,
      World.SameFiles.refl w⟩

end

/-! ## What items touch -/

/-- A command touches its target. -/
theorem touches_commandItem {source target : Path} (ht : target.Tidy) (file : Path) :
    Touches (fun y => ∀ root, y.Stands here root) (WrittenAt here s d source target file)
      (commandItem s d o source target file) := by
  intro y hy
  unfold commandItem
  cases htarget : commandTarget s d source target file with
  | error e =>
    rw [ofExcept_error_bind]
    exact ⟨hy, fun _ _ => rfl⟩
  | ok t =>
    rw [ofExcept_ok_bind]
    obtain ⟨hstands, hgrown⟩ :=
      takeCommand_grows s d o file (tidy_target ht htarget) rfl y (hy t.root)
    refine ⟨fun root => ⟨hstands.sound, hstands.here_eq, hgrown.folders _ (hy root).start⟩,
      fun q hq => hgrown.bytes? fun heq => hq ⟨t, htarget, heq⟩⟩

/-- A command without a target ends the run. -/
theorem target_of_collected {source target file : Path} {y : World} {e : Failure}
    (hrun : ((commandItem s d o source target file).run y).1 = .error e)
    (he : e.isCollected = true) : ∃ t, commandTarget s d source target file = .ok t := by
  unfold commandItem at hrun
  cases htarget : commandTarget s d source target file with
  | ok t => exact ⟨t, rfl⟩
  | error e' =>
    rw [htarget, ofExcept_error_bind] at hrun
    obtain rfl := Except.error.inj hrun
    obtain rfl := eq_outside_of_commandTarget htarget
    exact nomatch he

theorem bytes_of_failed_command {source target file t : Path} (ht : target.Tidy)
    (htarget : commandTarget s d source target file = .ok t) {y : World}
    (hy : ∀ root, y.Stands here root) {e : Failure}
    (hrun : ((commandItem s d o source target file).run y).1 = .error e)
    (he : e.isCollected = true) :
    ((commandItem s d o source target file).run y).2.tree.bytes? = y.tree.bytes? := by
  rw [Facing.item_eq htarget] at hrun ⊢
  obtain ⟨v, hv⟩ := exists_run hrun
  rw [hv]
  exact ((goes_takeCommand s d o file (tidy_target ht htarget) (hy t.root)).failed hv he).files

section
variable {q folder : Path} (hf : folder.Tidy) (hq : q.Tidy)
include hf hq

theorem tidy_skillTarget : ((q.append d.skillFolder).append folder.name).Tidy ∧
    ((q.append d.skillFolder).append folder.name).root = q.root := by
  refine ⟨(hq.append _).append _, ?_⟩
  rw [Path.append_own_name _ hf, Path.append_name q (Setup.valid_skillFolder d)]

/-- A skill touches what lies below its target, and the working folder is still there. -/
theorem touches_skillItem
    (hspares : Skill.Spares d here q.root ((q.append d.skillFolder).append folder.name)) :
    Touches (fun y => y.Stands here q.root)
      (Path.place here ((q.append d.skillFolder).append folder.name) <+: ·)
      (skillItem s d o (q.append d.skillFolder) folder) := by
  intro y hy
  obtain ⟨htidy, hroot⟩ := tidy_skillTarget (d := d) hf hq
  refine Goes.after (R := fun v => v.Stands here q.root ∧ ∀ place,
    ¬ Path.place here ((q.append d.skillFolder).append folder.name) <+: place →
      v.tree.bytes? place = y.tree.bytes? place)
    ((goes_takeSkill s d o hf htidy hroot hy).mono (fun _ v hv => ⟨hv.1 hspares, hv.2⟩)
      fun _ v hv => ?_)
  rcases hv with hv | ⟨ws, hfront, hv⟩
  · exact ⟨hv.stands, fun place _ => congrFun hv.files place⟩
  · refine ⟨hv.stands, fun place hplace => ?_⟩
    rw [hv.files, patch_of_ne fun e he heq => hplace ?_]
    rw [heq]
    exact hfront.below here e he

end

/-! ## Whole runs -/

/-- A skill has broken off, between the files of `w` and those of `v`: what is written of it
in front of a failure, in the world that it met, stands below its target, and every other
file there is as it was. That world has the files of `w`, but for the places `others`. -/
def BrokenOff (s d : Agent) (o : Order) (folder target : Path) (others : Place → Prop)
    (w v : World) : Prop :=
  ∃ y ws, IsFront s d o folder target y ws ∧
    (∀ place, ¬ others place → y.tree.bytes? place = w.tree.bytes? place) ∧
    (∀ e ∈ ws, v.tree.bytes? (Path.place w.here e.1) = some e.2) ∧
    ∀ place, Path.place w.here target <+: place → (∀ e ∈ ws, place ≠ Path.place w.here e.1) →
      v.tree.bytes? place = w.tree.bytes? place

/-- A place where an item of a run is written, other than the skill in a folder: a command
`files`, or another one of the skills `folders`. -/
def WrittenBeside (here : Path) (s d : Agent) (p q : Path) (files folders : List Path)
    (folder : Path) (place : Place) : Prop :=
  (∃ file ∈ files,
    WrittenAt here s d (p.append s.commandFolder) (q.append d.commandFolder) file place) ∨
  ∃ folder' ∈ folders, folder' ≠ folder ∧
    Path.place here ((q.append d.skillFolder).append folder'.name) <+: place

/-- A run that writes and deletes no orphans, and the files it meets: the tree is sound and
holds the working folder, no command of the source has a colon in its way, no name that is
asked for in both kinds of content leads from one to the other, and a working folder that
paths of the destination start from is not the configuration folder of one of its skills,
which may be taken away. -/
structure Orderly (s d : Agent) (o : Order) (w : World) : Prop where
  sound : w.Sound
  here : w.tree.get? w.herePlace = some .folder
  tidy : o.setup.Tidy w
  writes : o.preview = false
  spares : o.sweeps = false
  colonFree : ∀ folder, o.setup.commands s w = .ok folder →
    ColonFree folder ((afterLock o w).commandFiles s folder o.only)
  inside : o.contents = .both → LeadsInside o.only
  outside : ∀ q, o.setup.base d w = .ok q → ∀ folder : Path, folder.Tidy →
    Skill.Spares d w.here q.root ((q.append d.skillFolder).append folder.name)

/-- What a run over some items has done: its parts, from the world `u` behind the lock over
the world `x` behind the commands. -/
structure Parts (s d : Agent) (o : Order) (p q : Path) (w u x v : World)
    (commands skills : Report) : Prop where
  lock : (takeLock o.setup).run w = (.ok (), u)
  source : o.setup.base s w = .ok p
  destination : o.setup.base d w = .ok q
  left : ((commandsPart s d o).run u).2 = x
  commands : Took (commandItem s d o (p.append s.commandFolder) (q.append d.commandFolder))
    (commandsFound s o p u) u (commandOutcomes s d o p q u) commands x
  skills : Took (skillItem s d o (q.append d.skillFolder)) (skillsFound s o p x) x
    (skillOutcomes s d o p q x) skills v

section
variable {u v x : World} {p q : Path} {r commands skills : Report}

theorem Orderly.parts (h : Orderly s d o w) (hrun : (run s d o).run w = (.ok r, v)) :
    ∃ p q u x commands skills, Parts s d o p q w u x v commands skills ∧
      r = commands.append skills := by
  rw [run_eq, locking, h.writes] at hrun
  obtain ⟨_, u, hlock, hrun⟩ := ok_of_run_bind hrun
  obtain ⟨p, q, hs, hd⟩ := bases_of_runAll (congrArg Prod.fst hrun)
  obtain ⟨-, hgrown⟩ := takeLock_grown h.sound h.here h.tidy
  change (takeLock o.setup).run w = _ at hlock
  rw [hlock] at hgrown
  rw [runAll_eq] at hrun
  obtain ⟨commands, x, hcommands, hrun⟩ := ok_of_run_bind hrun
  obtain ⟨skills, v', hskills, hrun⟩ := ok_of_run_bind hrun
  obtain ⟨hr, rfl⟩ := Prod.mk.inj hrun
  have hstays := (stays_commandsPart s d o u).1
  rw [hcommands] at hstays
  have hbase (a : Agent) : o.setup.base a u = o.setup.base a w :=
    Setup.base_eq hgrown.home hgrown.here
  have hbase' (a : Agent) : o.setup.base a x = o.setup.base a u :=
    Setup.base_eq hstays.1 hstays.2
  exact ⟨p, q, u, x, commands, skills,
    ⟨hlock, (hbase s).symm.trans hs, (hbase d).symm.trans hd, congrArg Prod.snd hcommands,
      took_commandsPart hs hd h.spares hcommands,
      took_skillsPart ((hbase' s).trans hs) ((hbase' d).trans hd) h.spares hskills⟩,
    (Except.ok.inj hr).symm⟩

/-- Commands and skills are found in one run only where both are asked for. -/
theorem both_of_found {file folder : Path} (hfile : file ∈ commandsFound s o p u)
    (hfolder : folder ∈ skillsFound s o p x) : o.contents = .both := by
  unfold commandsFound at hfile
  unfold skillsFound at hfolder
  cases hcontents : o.contents with
  | both => rfl
  | commands =>
    rw [hcontents] at hfolder
    exact absurd hfolder List.not_mem_nil
  | skills =>
    rw [hcontents] at hfile
    exact absurd hfile List.not_mem_nil

theorem commandsFound_eq {file : Path} (hfile : file ∈ commandsFound s o p u) :
    commandsFound s o p u = u.commandFiles s (p.append s.commandFolder) o.only := by
  unfold commandsFound at hfile ⊢
  split at hfile
  · rename_i hkind
    exact if_pos hkind
  · exact absurd hfile List.not_mem_nil

theorem skillsFound_eq {folder : Path} (hfolder : folder ∈ skillsFound s o p x) :
    skillsFound s o p x = x.skillFolders (p.append s.skillFolder) o.only := by
  unfold skillsFound at hfolder ⊢
  split at hfolder
  · rename_i hkind
    exact if_pos hkind
  · exact absurd hfolder List.not_mem_nil

namespace Orderly

variable (h : Orderly s d o w) (hparts : Parts s d o p q w u x v commands skills)
include h hparts

theorem behind_lock : (∀ root, u.Stands w.here root) ∧ ∀ place,
    u.tree.bytes? place = w.tree.bytes? place := by
  obtain ⟨hsound, hgrown⟩ := takeLock_grown h.sound h.here h.tidy
  rw [hparts.lock] at hsound hgrown
  refine ⟨fun root => ⟨hsound, hgrown.here, ?_⟩, fun place => hgrown.bytes? not_false⟩
  exact hgrown.folders _ (stands_of_here h.sound h.here root).start

theorem tidy_bases : p.Tidy ∧ q.Tidy :=
  ⟨Setup.tidy_base h.tidy h.sound hparts.source, Setup.tidy_base h.tidy h.sound hparts.destination⟩

theorem colonFree_behind : ColonFree (p.append s.commandFolder)
    (u.commandFiles s (p.append s.commandFolder) o.only) := by
  have hcolon := h.colonFree _ (commands_eq_ok hparts.source rfl rfl)
  have hafter : afterLock o w = u := congrArg Prod.snd hparts.lock
  rwa [hafter] at hcolon

theorem touches_commands : ∀ file ∈ commandsFound s o p u,
    Touches (fun y => ∀ root, y.Stands w.here root)
      (WrittenAt w.here s d (p.append s.commandFolder) (q.append d.commandFolder) file)
      (commandItem s d o (p.append s.commandFolder) (q.append d.commandFolder) file) :=
  fun file _ => touches_commandItem ((h.tidy_bases hparts).2.append _) file

/-- What the commands have left to the skills. -/
theorem behind_commands : (∀ root, x.Stands w.here root) ∧ ∀ place,
    (∀ file ∈ commandsFound s o p u, ¬ WrittenAt w.here s d (p.append s.commandFolder)
      (q.append d.commandFolder) file place) →
    x.tree.bytes? place = w.tree.bytes? place := by
  obtain ⟨hu, hsame⟩ := h.behind_lock hparts
  obtain ⟨hx, hkept⟩ := hparts.commands.kept (fun _ _ hv hu root => hv.stands (hu root))
    (h.touches_commands hparts) hu
  exact ⟨hx, fun place hplace => (hkept place hplace).trans (hsame place)⟩

theorem tidy_skill {folder : Path} (hfolder : folder ∈ skillsFound s o p x) : folder.Tidy := by
  rw [skillsFound_eq hfolder] at hfolder
  exact World.tidy_of_mem_skillFolders ((h.behind_commands hparts).1 0).sound
    ((h.tidy_bases hparts).1.append _) hfolder

theorem touches_skills : ∀ folder ∈ skillsFound s o p x,
    Touches (fun y => y.Stands w.here q.root)
      (Path.place w.here ((q.append d.skillFolder).append folder.name) <+: ·)
      (skillItem s d o (q.append d.skillFolder) folder) :=
  fun folder hfolder => touches_skillItem (h.tidy_skill hparts hfolder) (h.tidy_bases hparts).2
    (h.outside q hparts.destination folder (h.tidy_skill hparts hfolder))

/-- No command is written below the target of a skill. -/
theorem apart {file folder : Path} (hfile : file ∈ commandsFound s o p u)
    (hfolder : folder ∈ skillsFound s o p x) {place : Place}
    (hplace : WrittenAt w.here s d (p.append s.commandFolder) (q.append d.commandFolder) file
      place) :
    ¬ Path.place w.here ((q.append d.skillFolder).append folder.name) <+: place := by
  have hinside := h.inside (both_of_found hfile hfolder)
  have hskill := h.tidy_skill hparts hfolder
  have hcolon := h.colonFree_behind hparts
  rw [commandsFound_eq hfile] at hfile
  rw [skillsFound_eq hfolder] at hfolder
  obtain ⟨t, ht, rfl⟩ := hplace
  exact not_written_below hskill
    (name_of_found ((h.behind_commands hparts).1 0).sound hinside hfolder)
    (matched_of_found hcolon hfile ht ((h.behind_lock hparts).1 0).sound hinside)

/-- A command that fails leaves its target as it was. -/
theorem failed_command {file : Path} {e : Failure}
    (hfailed : (file, .error e) ∈ (commandsFound s o p u).zip (commandOutcomes s d o p q u)) :
    ∃ t, commandTarget s d (p.append s.commandFolder) (q.append d.commandFolder) file = .ok t ∧
      v.tree.bytes? (Path.place w.here t) = w.tree.bytes? (Path.place w.here t) := by
  have hfile := (List.of_mem_zip hfailed).1
  obtain ⟨hu, hsame⟩ := h.behind_lock hparts
  have hcolon := h.colonFree_behind hparts
  have hn : (commandsFound s o p u).Nodup := by
    rw [commandsFound_eq hfile]
    exact World.nodup_commands (hu 0).sound s _ _
  obtain ⟨y, hy, hrun, hbytes⟩ := hparts.commands.turn (fun _ _ hv hu root => hv.stands (hu root))
    (h.touches_commands hparts) hu hn hfailed
  have hcollected : e.isCollected = true :=
    hparts.commands.collected e (mem_errors.mpr (List.of_mem_zip hfailed).2)
  obtain ⟨t, ht⟩ := target_of_collected hrun hcollected
  have hown : ∀ file' ∈ commandsFound s o p u, file' ≠ file → ¬ WrittenAt w.here s d
      (p.append s.commandFolder) (q.append d.commandFolder) file' (Path.place w.here t) := by
    intro file' hfile' hne
    rw [commandsFound_eq hfile] at hfile'
    exact not_written_twice (hu 0).sound hcolon (commandsFound_eq hfile ▸ hfile) hfile' hne ht
  obtain ⟨hbefore, hafter⟩ := hbytes (Path.place w.here t) hown
  obtain ⟨-, hkept⟩ := hparts.skills.kept (fun _ _ hv hu => hv.stands hu)
    (h.touches_skills hparts) ((h.behind_commands hparts).1 _)
  have hskills := hkept (Path.place w.here t) fun folder hfolder =>
    h.apart hparts hfile hfolder ⟨t, ht, rfl⟩
  have hstill := congrFun
    (bytes_of_failed_command ((h.tidy_bases hparts).2.append _) ht hy hrun hcollected)
    (Path.place w.here t)
  refine ⟨t, ht, ?_⟩
  calc v.tree.bytes? (Path.place w.here t)
    _ = x.tree.bytes? (Path.place w.here t) := hskills
    _ = ((commandItem s d o (p.append s.commandFolder) (q.append d.commandFolder) file).run
          y).2.tree.bytes? (Path.place w.here t) := hafter
    _ = y.tree.bytes? (Path.place w.here t) := hstill
    _ = u.tree.bytes? (Path.place w.here t) := hbefore
    _ = w.tree.bytes? (Path.place w.here t) := hsame _

/-- A skill that fails leaves what is below its target as it was, or has broken off. -/
theorem failed_skill {folder : Path} {e : Failure}
    (hfailed : (folder, .error e) ∈ (skillsFound s o p x).zip (skillOutcomes s d o p q x)) :
    (∀ place, Path.place w.here ((q.append d.skillFolder).append folder.name) <+: place →
      v.tree.bytes? place = w.tree.bytes? place) ∨
    BrokenOff s d o folder ((q.append d.skillFolder).append folder.name)
      (WrittenBeside w.here s d p q (commandsFound s o p u) (skillsFound s o p x) folder) w v := by
  have hfolder := (List.of_mem_zip hfailed).1
  obtain ⟨hx, hsame⟩ := h.behind_commands hparts
  have hn : (skillsFound s o p x).Nodup := by
    rw [skillsFound_eq hfolder]
    exact World.nodup_skills (hx 0).sound _ _
  obtain ⟨y, hy, hrun, hbytes⟩ := hparts.skills.turn (fun _ _ hv hu => hv.stands hu)
    (h.touches_skills hparts) (hx _) hn hfailed
  -- Below the target of a skill, no other item writes.
  have hown : ∀ place,
      Path.place w.here ((q.append d.skillFolder).append folder.name) <+: place →
      ∀ folder' ∈ skillsFound s o p x, folder' ≠ folder →
        ¬ Path.place w.here ((q.append d.skillFolder).append folder'.name) <+: place := by
    intro place hplace folder' hfolder' hne
    rw [skillsFound_eq hfolder] at hfolder'
    exact apart_skillTargets (hx 0).sound (skillsFound_eq hfolder ▸ hfolder) hfolder' hne hplace
  have hfirst : ∀ place,
      Path.place w.here ((q.append d.skillFolder).append folder.name) <+: place →
      y.tree.bytes? place = w.tree.bytes? place ∧ v.tree.bytes? place =
        ((skillItem s d o (q.append d.skillFolder) folder).run y).2.tree.bytes? place := by
    intro place hplace
    obtain ⟨hbefore, hafter⟩ := hbytes place (hown place hplace)
    exact ⟨hbefore.trans (hsame place fun file hfile hwritten =>
      h.apart hparts hfile hfolder hwritten hplace), hafter⟩
  have hskill := h.tidy_skill hparts hfolder
  obtain ⟨htidy, hroot⟩ := tidy_skillTarget (d := d) hskill (h.tidy_bases hparts).2
  obtain ⟨z, hz⟩ := exists_run hrun
  rw [hz] at hfirst
  rcases (goes_takeSkill s d o hskill htidy hroot hy).failed hz with
    hpatched | ⟨ws, hfront, hpatched⟩
  · refine .inl fun place hplace => ?_
    obtain ⟨hbefore, hafter⟩ := hfirst place hplace
    rw [hafter, hpatched.files, ← hbefore]
    rfl
  · refine .inr ⟨y, ws, hfront, fun place hplace => ?_, fun e he => ?_, fun place hplace hne => ?_⟩
    · rw [WrittenBeside, not_or] at hplace
      obtain ⟨hbefore, -⟩ := hbytes place fun folder' hfolder' hne hbelow =>
        hplace.2 ⟨folder', hfolder', hne, hbelow⟩
      exact hbefore.trans (hsame place fun file hfile hwritten =>
        hplace.1 ⟨file, hfile, hwritten⟩)
    · obtain ⟨-, hafter⟩ := hfirst _ (hfront.below w.here e he)
      rw [hafter, hpatched.files, patch_of_mem (hfront.nodup w.here) he]
    · obtain ⟨hbefore, hafter⟩ := hfirst place hplace
      rw [hafter, hpatched.files, patch_of_ne hne, hbefore]

end Orderly

end

/-- A command whose fields are a list, and a skill that asks for a configuration where a file
is in the place of its folder. -/
def blockedWorld : World where
  tree :=
    [(["w"], .folder), (["w", ".claude"], .folder), (["w", ".claude", "commands"], .folder),
      (["w", ".claude", "commands", "a.md"], .file (Text.encode "---\n- x\n---\nx\n")),
      (["w", ".claude", "skills"], .folder), (["w", ".claude", "skills", "s"], .folder),
      (["w", ".claude", "skills", "s", "SKILL.md"],
        .file (Text.encode "---\ndisable-model-invocation: true\n---\nhi\n")),
      (["w", ".codex"], .folder), (["w", ".codex", "skills"], .folder),
      (["w", ".codex", "skills", "s"], .folder),
      (["w", ".codex", "skills", "s", "agents"], .file (Text.encode "old\n"))]
  home := ⟨1, ["h"]⟩
  here := ⟨1, ["w"]⟩
  repository := none
  held := none
  printed := []
  warnings := []

theorem base_blocked : pairOrder.setup.base .claude blockedWorld = .ok ⟨1, ["w", ".claude"]⟩ ∧
    pairOrder.setup.base .codex blockedWorld = .ok ⟨1, ["w", ".codex"]⟩ :=
  ⟨eq_ok_of_toOption (by decide), eq_ok_of_toOption (by decide)⟩

theorem orderly_blocked : Orderly .claude .codex pairOrder blockedWorld := by
  have hfiles : (afterLock pairOrder blockedWorld).commandFiles .claude
      ⟨1, ["w", ".claude", "commands"]⟩ none = [⟨1, ["w", ".claude", "commands", "a.md"]⟩] := by
    decide +kernel
  refine ⟨⟨by constructor <;> decide, ⟨by decide, by decide⟩⟩, rfl,
    ⟨⟨by decide, by decide⟩, fun p hp => ?_⟩, rfl, rfl,
    fun folder hfolder file hfile way hway => ?_, nofun, fun q hq folder _ _ hstart => ?_⟩
  · obtain rfl := Option.some.inj hp
    exact ⟨by decide, by decide⟩
  · obtain rfl := Except.ok.inj ((commands_eq_ok base_blocked.1 rfl rfl).symm.trans hfolder)
    obtain rfl := List.mem_singleton.mp (hfiles ▸ hfile)
    obtain rfl : (⟨0, ["a.md"]⟩ : Path) = way := Option.some.inj hway
    decide
  · obtain rfl := Except.ok.inj (base_blocked.2.symm.trans hq)
    exact absurd hstart.symm (by simp [Path.start])

/-- What became of the command and of the skill. -/
theorem failed_blocked :
    (∃ e, (⟨1, ["w", ".claude", "commands", "a.md"]⟩, .error e) ∈
      (commandsFound .claude pairOrder ⟨1, ["w", ".claude"]⟩ (afterLock pairOrder blockedWorld)).zip
      (commandOutcomes .claude .codex pairOrder ⟨1, ["w", ".claude"]⟩ ⟨1, ["w", ".codex"]⟩
        (afterLock pairOrder blockedWorld))) ∧
    ∃ e, (⟨1, ["w", ".claude", "skills", "s"]⟩, .error e) ∈
      (skillsFound .claude pairOrder ⟨1, ["w", ".claude"]⟩
        ((commandsPart .claude .codex pairOrder).run (afterLock pairOrder blockedWorld)).2).zip
      (skillOutcomes .claude .codex pairOrder ⟨1, ["w", ".claude"]⟩ ⟨1, ["w", ".codex"]⟩
        ((commandsPart .claude .codex pairOrder).run (afterLock pairOrder blockedWorld)).2) := by
  have hfailed {a : Path} {xs : List (Path × Except Failure Operation)}
      (h : xs.map (fun x => (x.1, x.2.toOption)) = [(a, none)]) : ∃ e, (a, .error e) ∈ xs := by
    obtain ⟨⟨b, r⟩, rfl, hx⟩ := List.map_eq_singleton_iff.mp h
    obtain ⟨rfl, hr⟩ := Prod.mk.inj hx
    cases r with
    | ok op => exact nomatch hr
    | error e => exact ⟨e, .head _⟩
  exact ⟨hfailed (by decide +kernel), hfailed (by decide +kernel)⟩

theorem run_blocked : ∃ r, (run .claude .codex pairOrder).run blockedWorld =
    (.ok r, ((run .claude .codex pairOrder).run blockedWorld).2) := by
  have hok : ((run .claude .codex pairOrder).run blockedWorld).1.toOption.isSome = true := by
    decide +kernel
  obtain ⟨r, hr⟩ := Option.isSome_iff_exists.mp hok
  exact ⟨r, Prod.ext (eq_ok_of_toOption hr) rfl⟩

/-- The skill's own file is new. -/
theorem own_file_blocked : ((run .claude .codex pairOrder).run blockedWorld).2.tree.bytes?
    ["w", ".codex", "skills", "s", "SKILL.md"] ≠
      blockedWorld.tree.bytes? ["w", ".codex", "skills", "s", "SKILL.md"] := by
  decide +kernel

end Sync

end AgentRelay
