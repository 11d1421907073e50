import Mathlib.Data.List.Nodup
import AgentRelay.Proofs.Sync.Mirror
import AgentRelay.Proofs.Sync.Preview
import AgentRelay.Proofs.Sync.Settled

/-
  A run settles what it takes.

  No item writes what another one needs, so each is settled by its own turn and stays so
  when the others are taken and the orphans are deleted (`Parted.of_run_commandsBetween`,
  `SkillsParted.of_run_skillsBetween`). Beside the items there is the lock that a second run
  has to take: no item takes its file away, and a sweep only together with the folders on the
  way to it, so that it can be put there again.
-/

namespace AgentRelay.Sync

open Files (Place Tree Entry ValidName)
open Work

/-! ## What items keep -/

section
variable {I : World → Prop} (hsame : ∀ w v : World, w.SameFiles v → I w → I v) {s d : Agent}
  {o : Order} {target : Path}
include hsame

theorem keeps_finish (a : Agent) (o : Order) (body : List Body.Segment) (label : String)
    (op : Operation) {write : Work Operation} (h : Keeps I write) :
    Keeps I (
      have finish : PUnit → Work Operation := fun _ =>
        if o.preview = true then pure op else write
      if o.verbose = true then tellMissing a body label >>= finish else finish PUnit.unit) :=
  of_finish a o body label
    (fun _ hx => Keeps.bind (Keeps.of_still hsame (still_tellMissing a body label)) fun _ => hx)
    (fun _ => Keeps.of_still hsame (Still.pure _)) fun _ => h

/-- Taking a command makes folders and writes its target. -/
theorem keeps_takeCommand_of (hfolders : Keeps I (Disk.folders target.parent))
    (hwrite : ∀ text, Keeps I (Disk.write target text)) (s d : Agent) (o : Order) (file : Path) :
    Keeps I (takeCommand s d o file target) := by
  have hstill {α : Type} {x : Work α} (hx : Still x) : Keeps I x := Keeps.of_still hsame hx
  unfold takeCommand
  refine Keeps.bind (hstill (Command.still_read s 0 _)) fun command => ?_
  refine Keeps.bind (hstill (Still.ofExcept _)) fun neutral => Keeps.get_bind fun w _ => ?_
  dsimp only
  split
  · exact hstill (Still.pure _)
  · refine Keeps.bind (hstill (still_existingCommand d target _)) fun existing => ?_
    refine Keeps.bind (hstill (Still.ofExcept _)) fun text => ?_
    refine keeps_finish hsame d o _ _ _ (Keeps.bind hfolders fun _ => Keeps.bind ?_
      fun _ => hstill (Still.pure _))
    cases Command.whole? (Command.isTorn w s file) text with
    | some t => exact hwrite t
    | none => exact Keeps.bind (hwrite "") fun _ => hstill (Still.throw _)

/-- Taking a skill writes a skill whose support files lie below its folder. -/
theorem keeps_takeSkill_of {folder : Path} (hf : folder.Tidy)
    (hwrite : ∀ skill : Skill, (∀ f ∈ skill.support, Skill.LiesBelow f) →
      Keeps I (Skill.write d skill (some folder) target)) {w : World} (hw : w.Sound) (hI : I w) :
    I ((takeSkill s d o folder target).run w).2 := by
  have hstill {α : Type} {x : Work α} (hx : Still x) : Keeps I x := Keeps.of_still hsame hx
  unfold takeSkill
  rw [run_bind]
  have hfiles := Skill.still_read s 0 folder.text w
  have hsupport := Skill.yields_read hw s 0 hf w (World.SameFiles.refl w)
  cases hread : (Skill.read s 0 folder.text).run w with
  | mk r u =>
    rw [hread] at hfiles hsupport
    cases r with
    | error e => exact hsame _ _ hfiles hI
    | ok skill =>
      refine (?_ : Keeps I _) u (hsame _ _ hfiles hI)
      cases hn : skill.toNeutral s (some d.name) with
      | error m => exact hstill (Still.throw _)
      | ok n =>
        rw [Except.mapError, ofExcept_ok_bind]
        refine Keeps.get_bind fun w _ => ?_
        dsimp only
        split
        · exact hstill (Still.pure _)
        · refine Keeps.bind (hstill (still_existingSkill d target _)) fun existing => ?_
          refine keeps_finish hsame d o _ _ _ (Keeps.bind (hwrite _ ?_) fun _ =>
            hstill (Still.pure _))
          rw [support_toSkill hn]
          exact hsupport skill rfl

theorem keeps_delete (o : Order) {p : Path} {remove : Path → Work Unit} (h : Keeps I (remove p)) :
    Keeps I (delete o p remove) := by
  unfold delete
  split
  · exact Keeps.bind h fun _ => Keeps.of_still hsame (Still.pure _)
  · exact Keeps.of_still hsame (Still.pure _)

end

section
variable {here : Path} {s d : Agent} {o : Order} {target : Path} {q : Place} {e : Option Entry}

/-- Taking a command makes folders on the way to its target, and nothing elsewhere. -/
theorem keeps_place_takeCommand (s d : Agent) (o : Order) (file : Path) (ht : target.Clean)
    (hway : ¬ q <+: Path.spot here target) :
    Keeps (World.At here q e) (takeCommand s d o file target) := by
  refine keeps_takeCommand_of World.At.same (Disk.keeps_folders ht.parent fun hpre => hway ?_)
    (fun text => Disk.keeps_writeBytes (fun heq => hway ?_) _) s d o file
  · exact hpre.trans ((List.prefix_append_right_inj _).mpr (List.dropLast_prefix _))
  · have hplace : q = Path.spot here target := heq.trans (Path.place_eq_spot ht)
    exact hplace ▸ List.prefix_rfl

/-- Taking a skill leaves what lies apart from its target. -/
theorem at_takeSkill {folder : Path} (hf : folder.Tidy) (ht : target.Clean)
    (habove : ¬ q <+: Path.spot here target) (hbelow : ¬ Path.spot here target <+: q) {w : World}
    (hw : w.Sound) (hat : w.At here q e) :
    ((takeSkill s d o folder target).run w).2.At here q e :=
  keeps_takeSkill_of World.At.same hf
    (fun _ hs => Skill.keeps_write ht habove hbelow d hs _) hw hat

/-- Taking a skill leaves every filled place filled but that of its configuration. -/
theorem filled_takeSkill {folder : Path} (hf : folder.Tidy) (ht : target.Clean)
    (hq : q ≠ Path.spot here target ++ Skill.configWay) {w : World}
    (hw : w.Stands here target.root) (hfilled : w.tree.Filled q) :
    ((takeSkill s d o folder target).run w).2.tree.Filled q :=
  (keeps_takeSkill_of
    (fun w v hv hw => ⟨hv.stands hw.1, Disk.filled_same w v hv hw.2⟩) hf
    (fun _ hs => Skill.keeps_filled_write ht rfl d hs _ hq) hw.sound ⟨hw, hfilled⟩).2

end

/-! ## Commands -/

/-- Commands, and a folder for their targets that lies apart from theirs. -/
structure Parted (here : Path) (s d : Agent) (source target : Path) (files : List Path) :
    Prop where
  source_clean : source.Clean
  target_clean : target.Clean
  apart : Apart here source target
  distinct : files.Nodup
  targets : ∀ file ∈ files, HasTarget s d source target file

/-- What a command becomes for the hub is found again. -/
def CommandComesBack (s d : Agent) (o : Order) (file target : Path) (w : World) : Prop :=
  d = Agent.hub → ∀ b n existing, w.tree.bytes? (Path.spot w.here file) = some b →
    broughtCommand s d file b = .ok n →
    existingFields d target (w.tree.bytes? (Path.spot w.here target)) = .ok existing →
    Frontmatter.ComesBack 1 (n.toCommand d ⟨o.removeForeign, existing⟩).fields
      (bodyText d n.body)

theorem CommandComesBack.same {s d : Agent} {o : Order} {file target : Path} {w y : World}
    (h : CommandComesBack s d o file target w) (hhere : y.here = w.here)
    (hfile : y.tree.bytes? (Path.spot w.here file) = w.tree.bytes? (Path.spot w.here file))
    (htarget : y.tree.bytes? (Path.spot w.here target) =
      w.tree.bytes? (Path.spot w.here target)) : CommandComesBack s d o file target y := by
  rw [CommandComesBack, hhere, hfile, htarget]
  exact h

/-- What commands become for the hub is found again. -/
def CommandsComeBack (s d : Agent) (o : Order) (source target : Path) (files : List Path)
    (w : World) : Prop :=
  ∀ file ∈ files, ∀ t, commandTarget s d source target file = .ok t →
    CommandComesBack s d o file t w

namespace Parted

variable {here : Path} {s d : Agent} {source target : Path} {files : List Path} {o : Order}
  (h : Parted here s d source target files)
include h

theorem facing : Facing here s d source target files :=
  ⟨h.source_clean.tidy, h.target_clean.tidy, h.distinct, h.targets, fun q hs ht => by
    rw [Path.place_eq_spot h.source_clean] at hs
    rw [Path.place_eq_spot h.target_clean] at ht
    exact h.apart.not_both hs ht⟩

theorem matched {file t : Path} (hfile : file ∈ files)
    (ht : commandTarget s d source target file = .ok t) : Matched s d source target file t :=
  h.facing.matched hfile ht

theorem item_grows (file : Path) (hfile : file ∈ files) :
    Grows here target.root (AtTarget here s d source target file)
      (commandItem s d o source target file) :=
  (h.facing.item_grows file hfile).mono fun q hwritten => by
    obtain ⟨t, ht, hq⟩ := hwritten
    rw [Path.place_eq_spot ((h.matched hfile ht).clean_target h.target_clean)] at hq
    exact ⟨t, ht, hq⟩

end Parted

/-- A command before its turn: its file and its target are as they were. -/
def CommandWaits (here : Path) (s d : Agent) (source target file : Path) (w y : World) : Prop :=
  y.Stands here target.root ∧
    ∀ q, CommandNeeds here s d source target file q → y.tree.bytes? q = w.tree.bytes? q

/-- A command after its turn. -/
def CommandDone (here : Path) (s d : Agent) (o : Order) (source target file : Path) (y : World) :
    Prop :=
  y.Stands here target.root ∧ ∀ t, commandTarget s d source target file = .ok t →
    CommandSettled here s d o file t y

theorem CommandDone.same {here : Path} {s d : Agent} {o : Order} {source target file : Path}
    {y z : World} (h : CommandDone here s d o source target file y)
    (hz : z.Stands here target.root)
    (hneeds : ∀ q, CommandNeeds here s d source target file q →
      z.tree.bytes? q = y.tree.bytes? q) : CommandDone here s d o source target file z :=
  ⟨hz, fun t ht => (h.2 t ht).same (hneeds _ (.inl rfl)) (hneeds _ (.inr ⟨t, ht, rfl⟩))⟩

namespace Parted

variable {here : Path} {s d : Agent} {source target : Path} {files : List Path} {o : Order}
  (h : Parted here s d source target files) {w : World}
include h

section
variable {file file' : Path} (hfile : file ∈ files) (hfile' : file' ∈ files) (hne : file' ≠ file)
include hfile hfile' hne

theorem keeps_waiting : Keeps (CommandWaits here s d source target file w)
    (commandItem s d o source target file') := by
  intro y hy
  obtain ⟨hstands, hgrown⟩ := h.item_grows file' hfile' y hy.1
  refine ⟨hstands, fun q hq => (hgrown.bytes? ?_).trans (hy.2 q hq)⟩
  exact (h.targets file' hfile').apart (h.targets file hfile) h.apart hne hq

theorem keeps_done : Keeps (CommandDone here s d o source target file)
    (commandItem s d o source target file') := by
  intro y hy
  obtain ⟨hstands, hgrown⟩ := h.item_grows file' hfile' y hy.1
  refine hy.same hstands fun q hq => hgrown.bytes? ?_
  exact (h.targets file' hfile').apart (h.targets file hfile) h.apart hne hq

end

theorem item_apart {file : Path} (hfile : file ∈ files) {q : Place} {e : Option Entry}
    (habove : ¬ q <+: Path.spot here target) (hbelow : ¬ Path.spot here target <+: q) :
    Keeps (World.At here q e) (commandItem s d o source target file) := by
  obtain ⟨t, ht, hmatched⟩ := h.targets file hfile
  rw [Facing.item_eq ht]
  refine keeps_place_takeCommand s d o file (hmatched.clean_target h.target_clean) fun hpre => ?_
  exact (List.prefix_or_prefix_of_prefix hpre hmatched.target_above).elim habove hbelow

variable (hne : s ≠ d) (hwrites : o.preview = false) (hw : w.Stands here target.root)
  (hback : CommandsComeBack s d o source target files w)
include hne hwrites hw hback

theorem leaves_done {file : Path} (hfile : file ∈ files) :
    Leaves (CommandWaits here s d source target file w) (commandItem s d o source target file)
      (CommandDone here s d o source target file) := by
  intro y op v hy hrun
  obtain ⟨t, ht, hmatched⟩ := h.targets file hfile
  have hstands := h.item_grows (o := o) file hfile y hy.1
  rw [hrun] at hstands
  rw [Facing.item_eq ht] at hrun
  have hsame : CommandComesBack s d o file t y := (hback file hfile t ht).same
    (by rw [hy.1.here_eq, hw.here_eq]) (by rw [hw.here_eq]; exact hy.2 _ (.inl rfl))
    (by rw [hw.here_eq]; exact hy.2 _ (.inr ⟨t, ht, rfl⟩))
  rw [CommandComesBack, hy.1.here_eq] at hsame
  refine ⟨hstands.1, fun t' ht' => ?_⟩
  obtain rfl := Except.ok.inj (ht.symm.trans ht')
  refine settled_of_takeCommand hne hwrites (hmatched.clean_source h.source_clean)
    (hmatched.clean_target h.target_clean) (fun heq => ?_) (hmatched.root_target ▸ hy.1) hsame hrun
  exact h.apart.not_both hmatched.source_above (heq ▸ hmatched.target_above)

theorem all_done (hfine : errors (takeAll s d o source target files w).1 = []) :
    ∀ file ∈ files, CommandDone here s d o source target file
      (takeAll s d o source target files w).2 :=
  inTurn_leaves h.distinct (fun _ hx _ hy hyx => h.keeps_waiting hx hy hyx)
    (fun _ hx => h.leaves_done hne hwrites hw hback hx)
    (fun _ hx _ hy hyx => h.keeps_done hx hy hyx) (fun _ _ => ⟨hw, fun _ _ => rfl⟩) hfine

omit hne hwrites hback in
/-- Where an orphan is deleted, no command needs anything. -/
theorem orphans_apart {file : Path} (hfile : file ∈ files) {q : Place}
    (hneeds : CommandNeeds here s d source target file q) :
    ¬ ∃ p ∈ orphansBehind s d o source target files w, q = Path.place here p := by
  obtain ⟨t, ht, hmatched⟩ := h.targets file hfile
  rintro ⟨p, hp, hplace⟩
  rcases hneeds with rfl | ⟨t', ht', rfl⟩
  · refine h.facing.source_not_command hfile ht ?_
    rw [Path.place_eq_spot (hmatched.clean_source h.source_clean), hplace]
    exact (h.facing.orphan_below hw hp).1.place here
  · refine h.facing.not_orphan_place hw hfile ht' ⟨p, hp, ?_⟩
    rw [← hplace, Path.place_eq_spot ((h.matched hfile ht').clean_target h.target_clean)]

omit hne hwrites hback in
/-- Nothing but commands of the destination has changed. -/
theorem sweepBehind_grown : (sweepBehind s d o source target files w).2.Stands here target.root ∧
    w.Grown (CommandPlace d (Path.place here target) ·)
      (sweepBehind s d o source target files w).2 := by
  obtain ⟨-, htaken⟩ := h.facing.takeAll_grown (o := o) hw
  obtain ⟨hstands, hswept⟩ := h.facing.sweepBehind_grown (o := o) hw
  refine ⟨hstands, (htaken.mono fun q hq => ?_).trans (hswept.mono fun q hq => ?_)⟩
  · obtain ⟨file, hfile, hwritten⟩ := hq
    exact h.facing.written_command hfile hwritten
  · obtain ⟨p, hp, rfl⟩ := hq
    exact (h.facing.orphan_below hw hp).1.place here

/-- A run over commands that returns without failures has settled them, and has left no
orphan where it sweeps. -/
theorem of_run_commandsBetween {r : Report} {x : World}
    (hrun : (commandsBetween s d o source target files).run w = (.ok r, x))
    (hfine : r.failures = []) :
    x.Stands here target.root ∧ w.Grown (CommandPlace d (Path.place here target) ·) x ∧
      (∀ file ∈ files, CommandDone here s d o source target file x) ∧
      (o.sweeps = true → orphanCommands s d source target files x = []) := by
  rw [commandsBetween, run_tellFound_bind, reportCommand_eq] at hrun
  have hsame : w.SameFiles (told o files.length s "command" source w) :=
    still_tellFound o files.length s "command" source w
  generalize told o files.length s "command" source w = u at hrun hsame
  have hu := hsame.stands hw
  have hback' : CommandsComeBack s d o source target files u := fun file hfile t ht =>
    (hback file hfile t ht).same hsame.here (by rw [hsame.tree]) (by rw [hsame.tree])
  obtain ⟨htaken, hnone, hsweeps⟩ := of_run_sweeping o ends_removing.1 hrun hfine
  have hdone := h.all_done hne hwrites hu hback' htaken
  cases hs : o.sweeps with
  | false =>
    obtain rfl := hnone hs
    obtain ⟨hstands, hgrown⟩ := h.facing.takeAll_grown (o := o) hu
    refine ⟨hstands, hsame.grown.trans (hgrown.mono fun q hq => ?_), hdone,
      fun htrue => Bool.noConfusion htrue⟩
    obtain ⟨_, hfile, hwritten⟩ := hq
    exact h.facing.written_command hfile hwritten
  | true =>
    obtain ⟨hswept, rfl⟩ := hsweeps hs
    obtain ⟨hstands, hgrown⟩ := h.sweepBehind_grown (o := o) hu
    obtain ⟨-, hleft⟩ := h.facing.sweepBehind_grown (o := o) hu
    refine ⟨hstands, hsame.grown.trans hgrown, fun file hfile => ?_, fun _ => ?_⟩
    · exact (hdone file hfile).same hstands fun q hq => hleft.bytes? (h.orphans_apart hu hfile hq)
    · refine List.eq_nil_iff_forall_not_mem.mpr fun p hp => ?_
      obtain ⟨hfound, hnot⟩ := mem_orphanCommands.mp hp
      exact hnot (h.facing.expected_of_found hu hwrites hswept hfound)

end Parted

/-! ## Skills -/

/-- A place at the target of a skill is not above a target with another name. -/
theorem BelowTarget.not_above {here target folder : Path} {q : Place}
    (h : BelowTarget here target folder q) {n : String} (hne : n ≠ folder.name) :
    ¬ q <+: Path.spot here target ++ [n] := by
  intro hpre
  have heq := (h.trans hpre).eq_of_length (by simp)
  exact hne (List.singleton_inj.mp (List.append_cancel_left heq)).symm

/-- A place of a lock. -/
def IsLock (lock : Place) : Prop := ∃ folder, lock = folder ++ [lockName]

/-- No command is at the place of a lock. -/
theorem IsLock.not_command {lock : Place} (h : IsLock lock) (a : Agent) (folder : Place) :
    ¬ CommandPlace a folder lock := by
  obtain ⟨init, rfl⟩ := h
  rintro ⟨names, stem, heq⟩
  have hlast := congrArg List.getLast? heq
  rw [commandWay, ← List.append_assoc, List.getLast?_concat, List.getLast?_concat,
    Option.some.injEq] at hlast
  -- No extension ends in the last letter of the name.
  have hletter : lockName.toList.getLast? = a.extension.getLast?.or stem.getLast? := by
    rw [hlast, Agent.fileName, String.toList_ofList, List.getLast?_append]
  have hne : ∃ c, a.extension.getLast? = some c ∧ lockName.toList.getLast? ≠ some c := by
    cases a <;> exact ⟨_, rfl, by decide⟩
  obtain ⟨c, hc, hne⟩ := hne
  rw [hc, Option.some_or] at hletter
  exact hne hletter

/-- No configuration is at the place of a lock. -/
theorem IsLock.ne_config {lock : Place} (h : IsLock lock) (folder : Place) :
    lock ≠ folder ++ Skill.configWay := by
  obtain ⟨init, rfl⟩ := h
  intro heq
  have hlast := congrArg List.getLast? heq
  rw [List.getLast?_append, List.getLast?_append] at hlast
  exact absurd (Option.some.inj hlast) (by decide)

/-- Skills with names of their own, and a folder for their targets that lies apart from
theirs. -/
structure SkillsParted (here source target : Path) (folders : List Path) : Prop where
  target_clean : target.Clean
  apart : Apart here source target
  distinct : (folders.map Path.name).Nodup
  skills : ∀ folder ∈ folders, IsSkillBelow here source folder

/-- What a skill becomes for the hub is found again. -/
def SkillComesBack (s d : Agent) (o : Order) (folder target : Path) (w : World) : Prop :=
  d = Agent.hub → ∀ skill n existing, ((Skill.read s 0 folder.text).run w).1 = .ok skill →
    skill.toNeutral s (some d.name) = .ok n →
    ((existingSkill d target (Skill.isIn w target)).run w).1 = .ok existing →
    Frontmatter.ComesBack 1 (n.toSkill d ⟨o.removeForeign, existing⟩).fields
      (n.toSkill d ⟨o.removeForeign, existing⟩).content

theorem SkillComesBack.same {s d : Agent} {o : Order} {folder target : Path} {w y : World}
    (h : SkillComesBack s d o folder target w) (hw : w.Sound) (hy : y.Sound) (hf : folder.Clean)
    (ht : target.Clean) (hfolder : Skill.SameBelow folder w y)
    (htarget : Skill.SameBelow target w y) : SkillComesBack s d o folder target y := by
  have hrefl := World.SameFiles.refl
  intro hhub skill n existing hread hn hexisting
  rw [← (Skill.agrees_read hw hy s 0 hf hfolder w y (hrefl w) (hrefl y)).1] at hread
  rw [← Skill.isIn_eq hw hy ht htarget,
    ← (agrees_existingSkill hw hy d ht htarget _ w y (hrefl w) (hrefl y)).1] at hexisting
  exact h hhub skill n existing hread hn hexisting

/-- What skills become for the hub is found again. -/
def SkillsComeBack (s d : Agent) (o : Order) (target : Path) (folders : List Path) (w : World) :
    Prop :=
  ∀ folder ∈ folders, SkillComesBack s d o folder (target.append folder.name) w

/-- A skill before its turn: its folder and its target are as they were. -/
def SkillWaits (here target folder : Path) (w y : World) : Prop :=
  y.Stands here target.root ∧
    ∀ q, SkillNeeds here target folder q → y.tree.bytes? q = w.tree.bytes? q

/-- A skill after its turn. -/
def SkillDone (here : Path) (s d : Agent) (o : Order) (target folder : Path) (y : World) : Prop :=
  y.Stands here target.root ∧ SkillSettled here s d o folder (target.append folder.name) y

namespace SkillsParted

variable {here : Path} {s d : Agent} {o : Order} {source target : Path} {folders : List Path}
  (h : SkillsParted here source target folders) {w : World}
include h

section
variable {folder folder' : Path} (hfolder : folder ∈ folders)

theorem clean_target (hfolder : folder ∈ folders) : (target.append folder.name).Clean := by
  have hn := (h.skills folder hfolder).name
  rw [Path.append_name target hn]
  exact h.target_clean.behind (by simpa using hn)

theorem spot_target (hfolder : folder ∈ folders) :
    Path.spot here (target.append folder.name) = Path.spot here target ++ [folder.name] :=
  Path.spot_append (h.skills folder hfolder).name

theorem item_confined (hfolder : folder ∈ folders) :
    Confined here target.root (BelowTarget here target folder) (skillItem s d o target folder) := by
  refine (takeSkill_confined s d o (h.skills folder hfolder).clean.tidy (h.clean_target hfolder)
    (root_append (h.skills folder hfolder).name)).mono fun q hq => ?_
  rwa [h.spot_target hfolder] at hq

/-- What a skill needs lies apart from the targets with other names. -/
theorem needs_apart (hfolder : folder ∈ folders) {n : String} (hne : n ≠ folder.name) {q : Place}
    (hneeds : SkillNeeds here target folder q) : ¬ Path.spot here target ++ [n] <+: q := by
  intro hq
  rcases hneeds with hbelow | hbelow
  · exact h.apart.not_both ((h.skills folder hfolder).below.trans hbelow)
      ((List.prefix_append _ _).trans hq)
  · have heq := (List.prefix_of_prefix_length_le hq hbelow (by simp)).eq_of_length (by simp)
    exact hne (List.singleton_inj.mp (List.append_cancel_left heq))

end

/-- A skill is settled as long as its files are as they are, and its target is. -/
theorem done_of_same {folder : Path} (hfolder : folder ∈ folders) {y z : World}
    (hy : SkillDone here s d o target folder y) (hz : z.Stands here target.root)
    (hneeds : ∀ q, SkillNeeds here target folder q → z.tree.bytes? q = y.tree.bytes? q)
    (hplace : ∀ q, BelowTarget here target folder q → z.tree.get? q = y.tree.get? q) :
    SkillDone here s d o target folder z := by
  obtain ⟨hstands, hsettled⟩ := hy
  refine ⟨hz, hsettled.stays hstands.sound hz.sound hstands.here_eq hz.here_eq
    (h.skills folder hfolder).clean (fun names => hneeds _ (.inl (List.prefix_append _ _)))
    fun names => hplace _ ?_⟩
  rw [BelowTarget, h.spot_target hfolder]
  exact List.prefix_append _ _

section
variable {folder folder' : Path} (hfolder : folder ∈ folders) (hfolder' : folder' ∈ folders)
  (hne : folder' ≠ folder)
include hfolder hfolder' hne

theorem item_elsewhere {y : World} (hy : y.Stands here target.root) :
    ((skillItem s d o target folder').run y).2.Stands here target.root ∧
      (∀ q, SkillNeeds here target folder q →
        ((skillItem s d o target folder').run y).2.tree.bytes? q = y.tree.bytes? q) ∧
      ∀ q, BelowTarget here target folder q →
        ((skillItem s d o target folder').run y).2.tree.get? q = y.tree.get? q := by
  have hname : folder'.name ≠ folder.name := fun heq =>
    hne (List.inj_on_of_nodup_map h.distinct hfolder' hfolder heq)
  obtain ⟨hstands, hmoved⟩ := h.item_confined (s := s) (d := d) (o := o) hfolder' y hy
  refine ⟨hstands, fun q hq => hmoved.bytes? (h.needs_apart hfolder hname hq), fun q hq => ?_⟩
  have hspot := h.spot_target hfolder'
  exact (at_takeSkill (h.skills folder' hfolder').clean.tidy (h.clean_target hfolder')
    (hspot ▸ hq.not_above hname) (hspot ▸ h.needs_apart hfolder hname (.inr hq)) hy.sound
    ⟨hy.here_eq, rfl⟩).2

theorem keeps_waiting : Keeps (SkillWaits here target folder w)
    (skillItem s d o target folder') := by
  intro y hy
  obtain ⟨hstands, hbytes, -⟩ := h.item_elsewhere hfolder hfolder' hne hy.1
  exact ⟨hstands, fun q hq => (hbytes q hq).trans (hy.2 q hq)⟩

theorem keeps_done : Keeps (SkillDone here s d o target folder)
    (skillItem s d o target folder') := by
  intro y hy
  obtain ⟨hstands, hbytes, hplaces⟩ := h.item_elsewhere hfolder hfolder' hne hy.1
  exact h.done_of_same hfolder hy hstands hbytes hplaces

end

section
variable (hne : s ≠ d) (hwrites : o.preview = false) (hw : w.Stands here target.root)
  (hback : SkillsComeBack s d o target folders w)
include hne hwrites hw hback

theorem leaves_done {folder : Path} (hfolder : folder ∈ folders) :
    Leaves (SkillWaits here target folder w) (skillItem s d o target folder)
      (SkillDone here s d o target folder) := by
  intro y op v hy hrun
  obtain ⟨hstands, hbytes⟩ := hy
  have hskill := h.skills folder hfolder
  have hclean := h.clean_target hfolder
  have hspot := h.spot_target hfolder
  have hroot : (target.append folder.name).root = target.root := root_append hskill.name
  have hv := (h.item_confined (s := s) (d := d) (o := o) hfolder y hstands).1
  rw [hrun] at hv
  have hfolderSame : Skill.SameBelow folder w y := fun names => by
    rw [hw.here_eq, hstands.here_eq, hbytes _ (.inl (List.prefix_append _ _))]
  have htargetSame : Skill.SameBelow (target.append folder.name) w y := fun names => by
    rw [hw.here_eq, hstands.here_eq, hspot, hbytes _ (.inr (List.prefix_append _ _))]
  exact ⟨hv, settled_of_takeSkill hne hskill.clean hclean
    (fun names hpre => h.apart.not_both (hskill.below.trans (List.prefix_append _ names))
      ((List.prefix_append _ _).trans (hspot ▸ hpre))) hwrites (hroot ▸ hstands)
    ((hback folder hfolder).same hw.sound hstands.sound hskill.clean hclean hfolderSame
      htargetSame) hrun⟩

theorem all_done (hfine : errors (inTurn (skillItem s d o target) folders w).1 = []) :
    ∀ folder ∈ folders, SkillDone here s d o target folder
      (inTurn (skillItem s d o target) folders w).2 :=
  inTurn_leaves h.distinct.of_map (fun _ hx _ hy hyx => h.keeps_waiting hx hy hyx)
    (fun _ hx => h.leaves_done hne hwrites hw hback hx)
    (fun _ hx _ hy hyx => h.keeps_done hx hy hyx) (fun _ _ => ⟨hw, fun _ _ => rfl⟩) hfine

end

/-- Taking skills leaves the place of a lock filled. -/
theorem items_filled (hw : w.Stands here target.root) {lock : Place} (hlock : IsLock lock)
    (hfilled : w.tree.Filled lock) :
    (inTurn (skillItem s d o target) folders w).2.tree.Filled lock := by
  refine (inTurn_keeps (I := fun y => y.Stands here target.root ∧ y.tree.Filled lock)
    (fun folder hfolder y hy => ⟨(h.item_confined hfolder y hy.1).1, ?_⟩) ⟨hw, hfilled⟩).2
  have hskill := h.skills folder hfolder
  refine filled_takeSkill hskill.clean.tidy (h.clean_target hfolder) (hlock.ne_config _)
    (root_append hskill.name ▸ hy.1) hy.2

/-! ### Skills that are swept -/

omit h in
theorem mem_orphanSkills (ht : target.Clean) {y : World} (hy : y.Stands here target.root)
    {p : Path} : p ∈ orphanSkills target folders y ↔
      ∃ n, p = ⟨target.root, target.parts ++ [n]⟩ ∧ n ∉ folders.map Path.name ∧
        (y.tree.bytes? (Path.spot here target ++ [n, Skill.ownFile])).isSome = true := by
  rw [orphanSkills, List.mem_filter, World.mem_skillFolders hy.sound ht, hy.here_eq]
  constructor
  · rintro ⟨⟨n, rfl, hb⟩, hnot⟩
    refine ⟨n, rfl, ?_, hb⟩
    simpa [Path.name] using hnot
  · rintro ⟨n, rfl, hnot, hb⟩
    refine ⟨⟨n, rfl, hb⟩, ?_⟩
    simpa [Path.name] using hnot

/-- A folder in the folder of targets. -/
theorem clean_orphan {n : String} (hn : ValidName n) :
    (Path.mk target.root (target.parts ++ [n])).Clean :=
  h.target_clean.behind (by simpa using hn)

section
variable {n : String} (hn : ValidName n)
include hn

/-- Deleting a skill fails and leaves all as it is, or takes the files in its folder away. -/
theorem delete_cases (hwrites : o.preview = false) {y : World} (hy : y.Stands here target.root) :
    (∃ e, (delete o ⟨target.root, target.parts ++ [n]⟩ Disk.removeFolder).run y = (.error e, y)) ∨
      ∃ op v, (delete o ⟨target.root, target.parts ++ [n]⟩ Disk.removeFolder).run y = (.ok op, v) ∧
        v.Stands here target.root ∧ ∀ q, v.tree.bytes? q =
          if Path.spot here target ++ [n] <+: q then none else y.tree.bytes? q := by
  have hclean := h.clean_orphan hn
  have hstands := (Disk.removeFolder_confined hclean rfl (by simp) y hy).1
  have hspot : Path.spot here ⟨target.root, target.parts ++ [n]⟩ = Path.spot here target ++ [n] :=
    Path.spot_behind [n]
  rw [delete, hwrites]
  rcases Disk.removeFolder_bytes hy hclean (by simp) with ⟨e, hrun⟩ | ⟨v, hrun, hbytes⟩
  · refine .inl ⟨e, ?_⟩
    change ((Disk.removeFolder _ >>= fun _ => pure _ : Work _)).run y = _
    rw [run_bind, hrun]
  · rw [hrun] at hstands
    rw [hspot] at hbytes
    refine .inr ⟨⟨.deleted, ⟨target.root, target.parts ++ [n]⟩, false⟩, v, ?_, hstands, hbytes⟩
    change ((Disk.removeFolder _ >>= fun _ => pure _ : Work _)).run y = _
    rw [run_bind_of_ok hrun]
    rfl

/-- Deleting a skill takes files away and makes none. -/
theorem keeps_none_delete (hwrites : o.preview = false) {q : Place} :
    Keeps (fun y => y.Stands here target.root ∧ y.tree.bytes? q = none)
      (delete o ⟨target.root, target.parts ++ [n]⟩ Disk.removeFolder) := by
  rintro y ⟨hy, hb⟩
  rcases h.delete_cases hn hwrites hy with ⟨e, hrun⟩ | ⟨op, v, hrun, hv, hbytes⟩
  · rw [hrun]
    exact ⟨hy, hb⟩
  · rw [hrun]
    exact ⟨hv, by rw [hbytes, hb, ite_self]⟩

/-- A skill that has been deleted has no file left. -/
theorem leaves_gone_delete (hwrites : o.preview = false) :
    Leaves (World.Stands here target.root)
      (delete o ⟨target.root, target.parts ++ [n]⟩ Disk.removeFolder)
      (fun y => y.Stands here target.root ∧
        y.tree.bytes? (Path.spot here target ++ [n, Skill.ownFile]) = none) := by
  intro y op v hy hdelete
  rcases h.delete_cases hn hwrites hy with ⟨e, hrun⟩ | ⟨op', v', hrun, hv, hbytes⟩
  · rw [hrun] at hdelete
    cases hdelete
  · rw [hrun] at hdelete
    obtain ⟨-, rfl⟩ := Prod.mk.inj hdelete
    exact ⟨hv, by rw [hbytes, if_pos ⟨[Skill.ownFile], by simp⟩]⟩

/-- Deleting a skill leaves what does not lie below its folder. -/
theorem keeps_place_delete_skill {q : Place} {e : Option Entry}
    (hq : ¬ Path.spot here target ++ [n] <+: q) : Keeps (World.At here q e)
      (delete o ⟨target.root, target.parts ++ [n]⟩ Disk.removeFolder) := by
  refine keeps_delete World.At.same o (Disk.keeps_removeFolder fun hpre => hq ?_)
  rwa [Path.place_eq_spot (h.clean_orphan hn), Path.spot_behind] at hpre

/-- Deleting a skill with another name leaves one that is settled. -/
theorem keeps_done_delete (hwrites : o.preview = false) {folder : Path} (hfolder : folder ∈ folders)
    (hne : n ≠ folder.name) : Keeps (SkillDone here s d o target folder)
      (delete o ⟨target.root, target.parts ++ [n]⟩ Disk.removeFolder) := by
  intro y hy
  rcases h.delete_cases hn hwrites hy.1 with ⟨e, hrun⟩ | ⟨op, v, hrun, hv, hbytes⟩
  · rw [hrun]
    exact hy
  · rw [hrun]
    refine h.done_of_same hfolder hy hv (fun q hq => ?_) fun q hq => ?_
    · rw [hbytes, if_neg (h.needs_apart hfolder hne hq)]
    · have hplace := h.keeps_place_delete_skill (o := o) hn (h.needs_apart hfolder hne (.inr hq)) y
        ⟨hy.1.here_eq, rfl⟩
      rw [hrun] at hplace
      exact hplace.2

end

/-- Behind a sweep without failures the skills are settled as they were, and no orphan is
left. A lock can be put where one could, and stays where it is at the target of a skill. -/
theorem swept (hwrites : o.preview = false) {y : World} (hy : y.Stands here target.root)
    (hdone : ∀ folder ∈ folders, SkillDone here s d o target folder y)
    (hfine : errors (sweepIn o (orphanSkills target folders) Disk.removeFolder y).1 = [])
    {lock : Place} (hlock : y.tree.Filled lock) :
    let z := (sweepIn o (orphanSkills target folders) Disk.removeFolder y).2
    z.Stands here target.root ∧ (∀ folder ∈ folders, SkillDone here s d o target folder z) ∧
      z.tree.Admits lock ∧
      (∀ folder ∈ folders, BelowTarget here target folder lock → z.tree.Filled lock) ∧
      orphanSkills target folders z = [] := by
  have horphan : ∀ p ∈ orphanSkills target folders y, ∃ n, ValidName n ∧
      p = ⟨target.root, target.parts ++ [n]⟩ ∧ n ∉ folders.map Path.name := fun p hp => by
    obtain ⟨n, rfl, hnot, hb⟩ := (mem_orphanSkills h.target_clean hy).mp hp
    obtain ⟨b, hb⟩ := Option.isSome_iff_exists.mp hb
    exact ⟨n, hy.sound.tree.names_of_get? (Tree.bytes?_eq_some_iff.mp hb) n (by simp), rfl, hnot⟩
  have hnone (q : Place) : ∀ p ∈ orphanSkills target folders y,
      Keeps (fun z => z.Stands here target.root ∧ z.tree.bytes? q = none)
        (delete o p Disk.removeFolder) := fun p hp => by
    obtain ⟨n, hn, rfl, -⟩ := horphan p hp
    exact h.keeps_none_delete hn hwrites
  have hstands : ∀ p ∈ orphanSkills target folders y,
      Keeps (World.Stands here target.root) (delete o p Disk.removeFolder) := fun p hp z hz => by
    obtain ⟨n, hn, rfl, -⟩ := horphan p hp
    rcases h.delete_cases hn hwrites hz with ⟨e, hrun⟩ | ⟨op, v, hrun, hv, -⟩
    · rwa [hrun]
    · rwa [hrun]
  have hz := inTurn_keeps hstands hy
  have hlost : ∀ q, y.tree.bytes? q = none →
      (sweepIn o (orphanSkills target folders) Disk.removeFolder y).2.tree.bytes? q = none :=
    fun q hq => (inTurn_keeps (hnone q) ⟨hy, hq⟩).2
  have hnodup : (orphanSkills target folders y).Nodup :=
    (World.nodup_skillFolders hy.sound target).filter _
  have hturn : ∀ p ∈ orphanSkills target folders y,
      Leaves (World.Stands here target.root) (delete o p Disk.removeFolder)
        (fun z => z.Stands here target.root ∧
          z.tree.bytes? (Path.spot here p ++ [Skill.ownFile]) = none) := fun p hp => by
    obtain ⟨n, hn, rfl, -⟩ := horphan p hp
    rw [Path.spot_behind, List.append_assoc]
    exact h.leaves_gone_delete hn hwrites
  have hgone := inTurn_leaves hnodup (fun _ _ p hp _ => hstands p hp) hturn
    (fun _ _ p hp _ => hnone _ p hp) (fun _ _ => hy) hfine
  refine ⟨hz, fun folder hfolder => ?_, ?_, fun folder hfolder hbelow => ?_, ?_⟩
  · refine inTurn_keeps (fun p hp => ?_) (hdone folder hfolder)
    obtain ⟨n, hn, rfl, hnot⟩ := horphan p hp
    exact h.keeps_done_delete hn hwrites hfolder fun heq =>
      hnot (List.mem_map.mpr ⟨folder, hfolder, heq.symm⟩)
  · exact inTurn_keeps (I := fun z => z.tree.Admits lock) (fun p _ => keeps_delete
      (fun _ _ hv hw => by rwa [hv.tree]) o (Disk.keeps_admits_removeFolder lock p))
      (hlock.admits hy.sound.tree)
  · have hkeeps : ∀ p ∈ orphanSkills target folders y,
        Keeps (World.At here lock (y.tree.get? lock)) (delete o p Disk.removeFolder) := fun p hp => by
      obtain ⟨n, hn, rfl, hnot⟩ := horphan p hp
      refine h.keeps_place_delete_skill hn (h.needs_apart hfolder (fun heq => ?_) (.inr hbelow))
      exact hnot (List.mem_map.mpr ⟨folder, hfolder, heq.symm⟩)
    rw [Tree.Filled, (inTurn_keeps hkeeps ⟨hy.here_eq, rfl⟩).2]
    exact hlock
  · refine List.eq_nil_iff_forall_not_mem.mpr fun p hp => ?_
    -- What is there now was there before the sweep, so it was swept.
    obtain ⟨n, rfl, hnot, hb⟩ := (mem_orphanSkills h.target_clean hz).mp hp
    have hbefore : (⟨target.root, target.parts ++ [n]⟩ : Path) ∈ orphanSkills target folders y := by
      refine (mem_orphanSkills h.target_clean hy).mpr ⟨n, rfl, hnot, ?_⟩
      refine Option.isSome_iff_ne_none.mpr fun hnone => ?_
      rw [hlost _ hnone] at hb
      cases hb
    have hnone := (hgone _ hbefore).2
    rw [Path.spot_behind, List.append_assoc, List.singleton_append] at hnone
    rw [hnone] at hb
    cases hb

/-- A run over skills that returns without failures has settled them, and has left no
orphan where it sweeps. Where there was a lock one can be put, and at the target of a skill it
is still there. -/
theorem of_run_skillsBetween (hne : s ≠ d) (hwrites : o.preview = false)
    (hw : w.Stands here target.root) (hback : SkillsComeBack s d o target folders w) {lock : Place}
    (hplace : IsLock lock) (hlock : w.tree.Filled lock) {r : Report} {x : World}
    (hrun : (skillsBetween s d o source target folders).run w = (.ok r, x))
    (hfine : r.failures = []) :
    x.Stands here target.root ∧ w.Moved (Path.spot here target <+: ·) x ∧
      (∀ folder ∈ folders, SkillDone here s d o target folder x) ∧
      (o.sweeps = true → orphanSkills target folders x = []) ∧ x.tree.Admits lock ∧
      ∀ folder ∈ folders, BelowTarget here target folder lock → x.tree.Filled lock := by
  have hmoved := (skillsBetween_confined s d o h.target_clean h.skills w hw).2
  rw [hrun] at hmoved
  rw [skillsBetween, run_tellFound_bind] at hrun
  change (sweeping o (reportItems Report.ofItem (skillItem s d o target) folders) _ _).run _ = _
    at hrun
  have hsame : w.SameFiles (told o folders.length s "skill" source w) :=
    still_tellFound o folders.length s "skill" source w
  generalize told o folders.length s "skill" source w = u at hrun hsame
  have hu := hsame.stands hw
  have hback' : SkillsComeBack s d o target folders u := fun folder hfolder =>
    (hback folder hfolder).same hw.sound hu.sound (h.skills folder hfolder).clean
      (h.clean_target hfolder) (fun names => by rw [hsame.tree, hsame.here])
      fun names => by rw [hsame.tree, hsame.here]
  obtain ⟨htaken, hnone, hsweeps⟩ := of_run_sweeping o ends_removing.2 hrun hfine
  have hdone := h.all_done hne hwrites hu hback' htaken
  have hfilled := h.items_filled (s := s) (d := d) (o := o) hu hplace
    (Disk.filled_same _ _ hsame hlock)
  have hleft : (inTurn (skillItem s d o target) folders u).2.Stands here target.root :=
    inTurn_keeps (fun folder hfolder y hy => (h.item_confined hfolder y hy).1) hu
  cases hs : o.sweeps with
  | false =>
    obtain rfl := hnone hs
    exact ⟨hleft, hmoved, hdone, fun htrue => Bool.noConfusion htrue,
      hfilled.admits hleft.sound.tree, fun _ _ _ => hfilled⟩
  | true =>
    obtain ⟨hswept, rfl⟩ := hsweeps hs
    obtain ⟨hstands, hkept, hadmits, hstays, hempty⟩ :=
      h.swept hwrites hleft hdone hswept hfilled
    exact ⟨hstands, hmoved, hkept, fun _ => hempty, hadmits, hstays⟩

end SkillsParted

end AgentRelay.Sync
