import AgentRelay.Proofs.Sync.Report

/-
  Runs over the commands and over the skills of an agent.

  Both take the items of the source one after the other and may then sweep what
  is left at the destination without a source (`sweeping`). What a run changes
  lies below the destination's folder, and the preview finds the same items and
  the same orphans as the run (`predicts_runCommands`, `predicts_runSkills`).
-/

namespace AgentRelay.Sync

open Files (Place Tree Entry ValidName)
open Work

/-- Items are taken, and orphans found afterwards are removed when the order
asks for it. -/
def sweeping (o : Order) (items : Work Report) (orphans : World → List Path)
    (remove : Path → Work Unit) : Work Report :=
  if o.sweeps then do
    let report ← items
    let swept ← (do reports (reportOrphan o remove) (orphans (← get)))
    return report.append swept
  else items

/-- Nothing is swept unless the order asks for it. -/
theorem sweeping_spared {o : Order} (h : o.sweeps = false) (items : Work Report)
    (orphans : World → List Path) (remove : Path → Work Unit) :
    sweeping o items orphans remove = items := if_neg (by simp [h])

/-- The commands of a destination that are no targets. -/
def orphanCommands (s d : Agent) (source target : Path) (files : List Path) (w : World) :
    List Path :=
  (w.commandFiles d target none).filter fun p =>
    !(files.filterMap fun file => (commandTarget s d source target file).toOption).contains p

/-- The skills of a destination with other names. -/
def orphanSkills (target : Path) (folders : List Path) (w : World) : List Path :=
  (w.skillFolders target none).filter fun p => !(folders.map Path.name).contains p.name

/-- Takes a skill into a folder of skills. -/
def reportSkill (s d : Agent) (o : Order) (target folder : Path) : Work Report := do
  return Report.ofItem (← collected (takeSkill s d o folder (target.append folder.name)))

/-- The run over commands, between two folders. -/
def commandsBetween (s d : Agent) (o : Order) (source target : Path) (files : List Path) :
    Work Report := do
  tellFound o files.length s "command" source
  sweeping o (reports (reportCommand s d o source target) files)
    (orphanCommands s d source target files) Disk.removeFile

/-- The run over skills, between two folders. -/
def skillsBetween (s d : Agent) (o : Order) (source target : Path) (folders : List Path) :
    Work Report := do
  tellFound o folders.length s "skill" source
  sweeping o (reports (reportSkill s d o target) folders) (orphanSkills target folders)
    Disk.removeFolder

theorem runCommands_eq (s d : Agent) (o : Order) :
    runCommands s d o = (do
      let w ← get
      let source ← Work.ofExcept (o.setup.commands s w)
      let target ← Work.ofExcept (o.setup.commands d w)
      commandsBetween s d o source target (w.commandFiles s source o.only)) := by
  unfold runCommands commandsBetween sweeping orphanCommands
  refine bind_congr fun w => bind_congr fun source => bind_congr fun target => ?_
  refine bind_congr fun _ => ?_
  by_cases hsweep : o.sweeps = true
  · simp [hsweep]
  · simp [hsweep]

theorem runSkills_eq (s d : Agent) (o : Order) :
    runSkills s d o = (do
      let w ← get
      let target ← Work.ofExcept (o.setup.skills d w)
      let source ← Work.ofExcept (o.setup.skills s w)
      skillsBetween s d o source target (w.skillFolders source o.only)) := by
  unfold runSkills skillsBetween sweeping orphanSkills reportSkill
  refine bind_congr fun w => bind_congr fun source => bind_congr fun target => ?_
  refine bind_congr fun _ => ?_
  by_cases hsweep : o.sweeps = true
  · simp [hsweep]
  · simp [hsweep]

/-! ## Sweeping -/

@[simp] theorem Order.as_sweeps (o : Order) (preview : Bool) :
    (o.as preview).sweeps = o.sweeps := rfl

section
variable {here : Path} {root : Nat} {R : Place → Prop} {orphans : World → List Path}
  {remove : Path → Work Unit}

theorem still_sweeping (o : Order) {items : Work Report} (h : Still items) :
    Still (sweeping (o.as true) items orphans remove) := by
  have hswept : Still (do
      reports (reportOrphan (o.as true) remove) (orphans (← get)) : Work Report) :=
    Still.get_bind fun w => still_reports fun p _ => still_reportOrphan o remove p
  unfold sweeping
  split
  · exact Still.bind h fun report => Still.bind hswept fun _ => Still.pure _
  · exact h

theorem sweeping_confined (o : Order) {items : Work Report} (h : Confined here root R items)
    (hremove : ∀ u, u.Stands here root → ∀ p ∈ orphans u, Confined here root R (remove p)) :
    Confined here root R (sweeping o items orphans remove) := by
  have hswept : Confined here root R (do
      reports (reportOrphan o remove) (orphans (← get)) : Work Report) := by
    refine Confined.get_bind fun u hu => (reports_confined fun p hp =>
      reportOrphan_confined o (hremove u hu p hp)).mono fun q hq => ?_
    obtain ⟨p, hp, hR⟩ := hq
    exact hR
  unfold sweeping
  split
  · exact Confined.bind h fun report => Confined.bind hswept fun _ =>
      Confined.of_still (Still.pure _)
  · exact h

/-- A preview that finds the same orphans announces what is swept. -/
theorem predicts_sweeping {w u : World} (o : Order) {items items' : Work Report}
    (hs : Still items) (hitems : Predicts w u items items') (hu : u.Stands here root)
    (hR : Confined here root R items')
    (horphans : ∀ u', u'.Stands here root → u.Moved R u' → ∀ v v', w.SameFiles v →
      u'.SameFiles v' → orphans v = orphans v') :
    Predicts w u (sweeping (o.as true) items orphans remove)
      (sweeping (o.as false) items' orphans remove) := by
  unfold sweeping
  rw [Order.as_sweeps, Order.as_sweeps]
  split
  · refine Predicts.append_confined hs hitems hu (ConfinedAt.of_confined hR) fun u' hu' hmoved => ?_
    refine Foretells.get_bind fun v v' hv hv' => ?_
    rw [horphans u' hu' hmoved v v' hv hv']
    exact predicts_swept w u' o remove _
  · exact hitems

end

theorem still_tellFound (o : Order) (n : Nat) (a : Agent) (what : String) (folder : Path) :
    Still (tellFound o n a what folder) := by
  unfold tellFound
  split
  · exact Still.say _
  · exact Still.pure _

theorem agrees_tellFound (w u : World) (o : Order) (n : Nat) (a : Agent) (what : String)
    (folder : Path) : Agrees w u (tellFound (o.as true) n a what folder)
      (tellFound (o.as false) n a what folder) := by
  unfold tellFound
  rw [Order.as_verbose, Order.as_verbose]
  split
  · exact Agrees.say _
  · exact Agrees.pure _

/-! ## Commands -/

theorem still_reportCommand (s d : Agent) (o : Order) (source target file : Path) :
    Still (reportCommand s d (o.as true) source target file) :=
  Still.bind (Still.ofExcept _) fun t =>
    Still.bind (still_collected (still_takeCommand s d o file t)) fun _ => Still.pure _

theorem still_runCommands (s d : Agent) (o : Order) : Still (runCommands s d (o.as true)) := by
  rw [runCommands_eq]
  refine Still.get_bind fun w => Still.bind (Still.ofExcept _) fun source =>
    Still.bind (Still.ofExcept _) fun target => Still.bind (still_tellFound _ _ _ _ _) fun _ => ?_
  exact still_sweeping o (still_reports fun file _ => still_reportCommand s d o source target file)

/-- No way below a folder has a colon. -/
def ColonFree (folder : Path) (files : List Path) : Prop :=
  ∀ file ∈ files, ∀ way, folder.below? file = some way → ':' ∉ way.chars

/-- A command and its target have the same way, but for the extension. -/
def Matched (s d : Agent) (source target file t : Path) : Prop :=
  ∃ init stem, (∀ n ∈ init, ValidName n) ∧ '/' ∉ stem ∧
    file = ⟨source.root, source.parts ++ commandWay s init stem⟩ ∧
    t = ⟨target.root, target.parts ++ commandWay d init stem⟩

namespace Matched

variable {s d : Agent} {source target file file' t t' here : Path}

theorem clean_source (h : Matched s d source target file t) (hs : source.Clean) : file.Clean := by
  obtain ⟨init, stem, hinit, hstem, rfl, rfl⟩ := h
  exact hs.behind (valid_commandWay s hinit hstem)

theorem clean_target (h : Matched s d source target file t) (ht : target.Clean) : t.Clean := by
  obtain ⟨init, stem, hinit, hstem, rfl, rfl⟩ := h
  exact ht.behind (valid_commandWay d hinit hstem)

theorem root_target (h : Matched s d source target file t) : t.root = target.root := by
  obtain ⟨init, stem, hinit, hstem, rfl, rfl⟩ := h
  rfl

theorem source_above (h : Matched s d source target file t) :
    Path.spot here source <+: Path.spot here file := by
  obtain ⟨init, stem, hinit, hstem, rfl, rfl⟩ := h
  rw [Path.spot_behind]
  exact List.prefix_append _ _

theorem target_above (h : Matched s d source target file t) :
    Path.spot here target <+: Path.spot here t := by
  obtain ⟨init, stem, hinit, hstem, rfl, rfl⟩ := h
  rw [Path.spot_behind]
  exact List.prefix_append _ _

/-- Different commands have targets at different places. -/
theorem eq_of_spot (h : Matched s d source target file t)
    (h' : Matched s d source target file' t') (hspot : Path.spot here t = Path.spot here t') :
    file = file' := by
  obtain ⟨init, stem, -, -, rfl, rfl⟩ := h
  obtain ⟨init', stem', -, -, rfl, rfl⟩ := h'
  rw [Path.spot_behind, Path.spot_behind] at hspot
  obtain ⟨rfl, rfl⟩ := commandWay_injective d (List.append_cancel_left hspot)
  rfl

end Matched

/-- The target of a command is known, and matches it. -/
def HasTarget (s d : Agent) (source target file : Path) : Prop :=
  ∃ t, commandTarget s d source target file = .ok t ∧ Matched s d source target file t

theorem hasTarget_of_way {s d : Agent} {source target : Path} {init : List String}
    {stem : List Char} (hinit : ∀ n ∈ init, ValidName n) (hstem : '/' ∉ stem)
    {files : List Path} (hcolon : ColonFree source files)
    (hfile : ⟨source.root, source.parts ++ commandWay s init stem⟩ ∈ files) :
    HasTarget s d source target ⟨source.root, source.parts ++ commandWay s init stem⟩ := by
  have hway := hcolon _ hfile _ (Path.below?_behind source _)
  exact ⟨_, commandTarget_way s d source target hinit hstem hway, init, stem, hinit, hstem, rfl,
    rfl⟩

theorem hasTarget_of_mem {w : World} (h : w.Sound) {s : Agent} (d : Agent) {source : Path}
    (target : Path) (hs : source.Clean) {only : Option String} (ho : World.LeadsBelow only)
    (hcolon : ColonFree source (w.commandFiles s source only)) {file : Path}
    (hfile : file ∈ w.commandFiles s source only) :
    HasTarget s d source target file := by
  obtain ⟨init, stem, rfl, hinit, hstem, -⟩ := World.exists_way_of_mem h hs ho hfile
  exact hasTarget_of_way hinit hstem hcolon hfile

/-- The place of a command's target. -/
def AtTarget (here : Path) (s d : Agent) (source target file : Path) (q : Place) : Prop :=
  ∃ t, commandTarget s d source target file = .ok t ∧ q = Path.spot here t

theorem HasTarget.matched {here : Path} {s d : Agent} {source target file : Path} {q : Place}
    (h : HasTarget s d source target file) (hq : AtTarget here s d source target file q) :
    ∃ t, Matched s d source target file t ∧ q = Path.spot here t := by
  obtain ⟨t, htarget, hmatched⟩ := h
  obtain ⟨t', htarget', rfl⟩ := hq
  rw [htarget] at htarget'
  obtain rfl := Except.ok.inj htarget'
  exact ⟨t, hmatched, rfl⟩

theorem reportCommand_confined {here : Path} (s d : Agent) (o : Order) {source target file t : Path}
    (ht : target.Clean) (htarget : commandTarget s d source target file = .ok t)
    (hmatched : Matched s d source target file t) :
    Confined here target.root (AtTarget here s d source target file)
      (reportCommand s d o source target file) := by
  unfold reportCommand
  rw [htarget, ofExcept_ok_bind]
  refine Confined.bind (collected_confined ?_) fun _ => Confined.of_still (Still.pure _)
  refine (takeCommand_confined s d o file (hmatched.clean_target ht) hmatched.root_target).mono ?_
  exact fun q hq => ⟨t, htarget, hq⟩

theorem leadsBelow_none : World.LeadsBelow none := nofun

/-- What a run over commands changes lies below the folder of targets. -/
theorem commandsBetween_confined {here : Path} (s d : Agent) (o : Order) {source target : Path}
    (ht : target.Clean) {files : List Path}
    (hfiles : ∀ file ∈ files, HasTarget s d source target file) :
    Confined here target.root (Path.spot here target <+: ·)
      (commandsBetween s d o source target files) := by
  unfold commandsBetween
  refine Confined.bind (Confined.of_still (still_tellFound _ _ _ _ _)) fun _ => ?_
  refine sweeping_confined o ?_ fun u hu p hp => ?_
  · have hitem : ∀ file ∈ files, Confined here target.root (AtTarget here s d source target file)
        (reportCommand s d o source target file) := by
      intro file hfile
      obtain ⟨t, htarget, hmatched⟩ := hfiles file hfile
      exact reportCommand_confined s d o ht htarget hmatched
    refine (reports_confined hitem).mono fun q hq => ?_
    obtain ⟨file, hfile, hat⟩ := hq
    obtain ⟨t, hmatched, rfl⟩ := (hfiles file hfile).matched hat
    exact hmatched.target_above
  · -- An orphan is a command that is there, so it lies below the targets as well.
    have hpresent := (List.mem_filter.mp hp).1
    obtain ⟨init, stem, rfl, hinit, hstem, -⟩ :=
      World.exists_way_of_mem hu.sound ht leadsBelow_none hpresent
    have hclean := ht.behind (valid_commandWay d hinit hstem)
    refine (Disk.removeFile_confined hclean).mono fun q hq => ?_
    rw [hq, Path.spot_behind]
    exact List.prefix_append _ _

/-- Commands of the destination that no run has touched are orphans before and
after. -/
theorem orphanCommands_eq {w u : World} (h : w.Sound) (h' : u.Sound) {s d : Agent}
    {source target : Path} (ht : target.Clean) {files : List Path}
    (hfiles : ∀ file ∈ files, HasTarget s d source target file) {R : Place → Prop}
    (hmoved : w.Moved R u)
    (hR : ∀ names, R (Path.spot w.here target ++ names) →
      ∃ file ∈ files, AtTarget w.here s d source target file (Path.spot w.here target ++ names)) :
    orphanCommands s d source target files w = orphanCommands s d source target files u := by
  have hall : Option.filter (fun name : String => !name.isEmpty) none = none := rfl
  -- Both listings are sorted and without repetition: their members decide.
  have hsorted : ∀ v : World, (orphanCommands s d source target files v).Pairwise
      fun p q => Path.le p q = true := by
    intro v
    rw [orphanCommands, World.commandFiles_all v d target hall]
    exact ((World.pairwise_filesBelow v target).filter _).filter _
  have hnodup : ∀ v : World, v.Sound → (orphanCommands s d source target files v).Nodup :=
    fun v hv => (World.nodup_commandFiles hv ht leadsBelow_none).filter _
  refine Path.eq_of_sorted (hsorted w) (hsorted u) (hnodup w h) (hnodup u h') fun p => ?_
  rw [orphanCommands, orphanCommands, List.mem_filter, List.mem_filter,
    World.commandFiles_all w d target hall, World.commandFiles_all u d target hall,
    World.mem_commandsBelow h ht, World.mem_commandsBelow h' ht]
  refine and_congr_left fun horphan => exists_congr fun init => exists_congr fun stem =>
    and_congr_right fun hp => ?_
  -- A place that the run may have changed is a target's, and targets are no orphans.
  have hfree : ¬ R (Path.spot w.here target ++ commandWay d init stem) := by
    intro hin
    obtain ⟨file, hfile, t, htarget, hspot⟩ := hR _ hin
    obtain ⟨t', htarget', init', stem', -, -, -, rfl⟩ := hfiles file hfile
    rw [htarget] at htarget'
    obtain rfl := Except.ok.inj htarget'
    rw [Path.spot_behind] at hspot
    obtain ⟨rfl, rfl⟩ := commandWay_injective d (List.append_cancel_left hspot)
    have hexpected : p ∈ files.filterMap fun file =>
        (commandTarget s d source target file).toOption := by
      refine List.mem_filterMap.mpr ⟨file, hfile, ?_⟩
      rw [htarget, hp]
      rfl
    simp [hexpected] at horphan
  rw [hmoved.here, hmoved.bytes? hfree]

/-- Neither of two paths leads below the other. -/
def Apart (here p q : Path) : Prop :=
  ¬ Path.spot here p <+: Path.spot here q ∧ ¬ Path.spot here q <+: Path.spot here p

theorem Apart.not_both {here p q : Path} (h : Apart here p q) {place : Place}
    (hp : Path.spot here p <+: place) (hq : Path.spot here q <+: place) : False := by
  rcases List.prefix_or_prefix_of_prefix hp hq with hpq | hqp
  · exact h.1 hpq
  · exact h.2 hqp

/-- What the preview needs of a command: its file and the place of its target. -/
def CommandNeeds (here : Path) (s d : Agent) (source target file : Path) (q : Place) : Prop :=
  q = Path.spot here file ∨ AtTarget here s d source target file q

/-- No command writes what another one needs. -/
theorem HasTarget.apart {here : Path} {s d : Agent} {source target x y : Path}
    (hx : HasTarget s d source target x) (hy : HasTarget s d source target y)
    (hapart : Apart here source target) (hne : x ≠ y) {q : Place}
    (hneeds : CommandNeeds here s d source target y q) :
    ¬ AtTarget here s d source target x q := by
  intro hcover
  obtain ⟨t, hmatched, rfl⟩ := hx.matched hcover
  rcases hneeds with hspot | hat
  · obtain ⟨t', -, hmatched'⟩ := hy
    refine hapart.not_both (hspot ▸ ?_) hmatched.target_above
    exact hmatched'.source_above
  · obtain ⟨t', hmatched', hspot⟩ := hy.matched hat
    exact hne (hmatched.eq_of_spot hmatched' hspot)

theorem commands_apart {here : Path} {s d : Agent} {source target : Path} {files : List Path}
    (hapart : Apart here source target) (hnodup : files.Nodup)
    (hfiles : ∀ file ∈ files, HasTarget s d source target file) :
    files.Pairwise fun x y => ∀ q, CommandNeeds here s d source target y q →
      ¬ AtTarget here s d source target x q :=
  List.Pairwise.imp_of_mem (fun {x y} hx hy hne _ hneeds =>
    (hfiles x hx).apart (hfiles y hy) hapart hne hneeds) hnodup

theorem predicts_reportCommand {w u : World} (h : w.Sound) (h' : u.Sound) (s d : Agent) (o : Order)
    {source target file t : Path} (hs : source.Clean) (ht : target.Clean)
    (htarget : commandTarget s d source target file = .ok t)
    (hmatched : Matched s d source target file t) {R : Place → Prop} (hmoved : w.Moved R u)
    (hthere : (w.tree.bytes? (Path.spot w.here file)).isSome = true)
    (hR : ∀ q, CommandNeeds w.here s d source target file q → ¬ R q) :
    Predicts w u (reportCommand s d (o.as true) source target file)
      (reportCommand s d (o.as false) source target file) := by
  unfold reportCommand
  rw [htarget, ofExcept_ok_bind, ofExcept_ok_bind]
  refine predicts_item (foretells_takeCommand h h' s d o (hmatched.clean_source hs)
    (hmatched.clean_target ht) hthere ?_ ?_)
  · rw [hmoved.here, hmoved.bytes? (hR _ (Or.inl rfl))]
  · rw [hmoved.here, hmoved.bytes? (hR _ (Or.inr ⟨t, htarget, rfl⟩))]

/-- The preview of a run over commands announces it. -/
theorem predicts_commandsBetween {w u : World} (h : w.Sound) (s d : Agent) (o : Order)
    {source target : Path} (hs : source.Clean) (ht : target.Clean)
    (hapart : Apart w.here source target) (ho : World.LeadsBelow o.only)
    (hcolon : ColonFree source (w.commandFiles s source o.only))
    (hu : u.Stands w.here target.root) {R : Place → Prop} (hmoved : w.Moved R u)
    (hRs : ∀ q, R q → ¬ Path.spot w.here source <+: q)
    (hRt : ∀ q, R q → ¬ Path.spot w.here target <+: q) :
    Predicts w u
      (commandsBetween s d (o.as true) source target (w.commandFiles s source o.only))
      (commandsBetween s d (o.as false) source target (w.commandFiles s source o.only)) := by
  have hfiles : ∀ file ∈ w.commandFiles s source o.only, HasTarget s d source target file :=
    fun _ hfile => hasTarget_of_mem h d target hs ho hcolon hfile
  have hfree : ∀ file ∈ w.commandFiles s source o.only, ∀ q,
      CommandNeeds w.here s d source target file q → ¬ R q := by
    intro file hfile q hneeds hq
    rcases hneeds with rfl | hat
    · obtain ⟨t, -, hmatched⟩ := hfiles file hfile
      exact hRs _ hq hmatched.source_above
    · obtain ⟨t, hmatched, rfl⟩ := (hfiles file hfile).matched hat
      exact hRt _ hq hmatched.target_above
  have hconfined : ∀ file ∈ w.commandFiles s source o.only, Confined w.here target.root
      (AtTarget w.here s d source target file)
      (reportCommand s d (o.as false) source target file) := by
    intro file hfile
    obtain ⟨t, htarget, hmatched⟩ := hfiles file hfile
    exact reportCommand_confined s d _ ht htarget hmatched
  unfold commandsBetween
  refine Foretells.bind (agrees_tellFound w u o _ s "command" source) fun _ => ?_
  refine predicts_sweeping o ?_ ?_ hu (reports_confined hconfined) ?_
  · exact still_reports fun file _ => still_reportCommand s d o source target file
  · refine predicts_reports (fun file _ => still_reportCommand s d o source target file) hconfined
      (fun file hfile R' u' hu' hmoved' hR' => ?_)
      (commands_apart hapart (World.nodup_commandFiles h hs ho) hfiles) hu hmoved hfree
    obtain ⟨t, htarget, hmatched⟩ := hfiles file hfile
    obtain ⟨init, stem, rfl, -, -, hthere⟩ := World.exists_way_of_mem h hs ho hfile
    rw [← Path.spot_behind] at hthere
    exact predicts_reportCommand h hu'.sound s d o hs ht htarget hmatched hmoved' hthere hR'
  · intro u' hu' hmoved' v v' hv hv'
    -- The preview sweeps in the world as it was, the run in the one it has changed.
    have hall : v.Moved (fun q => R q ∨ ∃ file ∈ w.commandFiles s source o.only,
        AtTarget w.here s d source target file q) v' :=
      (hv.symm.moved.trans (hmoved.mono fun _ => Or.inl)).trans
        ((hmoved'.mono fun _ => Or.inr).trans hv'.moved)
    refine orphanCommands_eq (hv.sound h) (hv'.sound hu'.sound) ht hfiles hall fun names hin => ?_
    rw [hv.here] at hin ⊢
    rcases hin with hr | hcover
    · exact absurd (List.prefix_append _ _) (hRt _ hr)
    · exact hcover

/-! ## Skills -/

theorem still_reportSkill (s d : Agent) (o : Order) (target folder : Path) :
    Still (reportSkill s d (o.as true) target folder) :=
  Still.bind (still_collected (still_takeSkill s d o folder _)) fun _ => Still.pure _

theorem still_runSkills (s d : Agent) (o : Order) : Still (runSkills s d (o.as true)) := by
  rw [runSkills_eq]
  refine Still.get_bind fun w => Still.bind (Still.ofExcept _) fun target =>
    Still.bind (Still.ofExcept _) fun source => Still.bind (still_tellFound _ _ _ _ _) fun _ => ?_
  exact still_sweeping o (still_reports fun folder _ => still_reportSkill s d o target folder)

/-- A folder of a skill below a folder of skills. -/
structure IsSkillBelow (here source folder : Path) : Prop where
  clean : folder.Clean
  name : ValidName folder.name
  below : Path.spot here source <+: Path.spot here folder

theorem isSkillBelow_of_mem {w : World} (h : w.Sound) {source : Path} (hs : source.Clean)
    (hne : source.parts ≠ []) {only : Option String} (ho : World.LeadsBelow only) {folder : Path}
    (hfolder : folder ∈ w.skillFolders source only) (here : Path) :
    IsSkillBelow here source folder := by
  obtain ⟨names, rfl, hn, -⟩ := World.exists_names_of_mem h hs ho hfolder
  have hclean := hs.behind hn
  refine ⟨hclean, ?_, ?_⟩
  · have hparts : source.parts ++ names ≠ [] := List.append_ne_nil_of_left_ne_nil hne names
    rw [Path.name, List.getLast?_eq_some_getLast hparts]
    exact hclean.names _ (List.getLast_mem hparts)
  · rw [Path.spot_behind]
    exact List.prefix_append _ _

/-- The places at and below a skill's target. -/
def BelowTarget (here target folder : Path) (q : Place) : Prop :=
  Path.spot here target ++ [folder.name] <+: q

theorem BelowTarget.above {here target folder : Path} {q : Place}
    (h : BelowTarget here target folder q) : Path.spot here target <+: q :=
  (List.prefix_append _ _).trans h

theorem BelowTarget.name_eq {here target folder folder' : Path} {q : Place}
    (h : BelowTarget here target folder q) (h' : BelowTarget here target folder' q) :
    folder.name = folder'.name := by
  have heq : Path.spot here target ++ [folder.name] = Path.spot here target ++ [folder'.name] :=
    (List.prefix_of_prefix_length_le h h' (by simp)).eq_of_length (by simp)
  exact List.singleton_inj.mp (List.append_cancel_left heq)

theorem reportSkill_confined {here : Path} (s d : Agent) (o : Order) {source target folder : Path}
    (ht : target.Clean) (hf : IsSkillBelow here source folder) :
    Confined here target.root (BelowTarget here target folder)
      (reportSkill s d o target folder) := by
  have hclean : (Path.mk target.root (target.parts ++ [folder.name])).Clean :=
    ht.behind (by simpa using hf.name)
  unfold reportSkill
  rw [Path.append_name target hf.name]
  refine Confined.bind (collected_confined ?_) fun _ => Confined.of_still (Still.pure _)
  refine (takeSkill_confined s d o hf.clean.tidy hclean rfl).mono fun q hq => ?_
  rwa [Path.spot_behind] at hq

/-- What a run over skills changes lies below the folder of targets. -/
theorem skillsBetween_confined {here : Path} (s d : Agent) (o : Order) {source target : Path}
    (ht : target.Clean) {folders : List Path}
    (hfolders : ∀ folder ∈ folders, IsSkillBelow here source folder) :
    Confined here target.root (Path.spot here target <+: ·)
      (skillsBetween s d o source target folders) := by
  unfold skillsBetween
  refine Confined.bind (Confined.of_still (still_tellFound _ _ _ _ _)) fun _ => ?_
  refine sweeping_confined o ?_ fun u hu p hp => ?_
  · refine (reports_confined fun folder hfolder =>
      reportSkill_confined s d o ht (hfolders folder hfolder)).mono fun q hq => ?_
    obtain ⟨folder, hfolder, hbelow⟩ := hq
    exact hbelow.above
  · obtain ⟨n, rfl, hb⟩ := (World.mem_skillFolders hu.sound ht).mp (List.mem_filter.mp hp).1
    obtain ⟨b, hb'⟩ := Option.isSome_iff_exists.mp hb
    have hn := hu.sound.tree.names_of_get? (Tree.bytes?_eq_some_iff.mp hb') n (by simp)
    have hclean : (Path.mk target.root (target.parts ++ [n])).Clean :=
      ht.behind (by simpa using hn)
    refine (Disk.removeFolder_confined hclean rfl (by simp)).mono fun q hq => ?_
    rw [Path.spot_behind] at hq
    exact (List.prefix_append _ _).trans hq

/-- Skills of the destination that no run has touched are orphans before and
after. -/
theorem orphanSkills_eq {w u : World} (h : w.Sound) (h' : u.Sound) {target : Path}
    (ht : target.Clean) {folders : List Path} {R : Place → Prop} (hmoved : w.Moved R u)
    (hR : ∀ names, R (Path.spot w.here target ++ names) →
      ∃ folder ∈ folders, BelowTarget w.here target folder (Path.spot w.here target ++ names)) :
    orphanSkills target folders w = orphanSkills target folders u := by
  refine Path.eq_of_sorted ((World.pairwise_skillFolders w target).filter _)
    ((World.pairwise_skillFolders u target).filter _)
    ((World.nodup_skillFolders h target).filter _)
    ((World.nodup_skillFolders h' target).filter _) fun p => ?_
  rw [orphanSkills, orphanSkills, List.mem_filter, List.mem_filter, World.mem_skillFolders h ht,
    World.mem_skillFolders h' ht]
  refine and_congr_left fun horphan => exists_congr fun n => and_congr_right fun hp => ?_
  have hfree : ¬ R (Path.spot w.here target ++ [n, Skill.ownFile]) := by
    intro hin
    obtain ⟨folder, hfolder, hbelow⟩ := hR _ hin
    have hown : BelowTarget w.here target p (Path.spot w.here target ++ [n, Skill.ownFile]) := by
      refine ⟨[Skill.ownFile], ?_⟩
      simp [hp, Path.name]
    have hmem : p.name ∈ folders.map Path.name :=
      List.mem_map.mpr ⟨folder, hfolder, hbelow.name_eq hown⟩
    simp only [Bool.not_eq_true', List.contains_eq_mem, decide_eq_false_iff_not] at horphan
    exact horphan hmem
  rw [hmoved.here, hmoved.bytes? hfree]

/-- What the preview needs of a skill: what lies below its folder and below its
target. -/
def SkillNeeds (here target folder : Path) (q : Place) : Prop :=
  Path.spot here folder <+: q ∨ BelowTarget here target folder q

theorem predicts_reportSkill {w u : World} (h : w.Sound) (h' : u.Sound) (s d : Agent) (o : Order)
    {source target folder : Path} (ht : target.Clean) (hf : IsSkillBelow w.here source folder)
    {R : Place → Prop} (hmoved : w.Moved R u) (hR : ∀ q, SkillNeeds w.here target folder q → ¬ R q) :
    Predicts w u (reportSkill s d (o.as true) target folder)
      (reportSkill s d (o.as false) target folder) := by
  have hclean : (Path.mk target.root (target.parts ++ [folder.name])).Clean :=
    ht.behind (by simpa using hf.name)
  unfold reportSkill
  rw [Path.append_name target hf.name]
  refine predicts_item (foretells_takeSkill h h' s d o hf.clean hclean ?_ ?_)
  · intro names
    rw [hmoved.here, hmoved.bytes? (hR _ (Or.inl (List.prefix_append _ _)))]
  · intro names
    rw [hmoved.here, hmoved.bytes? (hR _ (Or.inr ?_))]
    rw [BelowTarget, Path.spot_behind]
    exact List.prefix_append _ _

/-- The preview of a run over skills announces it. -/
theorem predicts_skillsBetween {w u : World} (h : w.Sound) (s d : Agent) (o : Order)
    {source target : Path} (hs : source.Clean) (hne : source.parts ≠ []) (ht : target.Clean)
    (hapart : Apart w.here source target) (ho : World.LeadsBelow o.only)
    (hu : u.Stands w.here target.root) {R : Place → Prop} (hmoved : w.Moved R u)
    (hRs : ∀ q, R q → ¬ Path.spot w.here source <+: q)
    (hRt : ∀ q, R q → ¬ Path.spot w.here target <+: q) :
    Predicts w u
      (skillsBetween s d (o.as true) source target (w.skillFolders source o.only))
      (skillsBetween s d (o.as false) source target (w.skillFolders source o.only)) := by
  have hfolders : ∀ folder ∈ w.skillFolders source o.only, IsSkillBelow w.here source folder :=
    fun folder hfolder => isSkillBelow_of_mem h hs hne ho hfolder w.here
  have hfree : ∀ folder ∈ w.skillFolders source o.only, ∀ q,
      SkillNeeds w.here target folder q → ¬ R q := by
    intro folder hfolder q hneeds hq
    rcases hneeds with hbelow | hbelow
    · exact hRs q hq ((hfolders folder hfolder).below.trans hbelow)
    · exact hRt q hq hbelow.above
  have hconfined : ∀ folder ∈ w.skillFolders source o.only, Confined w.here target.root
      (BelowTarget w.here target folder) (reportSkill s d (o.as false) target folder) :=
    fun folder hfolder => reportSkill_confined s d _ ht (hfolders folder hfolder)
  have hdifferent : (w.skillFolders source o.only).Pairwise fun x y =>
      ∀ q, SkillNeeds w.here target y q → ¬ BelowTarget w.here target x q := by
    refine List.Pairwise.imp_of_mem (fun {x y} hx hy hne q hneeds hcover => ?_)
      (List.pairwise_map.mp (World.nodup_skillNames h hs ho))
    rcases hneeds with hbelow | hbelow
    · exact hapart.not_both ((hfolders y hy).below.trans hbelow) hcover.above
    · exact hne (hcover.name_eq hbelow)
  unfold skillsBetween
  refine Foretells.bind (agrees_tellFound w u o _ s "skill" source) fun _ => ?_
  refine predicts_sweeping o ?_ ?_ hu (reports_confined hconfined) ?_
  · exact still_reports fun folder _ => still_reportSkill s d o target folder
  · exact predicts_reports (fun folder _ => still_reportSkill s d o target folder) hconfined
      (fun folder hfolder R' u' hu' hmoved' hR' =>
        predicts_reportSkill h hu'.sound s d o ht (hfolders folder hfolder) hmoved' hR')
      hdifferent hu hmoved hfree
  · intro u' hu' hmoved' v v' hv hv'
    have hall : v.Moved (fun q => R q ∨ ∃ folder ∈ w.skillFolders source o.only,
        BelowTarget w.here target folder q) v' :=
      (hv.symm.moved.trans (hmoved.mono fun _ => Or.inl)).trans
        ((hmoved'.mono fun _ => Or.inr).trans hv'.moved)
    refine orphanSkills_eq (hv.sound h) (hv'.sound hu'.sound) ht hall fun names hin => ?_
    rw [hv.here] at hin ⊢
    rcases hin with hr | hcover
    · exact absurd (List.prefix_append _ _) (hRt _ hr)
    · exact hcover

end AgentRelay.Sync
