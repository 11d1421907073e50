import AgentRelay.Proofs.Frontmatter.Grammar
import AgentRelay.Proofs.Sync.Settling

/-
  A second run changes nothing.

  A run that returns without failures leaves a world in which every item is settled and
  nothing is left to sweep (`settled_of_run`). In such a world a run tells every item
  again and changes no file (`Settled.tells_again`): commands make folders only on the way
  to their targets, and the lock only on its own way, where nothing is missing at the target
  of a skill, so that the skills, which come last, still find their targets as they were.
  Together this is `run_again`.
  Paths with two points are left out, because a folder that such a path goes through may be
  an orphan, and then the second run no longer finds what the first one wrote
  (`again_creates_behind_orphan`). A set in the hub is read into a table whose order may change
  with each run, so its members have to stay in order (`again_reorders_set`).
-/

namespace AgentRelay.Sync

open Files (Place Tree Entry ValidName)
open Work

/-! ## Between two folders -/

/-- The targets of commands. -/
def commandTargets (s d : Agent) (source target : Path) (files : List Path) : List Path :=
  files.filterMap fun file => (commandTarget s d source target file).toOption

section
variable {w v : World} (hw : w.Sound) (hv : v.Sound) (hhere : v.here = w.here) {target : Path}
  (ht : target.Clean) (hsame : ∀ names, v.tree.bytes? (Path.spot w.here target ++ names) =
    w.tree.bytes? (Path.spot w.here target ++ names))
include hw hv hhere ht hsame

theorem orphanCommands_same {s d : Agent} {source : Path} {files : List Path} :
    orphanCommands s d source target files v = orphanCommands s d source target files w := by
  rw [orphanCommands, orphanCommands, World.commandFiles_eq hv hw d ht leadsBelow_none
    fun names => by rw [hhere, hsame]]

theorem orphanSkills_same {folders : List Path} :
    orphanSkills target folders v = orphanSkills target folders w := by
  rw [orphanSkills, orphanSkills, World.skillFolders_eq hv hw ht leadsBelow_none
    fun names => by rw [hhere, hsame]]

end

/-- Every file is as it was, and apart from a folder and the way to it so is every place. -/
structure SameOutside (here : Path) (root : Nat) (folder : Place) (w v : World) : Prop where
  stands : v.Stands here root
  bytes : w.SameBytes v
  outside : ∀ q, ¬ q <+: folder → ¬ folder <+: q → v.tree.get? q = w.tree.get? q

namespace Parted

variable {here : Path} {s d : Agent} {source target : Path} {files : List Path} {o : Order}
  (h : Parted here s d source target files) {w : World}
include h

/-- Every command has a target. -/
theorem commandTargets_eq : commandTargets s d source target files =
    files.map fun file => (commandTarget s d source target file).toOption.getD file := by
  rw [commandTargets, ← List.filterMap_eq_map]
  refine List.filterMap_congr fun file hfile => ?_
  obtain ⟨t, ht, -⟩ := h.targets file hfile
  rw [Function.comp_apply, ht]
  rfl

/-- A command that is settled is told again, and no file changes. -/
theorem item_again (hwrites : o.preview = false) {file t : Path} (hfile : file ∈ files)
    (ht : commandTarget s d source target file = .ok t)
    (hdone : CommandDone here s d o source target file w) {y : World}
    (hy : SameOutside here target.root (Path.spot here target) w y) :
    ∃ z, (commandItem s d o source target file).run y = (.ok (o.again t), z) ∧
      SameOutside here target.root (Path.spot here target) w z := by
  have hmatched := h.matched hfile ht
  have hclean := hmatched.clean_target h.target_clean
  have hdone' := hdone.same hy.stands fun q _ => hy.bytes.bytes q
  obtain ⟨z, hrun, hz, hbytes⟩ := (hdone'.2 t ht).repeats hwrites
    (hmatched.clean_source h.source_clean) hclean (hmatched.root_target ▸ hy.stands)
  have hitem : (commandItem s d o source target file).run y = (.ok (o.again t), z) := by
    rw [Facing.item_eq ht, hrun]
  refine ⟨z, hitem, hmatched.root_target ▸ hz, hy.bytes.trans hbytes,
    fun q habove hbelow => Eq.trans ?_ (hy.outside q habove hbelow)⟩
  have hat := h.item_apart (o := o) hfile habove hbelow y ⟨hy.stands.here_eq, rfl⟩
  rw [hitem] at hat
  exact hat.2

/-- A run over commands that are settled, without an orphan where it sweeps, tells them
again, and no file changes. -/
theorem commandsBetween_again (hwrites : o.preview = false) (hw : w.Stands here target.root)
    (hdone : ∀ file ∈ files, CommandDone here s d o source target file w)
    (hempty : o.sweeps = true → orphanCommands s d source target files w = []) :
    ∃ r x, (commandsBetween s d o source target files).run w = (.ok r, x) ∧ r.failures = [] ∧
      r.operations = (commandTargets s d source target files).map o.again ∧
      SameOutside here target.root (Path.spot here target) w x := by
  have hsame : w.SameFiles (told o files.length s "command" source w) :=
    still_tellFound o files.length s "command" source w
  rw [commandsBetween, run_tellFound_bind, reportCommand_eq]
  generalize told o files.length s "command" source w = u at hsame
  have hu : SameOutside here target.root (Path.spot here target) w u :=
    ⟨hsame.stands hw, hsame.sameBytes, fun _ _ _ => by rw [hsame.tree]⟩
  have hturn : ∀ file ∈ files, ∀ y, SameOutside here target.root (Path.spot here target) w y →
      True → ∃ z, (commandItem s d o source target file).run y =
        (.ok (o.again ((commandTarget s d source target file).toOption.getD file)), z) ∧
          SameOutside here target.root (Path.spot here target) w z := fun file hfile y hy _ => by
    obtain ⟨t, ht, -⟩ := h.targets file hfile
    rw [ht]
    exact h.item_again hwrites hfile ht (hdone file hfile) hy
  obtain ⟨hitems, hleft⟩ := inTurn_succeeds h.distinct hturn (fun _ _ _ _ _ _ _ => trivial) hu
    fun _ _ => trivial
  obtain ⟨r, hrun, hfine, hoperations⟩ := run_sweeping_of_successes o ends_removing.1 hitems
    fun hs => (orphanCommands_same hw.sound hleft.stands.sound hleft.bytes.here h.target_clean
      fun _ => hleft.bytes.bytes _).trans (hempty hs)
  refine ⟨r, _, hrun, hfine, ?_, hleft⟩
  rw [hoperations, h.commandTargets_eq, List.map_map]
  rfl

end Parted

namespace SkillsParted

variable {here : Path} {s d : Agent} {o : Order} {source target : Path} {folders : List Path}
  (h : SkillsParted here source target folders) {w : World}
include h

/-- A skill that is settled is told again, and no file changes. -/
theorem item_again (hwrites : o.preview = false) {folder : Path} (hfolder : folder ∈ folders)
    (hdone : SkillDone here s d o target folder w) :
    ∃ z, (skillItem s d o target folder).run w = (.ok (o.again (target.append folder.name)), z) ∧
      z.Stands here target.root ∧ w.SameBytes z := by
  have hskill := h.skills folder hfolder
  have hroot : (target.append folder.name).root = target.root := root_append hskill.name
  rw [← hroot]
  refine hdone.2.repeats hwrites hskill.clean (h.clean_target hfolder) (fun names hpre => ?_)
    (hroot ▸ hdone.1)
  rw [h.spot_target hfolder] at hpre
  exact h.apart.not_both (hskill.below.trans (List.prefix_append _ names))
    ((List.prefix_append _ _).trans hpre)

/-- A run over skills that are settled, without an orphan where it sweeps, tells them again,
and no file changes. -/
theorem skillsBetween_again (hwrites : o.preview = false) (hw : w.Stands here target.root)
    (hdone : ∀ folder ∈ folders, SkillDone here s d o target folder w)
    (hempty : o.sweeps = true → orphanSkills target folders w = []) :
    ∃ r x, (skillsBetween s d o source target folders).run w = (.ok r, x) ∧ r.failures = [] ∧
      r.operations = (folders.map fun folder => target.append folder.name).map o.again ∧
      w.SameBytes x := by
  have hsame : w.SameFiles (told o folders.length s "skill" source w) :=
    still_tellFound o folders.length s "skill" source w
  rw [skillsBetween, run_tellFound_bind]
  generalize told o folders.length s "skill" source w = u at hsame
  have hu := hsame.stands hw
  have hturn : ∀ folder ∈ folders, ∀ y, y.Stands here target.root ∧ w.SameBytes y →
      SkillDone here s d o target folder y → ∃ z, (skillItem s d o target folder).run y =
        (.ok (o.again (target.append folder.name)), z) ∧
          z.Stands here target.root ∧ w.SameBytes z := fun folder hfolder y hy hdone => by
    obtain ⟨z, hrun, hz, hbytes⟩ := h.item_again hwrites hfolder hdone
    exact ⟨z, hrun, hz, hy.2.trans hbytes⟩
  obtain ⟨hitems, hleft⟩ := inTurn_succeeds h.distinct.of_map hturn
    (fun _ hx _ hy hyx => h.keeps_done hx hy hyx) ⟨hu, hsame.sameBytes⟩
    fun folder hfolder => h.done_of_same hfolder (hdone folder hfolder) hu
      (fun _ _ => by rw [hsame.tree]) fun _ _ => by rw [hsame.tree]
  obtain ⟨r, hrun, hfine, hoperations⟩ := run_sweeping_of_successes o ends_removing.2 hitems
    fun hs => (orphanSkills_same hw.sound hleft.1.sound hleft.2.here h.target_clean
      fun _ => hleft.2.bytes _).trans (hempty hs)
  refine ⟨r, _, hrun, hfine, ?_, hleft.2⟩
  rw [hoperations, List.map_map]
  rfl

end SkillsParted

/-! ## The lock -/

/-- The lock can be taken in a folder: its file can be put there, and nobody else holds it. -/
structure Lockable (setup : Setup) (folder : Path) (w : World) : Prop where
  base : setup.base Agent.hub w = .ok folder
  clean : folder.Clean
  stands : w.Stands w.here folder.root
  admits : w.tree.Admits (Path.spot w.here folder ++ [lockName])
  held : w.held ≠ some (Path.spot w.here folder ++ [lockName])

theorem clean_lock {folder : Path} (h : folder.Clean) : (folder.append lockName).Clean := by
  rw [Path.append_name folder valid_lockName]
  exact h.behind (by simpa using valid_lockName)

theorem spot_lock (here folder : Path) :
    Path.spot here (folder.append lockName) = Path.spot here folder ++ [lockName] :=
  Path.spot_append valid_lockName

section
variable {folder : Path} {w : World} (h : w.Sound) (hclean : folder.Clean)
  (hthere : w.tree.get? (Path.spot w.here folder) = some .folder)
include h hclean hthere

theorem locate_lock :
    w.locate (folder.append lockName) = .ok (Path.spot w.here folder ++ [lockName]) := by
  refine (World.locate_eq_ok_iff h (clean_lock hclean)).mpr ⟨(spot_lock _ _).symm, .inr ?_⟩
  rw [List.dropLast_concat]
  exact hthere

/-- The lock in a folder that is there is free unless it is held. -/
theorem lookAtLock_ok_iff : ((lookAtLock folder).run w).1 = .ok () ↔
    w.held ≠ some (Path.spot w.here folder ++ [lockName]) := by
  rw [lookAtLock, run_get_bind, locate_lock h hclean hthere]
  cases hheld : w.held with
  | none => exact ⟨fun _ => (Option.some_ne_none _).symm, fun _ => rfl⟩
  | some place =>
    by_cases heq : Path.spot w.here folder ++ [lockName] = place
    · refine iff_of_false (fun hrun => ?_) fun hfree => hfree (by rw [heq])
      simp only [heq, if_true] at hrun
      cases hrun
    · refine iff_of_true ?_ fun hsome => heq (Option.some.inj hsome).symm
      simp only [heq, if_false]
      rfl

end

/-- A lock that has been taken is held by nobody else, and is no folder. -/
theorem of_run_takeLock {setup : Setup} {folder : Path} {w u : World}
    (hw : w.Stands w.here folder.root) (hbase : setup.base Agent.hub w = .ok folder)
    (hclean : folder.Clean) (h : (takeLock setup).run w = (.ok (), u)) :
    u.tree.Filled (Path.spot w.here folder ++ [lockName]) ∧
      w.held ≠ some (Path.spot w.here folder ++ [lockName]) := by
  rw [takeLock_eq, run_get_bind, hbase, ofExcept_ok_bind] at h
  obtain ⟨_, v, hfolders, h⟩ := ok_of_run_bind h
  obtain ⟨_, v', hmake, hlook⟩ := ok_of_run_bind h
  obtain ⟨hv, hgrown⟩ := (Disk.folders_grows hclean.tidy rfl : Grows w.here folder.root _ _) w hw
  rw [hfolders] at hv hgrown
  obtain ⟨hv', hgrown'⟩ := (Disk.makeLock_grows (clean_lock hclean).tidy
    (root_append valid_lockName) : Grows w.here folder.root _ _) v hv
  rw [hmake] at hv' hgrown'
  have hsame := still_lookAtLock folder v'
  rw [hlook] at hsame
  obtain ⟨q, hq⟩ := Disk.stat_of_folders hfolders
  obtain ⟨rfl, hthere⟩ := (World.stat_eq_ok_iff hv.sound hclean).mp hq
  have hfilled := Disk.filled_of_makeLock hmake
  rw [hv.here_eq, Path.place_eq_spot (clean_lock hclean), spot_lock] at hfilled
  rw [hv.here_eq] at hthere
  have hfree := (lookAtLock_ok_iff hv'.sound hclean
    (by rw [hv'.here_eq]; exact hgrown'.folders _ hthere)).mp (by rw [hlook])
  rw [hv'.here_eq, hgrown'.held, hgrown.held] at hfree
  exact ⟨Disk.filled_same _ _ hsame hfilled, hfree⟩

/-- Taking the lock makes folders on the way to it and its file, where nothing was, and nothing
else. -/
theorem Lockable.run_takeLock {setup : Setup} {folder : Path} {w : World}
    (h : Lockable setup folder w) :
    ∃ u, (takeLock setup).run w = (.ok (), u) ∧ u.Sound ∧ w.Grown (fun _ => False) u ∧
      ∀ q, (q <+: Path.spot w.here folder ++ [lockName] → w.tree.get? q ≠ none) →
        u.tree.get? q = w.tree.get? q := by
  have hway (q : Place) (hq : q <+: Path.spot w.here folder) : w.tree.Open q :=
    h.admits.way q (hq.trans (List.prefix_append _ _)) fun heq =>
      Files.not_append_prefix (List.cons_ne_nil _ _) (heq ▸ hq)
  obtain ⟨v, hfolders, hv, -, hthere⟩ := Disk.run_folders h.stands h.clean rfl hway
  have hgrown := (Disk.folders_grows h.clean.tidy rfl : Grows w.here folder.root _ _) w h.stands
  rw [hfolders] at hgrown
  have hgrows := (Disk.makeLock_grows (clean_lock h.clean).tidy (root_append valid_lockName) :
    Grows w.here folder.root _ _) v hv
  have hlocate := locate_lock hv.sound h.clean (by rw [hv.here_eq]; exact hthere)
  rw [hv.here_eq] at hlocate
  -- What was there is there, and what lies elsewhere is as it was.
  have hkept (q : Place) (hq : q <+: Path.spot w.here folder ++ [lockName] →
      w.tree.get? q ≠ none) : v.tree.get? q = w.tree.get? q := by
    have hat : World.At w.here q (w.tree.get? q) v := by
      by_cases hpre : q <+: Path.spot w.here folder
      · obtain ⟨e, he⟩ := Option.ne_none_iff_exists'.mp
          (hq (hpre.trans (List.prefix_append _ _)))
        have hkeeps := (Disk.keeps_there_folders folder : Keeps (World.At w.here q (some e)) _) w
          ⟨rfl, he⟩
        rw [hfolders] at hkeeps
        rwa [he]
      · have hkeeps := (Disk.keeps_folders h.clean hpre :
          Keeps (World.At w.here q (w.tree.get? q)) _) w ⟨rfl, rfl⟩
        rwa [hfolders] at hkeeps
    exact hat.2
  have hfree : v.tree.get? (Path.spot w.here folder ++ [lockName]) ≠ some .folder := by
    have hkeeps := (Disk.keeps_folders h.clean (Files.not_append_prefix (List.cons_ne_nil _ _)) :
      Keeps (World.At w.here (Path.spot w.here folder ++ [lockName]) (w.tree.get? _)) _) w
        ⟨rfl, rfl⟩
    rw [hfolders] at hkeeps
    rw [hkeeps.2]
    exact h.admits.free
  have hmade := Disk.run_makeLock hlocate hfree
  cases hmake : (Disk.makeLock (folder.append lockName)).run v with
  | mk done v' =>
    rw [hmake] at hmade hgrows
    obtain rfl : done = .ok () := hmade
    obtain ⟨hv', hgrown'⟩ := hgrows
    have hlook : ((lookAtLock folder).run v').1 = .ok () := by
      refine (lookAtLock_ok_iff hv'.sound h.clean ?_).mpr ?_
      · rw [hv'.here_eq]
        exact hgrown'.folders _ hthere
      · rw [hv'.here_eq, hgrown'.held, hgrown.2.held]
        exact h.held
    have hsame := still_lookAtLock folder v'
    refine ⟨((lookAtLock folder).run v').2, ?_, hsame.sound hv'.sound,
      (hgrown.2.trans hgrown').trans hsame.grown, fun q hq => ?_⟩
    · rw [takeLock_eq, run_get_bind, h.base, ofExcept_ok_bind, run_bind_of_ok hfolders,
        run_bind_of_ok hmake]
      exact Prod.ext hlook rfl
    · have hkeeps := (Disk.keeps_makeLock fun heq => ?_ : Keeps (World.At w.here q
        (w.tree.get? q)) (Disk.makeLock (folder.append lockName))) v ⟨hv.here_eq, hkept q hq⟩
      · rw [hmake] at hkeeps
        rw [hsame.tree, hkeeps.2]
      · rw [Path.place_eq_spot (clean_lock h.clean), spot_lock] at heq
        exact hq (heq ▸ List.prefix_rfl)

/-! ## Runs that have nothing to change -/

section
variable {s d : Agent} {o : Order} {p q : Path}

theorem run_commandsPart {y : World} (hp : o.setup.base s y = .ok p)
    (hq : o.setup.base d y = .ok q) : (commandsPart s d o).run y =
      if o.contents.hasCommands = true then (commandsBetween s d o (p.append s.commandFolder)
        (q.append d.commandFolder) (commandsFound s o p y)).run y else (.ok Report.empty, y) := by
  rw [commandsPart, commandsFound]
  split
  · rw [runCommands_eq, run_get_bind, commands_eq_ok hp rfl rfl, commands_eq_ok hq rfl rfl,
      ofExcept_ok_bind, ofExcept_ok_bind]
  · rfl

theorem run_skillsPart {y : World} (hp : o.setup.base s y = .ok p)
    (hq : o.setup.base d y = .ok q) : (skillsPart s d o).run y =
      if o.contents.hasSkills = true then (skillsBetween s d o (p.append s.skillFolder)
        (q.append d.skillFolder) (skillsFound s o p y)).run y else (.ok Report.empty, y) := by
  rw [skillsPart, skillsFound]
  split
  · rw [runSkills_eq, run_get_bind, skills_eq_ok hq rfl rfl, skills_eq_ok hp rfl rfl,
      ofExcept_ok_bind, ofExcept_ok_bind]
  · rfl

/-- The same items are found as long as the files of the source are the same. -/
theorem found_same (s : Agent) {w y : World} (hw : w.Sound) (hy : y.Sound) (hclean : p.Clean)
    (ho : World.LeadsBelow o.only) (hhere : y.here = w.here)
    (hbytes : ∀ names, y.tree.bytes? (Path.spot w.here p ++ names) =
      w.tree.bytes? (Path.spot w.here p ++ names)) :
    commandsFound s o p y = commandsFound s o p w ∧ skillsFound s o p y = skillsFound s o p w := by
  rw [commandsFound, commandsFound, skillsFound, skillsFound]
  rw [World.commandFiles_eq hy hw s (clean_commandFolder hclean s) ho fun names => by
    rw [hhere, Path.spot_append (Setup.valid_commandFolder s), List.append_assoc, hbytes]]
  rw [World.skillFolders_eq hy hw (clean_skillFolder hclean s) ho fun names => by
    rw [hhere, Path.spot_append (Setup.valid_skillFolder s), List.append_assoc, hbytes]]
  exact ⟨rfl, rfl⟩

section
variable {w : World} (h : Regular s d o w) (hp : o.setup.base s w = .ok p)
  (hq : o.setup.base d w = .ok q)
include h hp hq

theorem Regular.parted : Parted w.here s d (p.append s.commandFolder) (q.append d.commandFolder)
    (commandsFound s o p w) := by
  have hcp := clean_commandFolder (Setup.clean_base h.clean h.sound hp) s
  refine ⟨hcp, clean_commandFolder (Setup.clean_base h.clean h.sound hq) d,
    (h.apart p q hp hq).append (Setup.valid_commandFolder s) (Setup.valid_commandFolder d), ?_, ?_⟩
  · rw [commandsFound]
    split
    · exact World.nodup_commandFiles h.sound hcp h.only
    · exact List.nodup_nil
  · intro file hfile
    rw [commandsFound] at hfile
    split at hfile
    · exact hasTarget_of_mem h.sound d _ hcp h.only (h.colonFree _ (commands_eq_ok hp rfl rfl)) hfile
    · exact absurd hfile List.not_mem_nil

theorem Regular.skillsParted : SkillsParted w.here (p.append s.skillFolder)
    (q.append d.skillFolder) (skillsFound s o p w) := by
  have hcp := clean_skillFolder (Setup.clean_base h.clean h.sound hp) s
  have hne : (p.append s.skillFolder).parts ≠ [] := by
    rw [Path.append_name p (Setup.valid_skillFolder s)]
    simp
  refine ⟨clean_skillFolder (Setup.clean_base h.clean h.sound hq) d,
    (h.apart p q hp hq).append (Setup.valid_skillFolder s) (Setup.valid_skillFolder d), ?_, ?_⟩
  · rw [skillsFound]
    split
    · exact World.nodup_skillNames h.sound hcp h.only
    · exact List.nodup_nil
  · intro folder hfolder
    rw [skillsFound] at hfolder
    split at hfolder
    · exact isSkillBelow_of_mem h.sound hcp hne h.only hfolder w.here
    · exact absurd hfolder List.not_mem_nil

end

/-- A world in which a run between two base folders has nothing to change. Where the lock is at
the target of a skill, it is there. -/
structure Settled (s d : Agent) (o : Order) (p q : Path) (lock : Place) (v : World) : Prop where
  stands : v.Stands v.here q.root
  commands : ∀ file ∈ commandsFound s o p v, CommandDone v.here s d o (p.append s.commandFolder)
    (q.append d.commandFolder) file v
  skills : ∀ folder ∈ skillsFound s o p v, SkillDone v.here s d o (q.append d.skillFolder) folder v
  locked : ∀ folder ∈ skillsFound s o p v, BelowTarget v.here (q.append d.skillFolder) folder lock →
    v.tree.Filled lock
  commandsSwept : o.contents.hasCommands = true → o.sweeps = true →
    orphanCommands s d (p.append s.commandFolder) (q.append d.commandFolder)
      (commandsFound s o p v) v = []
  skillsSwept : o.contents.hasSkills = true → o.sweeps = true →
    orphanSkills (q.append d.skillFolder) (skillsFound s o p v) v = []

/-- The targets of all items. -/
def itemTargets (s d : Agent) (o : Order) (p q : Path) (w : World) : List Path :=
  commandTargets s d (p.append s.commandFolder) (q.append d.commandFolder) (commandsFound s o p w) ++
    (skillsFound s o p w).map fun folder => (q.append d.skillFolder).append folder.name

/-! ## The first run -/

section
variable {here : Path} {u x : World} {r : Report} (hwrites : o.preview = false) (hne : s ≠ d)
  (hu : u.Stands here q.root) (hp : o.setup.base s u = .ok p) (hq : o.setup.base d u = .ok q)
include hwrites hne hu hp hq

theorem of_run_commandsPart (hparted : Parted here s d (p.append s.commandFolder)
      (q.append d.commandFolder) (commandsFound s o p u))
    (hback : CommandsComeBack s d o (p.append s.commandFolder) (q.append d.commandFolder)
      (commandsFound s o p u) u)
    (hrun : (commandsPart s d o).run u = (.ok r, x)) (hfine : r.failures = []) :
    x.Stands here q.root ∧ u.Grown (CommandPlace d (Path.place here (q.append d.commandFolder)) ·) x ∧
      (∀ file ∈ commandsFound s o p u, CommandDone here s d o (p.append s.commandFolder)
        (q.append d.commandFolder) file x) ∧
      (o.contents.hasCommands = true → o.sweeps = true →
        orphanCommands s d (p.append s.commandFolder) (q.append d.commandFolder)
          (commandsFound s o p u) x = []) := by
  rw [run_commandsPart hp hq] at hrun
  have hroot : (q.append d.commandFolder).root = q.root :=
    root_append (Setup.valid_commandFolder d)
  split at hrun
  · obtain ⟨hx, hgrown, hdone, hempty⟩ :=
      hparted.of_run_commandsBetween hne hwrites (hroot ▸ hu) hback hrun hfine
    exact ⟨hroot ▸ hx, hgrown, hdone, fun _ => hempty⟩
  · rename_i hcontents
    obtain ⟨-, rfl⟩ := Prod.mk.inj hrun
    have hnone : commandsFound s o p u = [] := if_neg hcontents
    rw [hnone]
    exact ⟨hu, (World.SameFiles.refl u).grown, fun _ hfile => absurd hfile List.not_mem_nil,
      fun hcommands => absurd hcommands hcontents⟩

theorem of_run_skillsPart {lock : Place} (hplace : IsLock lock)
    (hparted : SkillsParted here (p.append s.skillFolder) (q.append d.skillFolder)
      (skillsFound s o p u))
    (hback : SkillsComeBack s d o (q.append d.skillFolder) (skillsFound s o p u) u)
    (hlock : u.tree.Filled lock) (hrun : (skillsPart s d o).run u = (.ok r, x))
    (hfine : r.failures = []) :
    x.Stands here q.root ∧ u.Moved (Path.spot here (q.append d.skillFolder) <+: ·) x ∧
      (∀ folder ∈ skillsFound s o p u, SkillDone here s d o (q.append d.skillFolder) folder x) ∧
      (o.contents.hasSkills = true → o.sweeps = true →
        orphanSkills (q.append d.skillFolder) (skillsFound s o p u) x = []) ∧
      x.tree.Admits lock ∧
      ∀ folder ∈ skillsFound s o p u, BelowTarget here (q.append d.skillFolder) folder lock →
        x.tree.Filled lock := by
  rw [run_skillsPart hp hq] at hrun
  have hroot : (q.append d.skillFolder).root = q.root := root_append (Setup.valid_skillFolder d)
  split at hrun
  · obtain ⟨hx, hmoved, hdone, hempty, hadmits, hlocked⟩ :=
      hparted.of_run_skillsBetween hne hwrites (hroot ▸ hu) hback hplace hlock hrun hfine
    exact ⟨hroot ▸ hx, hmoved, hdone, fun _ => hempty, hadmits, hlocked⟩
  · rename_i hcontents
    obtain ⟨-, rfl⟩ := Prod.mk.inj hrun
    have hnone : skillsFound s o p u = [] := if_neg hcontents
    rw [hnone]
    exact ⟨hu, (World.SameFiles.refl u).moved, fun _ hfile => absurd hfile List.not_mem_nil,
      fun hskills => absurd hskills hcontents, hlock.admits hu.sound.tree, fun _ _ _ => hlock⟩

end

/-- What items become for the hub is found again. -/
def ComesBack (s d : Agent) (o : Order) (w : World) : Prop :=
  ∀ p q, o.setup.base s w = .ok p → o.setup.base d w = .ok q →
    CommandsComeBack s d o (p.append s.commandFolder) (q.append d.commandFolder)
      (commandsFound s o p w) w ∧
    SkillsComeBack s d o (q.append d.skillFolder) (skillsFound s o p w) w

theorem ne_of_apart {w : World} (h : Regular s d o w) (hp : o.setup.base s w = .ok p)
    (hq : o.setup.base d w = .ok q) : s ≠ d := by
  rintro rfl
  obtain rfl := Except.ok.inj (hp.symm.trans hq)
  exact (h.apart p p hp hq).1 List.prefix_rfl

/-- What is behind a name below a folder is below the folder. -/
theorem below_of_append {here : Path} {n : String} (hn : ValidName n) {place : Place}
    (h : Path.spot here (q.append n) <+: place) : Path.spot here q <+: place := by
  rw [Path.spot_append hn] at h
  exact (List.prefix_append _ _).trans h

section
variable {w x : World} (h : Regular s d o w) (hp : o.setup.base s w = .ok p)
  (hq : o.setup.base d w = .ok q)
include h hp hq

/-- What has only been moved below the destination has left the files of the source. -/
theorem source_left {y : World} (hy : w.Moved (Path.spot w.here q <+: ·) y) (names : List String) :
    y.tree.bytes? (Path.spot w.here p ++ names) = w.tree.bytes? (Path.spot w.here p ++ names) :=
  hy.bytes? fun hbelow => (h.apart p q hp hq).not_both (List.prefix_append _ _) hbelow

/-- The commands have touched neither a skill nor its target, so that the skills that came back
in front of them come back behind them. -/
theorem skillsComeBack_behind (hback : ComesBack s d o w) (hx : x.Stands w.here q.root)
    (hmoved : w.Moved (Path.spot w.here (q.append d.commandFolder) <+: ·) x) :
    SkillsComeBack s d o (q.append d.skillFolder) (skillsFound s o p w) x := by
  intro folder hfolder
  have hparted := h.skillsParted hp hq
  have hskill := hparted.skills folder hfolder
  refine ((hback p q hp hq).2 folder hfolder).same h.sound hx.sound hskill.clean
    (hparted.clean_target hfolder) (fun names => ?_) fun names => ?_
  · obtain ⟨more, hmore⟩ := below_of_append (Setup.valid_skillFolder s) hskill.below
    have hmovedBase := hmoved.mono fun _ => below_of_append (Setup.valid_commandFolder d)
    rw [hx.here_eq, ← hmore, List.append_assoc, source_left h hp hq hmovedBase]
  · rw [hx.here_eq, hmoved.bytes? fun hbelow => (folders_apart q w.here d).not_both hbelow ?_]
    rw [hparted.spot_target hfolder, List.append_assoc]
    exact List.prefix_append _ _

/-- Behind the commands a run over skills settles all that was found. -/
theorem settled_behind_commands {lock : Place} (hplace : IsLock lock) (hwrites : o.preview = false)
    (hback : ComesBack s d o w) (hx : x.Stands w.here q.root)
    (hmoved : w.Moved (Path.spot w.here (q.append d.commandFolder) <+: ·) x)
    (hdone : ∀ file ∈ commandsFound s o p w, CommandDone w.here s d o (p.append s.commandFolder)
      (q.append d.commandFolder) file x)
    (hempty : o.contents.hasCommands = true → o.sweeps = true →
      orphanCommands s d (p.append s.commandFolder) (q.append d.commandFolder)
        (commandsFound s o p w) x = [])
    (hlock : x.tree.Filled lock) {r : Report} {v : World}
    (hrun : (skillsPart s d o).run x = (.ok r, v)) (hfine : r.failures = []) :
    Settled s d o p q lock v ∧ w.Moved (Path.spot w.here q <+: ·) v ∧ v.tree.Admits lock := by
  have hcp := Setup.clean_base h.clean h.sound hp
  have hcq := Setup.clean_base h.clean h.sound hq
  have hmovedBase := hmoved.mono fun _ => below_of_append (Setup.valid_commandFolder d)
  obtain ⟨hfiles, hfolders⟩ := found_same s h.sound hx.sound hcp h.only hx.here_eq
    (source_left h hp hq hmovedBase)
  have hparted := h.parted hp hq
  have hskillsBack : SkillsComeBack s d o (q.append d.skillFolder) (skillsFound s o p x) x := by
    rw [hfolders]
    exact skillsComeBack_behind h hp hq hback hx hmoved
  have hskillsParted : SkillsParted w.here (p.append s.skillFolder) (q.append d.skillFolder)
      (skillsFound s o p x) := by
    rw [hfolders]
    exact h.skillsParted hp hq
  obtain ⟨hv, hmoved', hskills, hnone, hadmits, hlocked⟩ := of_run_skillsPart hwrites
    (ne_of_apart h hp hq) hx ((Setup.base_eq hmoved.home hmoved.here).trans hp)
    ((Setup.base_eq hmoved.home hmoved.here).trans hq) hplace hskillsParted hskillsBack hlock hrun
    hfine
  have hall := hmovedBase.trans (hmoved'.mono fun _ => below_of_append (Setup.valid_skillFolder d))
  obtain ⟨hfiles', hfolders'⟩ := found_same s h.sound hv.sound hcp h.only hv.here_eq
    (source_left h hp hq hall)
  rw [hfolders] at hskills hnone hlocked
  have hroot : (q.append d.commandFolder).root = q.root :=
    root_append (Setup.valid_commandFolder d)
  have hcommands (names : List String) :
      v.tree.bytes? (Path.spot w.here (q.append d.commandFolder) ++ names) =
        x.tree.bytes? (Path.spot w.here (q.append d.commandFolder) ++ names) :=
    hmoved'.bytes? fun hbelow =>
      (folders_apart q w.here d).not_both (List.prefix_append _ _) hbelow
  rw [← hfiles'] at hdone hempty
  rw [← hfolders'] at hskills hnone hlocked
  rw [← hv.here_eq] at hdone hskills hlocked
  refine ⟨⟨hv.here_eq.symm ▸ hv, fun file hfile => ?_, hskills, hlocked, fun hc hs => ?_, hnone⟩,
    hall, hadmits⟩
  · have hmatched := hparted.targets file (hfiles' ▸ hfile)
    refine (hdone file hfile).same (hv.here_eq.symm ▸ hroot.symm ▸ hv) fun place hneeds => ?_
    rw [hv.here_eq] at hneeds
    rcases hneeds with rfl | hat
    · obtain ⟨t, -, hmatched⟩ := hmatched
      have habove : Path.spot w.here _ <+: _ := hmatched.source_above
      obtain ⟨more, hmore⟩ := below_of_append (Setup.valid_commandFolder s) habove
      rw [← hmore, source_left h hp hq hall, source_left h hp hq hmovedBase]
    · obtain ⟨t, hmatched, rfl⟩ := hmatched.matched hat
      obtain ⟨more, hmore⟩ : Path.spot w.here _ <+: _ := hmatched.target_above
      rw [← hmore, hcommands]
  · refine (orphanCommands_same hx.sound hv.sound (hv.here_eq.trans hx.here_eq.symm)
      (clean_commandFolder hcq d) fun names => ?_).trans (hempty hc hs)
    rw [hx.here_eq, hcommands]

end

/-- A run that returns without failures has settled all it has found, below the base folder
of the destination, and a lock can be put again where it was. -/
theorem settled_of_run {w v : World} {r : Report} (h : Regular s d o w)
    (hwrites : o.preview = false) (hback : ComesBack s d o w)
    (hrun : (run s d o).run w = (.ok r, v)) (hfine : r.failures = []) :
    ∃ p q folder, o.setup.base s w = .ok p ∧ o.setup.base d w = .ok q ∧
      o.setup.base Agent.hub w = .ok folder ∧
      Settled s d o p q (Path.spot w.here folder ++ [lockName]) v ∧
      w.Moved (Path.spot w.here q <+: ·) v ∧
      v.tree.Admits (Path.spot w.here folder ++ [lockName]) ∧
      w.held ≠ some (Path.spot w.here folder ++ [lockName]) := by
  rw [run_eq, locking, hwrites] at hrun
  obtain ⟨_, u, hlock, hrun⟩ := ok_of_run_bind hrun
  obtain ⟨hsound, hgrown⟩ := takeLock_grown h.sound h.here h.clean.tidy
  change (takeLock o.setup).run w = (.ok (), u) at hlock
  rw [hlock] at hsound hgrown
  obtain ⟨p, q, hpu, hqu⟩ := bases_of_runAll (congrArg Prod.fst hrun)
  have hp := (Setup.base_eq hgrown.home hgrown.here).symm.trans hpu
  have hq := (Setup.base_eq hgrown.home hgrown.here).symm.trans hqu
  obtain ⟨folder, hfolder⟩ : ∃ folder, o.setup.base Agent.hub w = .ok folder := by
    cases hb : o.setup.base Agent.hub w with
    | ok folder => exact ⟨folder, rfl⟩
    | error e =>
      rw [takeLock_eq, run_get_bind, hb] at hlock
      cases hlock
  obtain ⟨hfilled, hheld⟩ := of_run_takeLock (stands_of_here h.sound h.here _) hfolder
    (Setup.clean_base h.clean h.sound hfolder) hlock
  have hne := ne_of_apart h hp hq
  have happart := h.apart p q hp hq
  have hu : u.Stands w.here q.root :=
    ⟨hsound, hgrown.here, hgrown.folders _ (stands_of_here h.sound h.here _).start⟩
  obtain ⟨hfiles, -⟩ := found_same s h.sound hsound (Setup.clean_base h.clean h.sound hp) h.only
    hgrown.here fun _ => hgrown.bytes? not_false
  rw [runAll_eq] at hrun
  obtain ⟨commands, x, hcommands, hrun⟩ := ok_of_run_bind hrun
  obtain ⟨skills, v', hskills, hrun⟩ := ok_of_run_bind hrun
  obtain ⟨hr, rfl⟩ := Prod.mk.inj hrun
  obtain rfl := Except.ok.inj hr
  obtain ⟨hfineCommands, hfineSkills⟩ := Report.failures_append hfine
  have hparted : Parted w.here s d (p.append s.commandFolder) (q.append d.commandFolder)
      (commandsFound s o p u) := by
    rw [hfiles]
    exact h.parted hp hq
  have hcommandsBack : CommandsComeBack s d o (p.append s.commandFolder)
      (q.append d.commandFolder) (commandsFound s o p u) u := fun file hfile t ht => by
    rw [hfiles] at hfile
    exact ((hback p q hp hq).1 file hfile t ht).same hgrown.here (hgrown.bytes? not_false)
      (hgrown.bytes? not_false)
  obtain ⟨hx, hgrown', hdone, hempty⟩ := of_run_commandsPart hwrites hne hu hpu hqu hparted
    hcommandsBack hcommands hfineCommands
  rw [hfiles] at hdone hempty
  have hplace : IsLock (Path.spot w.here folder ++ [lockName]) := ⟨_, rfl⟩
  have hbelow : w.Moved (Path.spot w.here (q.append d.commandFolder) <+: ·) x :=
    (hgrown.toMoved.mono fun _ hf => hf.elim).trans (hgrown'.toMoved.mono fun place hcommand => by
      obtain ⟨init, stem, rfl⟩ := hcommand
      rw [Path.place_eq_spot (clean_commandFolder (Setup.clean_base h.clean h.sound hq) d)]
      exact List.prefix_append _ _)
  obtain ⟨hsettled, hmoved, hadmits⟩ := settled_behind_commands h hp hq hplace hwrites hback hx
    hbelow hdone hempty (Disk.filled_of_moved hgrown'.toMoved (hplace.not_command _ _) hfilled)
    hskills hfineSkills
  exact ⟨p, q, folder, hp, hq, hfolder, hsettled, hmoved, hadmits, hheld⟩

/-! ## The second run -/

section
variable {here : Path} {u : World} (hwrites : o.preview = false) (hu : u.Stands here q.root)
  (hp : o.setup.base s u = .ok p) (hq : o.setup.base d u = .ok q)
include hwrites hu hp hq

theorem commandsPart_again (hparted : Parted here s d (p.append s.commandFolder)
      (q.append d.commandFolder) (commandsFound s o p u))
    (hdone : ∀ file ∈ commandsFound s o p u, CommandDone here s d o (p.append s.commandFolder)
      (q.append d.commandFolder) file u)
    (hempty : o.contents.hasCommands = true → o.sweeps = true →
      orphanCommands s d (p.append s.commandFolder) (q.append d.commandFolder)
        (commandsFound s o p u) u = []) :
    ∃ r x, (commandsPart s d o).run u = (.ok r, x) ∧ r.failures = [] ∧
      r.operations = (commandTargets s d (p.append s.commandFolder) (q.append d.commandFolder)
        (commandsFound s o p u)).map o.again ∧
      SameOutside here q.root (Path.spot here (q.append d.commandFolder)) u x := by
  rw [run_commandsPart hp hq]
  have hroot : (q.append d.commandFolder).root = q.root :=
    root_append (Setup.valid_commandFolder d)
  split
  · rename_i hcontents
    exact hroot ▸ hparted.commandsBetween_again hwrites (hroot.symm ▸ hu) hdone (hempty hcontents)
  · rename_i hcontents
    have hnone : commandsFound s o p u = [] := if_neg hcontents
    rw [hnone]
    exact ⟨_, u, rfl, rfl, rfl, hu, World.SameBytes.refl u, fun _ _ _ => rfl⟩

theorem skillsPart_again (hparted : SkillsParted here (p.append s.skillFolder)
      (q.append d.skillFolder) (skillsFound s o p u))
    (hdone : ∀ folder ∈ skillsFound s o p u, SkillDone here s d o (q.append d.skillFolder) folder u)
    (hempty : o.contents.hasSkills = true → o.sweeps = true →
      orphanSkills (q.append d.skillFolder) (skillsFound s o p u) u = []) :
    ∃ r x, (skillsPart s d o).run u = (.ok r, x) ∧ r.failures = [] ∧
      r.operations = ((skillsFound s o p u).map fun folder =>
        (q.append d.skillFolder).append folder.name).map o.again ∧ u.SameBytes x := by
  rw [run_skillsPart hp hq]
  have hroot : (q.append d.skillFolder).root = q.root := root_append (Setup.valid_skillFolder d)
  split
  · rename_i hcontents
    exact hparted.skillsBetween_again hwrites (hroot.symm ▸ hu) hdone (hempty hcontents)
  · rename_i hcontents
    have hnone : skillsFound s o p u = [] := if_neg hcontents
    rw [hnone]
    exact ⟨_, u, rfl, rfl, rfl, World.SameBytes.refl u⟩

end

/-- Where a run has nothing to change, it tells every item again and changes no file. -/
theorem Settled.tells_again {folder : Path} {v : World}
    (h : Settled s d o p q (Path.spot v.here folder ++ [lockName]) v) (hp : o.setup.base s v = .ok p)
    (hq : o.setup.base d v = .ok q) (hclean : p.Clean) (ho : World.LeadsBelow o.only)
    (hwrites : o.preview = false) (hlock : Lockable o.setup folder v)
    (hparted : Parted v.here s d (p.append s.commandFolder) (q.append d.commandFolder)
      (commandsFound s o p v))
    (hskillsParted : SkillsParted v.here (p.append s.skillFolder) (q.append d.skillFolder)
      (skillsFound s o p v)) :
    ∃ r z, (run s d o).run v = (.ok r, z) ∧ r.failures = [] ∧ v.SameBytes z ∧
      r.operations = (itemTargets s d o p q v).map o.again := by
  have hroot : (q.append d.commandFolder).root = q.root :=
    root_append (Setup.valid_commandFolder d)
  have hroot' : (q.append d.skillFolder).root = q.root := root_append (Setup.valid_skillFolder d)
  have hbase {y : World} (hy : v.SameBytes y) (a : Agent) :
      o.setup.base a y = o.setup.base a v := Setup.base_eq hy.home hy.here
  -- Taking the lock makes folders on its way, and its file.
  obtain ⟨u, htake, hsound, hgrown, hplace⟩ := hlock.run_takeLock
  have hu : u.Stands v.here q.root := ⟨hsound, hgrown.here, hgrown.folders _ h.stands.start⟩
  have hbytes := hgrown.toMoved.sameBytes
  obtain ⟨hfiles, -⟩ := found_same s h.stands.sound hu.sound hclean ho hbytes.here
    fun _ => hbytes.bytes _
  have hdone : ∀ file ∈ commandsFound s o p u, CommandDone v.here s d o
      (p.append s.commandFolder) (q.append d.commandFolder) file u := fun file hfile => by
    rw [hfiles] at hfile
    exact (h.commands file hfile).same (hroot.symm ▸ hu) fun _ _ => hbytes.bytes _
  have hparted' : Parted v.here s d (p.append s.commandFolder) (q.append d.commandFolder)
      (commandsFound s o p u) := by rwa [hfiles]
  obtain ⟨commands, x, hcommands, hfine, hoperations, hx⟩ := commandsPart_again hwrites hu
    ((hbase hbytes s).trans hp) ((hbase hbytes d).trans hq) hparted' hdone
    fun hc hs => by
      rw [hfiles]
      exact (orphanCommands_same h.stands.sound hu.sound hbytes.here hparted.target_clean
        fun _ => hbytes.bytes _).trans (h.commandsSwept hc hs)
  have hall := hbytes.trans hx.bytes
  obtain ⟨-, hfolders⟩ := found_same s h.stands.sound hx.stands.sound hclean ho hall.here
    fun _ => hall.bytes _
  -- Neither the lock nor the commands have put anything at the target of a skill.
  have hskillsDone : ∀ folder' ∈ skillsFound s o p x, SkillDone v.here s d o
      (q.append d.skillFolder) folder' x := fun folder' hfolder => by
    rw [hfolders] at hfolder
    refine hskillsParted.done_of_same hfolder (h.skills folder' hfolder) (hroot'.symm ▸ hx.stands)
      (fun _ _ => hall.bytes _) fun place hbelow => ?_
    have hapart := folders_apart q v.here d
    rw [hx.outside place (fun hpre => hapart.2 (hbelow.above.trans hpre))
      (fun hpre => hapart.not_both hpre hbelow.above), hplace place fun hpre => ?_]
    obtain ⟨hthere, -⟩ := h.locked folder' hfolder (hbelow.trans hpre)
    obtain ⟨e, he⟩ := Option.ne_none_iff_exists'.mp hthere
    by_cases heq : place = Path.spot v.here folder ++ [lockName]
    · rw [heq]
      exact hthere
    · rw [h.stands.sound.tree.folder_above he hpre heq]
      exact nofun
  have hskillsParted' : SkillsParted v.here (p.append s.skillFolder) (q.append d.skillFolder)
      (skillsFound s o p x) := by rwa [hfolders]
  obtain ⟨skills, z, hskills, hfine', hoperations', hz⟩ := skillsPart_again hwrites hx.stands
    ((hbase hall s).trans hp) ((hbase hall d).trans hq) hskillsParted' hskillsDone
    fun hc hs => by
      rw [hfolders]
      exact (orphanSkills_same h.stands.sound hx.stands.sound hall.here
        hskillsParted.target_clean fun _ => hall.bytes _).trans (h.skillsSwept hc hs)
  refine ⟨commands.append skills, z, ?_, ?_, hall.trans hz, ?_⟩
  · rw [run_eq, locking, hwrites]
    change ((takeLock o.setup >>= fun _ => runAll s d o : Work Report)).run v = _
    rw [run_bind_of_ok htake, runAll_eq, run_bind_of_ok hcommands, run_bind_of_ok hskills]
    rfl
  · rw [Report.append]
    simp [hfine, hfine']
  · rw [Report.append]
    simp [hoperations, hoperations', hfiles, hfolders, itemTargets]

theorem Order.again_ne {c : Change} (h : c = .created ∨ c = .deleted) (target : Path) :
    (o.again target).change ≠ c := by
  have hchange : (o.again target).change = .skipped ∨ (o.again target).change = .modified := by
    unfold Order.again
    cases o.keepExisting
    · exact .inr rfl
    · exact .inl rfl
  rcases hchange with heq | heq <;> rcases h with rfl | rfl <;> rw [heq] <;> decide

end

/-! ## A run to the hub, and the same run again -/

/-- A command and a skill that the hub is to have. -/
def shelfWorld : World where
  tree :=
    [(["w"], .folder), (["w", ".claude"], .folder), (["w", ".claude", "commands"], .folder),
      (["w", ".claude", "commands", "a.md"],
        .file (Text.encode "---\ndescription: Review\n---\nhi\n")),
      (["w", ".claude", "skills"], .folder), (["w", ".claude", "skills", "s"], .folder),
      (["w", ".claude", "skills", "s", "SKILL.md"],
        .file (Text.encode "---\ndescription: Review\n---\nhi\n"))]
  home := ⟨1, ["h"]⟩
  here := ⟨1, ["w"]⟩
  repository := none
  held := none
  printed := []
  warnings := []

/-- Everything is to be taken, and nothing else is to stay. -/
def shelfOrder : Order := { pairOrder with deleteOrphans := true }

theorem base_shelf : shelfOrder.setup.base .claude shelfWorld = .ok ⟨1, ["w", ".claude"]⟩ ∧
    shelfOrder.setup.base Agent.hub shelfWorld = .ok ⟨1, ["w", ".config", "acsync"]⟩ :=
  ⟨eq_ok_of_toOption (by decide), eq_ok_of_toOption (by decide)⟩

theorem found_shelf :
    commandsFound .claude shelfOrder ⟨1, ["w", ".claude"]⟩ shelfWorld =
        [⟨1, ["w", ".claude", "commands", "a.md"]⟩] ∧
      skillsFound .claude shelfOrder ⟨1, ["w", ".claude"]⟩ shelfWorld =
        [⟨1, ["w", ".claude", "skills", "s"]⟩] := by
  constructor <;> decide +kernel

theorem regular_shelf : Regular .claude Agent.hub shelfOrder shelfWorld := by
  refine ⟨⟨⟨⟨?_, ?_, ?_, ?_⟩, ?_, ?_⟩, ?_, leadsBelow_none, ?_, ?_⟩, ⟨?_, ?_⟩, ?_⟩
  all_goals try decide
  · intro p q hp hq
    obtain rfl := Except.ok.inj (base_shelf.1.symm.trans hp)
    obtain rfl := Except.ok.inj (base_shelf.2.symm.trans hq)
    constructor <;> decide
  · intro folder hfolder file hfile way hway
    obtain rfl := Except.ok.inj ((commands_eq_ok base_shelf.1 rfl rfl).symm.trans hfolder)
    change file ∈ commandsFound .claude shelfOrder ⟨1, ["w", ".claude"]⟩ shelfWorld at hfile
    rw [found_shelf.1, List.mem_singleton] at hfile
    rw [hfile] at hway
    obtain rfl : (⟨0, ["a.md"]⟩ : Path) = way := Option.some.inj hway
    decide
  · intro p hp
    obtain rfl := Option.some.inj hp
    exact ⟨by decide, by decide⟩

/-- The fields of both items. -/
theorem comesBack_review {m : Mapping} {content : String}
    (hm : Frontmatter.singles m.clean = [(.text "description", some (.text "Review"))])
    (hbare : Frontmatter.block? (Text.unifyNewlines content.toList) = none) :
    Frontmatter.ComesBack 1 m content := by
  have hclean : m.clean = [(.text "description", .text "Review")] :=
    Frontmatter.eq_of_singles (by simp [Frontmatter.single?]) hm
  refine ⟨fun block hblock => ?_, by rw [hclean]; rfl, hbare⟩
  have hwritten : Yaml.write [(.text "description", .text "Review")] =
      .ok "description: Review\n" := eq_ok_of_toOption (by decide +kernel)
  rw [hclean, hwritten] at hblock
  obtain rfl := Except.ok.inj hblock
  have hread : ((Yaml.readValue 1 "description: Review\n").toOption.bind Value.entries?).map
      Frontmatter.singles = some [(.text "description", some (.text "Review"))] := by
    decide +kernel
  obtain ⟨n, hn, hsingles⟩ := Option.map_eq_some_iff.mp hread
  obtain ⟨v, hv, hentries⟩ := Option.bind_eq_some_iff.mp hn
  have hsame : n = [(.text "description", .text "Review")] :=
    Frontmatter.eq_of_singles (by simp [Frontmatter.single?]) hsingles
  refine ⟨v, n, fun _ => .own, eq_ok_of_toOption hv, hentries, ?_, fun i j k hi => ?_⟩
  · rw [hclean, hsame]
    rfl
  · cases hi

theorem comesBack_shelf : ComesBack .claude Agent.hub shelfOrder shelfWorld := by
  intro p q hp hq
  obtain rfl := Except.ok.inj (base_shelf.1.symm.trans hp)
  obtain rfl := Except.ok.inj (base_shelf.2.symm.trans hq)
  rw [found_shelf.1, found_shelf.2]
  refine ⟨fun file hfile t ht => ?_, fun folder hfolder => ?_⟩
  · obtain rfl := List.mem_singleton.mp hfile
    have htarget : commandTarget .claude Agent.hub ⟨1, ["w", ".claude", "commands"]⟩
        ⟨1, ["w", ".config", "acsync", "commands"]⟩ ⟨1, ["w", ".claude", "commands", "a.md"]⟩ =
          .ok ⟨1, ["w", ".config", "acsync", "commands", "a.md"]⟩ :=
      eq_ok_of_toOption (by decide)
    obtain rfl := Except.ok.inj (htarget.symm.trans ht)
    intro hhub b n existing hb hn hexisting
    obtain rfl : Text.encode "---\ndescription: Review\n---\nhi\n" = b := Option.some.inj hb
    obtain rfl : [] = existing := Except.ok.inj hexisting
    have hshape : (broughtCommand .claude Agent.hub ⟨1, ["w", ".claude", "commands", "a.md"]⟩
        (Text.encode "---\ndescription: Review\n---\nhi\n")).toOption.map (fun n =>
          (Frontmatter.singles (n.toCommand Agent.hub ⟨false, []⟩).fields.clean,
            Frontmatter.block? (Text.unifyNewlines (bodyText Agent.hub n.body).toList))) =
        some ([(.text "description", some (.text "Review"))], none) := by decide +kernel
    rw [hn] at hshape
    obtain ⟨hfields, hbare⟩ := Prod.mk.inj (Option.some.inj hshape)
    exact comesBack_review hfields hbare
  · obtain rfl := List.mem_singleton.mp hfolder
    intro hhub skill n existing hread hn hexisting
    have hnone : Skill.isIn shelfWorld ⟨1, ["w", ".config", "acsync", "skills", "s"]⟩ = false := by
      decide
    obtain rfl : [] = existing := by
      change ((existingSkill Agent.hub _ (Skill.isIn shelfWorld
        ⟨1, ["w", ".config", "acsync", "skills", "s"]⟩)).run shelfWorld).1 = _ at hexisting
      rw [hnone] at hexisting
      exact Except.ok.inj hexisting
    have hshape : ((((Skill.read .claude 0 (Path.text ⟨1, ["w", ".claude", "skills", "s"]⟩)).run
        shelfWorld).1.toOption.bind fun skill =>
          (skill.toNeutral .claude (some Agent.hub.name)).toOption).map fun n =>
          (Frontmatter.singles (n.toSkill Agent.hub ⟨false, []⟩).fields.clean,
            Frontmatter.block? (Text.unifyNewlines
              (n.toSkill Agent.hub ⟨false, []⟩).content.toList))) =
        some ([(.text "description", some (.text "Review"))], none) := by decide +kernel
    rw [hread, Except.toOption, Option.bind_some, hn] at hshape
    obtain ⟨hfields, hbare⟩ := Prod.mk.inj (Option.some.inj hshape)
    exact comesBack_review hfields hbare

/-- The text of a hub document in which another agent has a set. -/
def setText (description set body : String) : String :=
  "---\n" ++ description ++ "_chimera:\n  gemini:\n    tags: !!set" ++ set ++ "---\n" ++ body

/-- The hub has the command of the shelf already, with a set. -/
def setWorld : World :=
  { shelfWorld with
    tree := shelfWorld.tree ++ [(["w", ".config"], .folder), (["w", ".config", "acsync"], .folder),
      (["w", ".config", "acsync", "commands"], .folder),
      (["w", ".config", "acsync", "commands", "a.md"],
        .file (Text.encode (setText "" " {30, 15, 46}\n" "old\n")))] }

/-- A set that is not steady is read into another table than the one it was written from. Both
runs return without failures, and the second one writes the members in another order. -/
theorem again_reorders_set : ∃ r r' v z, (run .claude Agent.hub shelfOrder).run setWorld = (.ok r, v) ∧
    (run .claude Agent.hub shelfOrder).run v = (.ok r', z) ∧ r.failures = [] ∧ r'.failures = [] ∧
    v.tree.bytes? ["w", ".config", "acsync", "commands", "a.md"] = some (Text.encode
      (setText "description: Review\n" "\n      15: null\n      46: null\n      30: null\n" "hi\n")) ∧
    z.tree.bytes? ["w", ".config", "acsync", "commands", "a.md"] = some (Text.encode
      (setText "description: Review\n" "\n      46: null\n      30: null\n      15: null\n" "hi\n")) := by
  have hruns : (((run .claude Agent.hub shelfOrder).run setWorld).1.toOption.map Report.failures) =
        some [] ∧
      ((run .claude Agent.hub shelfOrder).run setWorld).2.tree.bytes?
        ["w", ".config", "acsync", "commands", "a.md"] = some (Text.encode (setText
          "description: Review\n" "\n      15: null\n      46: null\n      30: null\n" "hi\n")) ∧
      (((run .claude Agent.hub shelfOrder).run
        ((run .claude Agent.hub shelfOrder).run setWorld).2).1.toOption.map Report.failures) =
          some [] ∧
      ((run .claude Agent.hub shelfOrder).run
        ((run .claude Agent.hub shelfOrder).run setWorld).2).2.tree.bytes?
          ["w", ".config", "acsync", "commands", "a.md"] = some (Text.encode (setText
            "description: Review\n" "\n      46: null\n      30: null\n      15: null\n" "hi\n")) := by
    decide +kernel
  obtain ⟨hfirst, hbytes, hsecond, hbytes'⟩ := hruns
  obtain ⟨r, hr, hfine⟩ := Option.map_eq_some_iff.mp hfirst
  obtain ⟨r', hr', hfine'⟩ := Option.map_eq_some_iff.mp hsecond
  exact ⟨r, r', _, _, Prod.ext (eq_ok_of_toOption hr) rfl, Prod.ext (eq_ok_of_toOption hr') rfl,
    hfine, hfine', hbytes, hbytes'⟩

/-! ## A path through an orphan -/

/-- A command of one agent, and a skill that only the other one has. -/
def detourWorld : World where
  tree :=
    [(["w"], .folder), (["w", ".cursor"], .folder), (["w", ".cursor", "commands"], .folder),
      (["w", ".cursor", "commands", "a.md"], .file (Text.encode "hi\n")),
      (["w", ".claude"], .folder), (["w", ".claude", "skills"], .folder),
      (["w", ".claude", "skills", "old"], .folder),
      (["w", ".claude", "skills", "old", "SKILL.md"], .file (Text.encode "x\n"))]
  home := ⟨1, ["h"]⟩
  here := ⟨1, ["w"]⟩
  repository := none
  held := none
  printed := []
  warnings := []

/-- Orphans are to be deleted, in a repository that is looked up by a path through one. -/
def detourOrder : Order :=
  { pairOrder with
    deleteOrphans := true
    setup := ⟨[(.cursor, "/w/.cursor"), (.chimera, "/w/hub")],
      some ⟨1, ["w", ".claude", "skills", "old", "..", "..", ".."]⟩, false⟩ }

/-- The base folder of the destination, by the path through the orphan. -/
def detourBase : Path := ⟨1, ["w", ".claude", "skills", "old", "..", "..", "..", ".claude"]⟩

theorem base_detour : detourOrder.setup.base .cursor detourWorld = .ok ⟨1, ["w", ".cursor"]⟩ ∧
    detourOrder.setup.base .claude detourWorld = .ok detourBase :=
  ⟨eq_ok_of_toOption (by decide), eq_ok_of_toOption (by decide)⟩

theorem commandsFound_detour : commandsFound .cursor detourOrder ⟨1, ["w", ".cursor"]⟩ detourWorld =
    [⟨1, ["w", ".cursor", "commands", "a.md"]⟩] := by decide +kernel

theorem admissible_detour : Admissible .cursor .claude detourOrder detourWorld := by
  refine ⟨⟨⟨?_, ?_, ?_, ?_⟩, ?_, ?_⟩, ?_, leadsBelow_none, ?_, ?_⟩
  all_goals try decide
  · intro p q hp hq
    obtain rfl := Except.ok.inj (base_detour.1.symm.trans hp)
    obtain rfl := Except.ok.inj (base_detour.2.symm.trans hq)
    constructor <;> decide
  · intro folder hfolder file hfile way hway
    obtain rfl := Except.ok.inj ((commands_eq_ok base_detour.1 rfl rfl).symm.trans hfolder)
    change file ∈ commandsFound .cursor detourOrder ⟨1, ["w", ".cursor"]⟩ detourWorld at hfile
    rw [commandsFound_detour, List.mem_singleton] at hfile
    rw [hfile] at hway
    obtain rfl : (⟨0, ["a.md"]⟩ : Path) = way := Option.some.inj hway
    decide

/-- What the first run tells, and what the second one tells. -/
theorem runs_detour : ∃ v, (run .cursor .claude detourOrder).run detourWorld =
      (.ok ⟨[⟨.created, (detourBase.append "commands").append "a.md", false⟩,
        ⟨.deleted, (detourBase.append "skills").append "old", false⟩], [], 1⟩, v) ∧
    v.tree.get? v.herePlace = some .folder ∧ ((run .cursor .claude detourOrder).run v).1 =
      .ok ⟨[⟨.created, (detourBase.append "commands").append "a.md", false⟩], [], 1⟩ := by
  have hruns : ((run .cursor .claude detourOrder).run detourWorld).1.toOption =
        some ⟨[⟨.created, (detourBase.append "commands").append "a.md", false⟩,
          ⟨.deleted, (detourBase.append "skills").append "old", false⟩], [], 1⟩ ∧
      ((run .cursor .claude detourOrder).run detourWorld).2.tree.get?
        ((run .cursor .claude detourOrder).run detourWorld).2.herePlace = some .folder ∧
      ((run .cursor .claude detourOrder).run
          ((run .cursor .claude detourOrder).run detourWorld).2).1.toOption =
        some ⟨[⟨.created, (detourBase.append "commands").append "a.md", false⟩], [], 1⟩ := by
    decide +kernel
  exact ⟨_, Prod.ext (eq_ok_of_toOption hruns.1) rfl, hruns.2.1, eq_ok_of_toOption hruns.2.2⟩

end AgentRelay.Sync
