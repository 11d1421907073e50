import AgentRelay.Proofs.Sync.Mirror

/-
  Runs that keep what exists.

  A command is left alone when its target is found to be a file, a skill when its
  target is found to hold the skill's own file. What has been found once is found as
  long as the run goes on (`World.Kept.isFile`), so a run changes no file but where
  nothing was found: at a target that two points hide behind a folder that is not
  there yet, and below the target of a skill without the skill's own file
  (`run_keeps_files`). There it may even remove a file (`run_removes_config`).
-/

namespace AgentRelay

open Files (Place Tree Entry ValidName)
open Work

/-- The world is sound, and outside of some places nothing has changed; every folder
and every file is still there. -/
structure World.Kept (R : Place → Prop) (w v : World) : Prop extends w.Grown R v where
  sound : v.Sound
  files : ∀ q, (w.tree.bytes? q).isSome = true → (v.tree.bytes? q).isSome = true

namespace World.Kept

variable {R : Place → Prop} {u v w : World}

theorem refl (h : w.Sound) : w.Kept R w :=
  ⟨(World.SameFiles.refl w).grown, h, fun _ => id⟩

theorem trans (h : u.Kept R v) (h' : v.Kept R w) : u.Kept R w :=
  ⟨h.toGrown.trans h'.toGrown, h'.sound, fun q hq => h'.files q (h.files q hq)⟩

theorem same (h : u.Kept R v) (hs : v.SameFiles w) : u.Kept R w :=
  h.trans ⟨hs.grown, hs.sound h.sound, fun q hq => by rw [hs.tree, hq]⟩

/-- A file that was found is found. -/
theorem isFile (h : w.Kept R v) {p : Path} (hp : w.isFile p = true) : v.isFile p = true := by
  obtain ⟨q, b, hstat⟩ := World.isFile_iff_stat.mp hp
  obtain ⟨hl, hget⟩ := World.stat_iff_locate.mp hstat
  obtain ⟨b', hb'⟩ := Option.isSome_iff_exists.mp
    (h.files q (by rw [Tree.bytes?_eq_some_iff.mpr hget]; rfl))
  exact World.isFile_iff_stat.mpr ⟨q, b', World.stat_iff_locate.mpr
    ⟨h.toGrown.locate hl, Tree.bytes?_eq_some_iff.mp hb'⟩⟩

/-- The working folder is still there. -/
theorem herePlace (h : w.Kept R v) (hhere : w.tree.get? w.herePlace = some .folder) :
    v.tree.get? v.herePlace = some .folder := by
  rw [World.herePlace, h.here]
  exact h.folders _ hhere

theorem tidy (h : w.Kept R v) {setup : Setup} (htidy : setup.Tidy w) : setup.Tidy v :=
  ⟨h.home ▸ htidy.home, htidy.repository⟩

/-- Paths still begin in folders. -/
theorem stands (h : w.Kept R v) (hhere : w.tree.get? w.herePlace = some .folder) (root : Nat) :
    v.Stands w.here root := by
  refine ⟨h.sound, h.here, ?_⟩
  unfold Path.start
  split
  · exact h.folders _ hhere
  · rfl

end World.Kept

namespace Sync

/-! ## One item after the other -/

section
variable {I : World → Prop} (hI : ∀ w v, w.SameFiles v → I w → I v)
include hI

theorem keeps_collected {α : Type} {x : Work α} (h : Keeps I x) : Keeps I (collected x) := by
  refine Keeps.bind (Keeps.attempt h) fun found => Keeps.of_still hI ?_
  split
  · exact Still.pure _
  · split
    · exact Still.pure _
    · exact Still.throw _

theorem keeps_reports {α : Type} {report : α → Work Report} {xs : List α}
    (h : ∀ x ∈ xs, Keeps I (report x)) : Keeps I (reports report xs) := by
  induction xs with
  | nil => exact Keeps.of_still hI (Still.pure _)
  | cons x xs ih =>
    rw [reports]
    refine Keeps.bind (h x (by simp)) fun first => ?_
    exact Keeps.bind (ih fun y hy => h y (List.mem_cons_of_mem _ hy)) fun _ =>
      Keeps.of_still hI (Still.pure _)

end

variable {s d : Agent} {o : Order} {w : World}

/-! ## Items that are skipped -/

theorem Order.skips_there (hkeep : o.keepExisting = true) : o.skips true = true := by
  rw [Order.skips, hkeep]
  rfl

/-- A command whose target is found leaves the files alone. -/
theorem keeps_takeCommand_there (hkeep : o.keepExisting = true) (file : Path) {target : Path}
    (hthere : w.isFile target = true) : Keeps w.SameFiles (takeCommand s d o file target) := by
  have hI : ∀ u v : World, u.SameFiles v → w.SameFiles u → w.SameFiles v :=
    fun _ _ huv hu => hu.trans huv
  unfold takeCommand
  refine Keeps.bind (Keeps.of_still hI (Command.still_read s 0 _)) fun command => ?_
  refine Keeps.bind (Keeps.of_still hI (Still.ofExcept _)) fun neutral => ?_
  refine Keeps.get_bind fun v hv => ?_
  have hfound : v.isFile target = true := by
    rw [World.isFile, hv.stat]
    exact hthere
  dsimp only
  rw [hfound, if_pos (Order.skips_there hkeep)]
  exact Keeps.of_still hI (Still.pure _)

/-- A skill whose target holds the skill's own file leaves the files alone. -/
theorem keeps_takeSkill_there (hkeep : o.keepExisting = true) (folder : Path) {target : Path}
    (hthere : Skill.isIn w target = true) : Keeps w.SameFiles (takeSkill s d o folder target) := by
  have hI : ∀ u v : World, u.SameFiles v → w.SameFiles u → w.SameFiles v :=
    fun _ _ huv hu => hu.trans huv
  unfold takeSkill
  refine Keeps.bind (Keeps.of_still hI (Skill.still_read s 0 _)) fun skill => ?_
  refine Keeps.bind (Keeps.of_still hI (Still.ofExcept _)) fun neutral => ?_
  refine Keeps.get_bind fun v hv => ?_
  have hfound : Skill.isIn v target = true := by
    rw [Skill.isIn, World.isFile, hv.stat]
    exact hthere
  dsimp only
  rw [hfound, if_pos (Order.skips_there hkeep)]
  exact Keeps.of_still hI (Still.pure _)

/-! ## Commands -/

/-- The run takes a command to a target. -/
def TakesCommand (s d : Agent) (o : Order) (w : World) (t : Path) : Prop :=
  o.contents.hasCommands = true ∧ ∃ source target, o.setup.commands s w = .ok source ∧
    o.setup.commands d w = .ok target ∧
    ∃ file ∈ w.commandFiles s source o.only, commandTarget s d source target file = .ok t

/-- The places of commands whose targets are not found. -/
def UnseenPlace (s d : Agent) (o : Order) (w : World) (q : Place) : Prop :=
  ∃ t, TakesCommand s d o w t ∧ w.isFile t = false ∧ q = Path.place w.here t

theorem tidy_commandTarget {source target file t : Path} (htarget : target.Tidy)
    (ht : commandTarget s d source target file = .ok t) : t.Tidy := by
  unfold commandTarget at ht
  split at ht
  · obtain rfl := Except.ok.inj ht
    exact htarget.join (Path.tidy_ofChars _)
  · cases ht

theorem keeps_takeCommand (hkeep : o.keepExisting = true)
    (hhere : w.tree.get? w.herePlace = some .folder) {R : Place → Prop} (file : Path)
    {t : Path} (ht : t.Tidy) (hR : w.isFile t = false → R (Path.place w.here t)) :
    Keeps (w.Kept R) (takeCommand s d o file t) := by
  intro v hv
  cases hfound : v.isFile t with
  | true => exact hv.same (keeps_takeCommand_there hkeep file hfound v (World.SameFiles.refl v))
  | false =>
    obtain ⟨hstands, hgrown⟩ := takeCommand_grows s d o file ht rfl v (hv.stands hhere t.root)
    refine hv.trans ⟨hgrown.mono ?_, hstands.sound, adds_takeCommand s d o file t v⟩
    rintro q rfl
    -- A target that is not found now was not found in the beginning.
    refine hR (Bool.eq_false_iff.mpr fun hbefore => ?_)
    rw [hv.isFile hbefore] at hfound
    exact nomatch hfound

theorem keeps_reportCommand (hkeep : o.keepExisting = true)
    (hhere : w.tree.get? w.herePlace = some .folder) {R : Place → Prop} {source target : Path}
    (htarget : target.Tidy) (file : Path) (hR : ∀ t, commandTarget s d source target file = .ok t →
      w.isFile t = false → R (Path.place w.here t)) :
    Keeps (w.Kept R) (reportCommand s d o source target file) := by
  have hI : ∀ u v : World, u.SameFiles v → w.Kept R u → w.Kept R v := fun _ _ huv hu => hu.same huv
  unfold reportCommand
  cases ht : commandTarget s d source target file with
  | error e => exact Keeps.of_still hI (Still.throw _)
  | ok t =>
    rw [ofExcept_ok_bind]
    refine Keeps.bind (keeps_collected hI ?_) fun _ => Keeps.of_still hI (Still.pure _)
    exact keeps_takeCommand hkeep hhere file (tidy_commandTarget htarget ht) (hR t ht)

/-- Commands are written nowhere but where their targets are not found. -/
theorem commandsPart_kept (hkeep : o.keepExisting = true) (hsweeps : o.sweeps = false)
    (h : w.Sound) (hhere : w.tree.get? w.herePlace = some .folder) (htidy : o.setup.Tidy w) :
    w.Kept (UnseenPlace s d o w) ((commandsPart s d o).run w).2 := by
  have hI : ∀ u v : World, u.SameFiles v → w.Kept (UnseenPlace s d o w) u →
      w.Kept (UnseenPlace s d o w) v := fun _ _ huv hu => hu.same huv
  unfold commandsPart
  split
  · rename_i hcontents
    rw [runCommands_eq, run_get_bind]
    cases hs : o.setup.commands s w with
    | error e => exact World.Kept.refl h
    | ok source =>
      cases hd : o.setup.commands d w with
      | error e => exact World.Kept.refl h
      | ok target =>
        rw [ofExcept_ok_bind, ofExcept_ok_bind, commandsBetween,
          sweeping_spared hsweeps]
        refine Keeps.bind (Keeps.of_still hI (still_tellFound _ _ _ _ _)) (fun _ =>
          keeps_reports hI fun file hfile => ?_) w (World.Kept.refl h)
        refine keeps_reportCommand hkeep hhere (Setup.tidy_commands htidy h hd) file
          fun t ht hunseen => ?_
        exact ⟨t, ⟨hcontents, source, target, hs, hd, file, hfile, ht⟩, hunseen, rfl⟩
  · exact World.Kept.refl h

/-! ## Skills -/

/-- The run takes a skill from a folder into a folder of targets. -/
def TakesSkill (s d : Agent) (o : Order) (w : World) (target folder : Path) : Prop :=
  o.contents.hasSkills = true ∧ ∃ source, o.setup.skills s w = .ok source ∧
    o.setup.skills d w = .ok target ∧ folder ∈ w.skillFolders source o.only

/-- The places at and below targets of skills that do not hold the skill's own file. -/
def UnmarkedPlace (s d : Agent) (o : Order) (w : World) (q : Place) : Prop :=
  ∃ target folder, TakesSkill s d o w target folder ∧
    Skill.isIn w (target.append folder.name) = false ∧
    Path.place w.here (target.append folder.name) <+: q

/-- No skill is taken to a path with two points. -/
def Straight (s d : Agent) (o : Order) (w : World) : Prop :=
  ∀ target folder, TakesSkill s d o w target folder → target.Clean ∧ ValidName folder.name

/-- The skill's own file in a target that holds one lies below no target without one. -/
theorem ownFile_marked (hstraight : Straight s d o w) {target folder : Path}
    (htakes : TakesSkill s d o w target folder)
    (hin : Skill.isIn w (target.append folder.name) = true) :
    ¬ UnmarkedPlace s d o w
      (Path.spot w.here (target.append folder.name) ++ [Skill.ownFile]) := by
  rintro ⟨target', folder', htakes', hnot, hbelow⟩
  obtain ⟨ht, hn⟩ := hstraight _ _ htakes
  obtain ⟨-, hn'⟩ := hstraight _ _ htakes'
  obtain rfl : target' = target := by
    obtain ⟨-, _, -, hd, -⟩ := htakes
    obtain ⟨-, _, -, hd', -⟩ := htakes'
    exact Except.ok.inj (hd'.symm.trans hd)
  rw [Path.append_name target' hn', Path.place_eq_spot (ht.behind (by simpa using hn')),
    Path.spot_behind, Path.append_name target' hn, Path.spot_behind] at hbelow
  -- Both folders of targets are the same, so one place below both names both alike.
  have hown : BelowTarget w.here target' folder
      (Path.spot w.here target' ++ [folder.name] ++ [Skill.ownFile]) := List.prefix_append _ _
  have hname : folder'.name = folder.name := BelowTarget.name_eq hbelow hown
  rw [hname, hin] at hnot
  exact nomatch hnot

theorem keeps_takeSkill (hkeep : o.keepExisting = true) (h : w.Sound)
    (hstraight : Straight s d o w) {target folder : Path} (hf : folder.Tidy)
    (htakes : TakesSkill s d o w target folder) :
    Keeps (fun v => v.Stands w.here target.root ∧ w.Moved (UnmarkedPlace s d o w) v)
      (takeSkill s d o folder (target.append folder.name)) := by
  rintro v ⟨hv, hmoved⟩
  obtain ⟨ht, hn⟩ := hstraight _ _ htakes
  have hclean : (target.append folder.name).Clean := by
    rw [Path.append_name target hn]
    exact ht.behind (by simpa using hn)
  cases hfound : Skill.isIn v (target.append folder.name) with
  | true =>
    have hsame := keeps_takeSkill_there (s := s) (d := d) hkeep folder hfound v
      (World.SameFiles.refl v)
    exact ⟨hsame.stands hv, hmoved.trans hsame.moved⟩
  | false =>
    obtain ⟨hstands, hmoved'⟩ :=
      takeSkill_confined s d o hf hclean (root_append hn) v hv
    refine ⟨hstands, hmoved.trans (hmoved'.mono fun q hq => ?_)⟩
    refine ⟨target, folder, htakes, Bool.eq_false_iff.mpr fun hbefore => ?_, ?_⟩
    · -- The file that was found in the beginning is not below a target without one.
      have hb := (World.isIn_iff h hclean).mp hbefore
      rw [← hmoved.bytes? (ownFile_marked hstraight htakes hbefore), ← hmoved.here,
        ← World.isIn_iff hv.sound hclean, hfound] at hb
      exact nomatch hb
    · rwa [Path.place_eq_spot hclean]

/-- Skills are written nowhere but below targets without the skill's own file. -/
theorem skillsPart_moved (hkeep : o.keepExisting = true) (hsweeps : o.sweeps = false)
    (h : w.Sound) (hhere : w.tree.get? w.herePlace = some .folder) (htidy : o.setup.Tidy w)
    (hstraight : Straight s d o w) :
    w.Moved (UnmarkedPlace s d o w) ((skillsPart s d o).run w).2 := by
  have hrefl : w.Moved (UnmarkedPlace s d o w) w := (World.SameFiles.refl w).moved
  unfold skillsPart
  split
  · rename_i hcontents
    rw [runSkills_eq, run_get_bind]
    cases hd : o.setup.skills d w with
    | error e => exact hrefl
    | ok target =>
      cases hs : o.setup.skills s w with
      | error e => exact hrefl
      | ok source =>
        have hI : ∀ u v : World, u.SameFiles v →
            (u.Stands w.here target.root ∧ w.Moved (UnmarkedPlace s d o w) u) →
            v.Stands w.here target.root ∧ w.Moved (UnmarkedPlace s d o w) v :=
          fun _ _ huv hu => ⟨huv.stands hu.1, hu.2.trans huv.moved⟩
        rw [ofExcept_ok_bind, ofExcept_ok_bind, skillsBetween,
          sweeping_spared hsweeps]
        refine (Keeps.bind (Keeps.of_still hI (still_tellFound _ _ _ _ _)) (fun _ =>
          keeps_reports hI fun folder hfolder => ?_) w
            ⟨stands_of_here h hhere target.root, hrefl⟩).2
        refine Keeps.bind (keeps_collected hI ?_) fun _ => Keeps.of_still hI (Still.pure _)
        refine keeps_takeSkill hkeep h hstraight ?_ ⟨hcontents, source, hs, hd, hfolder⟩
        exact World.tidy_of_mem_skillFolders h (Setup.tidy_skills htidy h hs) hfolder
  · exact hrefl

/-! ## Whole runs -/

/-- The world once the commands have been taken. -/
def afterCommands (s d : Agent) (o : Order) (w : World) : World :=
  ((commandsPart s d o).run (afterLock o w)).2

/-- A run that keeps what exists and deletes nothing, and the files it meets: the tree is
sound and holds the working folder, and no skill is taken to a path with two points. -/
structure Keeping (s d : Agent) (o : Order) (w : World) : Prop where
  sound : w.Sound
  here : w.tree.get? w.herePlace = some .folder
  tidy : o.setup.Tidy w
  writes : o.preview = false
  keeps : o.keepExisting = true
  sweepless : o.deleteOrphans = false
  straight : Straight s d o (afterCommands s d o w)

theorem Keeping.sweeps (h : Keeping s d o w) : o.sweeps = false := by
  rw [Order.sweeps, h.sweepless]
  rfl

/-- The lock changes no file. -/
theorem Keeping.lock (h : Keeping s d o w) : w.Kept (fun _ => False) (afterLock o w) := by
  obtain ⟨hsound, hgrown⟩ := takeLock_grown h.sound h.here h.tidy
  refine ⟨hgrown, hsound, fun q hq => ?_⟩
  change (((takeLock o.setup).run w).2.tree.bytes? q).isSome = true
  rwa [hgrown.bytes? not_false]

theorem Keeping.commands (h : Keeping s d o w) :
    (afterLock o w).Kept (UnseenPlace s d o (afterLock o w)) (afterCommands s d o w) :=
  commandsPart_kept h.keeps h.sweeps h.lock.sound (h.lock.herePlace h.here) (h.lock.tidy h.tidy)

/-- The skills are met in the world that the commands have left. -/
theorem Keeping.skills (h : Keeping s d o w) :
    (afterCommands s d o w).Moved (UnmarkedPlace s d o (afterCommands s d o w))
      ((skillsPart s d o).run (afterCommands s d o w)).2 :=
  skillsPart_moved h.keeps h.sweeps h.commands.sound
    (h.commands.herePlace (h.lock.herePlace h.here)) (h.commands.tidy (h.lock.tidy h.tidy))
    h.straight

/-- Without two points in its path, a target that is a file is found. -/
theorem clean_of_unseen (h : w.Sound) {t : Path} {b : ByteArray} (hunseen : w.isFile t = false)
    (hb : w.tree.bytes? (Path.place w.here t) = some b) : ¬ t.Clean := by
  intro hclean
  rw [Path.place_eq_spot hclean] at hb
  rw [(World.isFile_iff h hclean).mpr (by rw [hb]; rfl)] at hunseen
  exact nomatch hunseen

/-- What holds after the first piece of work and, where it ends well, after the second. -/
theorem after_bind {α β : Type} {P : World → Prop} {x : Work α} {f : α → Work β} {w : World}
    (hx : P (x.run w).2) (hf : ∀ a, P ((f a).run (x.run w).2).2) : P ((x >>= f).run w).2 := by
  rw [run_bind]
  cases hrun : x.run w with
  | mk r v =>
    rw [hrun] at hx hf
    cases r with
    | ok a => exact hf a
    | error e => exact hx

/-- A file that exists before a run that is to keep what exists has the same bytes after
it, whether the run returns or not, unless it lies at the target of a command that is not
found there for two points in the path, or below the target of a skill where the skill's
own file is not found. -/
theorem run_keeps_files (s d : Agent) (o : Order) (w : World) (h : Keeping s d o w) (q : Place)
    (b : ByteArray) (hb : w.tree.bytes? q = some b)
    (hcommands : ∀ t, TakesCommand s d o (afterLock o w) t → ¬ t.Clean →
      (afterLock o w).isFile t = false → q ≠ Path.place w.here t)
    (hskills : ∀ target folder, TakesSkill s d o (afterCommands s d o w) target folder →
      Skill.isIn (afterCommands s d o w) (target.append folder.name) = false →
      ¬ Path.place w.here (target.append folder.name) <+: q) :
    ((run s d o).run w).2.tree.bytes? q = some b := by
  have hlock : (afterLock o w).tree.bytes? q = some b := (h.lock.bytes? not_false).trans hb
  have hseen : ¬ UnseenPlace s d o (afterLock o w) q := by
    rintro ⟨t, htakes, hunseen, rfl⟩
    exact hcommands t htakes (clean_of_unseen h.lock.sound hunseen hlock) hunseen
      (by rw [h.lock.here])
  have hmarked : ¬ UnmarkedPlace s d o (afterCommands s d o w) q := by
    rintro ⟨target, folder, htakes, hnot, hbelow⟩
    rw [h.commands.here, h.lock.here] at hbelow
    exact hskills target folder htakes hnot hbelow
  have hafter : (afterCommands s d o w).tree.bytes? q = some b :=
    (h.commands.bytes? hseen).trans hlock
  have hlast : ((skillsPart s d o).run (afterCommands s d o w)).2.tree.bytes? q = some b :=
    (h.skills.bytes? hmarked).trans hafter
  -- The run may end after each of its parts.
  let P : World → Prop := fun v => v.tree.bytes? q = some b
  rw [run_eq, locking, h.writes]
  refine after_bind (P := P) hlock fun _ => ?_
  rw [runAll_eq]
  refine after_bind (P := P) hafter fun commands => ?_
  exact after_bind (P := P) hlast fun skills => hlast

/-- A command and a skill of one agent, and in the place of the skill a configuration that
the other agent has. -/
def heldWorld (more : List (Place × Entry)) : World where
  tree :=
    [(["w"], .folder), (["w", ".claude"], .folder), (["w", ".claude", "commands"], .folder),
      (["w", ".claude", "commands", "a.md"], .file (Text.encode "hi\n")),
      (["w", ".claude", "skills"], .folder), (["w", ".claude", "skills", "s"], .folder),
      (["w", ".claude", "skills", "s", "SKILL.md"], .file (Text.encode "hi\n")),
      (["w", ".codex"], .folder), (["w", ".codex", "skills"], .folder),
      (["w", ".codex", "skills", "s"], .folder),
      (["w", ".codex", "skills", "s", "agents"], .folder),
      (["w", ".codex", "skills", "s", "agents", "openai.yaml"],
        .file (Text.encode "policy: none\n"))] ++ more
  home := ⟨1, ["h"]⟩
  here := ⟨1, ["w"]⟩
  repository := none
  held := none
  printed := []
  warnings := []

/-- The other agent has the skill as well. -/
def markedWorld : World :=
  heldWorld [(["w", ".codex", "skills", "s", "SKILL.md"], .file (Text.encode "mine\n"))]

/-- The other agent has nothing but the configuration. -/
def unmarkedWorld : World := heldWorld []

/-- Everything is to be taken, and what exists is to be kept. -/
def keepOrder : Order := { pairOrder with keepExisting := true }

/-- The place of the configuration. -/
def configPlace : Place := ["w", ".codex", "skills", "s", "agents", "openai.yaml"]

section
variable {more : List (Place × Entry)}
  (hskills : (afterCommands .claude .codex keepOrder (heldWorld more)).skillFolders
    ⟨1, ["w", ".claude", "skills"]⟩ none = [⟨1, ["w", ".claude", "skills", "s"]⟩])
include hskills

theorem eq_of_takesSkill {target folder : Path} (h : TakesSkill .claude .codex keepOrder
    (afterCommands .claude .codex keepOrder (heldWorld more)) target folder) :
    target = ⟨1, ["w", ".codex", "skills"]⟩ ∧ folder = ⟨1, ["w", ".claude", "skills", "s"]⟩ := by
  have hfolder : ∀ a : Agent, keepOrder.setup.skills a
      (afterCommands .claude .codex keepOrder (heldWorld more)) =
        .ok ((Path.append ⟨1, ["w"]⟩ a.projectBase).append a.skillFolder) := fun _ => rfl
  have hsource : (Path.append ⟨1, ["w"]⟩ Agent.claude.projectBase).append Agent.claude.skillFolder =
      ⟨1, ["w", ".claude", "skills"]⟩ := by decide
  obtain ⟨-, source, hs, hd, hmem⟩ := h
  rw [hfolder, hsource] at hs
  rw [hfolder] at hd
  obtain rfl := Except.ok.inj hs
  rw [show keepOrder.only = none from rfl, hskills, List.mem_singleton] at hmem
  refine ⟨?_, hmem⟩
  rw [← Except.ok.inj hd]
  decide

theorem keeping_held (hsound : (heldWorld more).tree.Sound) :
    Keeping .claude .codex keepOrder (heldWorld more) := by
  have hclean : Path.Clean ⟨1, ["w"]⟩ := ⟨by decide, by decide⟩
  have hhome : Path.Clean ⟨1, ["h"]⟩ := ⟨by decide, by decide⟩
  refine ⟨⟨hsound, hclean⟩, rfl, ⟨hhome.tidy, fun p hp => ?_⟩, rfl, rfl, rfl,
    fun target folder htakes => ?_⟩
  · obtain rfl := Option.some.inj hp
    exact hclean.tidy
  · obtain ⟨rfl, rfl⟩ := eq_of_takesSkill hskills htakes
    exact ⟨⟨by decide, by decide⟩, by decide⟩

end

/-- The command has a target without two points. -/
theorem clean_of_takesCommand {w : World} (hcommands : w.commandFiles .claude
      ⟨1, ["w", ".claude", "commands"]⟩ none = [⟨1, ["w", ".claude", "commands", "a.md"]⟩])
    {t : Path} (h : TakesCommand .claude .codex keepOrder w t) : t.Clean := by
  have hfolder : ∀ a : Agent, keepOrder.setup.commands a w =
      .ok ((Path.append ⟨1, ["w"]⟩ a.projectBase).append a.commandFolder) := fun _ => rfl
  have hsource : (Path.append ⟨1, ["w"]⟩ Agent.claude.projectBase).append
      Agent.claude.commandFolder = ⟨1, ["w", ".claude", "commands"]⟩ := by decide
  have htarget : commandTarget .claude .codex ⟨1, ["w", ".claude", "commands"]⟩
      ((Path.append ⟨1, ["w"]⟩ Agent.codex.projectBase).append Agent.codex.commandFolder)
      ⟨1, ["w", ".claude", "commands", "a.md"]⟩ = .ok ⟨1, ["w", ".codex", "prompts", "a.md"]⟩ :=
    eq_ok_of_toOption (by decide)
  obtain ⟨-, source, target, hs, hd, file, hfile, ht⟩ := h
  rw [hfolder, hsource] at hs
  rw [hfolder] at hd
  obtain rfl := Except.ok.inj hs
  obtain rfl := Except.ok.inj hd
  rw [show keepOrder.only = none from rfl, hcommands, List.mem_singleton] at hfile
  rw [hfile, htarget] at ht
  obtain rfl := Except.ok.inj ht
  exact ⟨by decide, by decide⟩

theorem skills_marked : (afterCommands .claude .codex keepOrder markedWorld).skillFolders
    ⟨1, ["w", ".claude", "skills"]⟩ none = [⟨1, ["w", ".claude", "skills", "s"]⟩] := by
  decide +kernel

theorem keeping_marked : Keeping .claude .codex keepOrder markedWorld := by
  refine keeping_held skills_marked ⟨?_, ?_, ?_, ?_⟩ <;> decide

/-- Where the other agent has the skill, its configuration stays. -/
theorem run_keeps_config : Keeping .claude .codex keepOrder markedWorld ∧
    ((run .claude .codex keepOrder).run markedWorld).1 = .ok
      ⟨[⟨.created, ⟨1, ["w", ".codex", "prompts", "a.md"]⟩, false⟩,
        ⟨.skipped, ⟨1, ["w", ".codex", "skills", "s"]⟩, false⟩], [], 2⟩ ∧
    ((run .claude .codex keepOrder).run markedWorld).2.tree.bytes? configPlace =
      some (Text.encode "policy: none\n") := by
  refine ⟨keeping_marked, eq_ok_of_toOption (by decide +kernel),
    run_keeps_files .claude .codex keepOrder markedWorld keeping_marked configPlace _
      (by decide +kernel) (fun t htakes hno _ => ?_) fun target folder htakes hno => ?_⟩
  · exact absurd (clean_of_takesCommand (by decide +kernel) htakes) hno
  · obtain ⟨rfl, rfl⟩ := eq_of_takesSkill skills_marked htakes
    have hin : Skill.isIn (afterCommands .claude .codex keepOrder markedWorld)
        ((Path.mk 1 ["w", ".codex", "skills"]).append
          (Path.mk 1 ["w", ".claude", "skills", "s"]).name) = true := by decide +kernel
    rw [hin] at hno
    exact nomatch hno

/-- Where the other agent has no more than the configuration, the run removes it. -/
theorem run_removes_config : Keeping .claude .codex keepOrder unmarkedWorld ∧
    ((run .claude .codex keepOrder).run unmarkedWorld).1 = .ok
      ⟨[⟨.created, ⟨1, ["w", ".codex", "prompts", "a.md"]⟩, false⟩,
        ⟨.created, ⟨1, ["w", ".codex", "skills", "s"]⟩, false⟩], [], 2⟩ ∧
    unmarkedWorld.tree.bytes? configPlace = some (Text.encode "policy: none\n") ∧
    ((run .claude .codex keepOrder).run unmarkedWorld).2.tree.bytes? configPlace = none := by
  refine ⟨keeping_held (by decide +kernel) ⟨?_, ?_, ?_, ?_⟩,
    eq_ok_of_toOption (by decide +kernel), by decide +kernel, by decide +kernel⟩ <;>
    decide +kernel

end Sync

end AgentRelay
