import AgentRelay.Proofs.Sync.Run

/-
  A preview announces the run.

  The run takes a lock first, which makes folders and changes no file
  (`takeLock_moved`). Then both go over the same commands and the same skills:
  commands and skills lie in different folders, and neither is written where the
  source lies.
-/

namespace AgentRelay.Sync

open Files (Place Tree Entry ValidName)
open Work

/-! ## The lock -/

theorem stands_of_here {w : World} (h : w.Sound)
    (hhere : w.tree.get? w.herePlace = some .folder) (root : Nat) : w.Stands w.here root := by
  refine ⟨h, rfl, ?_⟩
  unfold Path.start
  split
  · exact hhere
  · rfl

theorem valid_lockName : ValidName lockName := by decide

theorem tidy_lock {folder : Path} (h : folder.Tidy) : (folder.append lockName).Tidy := by
  rw [Path.append_name folder valid_lockName]
  exact h.behind (by simpa using valid_lockName)

theorem root_append {p : Path} {n : String} (hn : ValidName n) : (p.append n).root = p.root := by
  rw [Path.append_name p hn]

/-- Looks whether the lock in a folder is free. -/
def lookAtLock (folder : Path) : Work Unit := do
  let lock := folder.append lockName
  let w ← get
  match w.locate lock, w.held with
  | .ok place, some held => if place = held then throw (.locked lock)
  | _, _ => pure ()

theorem takeLock_eq (setup : Setup) : takeLock setup = (do
    let folder ← Work.ofExcept (setup.base Agent.hub (← get))
    Disk.folders folder
    Disk.makeLock (folder.append lockName)
    lookAtLock folder) := rfl

theorem still_lookAtLock (folder : Path) : Still (lookAtLock folder) := by
  refine Still.get_bind fun u => ?_
  split
  · split
    · exact Still.throw _
    · exact Still.pure _
  · exact Still.pure _

/-- Taking the lock changes no file and removes no folder. -/
theorem takeLock_grown {w : World} (h : w.Sound) (hhere : w.tree.get? w.herePlace = some .folder)
    {setup : Setup} (htidy : setup.Tidy w) :
    ((takeLock setup).run w).2.Sound ∧ w.Grown (fun _ => False) ((takeLock setup).run w).2 := by
  rw [takeLock_eq, run_get_bind]
  cases hb : setup.base Agent.hub w with
  | error e =>
    rw [ofExcept_error_bind]
    exact ⟨h, (World.SameFiles.refl w).grown⟩
  | ok folder =>
    have hfolder := Setup.tidy_base htidy h hb
    have hgrows : Grows w.here folder.root (fun _ => False) (do
        Disk.folders folder
        Disk.makeLock (folder.append lockName)
        lookAtLock folder) :=
      Grows.bind (Disk.folders_grows hfolder rfl) fun _ =>
        Grows.bind (Disk.makeLock_grows (tidy_lock hfolder) (root_append valid_lockName)) fun _ =>
          Grows.of_still (still_lookAtLock folder)
    rw [ofExcept_ok_bind]
    obtain ⟨hstands, hgrown⟩ := hgrows w (stands_of_here h hhere folder.root)
    exact ⟨hstands.sound, hgrown⟩

/-- The lock lies in the base folder of the hub, which is there once the lock is taken. -/
theorem stat_of_takeLock {w u : World} (hw : w.Sound)
    (hhere : w.tree.get? w.herePlace = some .folder) {setup : Setup} (htidy : setup.Tidy w)
    (h : (takeLock setup).run w = (.ok (), u)) {folder : Path}
    (hb : setup.base Agent.hub w = .ok folder) : ∃ q, u.stat folder = .ok (q, .folder) := by
  have hfolder := Setup.tidy_base htidy hw hb
  rw [takeLock_eq, run_get_bind, hb, ofExcept_ok_bind] at h
  obtain ⟨_, v, hfolders, h⟩ := ok_of_run_bind h
  obtain ⟨_, v', hmake, hlook⟩ := ok_of_run_bind h
  obtain ⟨q, hq⟩ := Disk.stat_of_folders hfolders
  have hv := Disk.folders_grows hfolder rfl w (stands_of_here hw hhere folder.root)
  rw [hfolders] at hv
  have hgrown := Disk.makeLock_grows (tidy_lock hfolder) (root_append valid_lockName) v hv.1
  rw [hmake] at hgrown
  have hsame := still_lookAtLock folder v'
  rw [hlook] at hsame
  exact ⟨q, (hsame.stat folder).trans (hgrown.2.stat hq)⟩

/-- Taking the lock changes no file. -/
theorem takeLock_moved {w : World} (h : w.Sound) (hhere : w.tree.get? w.herePlace = some .folder)
    {setup : Setup} (hclean : setup.Clean w) {v : World} (hv : w.SameFiles v) :
    ((takeLock setup).run v).2.Sound ∧ w.Moved (fun _ => False) ((takeLock setup).run v).2 := by
  have hhere' : v.tree.get? v.herePlace = some .folder := by
    rw [World.herePlace, hv.tree, hv.here]
    exact hhere
  have htidy : setup.Tidy v := ⟨hv.home ▸ hclean.tidy.home, hclean.tidy.repository⟩
  obtain ⟨hsound, hgrown⟩ := takeLock_grown (hv.sound h) hhere' htidy
  exact ⟨hsound, hv.moved.trans hgrown.toMoved⟩

/-! ## Both kinds of content -/

/-- What a run and the files it meets are like: the tree is sound and holds the
working folder, neither base folder lies in the other, and the order names only
what lies below a folder. -/
structure Admissible (s d : Agent) (o : Order) (w : World) : Prop where
  sound : w.Sound
  here : w.tree.get? w.herePlace = some .folder
  only : World.LeadsBelow o.only
  apart : ∀ p q, o.setup.base s w = .ok p → o.setup.base d w = .ok q → Apart w.here p q
  colonFree : ∀ folder, o.setup.commands s w = .ok folder →
    ColonFree folder (w.commandFiles s folder o.only)

/-- Besides, no base folder is looked up by a path with two points: what such a
path means depends on folders that the run may make. -/
structure Regular (s d : Agent) (o : Order) (w : World) : Prop extends Admissible s d o w where
  clean : o.setup.Clean w

section
variable {s d : Agent} {o : Order} {w u : World} {p q : Path}

theorem Apart.append {here : Path} (h : Apart here p q) {m n : String} (hm : ValidName m)
    (hn : ValidName n) : Apart here (p.append m) (q.append n) := by
  rw [Apart, Path.spot_append hm, Path.spot_append hn]
  exact ⟨fun hpre => h.not_both ((List.prefix_append _ _).trans hpre) (List.prefix_append _ _),
    fun hpre => h.not_both (List.prefix_append _ _) ((List.prefix_append _ _).trans hpre)⟩

theorem commands_eq_ok (hp : o.setup.base s w = .ok p) {v : World} (hhome : v.home = w.home)
    (hhere : v.here = w.here) : o.setup.commands s v = .ok (p.append s.commandFolder) := by
  rw [Setup.commands, Setup.base_eq hhome hhere, hp]
  rfl

theorem skills_eq_ok (hp : o.setup.base s w = .ok p) {v : World} (hhome : v.home = w.home)
    (hhere : v.here = w.here) : o.setup.skills s v = .ok (p.append s.skillFolder) := by
  rw [Setup.skills, Setup.base_eq hhome hhere, hp]
  rfl

theorem clean_commandFolder (hp : p.Clean) (a : Agent) : (p.append a.commandFolder).Clean := by
  rw [Path.append_name p (Setup.valid_commandFolder a)]
  exact hp.behind (by simpa using Setup.valid_commandFolder a)

theorem clean_skillFolder (hp : p.Clean) (a : Agent) : (p.append a.skillFolder).Clean := by
  rw [Path.append_name p (Setup.valid_skillFolder a)]
  exact hp.behind (by simpa using Setup.valid_skillFolder a)

section
variable (h : Regular s d o w) (hp : o.setup.base s w = .ok p) {R : Place → Prop} {x : World}
  (hx : x.Sound) (hmoved : w.Moved R x)
include h hp hx hmoved

/-- The commands of the source are found again. -/
theorem commandFiles_moved
    (hR : ∀ y, R y → ¬ Path.spot w.here (p.append s.commandFolder) <+: y) :
    x.commandFiles s (p.append s.commandFolder) o.only =
      w.commandFiles s (p.append s.commandFolder) o.only := by
  have hclean := clean_commandFolder (Setup.clean_base h.clean h.sound hp) s
  refine World.commandFiles_eq hx h.sound s hclean h.only fun names => ?_
  rw [hmoved.here, hmoved.bytes? fun hr => hR _ hr (List.prefix_append _ names)]

/-- The skills of the source are found again. -/
theorem skillFolders_moved (hR : ∀ y, R y → ¬ Path.spot w.here (p.append s.skillFolder) <+: y) :
    x.skillFolders (p.append s.skillFolder) o.only =
      w.skillFolders (p.append s.skillFolder) o.only := by
  have hclean := clean_skillFolder (Setup.clean_base h.clean h.sound hp) s
  refine World.skillFolders_eq hx h.sound hclean h.only fun names => ?_
  rw [hmoved.here, hmoved.bytes? fun hr => hR _ hr (List.prefix_append _ names)]

end

section
variable (h : Regular s d o w) (hp : o.setup.base s w = .ok p) (hq : o.setup.base d w = .ok q)
  (hu : u.Stands w.here q.root) {R : Place → Prop} (hmoved : w.Moved R u)
include h hp hq hu hmoved

theorem predicts_runCommands
    (hRs : ∀ y, R y → ¬ Path.spot w.here (p.append s.commandFolder) <+: y)
    (hRt : ∀ y, R y → ¬ Path.spot w.here (q.append d.commandFolder) <+: y) :
    Predicts w u (runCommands s d (o.as true)) (runCommands s d (o.as false)) := by
  have hcp := clean_commandFolder (Setup.clean_base h.clean h.sound hp) s
  have hcq := clean_commandFolder (Setup.clean_base h.clean h.sound hq) d
  rw [runCommands_eq, runCommands_eq]
  refine Foretells.get_bind fun v v' hv hv' => ?_
  have hseen : w.Moved R v' := hmoved.trans hv'.moved
  have hs : (o.as true).setup.commands s v = _ := commands_eq_ok hp hv.home hv.here
  have hd : (o.as true).setup.commands d v = _ := commands_eq_ok hq hv.home hv.here
  have hs' : (o.as false).setup.commands s v' = _ := commands_eq_ok hp hseen.home hseen.here
  have hd' : (o.as false).setup.commands d v' = _ := commands_eq_ok hq hseen.home hseen.here
  rw [hs, hd, hs', hd', ofExcept_ok_bind, ofExcept_ok_bind, ofExcept_ok_bind, ofExcept_ok_bind,
    Order.as_only, Order.as_only, commandFiles_moved h hp (hv.sound h.sound) hv.moved hRs,
    commandFiles_moved h hp (hv'.sound hu.sound) hseen hRs]
  refine predicts_commandsBetween h.sound s d o hcp hcq ?_ h.only ?_ ?_ hmoved hRs hRt
  · exact (h.apart p q hp hq).append (Setup.valid_commandFolder s) (Setup.valid_commandFolder d)
  · exact h.colonFree _ (commands_eq_ok hp rfl rfl)
  · rwa [root_append (Setup.valid_commandFolder d)]

/-- A run over commands changes nothing but commands of the destination. -/
theorem runCommands_confined (b : Bool)
    (hRs : ∀ y, R y → ¬ Path.spot w.here (p.append s.commandFolder) <+: y) :
    ConfinedAt u w.here q.root (Path.spot w.here (q.append d.commandFolder) <+: ·)
      (runCommands s d (o.as b)) := by
  have hcp := clean_commandFolder (Setup.clean_base h.clean h.sound hp) s
  have hcq := clean_commandFolder (Setup.clean_base h.clean h.sound hq) d
  rw [runCommands_eq]
  refine ConfinedAt.get_bind fun v hv => ?_
  have hseen : w.Moved R v := hmoved.trans hv.moved
  have hs : (o.as b).setup.commands s v = _ := commands_eq_ok hp hseen.home hseen.here
  have hd : (o.as b).setup.commands d v = _ := commands_eq_ok hq hseen.home hseen.here
  have hcolon := h.colonFree _ (commands_eq_ok hp rfl rfl)
  rw [hs, hd, ofExcept_ok_bind, ofExcept_ok_bind, Order.as_only,
    commandFiles_moved h hp (hv.sound hu.sound) hseen hRs,
    ← root_append (p := q) (Setup.valid_commandFolder d)]
  exact ConfinedAt.of_confined (commandsBetween_confined s d (o.as b) hcq fun file hfile =>
    hasTarget_of_mem h.sound d _ hcp h.only hcolon hfile)

theorem predicts_runSkills
    (hRs : ∀ y, R y → ¬ Path.spot w.here (p.append s.skillFolder) <+: y)
    (hRt : ∀ y, R y → ¬ Path.spot w.here (q.append d.skillFolder) <+: y) :
    Predicts w u (runSkills s d (o.as true)) (runSkills s d (o.as false)) := by
  have hcp := clean_skillFolder (Setup.clean_base h.clean h.sound hp) s
  have hcq := clean_skillFolder (Setup.clean_base h.clean h.sound hq) d
  rw [runSkills_eq, runSkills_eq]
  refine Foretells.get_bind fun v v' hv hv' => ?_
  have hseen : w.Moved R v' := hmoved.trans hv'.moved
  have hs : (o.as true).setup.skills s v = _ := skills_eq_ok hp hv.home hv.here
  have hd : (o.as true).setup.skills d v = _ := skills_eq_ok hq hv.home hv.here
  have hs' : (o.as false).setup.skills s v' = _ := skills_eq_ok hp hseen.home hseen.here
  have hd' : (o.as false).setup.skills d v' = _ := skills_eq_ok hq hseen.home hseen.here
  have hne : (p.append s.skillFolder).parts ≠ [] := by
    rw [Path.append_name p (Setup.valid_skillFolder s)]
    simp
  rw [hs, hd, hs', hd', ofExcept_ok_bind, ofExcept_ok_bind, ofExcept_ok_bind, ofExcept_ok_bind,
    Order.as_only, Order.as_only, skillFolders_moved h hp (hv.sound h.sound) hv.moved hRs,
    skillFolders_moved h hp (hv'.sound hu.sound) hseen hRs]
  refine predicts_skillsBetween h.sound s d o hcp hne hcq ?_ h.only ?_ hmoved hRs hRt
  · exact (h.apart p q hp hq).append (Setup.valid_skillFolder s) (Setup.valid_skillFolder d)
  · rwa [root_append (Setup.valid_skillFolder d)]

end

/-! ## Whole runs -/

/-- The part of a run that is about commands. -/
def commandsPart (s d : Agent) (o : Order) : Work Report :=
  if o.contents.hasCommands then runCommands s d o else pure Report.empty

/-- The part of a run that is about skills. -/
def skillsPart (s d : Agent) (o : Order) : Work Report :=
  if o.contents.hasSkills then runSkills s d o else pure Report.empty

theorem runAll_eq (s d : Agent) (o : Order) : runAll s d o = (do
    let commands ← commandsPart s d o
    let skills ← skillsPart s d o
    return commands.append skills) := by
  unfold runAll commandsPart skillsPart
  cases o.contents.hasCommands <;> cases o.contents.hasSkills <;> rfl

theorem still_commandsPart (s d : Agent) (o : Order) : Still (commandsPart s d (o.as true)) := by
  unfold commandsPart
  split
  · exact still_runCommands s d o
  · exact Still.pure _

theorem still_runAll (s d : Agent) (o : Order) : Still (runAll s d (o.as true)) := by
  rw [runAll_eq]
  refine Still.bind (still_commandsPart s d o) fun _ => Still.bind ?_ fun _ => Still.pure _
  unfold skillsPart
  split
  · exact still_runSkills s d o
  · exact Still.pure _

theorem commandFolder_ne_skillFolder (a : Agent) : a.commandFolder ≠ a.skillFolder := by
  cases a <;> decide

/-- Commands and skills of an agent lie at different places. -/
theorem apart_of_ne (q here : Path) {m n : String} (hm : ValidName m) (hn : ValidName n)
    (hne : m ≠ n) : Apart here (q.append m) (q.append n) := by
  rw [Apart, Path.spot_append hm, Path.spot_append hn]
  constructor
  · intro hpre
    have heq := hpre.eq_of_length (by simp)
    exact hne (List.singleton_inj.mp (List.append_cancel_left heq))
  · intro hpre
    have heq := hpre.eq_of_length (by simp)
    exact hne (List.singleton_inj.mp (List.append_cancel_left heq)).symm

theorem folders_apart (q here : Path) (a : Agent) :
    Apart here (q.append a.commandFolder) (q.append a.skillFolder) :=
  apart_of_ne q here (Setup.valid_commandFolder a) (Setup.valid_skillFolder a)
    (commandFolder_ne_skillFolder a)

section
variable (h : Regular s d o w) (hp : o.setup.base s w = .ok p) (hq : o.setup.base d w = .ok q)
  (hu : u.Stands w.here q.root)
include h hp hq hu

theorem predicts_commandsPart (hmoved : w.Moved (fun _ => False) u) :
    Predicts w u (commandsPart s d (o.as true)) (commandsPart s d (o.as false)) := by
  unfold commandsPart
  rw [Order.as_contents, Order.as_contents]
  split
  · exact predicts_runCommands h hp hq hu hmoved (fun _ hf => hf.elim) fun _ hf => hf.elim
  · exact Predicts.pure fun _ => ⟨rfl, rfl, rfl⟩

theorem commandsPart_confined (hmoved : w.Moved (fun _ => False) u) (b : Bool) :
    ConfinedAt u w.here q.root (Path.spot w.here (q.append d.commandFolder) <+: ·)
      (commandsPart s d (o.as b)) := by
  unfold commandsPart
  split
  · exact runCommands_confined h hp hq hu hmoved b fun _ hf => hf.elim
  · exact ConfinedAt.of_confined (Confined.of_still (Still.pure _))

/-- The run over commands touches no skill. -/
theorem predicts_skillsPart
    (hmoved : w.Moved (Path.spot w.here (q.append d.commandFolder) <+: ·) u) :
    Predicts w u (skillsPart s d (o.as true)) (skillsPart s d (o.as false)) := by
  have hsource := (h.apart p q hp hq).append (Setup.valid_skillFolder s)
    (Setup.valid_commandFolder d)
  unfold skillsPart
  rw [Order.as_contents, Order.as_contents]
  split
  · exact predicts_runSkills h hp hq hu hmoved (fun _ hy hy' => hsource.not_both hy' hy)
      fun _ hy hy' => (folders_apart q w.here d).not_both hy hy'
  · exact Predicts.pure fun _ => ⟨rfl, rfl, rfl⟩

theorem predicts_runAll (hmoved : w.Moved (fun _ => False) u) :
    Predicts w u (runAll s d (o.as true)) (runAll s d (o.as false)) := by
  rw [runAll_eq, runAll_eq]
  -- The skills are met with the commands written, so what those have moved counts.
  refine Predicts.append_confined (still_commandsPart s d o)
    (predicts_commandsPart h hp hq hu hmoved) hu (commandsPart_confined h hp hq hu hmoved false)
    fun u' hu' hmoved' => predicts_skillsPart h hp hq hu' ?_
  exact (hmoved.mono fun _ hf => hf.elim).trans hmoved'

end

/-! ## Base folders that are not found -/

theorem runCommands_throws {e : Failure} (o : Order)
    (hbase : o.setup.base s w = .error e ∨ o.setup.base d w = .error e) :
    ∃ e, (runCommands s d o).run w = (.error e, w) := by
  rw [runCommands_eq, run_get_bind, Setup.commands, Setup.commands]
  cases hs : o.setup.base s w with
  | error e' => exact ⟨e', rfl⟩
  | ok p =>
    rw [hs] at hbase
    rw [hbase.resolve_left nofun]
    exact ⟨e, rfl⟩

theorem runSkills_throws {e : Failure} (o : Order)
    (hbase : o.setup.base s w = .error e ∨ o.setup.base d w = .error e) :
    ∃ e, (runSkills s d o).run w = (.error e, w) := by
  rw [runSkills_eq, run_get_bind, Setup.skills, Setup.skills]
  cases hd : o.setup.base d w with
  | error e' => exact ⟨e', rfl⟩
  | ok q =>
    rw [hd] at hbase
    rw [hbase.resolve_right nofun]
    exact ⟨e, rfl⟩

/-- A run ends only when both base folders are known. -/
theorem bases_of_runAll {o : Order} {r : Report} (h : ((runAll s d o).run w).1 = .ok r) :
    ∃ p q, o.setup.base s w = .ok p ∧ o.setup.base d w = .ok q := by
  have hthrows : ∀ e, o.setup.base s w = .error e ∨ o.setup.base d w = .error e → False := by
    intro e hbase
    obtain ⟨e₁, h₁⟩ := runCommands_throws o hbase
    obtain ⟨e₂, h₂⟩ := runSkills_throws o hbase
    rw [runAll_eq, commandsPart, skillsPart] at h
    cases hcontents : o.contents with
    | skills =>
      rw [hcontents] at h
      change ((runSkills s d o >>= fun skills => pure (Report.empty.append skills)).run w).1 = _ at h
      rw [run_bind, h₂] at h
      exact nomatch h
    | commands | both =>
      rw [hcontents] at h
      change ((runCommands s d o >>= _).run w).1 = _ at h
      rw [run_bind, h₁] at h
      exact nomatch h
  cases hs : o.setup.base s w with
  | error e => exact (hthrows e (Or.inl hs)).elim
  | ok p =>
    cases hd : o.setup.base d w with
    | error e => exact (hthrows e (Or.inr hd)).elim
    | ok q => exact ⟨p, q, rfl, rfl⟩

/-! ## The preview and the run -/

theorem run_preview (s d : Agent) (o : Order) : run s d (o.as true) = runAll s d (o.as true) := rfl

theorem run_writing (s d : Agent) (o : Order) :
    run s d (o.as false) = (do takeLock o.setup; runAll s d (o.as false)) := rfl

/-- A preview changes no file, whatever the files are. -/
theorem still_run_preview (s d : Agent) (o : Order) : Still (run s d (o.as true)) := by
  rw [run_preview]
  exact still_runAll s d o

/-- A preview changes nothing, and when the run ends without a failure, the
preview ends without a failure, with the same changes to the same paths in the
same order and the same counts. -/
theorem preview_announces_run (s d : Agent) (o : Order) (w : World) (h : Regular s d o w) :
    ((run s d (o.as true)).run w).2.tree = w.tree ∧
      ∀ r, ((run s d (o.as false)).run w).1 = .ok r → r.failures = [] →
        ∃ r', ((run s d (o.as true)).run w).1 = .ok r' ∧ r'.failures = [] ∧
          r'.operations.map Operation.key = r.operations.map Operation.key ∧
          r'.processed = r.processed ∧ ∀ c, r'.count c = r.count c := by
  refine ⟨(still_run_preview s d o w).tree, fun r hr hfine => ?_⟩
  rw [run_writing] at hr
  rw [run_preview]
  obtain ⟨hsound, hmoved⟩ := takeLock_moved h.sound h.here h.clean (World.SameFiles.refl w)
  cases hlock : (takeLock o.setup).run w with
  | mk b u =>
    rw [hlock] at hsound hmoved
    rw [run_bind, hlock] at hr
    cases b with
    | error e => exact nomatch hr
    | ok _ =>
      obtain ⟨p, q, hp, hq⟩ := bases_of_runAll hr
      have hp' : o.setup.base s w = .ok p := (Setup.base_eq hmoved.home hmoved.here).symm.trans hp
      have hq' : o.setup.base d w = .ok q := (Setup.base_eq hmoved.home hmoved.here).symm.trans hq
      -- The lock may have made folders, but where the run starts there was one before.
      have hstart := (stands_of_here h.sound h.here q.root).start
      have hu : u.Stands w.here q.root :=
        ⟨hsound, hmoved.here, hmoved.folder not_false hstart⟩
      obtain ⟨r', hr', hann⟩ := predicts_runAll h hp' hq' hu hmoved w u (World.SameFiles.refl w)
        (World.SameFiles.refl u) r hr hfine
      exact ⟨r', hr', hann.failures, hann.operations, hann.processed, hann.count_eq⟩

end

/-- A working folder with a command and a skill of one agent. -/
def pairWorld : World where
  tree :=
    [(["w"], .folder), (["w", ".cursor"], .folder), (["w", ".cursor", "commands"], .folder),
      (["w", ".cursor", "commands", "a.md"], .file ⟨#[104, 105]⟩),
      (["w", ".cursor", "skills"], .folder), (["w", ".cursor", "skills", "s"], .folder),
      (["w", ".cursor", "skills", "s", "SKILL.md"], .file ⟨#[104, 105]⟩)]
  home := ⟨1, ["h"]⟩
  here := ⟨1, ["w"]⟩
  repository := none
  held := none
  printed := []
  warnings := []

/-- Everything is to be taken, within the working folder. -/
def pairOrder : Order where
  contents := .both
  removeForeign := false
  keepExisting := false
  deleteOrphans := false
  only := none
  preview := false
  verbose := false
  setup := ⟨[], some ⟨1, ["w"]⟩, false⟩

theorem regular_pair : Regular .cursor .claude pairOrder pairWorld := by
  have hs : pairOrder.setup.base .cursor pairWorld = .ok ⟨1, ["w", ".cursor"]⟩ :=
    eq_ok_of_toOption (by decide +kernel)
  have hd : pairOrder.setup.base .claude pairWorld = .ok ⟨1, ["w", ".claude"]⟩ :=
    eq_ok_of_toOption (by decide +kernel)
  have hcommands : pairOrder.setup.commands .cursor pairWorld =
      .ok ⟨1, ["w", ".cursor", "commands"]⟩ := eq_ok_of_toOption (by decide +kernel)
  have hfiles : pairWorld.commandFiles .cursor ⟨1, ["w", ".cursor", "commands"]⟩ none =
      [⟨1, ["w", ".cursor", "commands", "a.md"]⟩] := by decide +kernel
  refine ⟨⟨⟨⟨?_, ?_, ?_, ?_⟩, ?_, ?_⟩, ?_, nofun, ?_, ?_⟩, ⟨?_, ?_⟩, ?_⟩
  all_goals try decide +kernel
  · intro p q hp hq
    rw [hs] at hp
    rw [hd] at hq
    obtain rfl := Except.ok.inj hp
    obtain rfl := Except.ok.inj hq
    constructor <;> decide +kernel
  · intro folder hfolder file hfile way hway
    rw [hcommands] at hfolder
    obtain rfl := Except.ok.inj hfolder
    rw [show pairOrder.only = none from rfl, hfiles, List.mem_singleton] at hfile
    rw [hfile] at hway
    obtain rfl : (⟨0, ["a.md"]⟩ : Path) = way := by simpa [Path.below?] using hway
    decide +kernel
  · intro p hp
    obtain rfl := Option.some.inj hp
    exact ⟨by decide, by decide⟩

/-- The run creates both items, and the preview says so. -/
theorem preview_announces_pair :
    ((run .cursor .claude (pairOrder.as false)).run pairWorld).1 =
        .ok ⟨[⟨.created, ⟨1, ["w", ".claude", "commands", "a.md"]⟩, false⟩,
          ⟨.created, ⟨1, ["w", ".claude", "skills", "s"]⟩, false⟩], [], 2⟩ ∧
      ∃ r, ((run .cursor .claude (pairOrder.as true)).run pairWorld).1 = .ok r ∧
        r.failures = [] ∧ r.operations.map Operation.key =
          [(.created, ⟨1, ["w", ".claude", "commands", "a.md"]⟩),
            (.created, ⟨1, ["w", ".claude", "skills", "s"]⟩)] := by
  have hrun : ((run .cursor .claude (pairOrder.as false)).run pairWorld).1 = .ok
      ⟨[⟨.created, ⟨1, ["w", ".claude", "commands", "a.md"]⟩, false⟩,
        ⟨.created, ⟨1, ["w", ".claude", "skills", "s"]⟩, false⟩], [], 2⟩ :=
    eq_ok_of_toOption (by decide +kernel)
  obtain ⟨-, hpreview⟩ := preview_announces_run .cursor .claude pairOrder pairWorld regular_pair
  obtain ⟨r, hr, hfine, hoperations, -⟩ := hpreview _ hrun rfl
  exact ⟨hrun, r, hr, hfine, hoperations⟩

/-- A repository is looked up by a path through a folder that is not there. -/
def strayWorld : World where
  tree :=
    [(["w"], .folder), (["w", "p"], .folder), (["w", "p", ".claude"], .folder),
      (["w", "p", ".claude", "commands"], .folder),
      (["w", "p", ".claude", "commands", "a.md"], .file ⟨#[104, 105]⟩)]
  home := ⟨1, ["h"]⟩
  here := ⟨1, ["w"]⟩
  repository := none
  held := none
  printed := []
  warnings := []

/-- Orphans are to be deleted. -/
def strayOrder : Order :=
  { pairOrder with
    contents := .commands
    deleteOrphans := true
    setup := ⟨[], some ⟨1, ["w", "x", "..", "p"]⟩, false⟩ }

/-- With two points in a path the run may find what the preview does not: the
lock makes the folder that was missing. -/
theorem preview_misses_stray_orphan :
    Admissible .gemini .claude strayOrder strayWorld ∧
      ((run .gemini .claude (strayOrder.as false)).run strayWorld).1 = .ok ⟨[⟨.deleted,
        ⟨1, ["w", "x", "..", "p", ".claude", "commands", "a.md"]⟩, false⟩], [], 0⟩ ∧
      ((run .gemini .claude (strayOrder.as true)).run strayWorld).1 = .ok Report.empty := by
  have hs : strayOrder.setup.base .gemini strayWorld = .ok ⟨1, ["w", "x", "..", "p", ".gemini"]⟩ :=
    eq_ok_of_toOption (by decide +kernel)
  have hd : strayOrder.setup.base .claude strayWorld = .ok ⟨1, ["w", "x", "..", "p", ".claude"]⟩ :=
    eq_ok_of_toOption (by decide +kernel)
  have hcommands : strayOrder.setup.commands .gemini strayWorld =
      .ok ⟨1, ["w", "x", "..", "p", ".gemini", "commands"]⟩ :=
    eq_ok_of_toOption (by decide +kernel)
  have hfiles : strayWorld.commandFiles .gemini
      ⟨1, ["w", "x", "..", "p", ".gemini", "commands"]⟩ none = [] := by decide +kernel
  refine ⟨⟨⟨⟨?_, ?_, ?_, ?_⟩, ?_, ?_⟩, ?_, nofun, ?_, ?_⟩,
    eq_ok_of_toOption ?_, eq_ok_of_toOption ?_⟩
  all_goals try decide +kernel
  · intro p q hp hq
    rw [hs] at hp
    rw [hd] at hq
    obtain rfl := Except.ok.inj hp
    obtain rfl := Except.ok.inj hq
    constructor <;> decide +kernel
  · intro folder hfolder file hfile
    rw [hcommands] at hfolder
    obtain rfl := Except.ok.inj hfolder
    rw [show strayOrder.only = none from rfl, hfiles] at hfile
    exact absurd hfile List.not_mem_nil

end AgentRelay.Sync
