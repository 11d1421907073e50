import AgentRelay.Proofs.Sync.Conversion
import AgentRelay.Proofs.Sync.Outcome

/-
  A sweeping run over commands mirrors the source.

  Every command has a target of its own, at a place that no other command is
  read from or written to (`Facing`), so each is taken as if it were the only one
  (`taken`). What is swept afterwards are the commands of the destination that
  are no targets (`swept`). When such a run returns without failures, the commands
  of the destination are the targets, each with the text its command becomes, and
  with or without failures nothing else has changed (`run_mirrors`).
-/

namespace AgentRelay.Sync

open Files (Place Tree Entry ValidName)
open Work

/-! ## Items that keep apart -/

section
variable {α : Type} {item : α → Work Operation} {xs : List α} {here : Path} {root : Nat}
  {cover : α → Place → Prop} {w : World}

theorem inTurn_grows (h : ∀ x ∈ xs, Grows here root (cover x) (item x))
    (hw : w.Stands here root) :
    (inTurn item xs w).2.Stands here root ∧
      w.Grown (fun q => ∃ x ∈ xs, cover x q) (inTurn item xs w).2 := by
  induction xs generalizing w with
  | nil => exact ⟨hw, (World.SameFiles.refl w).grown⟩
  | cons x xs ih =>
    obtain ⟨hstands, hgrown⟩ := h x (by simp) w hw
    obtain ⟨hstands', hgrown'⟩ := ih (fun y hy => h y (List.mem_cons_of_mem _ hy)) hstands
    refine ⟨hstands', (hgrown.mono fun q hq => ?_).trans (hgrown'.mono fun q hq => ?_)⟩
    · exact ⟨x, by simp, hq⟩
    · obtain ⟨y, hy, hcover⟩ := hq
      exact ⟨y, List.mem_cons_of_mem _ hy, hcover⟩

theorem inTurn_adds (h : ∀ x ∈ xs, Adds (item x)) {q : Place}
    (hb : (w.tree.bytes? q).isSome = true) :
    ((inTurn item xs w).2.tree.bytes? q).isSome = true := by
  induction xs generalizing w with
  | nil => exact hb
  | cons x xs ih =>
    exact ih (fun y hy => h y (List.mem_cons_of_mem _ hy)) (h x (by simp) w q hb)

/-- When the turn of an item comes, only the others' places may have changed, and after its
turn as well. -/
theorem turn_of_mem (h : ∀ x ∈ xs, Grows here root (cover x) (item x)) (hn : xs.Nodup)
    (hw : w.Stands here root) {a : α} (ha : a ∈ xs) :
    ∃ y, y.Stands here root ∧ w.Grown (fun q => ∃ x ∈ xs, x ≠ a ∧ cover x q) y ∧
      ((item a).run y).1 ∈ (inTurn item xs w).1 ∧
      ((item a).run y).2.Grown (fun q => ∃ x ∈ xs, x ≠ a ∧ cover x q) (inTurn item xs w).2 := by
  obtain ⟨before, after, rfl⟩ := List.append_of_mem ha
  obtain ⟨-, hafter, hdisjoint⟩ := List.nodup_append.mp hn
  have hne : ∀ x ∈ before, x ≠ a := fun x hx => hdisjoint x hx a (by simp)
  have hne' : ∀ x ∈ after, x ≠ a := fun x hx heq => (List.nodup_cons.mp hafter).1 (heq ▸ hx)
  have hitem : ∀ x ∈ before, Grows here root (cover x) (item x) :=
    fun x hx => h x (List.mem_append_left _ hx)
  have hitem' : ∀ x ∈ after, Grows here root (cover x) (item x) :=
    fun x hx => h x (List.mem_append_right _ (List.mem_cons_of_mem _ hx))
  obtain ⟨hstands, hgrown⟩ := inTurn_grows hitem hw
  obtain ⟨hstands', -⟩ := h a (by simp) _ hstands
  obtain ⟨-, hgrown'⟩ := inTurn_grows hitem' hstands'
  refine ⟨(inTurn item before w).2, hstands, hgrown.mono fun q hq => ?_, ?_, ?_⟩
  · obtain ⟨x, hx, hcover⟩ := hq
    exact ⟨x, List.mem_append_left _ hx, hne x hx, hcover⟩
  · rw [inTurn_append]
    exact List.mem_append_right _ List.mem_cons_self
  · rw [inTurn_append]
    refine hgrown'.mono fun q hq => ?_
    obtain ⟨x, hx, hcover⟩ := hq
    exact ⟨x, List.mem_append_right _ (List.mem_cons_of_mem _ hx), hne' x hx, hcover⟩

end

/-! ## Commands and their targets -/

/-- A path of a command of an agent below a folder. -/
def CommandBelow (a : Agent) (folder p : Path) : Prop :=
  ∃ init stem, (∀ n ∈ init, ValidName n) ∧ '/' ∉ stem ∧
    p = ⟨folder.root, folder.parts ++ commandWay a init stem⟩

/-- A place of a command of an agent below a folder. -/
def CommandPlace (a : Agent) (folder q : Place) : Prop :=
  ∃ init stem, q = folder ++ commandWay a init stem

namespace CommandBelow

variable {a : Agent} {folder p p' here : Path}

theorem tidy (h : CommandBelow a folder p) (hf : folder.Tidy) : p.Tidy := by
  obtain ⟨init, stem, hinit, hstem, rfl⟩ := h
  exact hf.behind (valid_commandWay a hinit hstem)

theorem place (h : CommandBelow a folder p) (here : Path) :
    CommandPlace a (Path.place here folder) (Path.place here p) := by
  obtain ⟨init, stem, hinit, hstem, rfl⟩ := h
  exact ⟨init, stem, Path.place_behind (valid_commandWay a hinit hstem)⟩

/-- A command below a folder is known by its place. -/
theorem eq_of_place (h : CommandBelow a folder p) (h' : CommandBelow a folder p')
    (hplace : Path.place here p = Path.place here p') : p = p' := by
  obtain ⟨init, stem, hinit, hstem, rfl⟩ := h
  obtain ⟨init', stem', hinit', hstem', rfl⟩ := h'
  rw [Path.place_behind (valid_commandWay a hinit hstem),
    Path.place_behind (valid_commandWay a hinit' hstem')] at hplace
  rw [List.append_cancel_left hplace]

end CommandBelow

theorem below_of_found {a : Agent} {folder p : Path} {w : World} (hw : w.Sound)
    (hp : p ∈ w.commandFiles a folder none) : CommandBelow a folder p := by
  obtain ⟨init, stem, heq, hinit, hstem, -⟩ := World.exists_way_of_mem_all hw hp
  exact ⟨init, stem, hinit, hstem, heq⟩

/-- A command that is found is a file. -/
theorem bytes_of_found {a : Agent} {folder p : Path} {w : World} (hw : w.Sound)
    (hp : p ∈ w.commandFiles a folder none) :
    (w.tree.bytes? (Path.place w.here p)).isSome = true := by
  obtain ⟨init, stem, rfl, hinit, hstem, hb⟩ := World.exists_way_of_mem_all hw hp
  rwa [Path.place_behind (valid_commandWay a hinit hstem)]

section
variable {s d : Agent} {source target file file' t t' : Path}

theorem Matched.below (h : Matched s d source target file t) :
    CommandBelow s source file ∧ CommandBelow d target t := by
  obtain ⟨init, stem, hinit, hstem, hfile, ht⟩ := h
  exact ⟨⟨init, stem, hinit, hstem, hfile⟩, init, stem, hinit, hstem, ht⟩

/-- Different commands have different targets. -/
theorem Matched.eq_of_target (h : Matched s d source target file t)
    (h' : Matched s d source target file' t) : file = file' := by
  obtain ⟨init, stem, -, -, rfl, rfl⟩ := h
  obtain ⟨init', stem', -, -, rfl, ht⟩ := h'
  obtain ⟨rfl, rfl⟩ := commandWay_injective d (List.append_cancel_left (Path.mk.inj ht).2)
  rfl

end

/-- Commands with targets in a folder that lies apart from theirs. -/
structure Facing (here : Path) (s d : Agent) (source target : Path) (files : List Path) :
    Prop where
  source_tidy : source.Tidy
  target_tidy : target.Tidy
  distinct : files.Nodup
  targets : ∀ file ∈ files, HasTarget s d source target file
  apart : ∀ q, Path.place here source <+: q → ¬ Path.place here target <+: q

/-- The place where a command is written. -/
def WrittenAt (here : Path) (s d : Agent) (source target file : Path) (q : Place) : Prop :=
  ∃ t, commandTarget s d source target file = .ok t ∧ q = Path.place here t

namespace Facing

variable {here : Path} {s d : Agent} {source target : Path} {files : List Path} {o : Order}
  (h : Facing here s d source target files)
include h

theorem matched {file t : Path} (hfile : file ∈ files)
    (ht : commandTarget s d source target file = .ok t) : Matched s d source target file t := by
  obtain ⟨t', ht', hmatched⟩ := h.targets file hfile
  rw [ht] at ht'
  obtain rfl := Except.ok.inj ht'
  exact hmatched

omit h in
theorem item_eq {file t : Path} (ht : commandTarget s d source target file = .ok t) :
    commandItem s d o source target file = takeCommand s d o file t := by
  rw [commandItem, ht, ofExcept_ok_bind]

theorem item_grows (file : Path) (hfile : file ∈ files) :
    Grows here target.root (WrittenAt here s d source target file)
      (commandItem s d o source target file) := by
  obtain ⟨t, ht, hmatched⟩ := h.targets file hfile
  rw [item_eq ht]
  exact (takeCommand_grows s d o file (hmatched.below.2.tidy h.target_tidy)
    hmatched.root_target).mono fun q hq => ⟨t, ht, hq⟩

theorem item_adds (file : Path) (hfile : file ∈ files) :
    Adds (commandItem s d o source target file) := by
  obtain ⟨t, ht, -⟩ := h.targets file hfile
  rw [item_eq ht]
  exact adds_takeCommand s d o file t

/-- Commands are written at places of commands of the destination. -/
theorem written_command {file : Path} (hfile : file ∈ files) {q : Place}
    (hq : WrittenAt here s d source target file q) :
    CommandPlace d (Path.place here target) q := by
  obtain ⟨t, ht, rfl⟩ := hq
  exact (h.matched hfile ht).below.2.place here

/-- No command of the source is at a place of the destination's. -/
theorem source_not_command {file t : Path} (hfile : file ∈ files)
    (ht : commandTarget s d source target file = .ok t) :
    ¬ CommandPlace d (Path.place here target) (Path.place here file) := by
  rintro ⟨init, stem, hplace⟩
  obtain ⟨init', stem', hplace'⟩ := (h.matched hfile ht).below.1.place here
  refine h.apart (Path.place here file) ?_ ?_
  · rw [hplace']
    exact List.prefix_append _ _
  · rw [hplace]
    exact List.prefix_append _ _

/-- No command is written where another one is. -/
theorem not_written_target {file file' t : Path} (hfile : file ∈ files) (hfile' : file' ∈ files)
    (hne : file' ≠ file) (ht : commandTarget s d source target file = .ok t) :
    ¬ WrittenAt here s d source target file' (Path.place here t) := by
  rintro ⟨t', ht', hplace⟩
  have hmatched := h.matched hfile ht
  have hmatched' := h.matched hfile' ht'
  obtain rfl := hmatched.below.2.eq_of_place hmatched'.below.2 hplace
  exact hne (hmatched'.eq_of_target hmatched)

/-- What is at a target of the hub is seen, because the hub's base folder is there. -/
theorem bytesAt_target {base : Path} (htarget : target = base.append d.commandFolder)
    {y : World} (hy : y.Stands here target.root) {place : Place}
    (hbase : y.stat base = .ok (place, .folder)) {file t : Path} (hfile : file ∈ files)
    (ht : commandTarget s d source target file = .ok t) :
    bytesAt y t = y.tree.bytes? (Path.place here t) := by
  obtain ⟨init, stem, hinit, hstem, -, rfl⟩ := h.matched hfile ht
  have hnames : ∀ n ∈ d.commandFolder :: commandWay d init stem, ValidName n := by
    intro n hn
    rcases List.mem_cons.mp hn with rfl | hn
    · exact Setup.valid_commandFolder d
    · exact valid_commandWay d hinit hstem n hn
  have hbehind : Path.mk target.root (target.parts ++ commandWay d init stem) =
      ⟨base.root, base.parts ++ d.commandFolder :: commandWay d init stem⟩ := by
    rw [htarget, Path.append_name base (Setup.valid_commandFolder d), List.append_assoc]
    rfl
  rw [hbehind, bytesAt_behind hy.sound hbase hnames, hy.here_eq]

/-- A command that did not fail stands at its target, with the text that its file becomes
as it was in the beginning. -/
theorem taken (hwrites : o.preview = false) (hkeep : o.keepExisting = false) {w : World}
    (hw : w.Stands here target.root)
    (hhub : d = Agent.hub → ∃ base place, target = base.append d.commandFolder ∧
      w.stat base = .ok (place, .folder))
    (hfine : errors (inTurn (commandItem s d o source target) files w).1 = [])
    {file t : Path} (hfile : file ∈ files)
    (ht : commandTarget s d source target file = .ok t) :
    (∃ q, (inTurn (commandItem s d o source target) files w).2.stat target =
        .ok (q, .folder)) ∧
      ∃ b text, w.tree.bytes? (Path.place here file) = some b ∧
        converted s d o.removeForeign file t b (w.tree.bytes? (Path.place here t)) = .ok text ∧
        (inTurn (commandItem s d o source target) files w).2.tree.bytes? (Path.place here t) =
          some (Text.encode text) := by
  have hmatched := h.matched hfile ht
  have hftidy := hmatched.below.1.tidy h.source_tidy
  have httidy := hmatched.below.2.tidy h.target_tidy
  obtain ⟨y, hy, hbefore, hturn, hafter⟩ := turn_of_mem h.item_grows h.distinct hw hfile
  have hothers : ∀ q, (∀ x ∈ files, x ≠ file → ¬ WrittenAt here s d source target x q) →
      ¬ ∃ x ∈ files, x ≠ file ∧ WrittenAt here s d source target x q :=
    fun q hq ⟨x, hx, hne, hwritten⟩ => hq x hx hne hwritten
  have hsource := hothers _ fun x hx _ hwritten =>
    h.source_not_command hfile ht (h.written_command hx hwritten)
  have htarget := hothers _ fun x hx hne => h.not_written_target hfile hx hne ht
  rw [item_eq ht] at hturn hafter
  cases hrun : (takeCommand s d o file t).run y with
  | mk r v =>
    rw [hrun] at hturn hafter
    cases r with
    | error e =>
      have hmem := mem_errors.mpr hturn
      rw [hfine] at hmem
      exact absurd hmem List.not_mem_nil
    | ok op =>
      have hskips : o.skips (y.isFile t) = false := by rw [Order.skips, hkeep, Bool.and_false]
      obtain ⟨b, -, hb, -, hdone⟩ := of_run_takeCommand hwrites hftidy httidy
        (hmatched.root_target.symm ▸ hy) hrun
      obtain ⟨-, -, text, hconverted, hstat⟩ :=
        hdone.resolve_left fun hskipped => by simp [hskips] at hskipped
      obtain ⟨hlocate, hget⟩ := World.stat_iff_locate.mp hstat
      refine ⟨?_, b, text, ?_, ?_, ?_⟩
      · -- The way to what was written leads through the folder of targets.
        obtain ⟨init, stem, -, -, -, rfl⟩ := hmatched
        obtain ⟨q, hq⟩ := World.folder_of_locate_behind (by simp [commandWay]) hlocate
        exact ⟨q, hafter.stat hq⟩
      · rw [← hbefore.bytes? hsource, hb]
      · rw [← hbefore.bytes? htarget, ← hconverted]
        refine converted_congr fun hisHub => ?_
        obtain ⟨base, place, htargetEq, hbase⟩ := hhub hisHub
        exact (h.bytesAt_target htargetEq hy (hbefore.stat hbase) hfile ht).symm
      · rw [hafter.bytes? htarget, Tree.bytes?_eq_some_iff, hget]

end Facing

/-! ## Sweeping -/

section
variable {s d : Agent} {o : Order} {source target here : Path} {root : Nat} {files : List Path}

theorem mem_orphanCommands {w : World} {p : Path} :
    p ∈ orphanCommands s d source target files w ↔ p ∈ w.commandFiles d target none ∧
      ¬ ∃ file ∈ files, commandTarget s d source target file = .ok p := by
  have hexpected : p ∈ files.filterMap (fun file =>
      (commandTarget s d source target file).toOption) ↔
        ∃ file ∈ files, commandTarget s d source target file = .ok p := by
    rw [List.mem_filterMap]
    refine exists_congr fun file => and_congr_right fun _ => ?_
    cases commandTarget s d source target file <;> simp [Except.toOption]
  rw [orphanCommands, List.mem_filter, Bool.not_eq_true', List.contains_eq_mem,
    decide_eq_false_iff_not, hexpected]

theorem delete_grows (o : Order) (p : Path) :
    Grows here root (· = Path.place here p) (delete o p Disk.removeFile) := by
  unfold delete
  split
  · exact Grows.bind (Disk.removeFile_grows p) fun _ => Grows.of_still (Still.pure _)
  · exact Grows.of_still (Still.pure _)

theorem bytes_of_delete (hwrites : o.preview = false) {p : Path} {w v : World} {op : Operation}
    (h : (delete o p Disk.removeFile).run w = (.ok op, v)) :
    v.tree.bytes? (Path.place w.here p) = none := by
  rw [delete, hwrites] at h
  obtain ⟨_, u, hremove, h⟩ := ok_of_run_bind h
  obtain ⟨-, rfl⟩ := Prod.mk.inj h
  exact Disk.bytes_of_removeFile hremove

/-- The world after orphans were deleted, and what became of each. -/
abbrev sweep (o : Order) (orphans : List Path) (w : World) :
    List (Except Failure Operation) × World :=
  inTurn (fun p => delete o p Disk.removeFile) orphans w

theorem sweep_grown (o : Order) {orphans : List Path} {w : World} (hw : w.Stands here root) :
    (sweep o orphans w).2.Stands here root ∧
      w.Grown (fun q => ∃ p ∈ orphans, q = Path.place here p) (sweep o orphans w).2 :=
  inTurn_grows (fun p _ => delete_grows o p) hw

/-- Orphans at different places are gone when no deletion has failed. -/
theorem swept (hwrites : o.preview = false) {orphans : List Path} (hn : orphans.Nodup)
    (hplaces : ∀ p ∈ orphans, ∀ p' ∈ orphans, Path.place here p = Path.place here p' → p = p')
    {w : World} (hw : w.Stands here root) (hfine : errors (sweep o orphans w).1 = [])
    {p : Path} (hp : p ∈ orphans) :
    (sweep o orphans w).2.tree.bytes? (Path.place here p) = none := by
  have hgrows : ∀ x ∈ orphans, Grows here root (· = Path.place here x)
      (delete o x Disk.removeFile) := fun x _ => delete_grows o x
  obtain ⟨y, hy, -, hturn, hafter⟩ := turn_of_mem hgrows hn hw hp
  cases hrun : (delete o p Disk.removeFile).run y with
  | mk r v =>
    rw [hrun] at hturn hafter
    cases r with
    | error e =>
      have hmem := mem_errors.mpr hturn
      rw [hfine] at hmem
      exact absurd hmem List.not_mem_nil
    | ok op =>
      have hgone := bytes_of_delete hwrites hrun
      rw [hy.here_eq] at hgone
      refine (hafter.bytes? ?_).trans hgone
      rintro ⟨x, hx, hne, hplace⟩
      exact hne (hplaces p hp x hx hplace).symm

end

/-! ## Counting -/

theorem count_append (r r' : Report) (c : Change) :
    (r.append r').count c = r.count c + r'.count c := by
  rw [Report.count, Report.append, List.filter_append, List.length_append]
  rfl

theorem count_eq_zero {r : Report} {c : Change} (h : ∀ op ∈ r.operations, op.change ≠ c) :
    r.count c = 0 := by
  rw [Report.count, List.length_eq_zero_iff, List.filter_eq_nil_iff]
  intro op hop
  simpa using h op hop

theorem count_eq_length {r : Report} {c : Change} (h : ∀ op ∈ r.operations, op.change = c) :
    r.count c = r.operations.length := by
  rw [Report.count, List.filter_eq_self.mpr]
  intro op hop
  simpa using h op hop

/-- Where every operation is one of two changes, both together are all operations. -/
theorem count_add_count {r : Report} {c c' : Change} (hne : c ≠ c')
    (h : ∀ op ∈ r.operations, op.change = c ∨ op.change = c') :
    r.count c + r.count c' = r.operations.length := by
  rw [Report.count, Report.count, ← List.countP_eq_length_filter, ← List.countP_eq_length_filter,
    List.length_eq_countP_add_countP fun op => decide (op.change = c)]
  refine congrArg _ (List.countP_congr fun op hop => ?_)
  rcases h op hop with heq | heq
  · simp [heq, hne]
  · simp [heq, Ne.symm hne]

/-! ## Commands taken and orphans swept -/

/-- What becomes of commands that are taken, and the world they leave. -/
abbrev takeAll (s d : Agent) (o : Order) (source target : Path) (files : List Path) (w : World) :
    List (Except Failure Operation) × World :=
  inTurn (commandItem s d o source target) files w

/-- The commands without a source that are there when all are taken. -/
abbrev orphansBehind (s d : Agent) (o : Order) (source target : Path) (files : List Path)
    (w : World) : List Path :=
  orphanCommands s d source target files (takeAll s d o source target files w).2

/-- What becomes of them, and the world in the end. -/
abbrev sweepBehind (s d : Agent) (o : Order) (source target : Path) (files : List Path)
    (w : World) : List (Except Failure Operation) × World :=
  sweep o (orphansBehind s d o source target files w) (takeAll s d o source target files w).2

namespace Facing

variable {here : Path} {s d : Agent} {source target : Path} {files : List Path} {o : Order}
  (h : Facing here s d source target files) {w : World} (hw : w.Stands here target.root)
include h hw

theorem takeAll_grown :
    (takeAll s d o source target files w).2.Stands here target.root ∧
      w.Grown (fun q => ∃ file ∈ files, WrittenAt here s d source target file q)
        (takeAll s d o source target files w).2 :=
  inTurn_grows h.item_grows hw

theorem sweepBehind_grown :
    (sweepBehind s d o source target files w).2.Stands here target.root ∧
      (takeAll s d o source target files w).2.Grown
        (fun q => ∃ p ∈ orphansBehind s d o source target files w, q = Path.place here p)
        (sweepBehind s d o source target files w).2 :=
  sweep_grown o (h.takeAll_grown hw).1

/-- An orphan is a file. -/
theorem orphan_below {p : Path} (hp : p ∈ orphansBehind s d o source target files w) :
    CommandBelow d target p ∧
      ((takeAll s d o source target files w).2.tree.bytes? (Path.place here p)).isSome = true := by
  obtain ⟨hstands, -⟩ := h.takeAll_grown (o := o) hw
  obtain ⟨hfound, -⟩ := mem_orphanCommands.mp hp
  rw [← hstands.here_eq]
  exact ⟨below_of_found hstands.sound hfound, bytes_of_found hstands.sound hfound⟩

theorem nodup_orphans : (orphansBehind s d o source target files w).Nodup :=
  (World.nodup_commandFiles_all (h.takeAll_grown hw).1.sound d target).filter _

/-- No target lies where an orphan does. -/
theorem not_orphan_place {file t : Path} (hfile : file ∈ files)
    (ht : commandTarget s d source target file = .ok t) :
    ¬ ∃ p ∈ orphansBehind s d o source target files w, Path.place here t = Path.place here p := by
  rintro ⟨p, hp, hplace⟩
  obtain rfl := (h.matched hfile ht).below.2.eq_of_place (h.orphan_below hw hp).1 hplace
  exact (mem_orphanCommands.mp hp).2 ⟨file, hfile, ht⟩

/-- Nothing but commands of the destination has changed. -/
theorem bytes_elsewhere {q : Place} (hq : ¬ CommandPlace d (Path.place here target) q) :
    (sweepBehind s d o source target files w).2.tree.bytes? q = w.tree.bytes? q := by
  obtain ⟨-, htaken⟩ := h.takeAll_grown (o := o) hw
  obtain ⟨-, hswept⟩ := h.sweepBehind_grown (o := o) hw
  refine (hswept.bytes? ?_).trans (htaken.bytes? ?_)
  · rintro ⟨p, hp, rfl⟩
    exact hq ((h.orphan_below hw hp).1.place here)
  · rintro ⟨file, hfile, hwritten⟩
    exact hq (h.written_command hfile hwritten)

theorem bytes_source {file t : Path} (hfile : file ∈ files)
    (ht : commandTarget s d source target file = .ok t) :
    (sweepBehind s d o source target files w).2.tree.bytes? (Path.place here file) =
      w.tree.bytes? (Path.place here file) :=
  h.bytes_elsewhere hw (h.source_not_command hfile ht)

/-- A target that was there is still there, also when its command has failed. -/
theorem target_kept {file t : Path} (hfile : file ∈ files)
    (ht : commandTarget s d source target file = .ok t)
    (hb : (w.tree.bytes? (Path.place here t)).isSome = true) :
    ((sweepBehind s d o source target files w).2.tree.bytes? (Path.place here t)).isSome =
      true := by
  rw [(h.sweepBehind_grown (o := o) hw).2.bytes? (h.not_orphan_place hw hfile ht)]
  exact inTurn_adds h.item_adds hb

/-- A command of the destination that is there in the end was there before the sweep. -/
theorem found_before {p : Path}
    (hp : p ∈ (sweepBehind s d o source target files w).2.commandFiles d target none) :
    p ∈ (takeAll s d o source target files w).2.commandFiles d target none := by
  obtain ⟨hleft, -⟩ := h.takeAll_grown (o := o) hw
  obtain ⟨hend, hgrown⟩ := h.sweepBehind_grown (o := o) hw
  cases hfolder : (takeAll s d o source target files w).2.isFolder target with
  | false =>
    -- Without a folder of targets nothing was found to sweep, and nothing has changed.
    have hnone : orphansBehind s d o source target files w = [] := by
      rw [orphansBehind, orphanCommands, World.commandFiles, hfolder]
      rfl
    rw [sweepBehind, hnone] at hp
    exact hp
  | true =>
    obtain ⟨place, hstat⟩ := World.isFolder_iff_stat.mp hfolder
    have hplace := World.place_of_stat hstat
    obtain ⟨init, stem, heq, hinit, hstem, hb⟩ := World.exists_way_of_mem_all hend.sound hp
    have hat : Path.place here p = place ++ commandWay d init stem := by
      rw [heq, Path.place_behind (valid_commandWay d hinit hstem), hplace, hleft.here_eq]
    rw [World.commandFiles_all _ d target rfl, World.mem_commandsBelow_folder hleft.sound hstat]
    refine ⟨init, stem, heq, ?_⟩
    rw [hend.here_eq, ← hleft.here_eq, ← hplace, ← hat] at hb
    rw [← hat]
    by_cases hswept : ∃ p' ∈ orphansBehind s d o source target files w,
        Path.place here p = Path.place here p'
    · obtain ⟨p', hp', heq'⟩ := hswept
      rw [heq']
      exact (h.orphan_below hw hp').2
    · rwa [hgrown.bytes? hswept] at hb

/-! ## Without failures -/

section
variable (hwrites : o.preview = false)
  (hswept : errors (sweepBehind s d o source target files w).1 = [])
include hwrites hswept

theorem orphan_gone {p : Path} (hp : p ∈ orphansBehind s d o source target files w) :
    (sweepBehind s d o source target files w).2.tree.bytes? (Path.place here p) = none := by
  obtain ⟨hstands, -⟩ := h.takeAll_grown (o := o) hw
  refine swept hwrites (h.nodup_orphans hw) (fun p hp p' hp' => ?_) hstands hswept hp
  exact (h.orphan_below hw hp).1.eq_of_place (h.orphan_below hw hp').1

/-- A command of the destination that is there in the end is a target. -/
theorem expected_of_found {p : Path}
    (hp : p ∈ (sweepBehind s d o source target files w).2.commandFiles d target none) :
    ∃ file ∈ files, commandTarget s d source target file = .ok p := by
  obtain ⟨hend, -⟩ := h.sweepBehind_grown (o := o) hw
  refine Classical.byContradiction fun hnot => ?_
  have hgone := h.orphan_gone hw hwrites hswept
    (mem_orphanCommands.mpr ⟨h.found_before hw hp, hnot⟩)
  have hthere := bytes_of_found hend.sound hp
  rw [hend.here_eq, hgone] at hthere
  exact nomatch hthere

/-- The files that are gone are the orphans. -/
theorem exists_removed : ∃ places : List Place, places.Nodup ∧
    (∀ q, q ∈ places ↔ (w.tree.bytes? q).isSome = true ∧
      (sweepBehind s d o source target files w).2.tree.bytes? q = none) ∧
    places.length = (orphansBehind s d o source target files w).length := by
  obtain ⟨-, htaken⟩ := h.takeAll_grown (o := o) hw
  obtain ⟨-, hgrown⟩ := h.sweepBehind_grown (o := o) hw
  refine ⟨(orphansBehind s d o source target files w).map (Path.place here), ?_, fun q => ?_,
    List.length_map _⟩
  · refine List.pairwise_map.mpr ((h.nodup_orphans hw).imp_of_mem fun {p p'} hp hp' hne heq => ?_)
    exact hne ((h.orphan_below hw hp).1.eq_of_place (h.orphan_below hw hp').1 heq)
  · rw [List.mem_map]
    constructor
    · rintro ⟨p, hp, rfl⟩
      refine ⟨?_, h.orphan_gone hw hwrites hswept hp⟩
      rw [← htaken.bytes?]
      · exact (h.orphan_below hw hp).2
      · rintro ⟨file, hfile, t, ht, hplace⟩
        exact h.not_orphan_place hw hfile ht ⟨p, hp, hplace.symm⟩
    · rintro ⟨hb, hnone⟩
      have hleftSome : ((takeAll s d o source target files w).2.tree.bytes? q).isSome = true :=
        inTurn_adds h.item_adds hb
      refine Classical.byContradiction fun hnot => ?_
      rw [hgrown.bytes? fun ⟨p, hp, heq⟩ => hnot ⟨p, hp, heq.symm⟩] at hnone
      rw [hnone] at hleftSome
      exact nomatch hleftSome

variable (hkeep : o.keepExisting = false)
  (hhub : d = Agent.hub → ∃ base place, target = base.append d.commandFolder ∧
    w.stat base = .ok (place, .folder))
  (htaken : errors (takeAll s d o source target files w).1 = [])
include hkeep hhub htaken

omit hswept in
/-- Every target holds the text that its command becomes. -/
theorem text_at_target {file t : Path} (hfile : file ∈ files)
    (ht : commandTarget s d source target file = .ok t) :
    ∃ b text, w.tree.bytes? (Path.place here file) = some b ∧
      converted s d o.removeForeign file t b (w.tree.bytes? (Path.place here t)) = .ok text ∧
      (sweepBehind s d o source target files w).2.tree.bytes? (Path.place here t) =
        some (Text.encode text) := by
  obtain ⟨-, b, text, hb, hconverted, hwritten⟩ :=
    h.taken hwrites hkeep hw hhub htaken hfile ht
  refine ⟨b, text, hb, hconverted, ?_⟩
  rw [(h.sweepBehind_grown (o := o) hw).2.bytes? (h.not_orphan_place hw hfile ht)]
  exact hwritten

/-- The commands of the destination are the targets. -/
theorem mem_commandFiles_iff {p : Path} :
    p ∈ (sweepBehind s d o source target files w).2.commandFiles d target none ↔
      ∃ file ∈ files, commandTarget s d source target file = .ok p := by
  obtain ⟨hend, hgrown⟩ := h.sweepBehind_grown (o := o) hw
  constructor
  · exact h.expected_of_found hw hwrites hswept
  · rintro ⟨file, hfile, ht⟩
    obtain ⟨⟨place, hstat⟩, -⟩ := h.taken hwrites hkeep hw hhub htaken hfile ht
    obtain ⟨b, text, -, -, hwritten⟩ := h.text_at_target hw hwrites hkeep hhub htaken hfile ht
    obtain ⟨init, stem, hinit, hstem, -, rfl⟩ := h.matched hfile ht
    have hplace := World.place_of_stat (hgrown.stat hstat)
    rw [hend.here_eq] at hplace
    rw [World.commandFiles_all _ d target rfl,
      World.mem_commandsBelow_folder hend.sound (hgrown.stat hstat)]
    refine ⟨init, stem, rfl, ?_⟩
    rw [Path.place_behind (valid_commandWay d hinit hstem), ← hplace] at hwritten
    rw [hwritten]
    rfl

end

end Facing

/-! ## What is told of them -/

section
variable {s d : Agent} {o : Order} {source target : Path} {files orphans : List Path} {w : World}

/-- A command that does not fail is told as created or as modified, unless existing ones are
kept. -/
theorem gives_commandItem (hkeep : o.keepExisting = false) (file : Path) :
    Gives (fun op => op.change = .created ∨ op.change = .modified)
      (commandItem s d o source target file) := by
  refine Gives.bind fun t => gives_takeCommand s d o file t (fun hkeeps => ?_) fun there _ => ?_
  · rw [hkeep] at hkeeps
    exact nomatch hkeeps
  · cases there
    · exact Or.inl rfl
    · exact Or.inr rfl

theorem counts_takeAll (hkeep : o.keepExisting = false)
    (hfine : errors (takeAll s d o source target files w).1 = []) :
    let r := Report.total Report.ofItem (takeAll s d o source target files w).1
    r.processed = files.length ∧ r.count .created + r.count .modified = files.length ∧
      r.count .deleted = 0 := by
  have hoperations := operations_total ofItem_tells (takeAll s d o source target files w).1
  have hprocessed := processed_total (takeAll s d o source target files w).1
  have hlength := length_successes (takeAll s d o source target files w).1
  have hfiles : (takeAll s d o source target files w).1.length = files.length :=
    length_inTurn _ files w
  have hwritten : ∀ op ∈ (Report.total Report.ofItem
      (takeAll s d o source target files w).1).operations,
      op.change = .created ∨ op.change = .modified := by
    intro op hop
    rw [hoperations] at hop
    obtain ⟨file, -, y, hy⟩ := exists_of_mem_inTurn (mem_successes.mp hop)
    exact gives_commandItem hkeep file y op hy
  rw [hfine, List.length_nil] at hprocessed hlength
  refine ⟨by omega, ?_, count_eq_zero fun op hop heq => ?_⟩
  · rw [count_add_count (by decide) hwritten, hoperations]
    omega
  · have hop' := hwritten op hop
    rw [heq] at hop'
    exact hop'.elim nofun nofun

theorem counts_sweep (hfine : errors (sweep o orphans w).1 = []) :
    let r := Report.total Report.ofOrphan (sweep o orphans w).1
    r.processed = 0 ∧ r.count .created = 0 ∧ r.count .modified = 0 ∧
      r.count .deleted = orphans.length := by
  have hoperations := operations_total ofOrphan_tells (sweep o orphans w).1
  have hlength := length_successes (sweep o orphans w).1
  have horphans : (sweep o orphans w).1.length = orphans.length := length_inTurn _ orphans w
  have hdeleted : ∀ op ∈ (Report.total Report.ofOrphan (sweep o orphans w).1).operations,
      op.change = .deleted := by
    intro op hop
    rw [hoperations] at hop
    obtain ⟨p, preview, heq⟩ | ⟨e, heq⟩ :=
      (run_orphans o ends_removing.1 orphans w).1 _ (mem_successes.mp hop)
    · rw [Except.ok.inj heq]
    · exact nomatch heq
  rw [hfine, List.length_nil] at hlength
  refine ⟨processed_orphans _, count_eq_zero fun op hop heq => ?_,
    count_eq_zero fun op hop heq => ?_, ?_⟩
  · rw [hdeleted op hop] at heq
    exact nomatch heq
  · rw [hdeleted op hop] at heq
    exact nomatch heq
  · rw [count_eq_length hdeleted, hoperations]
    omega

end

/-! ## Mirrors -/

/-- The destination mirrors the commands `files` of the source: `w` are the files before
the run, `v` those after it. -/
structure Mirrored (s d : Agent) (o : Order) (source target : Path) (files : List Path)
    (w v : World) (r : Report) : Prop where
  /-- The commands of the destination are the targets. -/
  commands : ∀ p, p ∈ v.commandFiles d target none ↔
    ∃ file ∈ files, commandTarget s d source target file = .ok p
  /-- Every target holds the text that its command becomes. -/
  texts : ∀ file ∈ files, ∀ t, commandTarget s d source target file = .ok t →
    ∃ b text, w.tree.bytes? (Path.place w.here file) = some b ∧
      converted s d o.removeForeign file t b (w.tree.bytes? (Path.place w.here t)) = .ok text ∧
      v.tree.bytes? (Path.place w.here t) = some (Text.encode text)
  processed : r.processed = files.length
  written : r.count .created + r.count .modified = files.length
  /-- As many deletions are told as files are gone. -/
  removed : ∃ places : List Place, places.Nodup ∧
    (∀ q, q ∈ places ↔ (w.tree.bytes? q).isSome = true ∧ v.tree.bytes? q = none) ∧
    r.count .deleted = places.length

/-- Commands taken without a failure, and orphans swept without one, make a mirror. -/
theorem Facing.mirrored {s d : Agent} {o : Order} {source target : Path} {files : List Path}
    {w : World} (h : Facing w.here s d source target files) (hw : w.Stands w.here target.root)
    (hwrites : o.preview = false) (hkeep : o.keepExisting = false)
    (hhub : d = Agent.hub → ∃ base place, target = base.append d.commandFolder ∧
      w.stat base = .ok (place, .folder))
    (htaken : errors (takeAll s d o source target files w).1 = [])
    (hswept : errors (sweepBehind s d o source target files w).1 = []) :
    Mirrored s d o source target files w (sweepBehind s d o source target files w).2
      ((Report.total Report.ofItem (takeAll s d o source target files w).1).append
        (Report.total Report.ofOrphan (sweepBehind s d o source target files w).1)) := by
  obtain ⟨hprocessed, hwritten, hnone⟩ := counts_takeAll hkeep htaken
  obtain ⟨hprocessed', hcreated, hmodified, hdeleted⟩ := counts_sweep hswept
  obtain ⟨places, hnodup, hplaces, hlength⟩ := h.exists_removed hw hwrites hswept
  refine ⟨fun p => h.mem_commandFiles_iff hw hwrites hswept hkeep hhub htaken,
    fun file hfile t ht => h.text_at_target hw hwrites hkeep hhub htaken hfile ht, ?_, ?_, places,
    hnodup, hplaces, ?_⟩
  · rw [Report.append]
    dsimp only
    rw [hprocessed, hprocessed', Nat.add_zero]
  · rw [count_append, count_append, hcreated, hmodified, Nat.add_zero, Nat.add_zero, hwritten]
  · rw [count_append, hnone, hdeleted, hlength, Nat.zero_add]

/-- A mirror of the same files before the run. -/
theorem Mirrored.of_same {s d : Agent} {o : Order} {source target : Path} {files : List Path}
    {w w' v : World} {r : Report} (h : Mirrored s d o source target files w v r)
    (hhere : w'.here = w.here) (hbytes : ∀ q, w.tree.bytes? q = w'.tree.bytes? q) :
    Mirrored s d o source target files w' v r := by
  obtain ⟨hcommands, htexts, hprocessed, hwritten, places, hnodup, hplaces, hcount⟩ := h
  refine ⟨hcommands, fun file hfile t ht => ?_, hprocessed, hwritten, places, hnodup,
    fun q => ?_, hcount⟩
  · rw [hhere, ← hbytes, ← hbytes]
    exact htexts file hfile t ht
  · rw [← hbytes]
    exact hplaces q

/-! ## Runs that mirror -/

/-- The world once the lock has been taken. -/
def afterLock (o : Order) (w : World) : World := ((takeLock o.setup).run w).2

/-- A run that writes all commands and deletes those without a source, and the files it
meets: the tree is sound and holds the working folder, neither base folder lies in the
other, and no command of the source has a colon in its way. -/
structure Mirroring (s d : Agent) (o : Order) (w : World) : Prop where
  sound : w.Sound
  here : w.tree.get? w.herePlace = some .folder
  tidy : o.setup.Tidy w
  contents : o.contents = .commands
  writes : o.preview = false
  overwrites : o.keepExisting = false
  deletes : o.deleteOrphans = true
  all : o.only = none
  apart : ∀ p q, o.setup.base s w = .ok p → o.setup.base d w = .ok q →
    ¬ Path.place w.here p <+: Path.place w.here q ∧ ¬ Path.place w.here q <+: Path.place w.here p
  colonFree : ∀ folder, o.setup.commands s w = .ok folder →
    ColonFree folder ((afterLock o w).commandFiles s folder none)

/-- What a run over commands that deletes orphans has done when it returns. -/
theorem of_run_commands {s d : Agent} {o : Order} {w v : World} {r : Report}
    (hcontents : o.contents = .commands) (hwrites : o.preview = false)
    (hdeletes : o.deleteOrphans = true) (hall : o.only = none)
    (hrun : (run s d o).run w = (.ok r, v)) :
    ∃ u p q, (takeLock o.setup).run w = (.ok (), u) ∧ o.setup.base s u = .ok p ∧
      o.setup.base d u = .ok q ∧
      let source := p.append s.commandFolder
      let target := q.append d.commandFolder
      let files := u.commandFiles s source none
      let start := told o files.length s "command" source u
      r = (Report.total Report.ofItem (takeAll s d o source target files start).1).append
        (Report.total Report.ofOrphan (sweepBehind s d o source target files start).1) ∧
      v = (sweepBehind s d o source target files start).2 := by
  rw [run_eq, locking, hwrites] at hrun
  obtain ⟨_, u, hlock, hrun⟩ := ok_of_run_bind hrun
  obtain ⟨p, q, hs, hd⟩ := bases_of_runAll (congrArg Prod.fst hrun)
  refine ⟨u, p, q, hlock, hs, hd, ?_⟩
  have hsweeps : o.sweeps = true := by
    rw [Order.sweeps, Order.isSingle, hdeletes, hall]
    rfl
  rw [runAll_eq, commandsPart, skillsPart, hcontents] at hrun
  obtain ⟨commands, x, hcommands, hrun⟩ := ok_of_run_bind hrun
  obtain ⟨hr, rfl⟩ := Prod.mk.inj hrun
  obtain rfl := Except.ok.inj hr
  change (runCommands s d o).run u = _ at hcommands
  rw [runCommands_eq, run_get_bind, commands_eq_ok hs rfl rfl, commands_eq_ok hd rfl rfl,
    ofExcept_ok_bind, ofExcept_ok_bind, commandsBetween, run_tellFound_bind, reportCommand_eq,
    hall] at hcommands
  have hcollected : ∀ e ∈ errors (takeAll s d o (p.append s.commandFolder)
      (q.append d.commandFolder) (u.commandFiles s (p.append s.commandFolder) none)
      (told o (u.commandFiles s (p.append s.commandFolder) none).length s "command"
        (p.append s.commandFolder) u)).1, e.isCollected = true :=
    collected_of_ok (congrArg Prod.fst hcommands) fun _ =>
      run_sweeping_of_not_collected o _ _ _ Disk.removeFile _
  rw [run_sweeping_of_sweeps o _ _ _ ends_removing.1 _ hsweeps hcollected] at hcommands
  obtain ⟨hr, rfl⟩ := Prod.mk.inj hcommands
  obtain rfl := Except.ok.inj hr
  exact ⟨Report.append_empty _, rfl⟩

section
variable {s d : Agent} {o : Order} {w u : World} {p q : Path}

/-- The commands that a mirroring run finds face the folder of targets. -/
theorem Mirroring.facing (h : Mirroring s d o w) (hlock : (takeLock o.setup).run w = (.ok (), u))
    (hp : o.setup.base s w = .ok p) (hq : o.setup.base d w = .ok q) (hu : u.Sound) :
    Facing w.here s d (p.append s.commandFolder) (q.append d.commandFolder)
      (u.commandFiles s (p.append s.commandFolder) none) := by
  have hafter : afterLock o w = u := congrArg Prod.snd hlock
  have hcolon := h.colonFree _ (commands_eq_ok hp rfl rfl)
  rw [hafter] at hcolon
  refine ⟨(Setup.tidy_base h.tidy h.sound hp).append _,
    (Setup.tidy_base h.tidy h.sound hq).append _, World.nodup_commandFiles_all hu s _,
    fun file hfile => ?_, fun place hsource htarget => ?_⟩
  · obtain ⟨init, stem, rfl, hinit, hstem, -⟩ := World.exists_way_of_mem_all hu hfile
    exact hasTarget_of_way hinit hstem hcolon hfile
  · -- A place below both folders would lie below both base folders.
    rw [Path.place_append (Setup.valid_commandFolder s)] at hsource
    rw [Path.place_append (Setup.valid_commandFolder d)] at htarget
    obtain ⟨hnot, hnot'⟩ := h.apart p q hp hq
    rcases List.prefix_or_prefix_of_prefix ((List.prefix_append _ _).trans hsource)
      ((List.prefix_append _ _).trans htarget) with hpre | hpre
    · exact hnot hpre
    · exact hnot' hpre

end

/-- A run that is to mirror the commands of the source, and returns, has changed nothing but
commands of the destination, and no target is gone. When it reports no failure, the
destination mirrors the source. -/
theorem run_mirrors (s d : Agent) (o : Order) (w : World) (h : Mirroring s d o w) (r : Report)
    (v : World) (hrun : (run s d o).run w = (.ok r, v)) :
    ∃ source target files, o.setup.commands s w = .ok source ∧
      o.setup.commands d w = .ok target ∧
      (afterLock o w).commandFiles s source none = files ∧
      (∀ file ∈ files, ∃ t, commandTarget s d source target file = .ok t ∧
        Matched s d source target file t) ∧
      (∀ q, ¬ CommandPlace d (Path.place w.here target) q →
        v.tree.bytes? q = w.tree.bytes? q) ∧
      (∀ file ∈ files, v.tree.bytes? (Path.place w.here file) =
        w.tree.bytes? (Path.place w.here file)) ∧
      (∀ file ∈ files, ∀ t, commandTarget s d source target file = .ok t →
        (w.tree.bytes? (Path.place w.here t)).isSome = true →
        (v.tree.bytes? (Path.place w.here t)).isSome = true) ∧
      (r.failures = [] → Mirrored s d o source target files w v r) := by
  obtain ⟨u, p, q, hlock, hs, hd, hr, hv⟩ :=
    of_run_commands h.contents h.writes h.deletes h.all hrun
  obtain ⟨hsound, hgrown⟩ := takeLock_grown h.sound h.here h.tidy
  rw [hlock] at hsound hgrown
  have hp : o.setup.base s w = .ok p := (Setup.base_eq hgrown.home hgrown.here).symm.trans hs
  have hq : o.setup.base d w = .ok q := (Setup.base_eq hgrown.home hgrown.here).symm.trans hd
  have hfacing := h.facing hlock hp hq hsound
  -- What was found is told first, which leaves the files alone.
  have hsame : u.SameFiles (told o (u.commandFiles s (p.append s.commandFolder) none).length s
      "command" (p.append s.commandFolder) u) := still_tellFound o _ s "command" _ u
  generalize told o (u.commandFiles s (p.append s.commandFolder) none).length s "command"
    (p.append s.commandFolder) u = start at hr hv hsame
  have hbytes : ∀ y, start.tree.bytes? y = w.tree.bytes? y := by
    intro y
    rw [hsame.tree]
    exact hgrown.bytes? not_false
  have hstands : start.Stands w.here (q.append d.commandFolder).root := by
    refine ⟨hsame.sound hsound, hsame.here.trans hgrown.here, ?_⟩
    rw [hsame.tree]
    exact hgrown.folders _ (stands_of_here h.sound h.here _).start
  have hhub : d = Agent.hub → ∃ base place, q.append d.commandFolder = base.append d.commandFolder ∧
      start.stat base = .ok (place, .folder) := by
    rintro rfl
    obtain ⟨place, hstat⟩ := stat_of_takeLock h.sound h.here h.tidy hlock hq
    exact ⟨q, place, rfl, (hsame.stat q).trans hstat⟩
  refine ⟨_, _, _, commands_eq_ok hp rfl rfl, commands_eq_ok hq rfl rfl,
    congrArg (fun y => World.commandFiles y s _ none) (congrArg Prod.snd hlock), hfacing.targets,
    fun y hy => ?_, fun file hfile => ?_, fun file hfile t ht hthere => ?_, fun hfine => ?_⟩
  · rw [hv, ← hbytes]
    exact hfacing.bytes_elsewhere hstands hy
  · obtain ⟨t, ht, -⟩ := hfacing.targets file hfile
    rw [hv, ← hbytes]
    exact hfacing.bytes_source hstands hfile ht
  · rw [← hbytes] at hthere
    rw [hv]
    exact hfacing.target_kept hstands hfile ht hthere
  · rw [hr] at hfine
    obtain ⟨htaken, hswept⟩ := Report.failures_append hfine
    rw [failures_total ofItem_tells] at htaken
    rw [failures_total ofOrphan_tells] at hswept
    have hhere : w.here = start.here := (hsame.here.trans hgrown.here).symm
    rw [hhere] at hfacing hstands
    rw [hr, hv]
    exact (hfacing.mirrored hstands h.writes h.overwrites hhub htaken hswept).of_same hhere hbytes

/-- A command of one agent, and another text for it in the folder of the other. -/
def facingWorld : World where
  tree :=
    [(["w"], .folder), (["w", ".cursor"], .folder), (["w", ".cursor", "commands"], .folder),
      (["w", ".cursor", "commands", "a.md"], .file (Text.encode "hi\n")),
      (["w", ".claude"], .folder), (["w", ".claude", "commands"], .folder),
      (["w", ".claude", "commands", "a.md"], .file (Text.encode "old\n"))]
  home := ⟨1, ["h"]⟩
  here := ⟨1, ["w"]⟩
  repository := none
  held := none
  printed := []
  warnings := []

/-- Commands are to be mirrored. -/
def mirrorOrder : Order := { pairOrder with contents := .commands, deleteOrphans := true }

theorem mirroring_facing : Mirroring .cursor .claude mirrorOrder facingWorld := by
  have hs : mirrorOrder.setup.base .cursor facingWorld = .ok ⟨1, ["w", ".cursor"]⟩ :=
    eq_ok_of_toOption (by decide +kernel)
  have hd : mirrorOrder.setup.base .claude facingWorld = .ok ⟨1, ["w", ".claude"]⟩ :=
    eq_ok_of_toOption (by decide +kernel)
  have hcommands : mirrorOrder.setup.commands .cursor facingWorld =
      .ok ⟨1, ["w", ".cursor", "commands"]⟩ := eq_ok_of_toOption (by decide +kernel)
  have hfiles : (afterLock mirrorOrder facingWorld).commandFiles .cursor
      ⟨1, ["w", ".cursor", "commands"]⟩ none = [⟨1, ["w", ".cursor", "commands", "a.md"]⟩] := by
    decide +kernel
  refine ⟨⟨⟨?_, ?_, ?_, ?_⟩, ?_, ?_⟩, ?_, ⟨?_, ?_⟩, rfl, rfl, rfl, rfl, rfl, ?_, ?_⟩
  all_goals try decide +kernel
  · exact ⟨by decide, by decide⟩
  · intro p hp
    obtain rfl := Option.some.inj hp
    exact ⟨by decide, by decide⟩
  · intro p q hp hq
    rw [hs] at hp
    rw [hd] at hq
    obtain rfl := Except.ok.inj hp
    obtain rfl := Except.ok.inj hq
    constructor <;> decide +kernel
  · intro folder hfolder file hfile way hway
    rw [hcommands] at hfolder
    obtain rfl := Except.ok.inj hfolder
    rw [hfiles, List.mem_singleton] at hfile
    rw [hfile] at hway
    obtain rfl : (⟨0, ["a.md"]⟩ : Path) = way := by simpa [Path.below?] using hway
    decide +kernel

/-- The command takes the place of the other text, which is no failure. -/
theorem run_mirrors_facing : Mirroring .cursor .claude mirrorOrder facingWorld ∧
    ∃ r v, (run .cursor .claude mirrorOrder).run facingWorld = (.ok r, v) ∧ r.failures = [] ∧
      Mirrored .cursor .claude mirrorOrder ⟨1, ["w", ".cursor", "commands"]⟩
        ⟨1, ["w", ".claude", "commands"]⟩ [⟨1, ["w", ".cursor", "commands", "a.md"]⟩]
        facingWorld v r := by
  have hrun : (run .cursor .claude mirrorOrder).run facingWorld =
      (.ok ⟨[⟨.modified, ⟨1, ["w", ".claude", "commands", "a.md"]⟩, false⟩], [], 1⟩,
        ((run .cursor .claude mirrorOrder).run facingWorld).2) :=
    Prod.ext (eq_ok_of_toOption (by decide +kernel)) rfl
  have hs : mirrorOrder.setup.commands .cursor facingWorld =
      .ok ⟨1, ["w", ".cursor", "commands"]⟩ := eq_ok_of_toOption (by decide +kernel)
  have hd : mirrorOrder.setup.commands .claude facingWorld =
      .ok ⟨1, ["w", ".claude", "commands"]⟩ := eq_ok_of_toOption (by decide +kernel)
  have hfiles : (afterLock mirrorOrder facingWorld).commandFiles .cursor
      ⟨1, ["w", ".cursor", "commands"]⟩ none = [⟨1, ["w", ".cursor", "commands", "a.md"]⟩] := by
    decide +kernel
  obtain ⟨source, target, files, hsource, htarget, hfound, -, -, -, -, hmirrored⟩ :=
    run_mirrors .cursor .claude mirrorOrder facingWorld mirroring_facing _ _ hrun
  obtain rfl := Except.ok.inj (hs.symm.trans hsource)
  obtain rfl := Except.ok.inj (hd.symm.trans htarget)
  rw [hfiles] at hfound
  subst hfound
  exact ⟨mirroring_facing, _, _, hrun, rfl, hmirrored rfl⟩

end AgentRelay.Sync
