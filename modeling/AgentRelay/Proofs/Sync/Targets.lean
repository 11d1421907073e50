import AgentRelay.Proofs.Sync.Mirror

/-
  Where the items of a run are written.

  What a run finds, all items or the one with a name, has targets that keep apart: no
  command is written where another one is (`not_written_twice`), no place lies below the
  targets of two skills (`apart_skillTargets`), and no command is written below the target
  of a skill (`not_written_below`). The last needs a name without two points, which
  would lead from the commands to the skills.
-/

namespace AgentRelay

open Files (Place Tree Entry ValidName)

namespace Path

variable {p here : Path}

/-- The last name of a path, as a path of its own. -/
theorem ofText_own_name (hp : p.Tidy) : ofText p.name = ⟨0, p.parts.getLast?.toList⟩ := by
  rw [name]
  cases hlast : p.parts.getLast? with
  | none => rfl
  | some n =>
    have hn : IsName n := hp.names n (List.mem_of_getLast? hlast)
    have hnames : ∀ m ∈ [n], IsName m := by simpa using hn
    have hread := ofChars_joinWith hnames (Nat.zero_le 2)
    rw [List.replicate_zero, List.nil_append] at hread
    exact hread

theorem name_ne_up (h : ".." ∉ p.parts) : p.name ≠ ".." := by
  rw [name]
  cases hlast : p.parts.getLast? with
  | none => decide
  | some n => exact fun heq => h (heq ▸ List.mem_of_getLast? hlast)

theorem append_own_name (target : Path) (hp : p.Tidy) :
    target.append p.name = ⟨target.root, target.parts ++ p.parts.getLast?.toList⟩ :=
  append_way target (ofText_own_name hp)

theorem place_own_name (target : Path) (hp : p.Tidy) : place here (target.append p.name) =
    p.parts.getLast?.toList.foldl step (place here target) := by
  rw [append_own_name target hp, place, List.foldl_append]
  rfl

end Path

namespace World

variable {w : World} {only : Option String} {folder x : Path}

/-- A skill that is found among all lies one name below the folder. -/
theorem exists_name_of_mem_skillFolders (h : w.Sound) (hx : x ∈ w.skillFolders folder none) :
    ∃ n, ValidName n ∧ x = ⟨folder.root, folder.parts ++ [n]⟩ := by
  rw [skillFolders_none] at hx
  split at hx
  · exact absurd hx List.not_mem_nil
  · have hentry := (List.mem_filter.mp hx).1
    unfold entries at hentry
    split at hentry
    · obtain ⟨q, hchild, rfl⟩ := List.mem_map.mp (Path.mem_sorted.mp hentry)
      obtain ⟨hmem, ⟨names, rfl⟩, hlen⟩ := Tree.mem_children.mp hchild
      obtain ⟨n, rfl⟩ : ∃ n, names = [n] := List.length_eq_one_iff.mp (by simpa using hlen)
      obtain ⟨y, hy, hyq⟩ := List.mem_map.mp hmem
      exact ⟨n, h.tree.names y hy n (by simp [hyq]), by rw [List.drop_left]⟩
    · exact absurd hentry List.not_mem_nil

section
variable {name : String} (ho : only.filter (fun name => !name.isEmpty) = some name)
include ho

/-- The only skill that is asked for. -/
theorem skillFolders_named (w : World) (folder : Path) :
    w.skillFolders folder only = [] ∨ w.skillFolders folder only = [folder.append name] := by
  rw [skillFolders, ho]
  split
  · exact .inl rfl
  · by_cases hin : Skill.isIn w (folder.append name) = true
    · exact .inr (by simp [hin])
    · exact .inl (by simp [hin])

/-- The only command that is asked for is a file, where the folder of commands is there. -/
theorem commandFiles_named (w : World) (a : Agent) (folder : Path) :
    let file := folder.append
      (String.ofList (stripExtension name.toList a.extension ++ a.extension))
    w.commandFiles a folder only = [] ∨
      w.isFolder folder = true ∧ w.isFile file = true ∧ w.commandFiles a folder only = [file] := by
  intro file
  have hnamed : w.commandNamed a folder name = if w.isFile file then [file] else [] := rfl
  rw [commandFiles, ho]
  cases hfolder : w.isFolder folder with
  | false => exact .inl rfl
  | true =>
    simp only [Bool.not_true, Bool.false_eq_true, if_false, hnamed]
    cases hfile : w.isFile file with
    | false => exact .inl rfl
    | true => exact .inr ⟨trivial, rfl, rfl⟩

end

theorem nodup_skills (h : w.Sound) (folder : Path) (only : Option String) :
    (w.skillFolders folder only).Nodup := by
  cases ho : only.filter fun name => !name.isEmpty with
  | none =>
    rw [skillFolders_all ho]
    exact nodup_skillFolders h folder
  | some name => rcases skillFolders_named ho w folder with hlist | hlist <;> simp [hlist]

theorem nodup_commands (h : w.Sound) (a : Agent) (folder : Path) (only : Option String) :
    (w.commandFiles a folder only).Nodup := by
  cases ho : only.filter fun name => !name.isEmpty with
  | none =>
    rw [commandFiles_unnamed w a folder ho]
    exact nodup_commandFiles_all h a folder
  | some name =>
    rcases commandFiles_named ho w a folder with hlist | ⟨-, -, hlist⟩ <;> simp [hlist]

end World

namespace Sync

variable {here : Path} {s d : Agent} {o : Order} {w : World}

/-- No name that is asked for has two points. -/
def LeadsInside (only : Option String) : Prop :=
  ∀ name, only = some name → ".." ∉ (Path.ofText name).parts

/-! ## Skills -/

section
variable {target folder x y : Path} {only : Option String}

/-- The target of a skill lies in the folder of skills. -/
theorem skills_above_skillTarget (hf : folder.Tidy) (hup : folder.name ≠ "..") :
    Path.place here target <+: Path.place here (target.append folder.name) := by
  rw [Path.place_own_name _ hf]
  rw [Path.name] at hup
  cases hlast : folder.parts.getLast? with
  | none => exact List.prefix_rfl
  | some n =>
    rw [hlast] at hup
    have hn : n ≠ ".." := hup
    simp [Path.step, hn]

/-- No place lies below the targets of two skills. -/
theorem apart_skillTargets (hw : w.Sound) (hx : x ∈ w.skillFolders folder only)
    (hy : y ∈ w.skillFolders folder only) (hne : y ≠ x) {place : Place}
    (hbelow : Path.place here (target.append x.name) <+: place) :
    ¬ Path.place here (target.append y.name) <+: place := by
  cases ho : only.filter fun name => !name.isEmpty with
  | none =>
    rw [World.skillFolders_all ho] at hx hy
    obtain ⟨m, hm, rfl⟩ := World.exists_name_of_mem_skillFolders hw hx
    obtain ⟨n, hn, rfl⟩ := World.exists_name_of_mem_skillFolders hw hy
    intro hbelow'
    have hname (k : String) : (Path.mk folder.root (folder.parts ++ [k])).name = k := by
      simp [Path.name]
    rw [hname, Path.place_append hm] at hbelow
    rw [hname, Path.place_append hn] at hbelow'
    have heq := (List.prefix_of_prefix_length_le hbelow hbelow' (by simp)).eq_of_length (by simp)
    exact hne (by rw [List.singleton_inj.mp (List.append_cancel_left heq)])
  | some name =>
    rcases World.skillFolders_named ho w folder with hlist | hlist
    · rw [hlist] at hx
      exact absurd hx List.not_mem_nil
    · rw [hlist] at hx hy
      exact absurd ((List.mem_singleton.mp hy).trans (List.mem_singleton.mp hx).symm) hne

/-- A skill that is found is not two points. -/
theorem name_of_found {p : Path} (hw : w.Sound) (hinside : LeadsInside only)
    (hf : folder ∈ w.skillFolders (p.append s.skillFolder) only) : folder.name ≠ ".." := by
  have hbehind : p.append s.skillFolder = ⟨p.root, p.parts ++ [s.skillFolder]⟩ :=
    Path.append_name p (Setup.valid_skillFolder s)
  cases ho : only.filter fun name => !name.isEmpty with
  | none =>
    rw [World.skillFolders_all ho] at hf
    obtain ⟨n, hn, rfl⟩ := World.exists_name_of_mem_skillFolders hw hf
    rw [Path.name, List.getLast?_concat]
    exact hn.2.2.1
  | some name =>
    have hnames := hinside name (Option.eq_some_of_filter_eq_some ho)
    rcases World.skillFolders_named ho w (p.append s.skillFolder) with hlist | hlist
    · rw [hlist] at hf
      exact absurd hf List.not_mem_nil
    · rw [hlist] at hf
      obtain rfl := List.mem_singleton.mp hf
      unfold Path.append Path.join
      split
      · exact Path.name_ne_up hnames
      · -- Behind the folder of skills, or that folder itself.
        change Path.name ⟨_, (p.append s.skillFolder).parts ++ (Path.ofText name).parts⟩ ≠ ".."
        rw [hbehind, Path.name]
        cases hq : (Path.ofText name).parts.getLast? with
        | none =>
          rw [List.getLast?_eq_none_iff.mp hq, List.append_nil, List.getLast?_concat]
          exact (Setup.valid_skillFolder s).2.2.1
        | some n =>
          rw [List.getLast?_append, hq]
          exact fun heq => hnames (heq ▸ List.mem_of_getLast? hq)

end

/-! ## Commands -/

section
variable {source target file file' t : Path} {only : Option String}

/-- The target of a command can be written down. -/
theorem tidy_target (ht : target.Tidy) (h : commandTarget s d source target file = .ok t) :
    t.Tidy := by
  unfold commandTarget at h
  split at h
  · rename_i name hname
    obtain rfl := Except.ok.inj h
    exact ht.join (Path.tidy_ofChars _)
  · cases h

/-- A path with the names of a command that leads through a folder has a way of a command
there. -/
theorem exists_way_of_below {init : List String} {stem : List Char} {p way : Path}
    (hparts : p.parts = commandWay s init stem) (hinit : ∀ n ∈ init, ValidName n)
    (hway : source.below? p = some way) (hne : p ≠ source) :
    ∃ init', (∀ n ∈ init', ValidName n) ∧
      p = ⟨source.root, source.parts ++ commandWay s init' stem⟩ := by
  obtain ⟨hroot, htake⟩ : p.root = source.root ∧
      p.parts.take source.parts.length = source.parts := by
    unfold Path.below? at hway
    exact Classical.byContradiction fun hnot => by simp [hnot] at hway
  have hlength : source.parts.length ≤ init.length := by
    refine Classical.byContradiction fun hlong => hne ?_
    have hall : p.parts.length ≤ source.parts.length := by
      rw [hparts, commandWay, List.length_append, List.length_singleton]
      omega
    rw [List.take_of_length_le hall] at htake
    exact (Path.mk.injEq ..).mpr ⟨hroot, htake⟩
  have hrest : p.parts.drop source.parts.length =
      commandWay s (init.drop source.parts.length) stem := by
    rw [hparts, commandWay, List.drop_append_of_le_length hlength, commandWay]
  refine ⟨init.drop source.parts.length, fun n hn => hinit n (List.mem_of_mem_drop hn), ?_⟩
  have hsplit := (List.take_append_drop source.parts.length p.parts).symm
  rw [htake, hrest] at hsplit
  rw [← hsplit, ← hroot]

/-- The only command that is asked for lies below the folder of commands, when it has a way
there. -/
theorem exists_way_of_named {name : String}
    (ho : only.filter (fun name => !name.isEmpty) = some name) (hinside : LeadsInside only)
    {way : Path} (hfile : file ∈ w.commandFiles s source only)
    (hway : source.below? file = some way) :
    ∃ init stem, (∀ n ∈ init, ValidName n) ∧ '/' ∉ stem ∧
      file = ⟨source.root, source.parts ++ commandWay s init stem⟩ := by
  obtain ⟨init, stem, hparts, hinit, hstem⟩ :=
    exists_parts_of_name s (hinside name (Option.eq_some_of_filter_eq_some ho))
  rcases World.commandFiles_named ho w s source with hlist | ⟨hfolder, hisFile, hlist⟩
  · rw [hlist] at hfile
    exact absurd hfile List.not_mem_nil
  · rw [hlist] at hfile
    obtain rfl := List.mem_singleton.mp hfile
    -- What is a file is not the folder of commands.
    have hne : source.append (String.ofList (stripExtension name.toList s.extension ++
        s.extension)) ≠ source := by
      intro heq
      rw [heq] at hisFile
      obtain ⟨q, b, hstat⟩ := World.isFile_iff_stat.mp hisFile
      obtain ⟨q', hstat'⟩ := World.isFolder_iff_stat.mp hfolder
      cases (Prod.mk.inj (Except.ok.inj (hstat.symm.trans hstat'))).2
    unfold Path.append Path.join at hway hne ⊢
    split at hway
    · rename_i habsolute
      rw [if_pos habsolute] at hne ⊢
      obtain ⟨init', hinit', heq⟩ := exists_way_of_below hparts hinit hway hne
      exact ⟨init', stem, hinit', hstem, heq⟩
    · rename_i habsolute
      rw [if_neg habsolute, hparts]
      exact ⟨init, stem, hinit, hstem, rfl⟩

section
variable (hcolon : ColonFree source (w.commandFiles s source only))
  (hfile : file ∈ w.commandFiles s source only)
  (ht : commandTarget s d source target file = .ok t)
include hcolon hfile ht

theorem matched_of_way {init : List String} {stem : List Char} (hinit : ∀ n ∈ init, ValidName n)
    (hstem : '/' ∉ stem) (heq : file = ⟨source.root, source.parts ++ commandWay s init stem⟩) :
    Matched s d source target file t := by
  obtain ⟨t', ht', hmatched⟩ : HasTarget s d source target _ :=
    hasTarget_of_way hinit hstem hcolon (heq ▸ hfile)
  rw [← heq] at ht' hmatched
  obtain rfl := Except.ok.inj (ht.symm.trans ht')
  exact hmatched

/-- A command that is found among all has the target that matches it. -/
theorem matched_of_all (hw : w.Sound) (ho : only.filter (fun name => !name.isEmpty) = none) :
    Matched s d source target file t := by
  obtain ⟨init, stem, heq, hinit, hstem, -⟩ :=
    World.exists_way_of_mem_all hw (World.commandFiles_unnamed w s source ho ▸ hfile)
  exact matched_of_way hcolon hfile ht hinit hstem heq

/-- So does the one that is asked for by a name without two points. -/
theorem matched_of_found (hw : w.Sound) (hinside : LeadsInside only) :
    Matched s d source target file t := by
  cases ho : only.filter fun name => !name.isEmpty with
  | none => exact matched_of_all hcolon hfile ht hw ho
  | some name =>
    obtain ⟨way, hway⟩ : ∃ way, source.below? file = some way := by
      unfold commandTarget commandName? at ht
      cases hbelow : source.below? file with
      | some way => exact ⟨way, rfl⟩
      | none =>
        rw [hbelow] at ht
        cases ht
    obtain ⟨init, stem, hinit, hstem, heq⟩ := exists_way_of_named ho hinside hfile hway
    exact matched_of_way hcolon hfile ht hinit hstem heq

end

/-- No command is written where another one is. -/
theorem not_written_twice (hw : w.Sound)
    (hcolon : ColonFree source (w.commandFiles s source only))
    (hfile : file ∈ w.commandFiles s source only) (hfile' : file' ∈ w.commandFiles s source only)
    (hne : file' ≠ file) (ht : commandTarget s d source target file = .ok t) :
    ¬ WrittenAt here s d source target file' (Path.place here t) := by
  rintro ⟨t', ht', hplace⟩
  cases ho : only.filter fun name => !name.isEmpty with
  | none =>
    have hmatched := matched_of_all hcolon hfile ht hw ho
    have hmatched' := matched_of_all hcolon hfile' ht' hw ho
    obtain rfl := hmatched.below.2.eq_of_place hmatched'.below.2 hplace
    exact hne (hmatched'.eq_of_target hmatched)
  | some name =>
    rcases World.commandFiles_named ho w s source with hlist | ⟨-, -, hlist⟩
    · rw [hlist] at hfile
      exact absurd hfile List.not_mem_nil
    · rw [hlist] at hfile hfile'
      exact hne ((List.mem_singleton.mp hfile').trans (List.mem_singleton.mp hfile).symm)

/-- No command is written below the target of a skill. -/
theorem not_written_below {p q folder : Path} (hf : folder.Tidy) (hup : folder.name ≠ "..")
    (h : Matched s d (p.append s.commandFolder) (q.append d.commandFolder) file t) :
    ¬ Path.place here ((q.append d.skillFolder).append folder.name) <+: Path.place here t := by
  intro hbelow
  obtain ⟨init, stem, hplace⟩ := h.below.2.place here
  have hskills : Path.place here (q.append d.skillFolder) <+: Path.place here t :=
    (skills_above_skillTarget hf hup).trans hbelow
  rw [Path.place_append (Setup.valid_skillFolder d)] at hskills
  rw [hplace, Path.place_append (Setup.valid_commandFolder d), List.append_assoc,
    List.prefix_append_right_inj, List.singleton_append, List.cons_prefix_cons] at hskills
  exact commandFolder_ne_skillFolder d hskills.1.symm

end

end Sync

end AgentRelay
