import AgentRelay.Proofs.Except
import AgentRelay.Proofs.Files.World
import AgentRelay.Sync.Run

/-
  Where the commands and skills of an agent are found, and where they go.

  The file of a command is a way of names below the folder of commands, the
  last of them ending with the agent's extension (`exists_way_of_mem`). Its
  target is the same way with the other agent's extension
  (`commandTarget_way`), so that different commands have different targets.
-/

namespace AgentRelay

open Files (Place Tree Entry ValidName)

namespace Agent

theorem slash_not_mem_extension (a : Agent) : '/' ∉ a.extension := by
  cases a <;> decide

theorem length_extension (a : Agent) : 3 ≤ a.extension.length := by
  cases a <;> decide

theorem head?_extension (a : Agent) : a.extension.head? = some '.' := by
  cases a <;> decide

/-- The name of the file of a command. -/
def fileName (a : Agent) (stem : List Char) : String := String.ofList (stem ++ a.extension)

theorem valid_fileName (a : Agent) {stem : List Char} (h : '/' ∉ stem) :
    ValidName (a.fileName stem) := by
  have hlen : 3 ≤ (a.fileName stem).toList.length := by
    have := a.length_extension
    rw [fileName, String.toList_ofList, List.length_append]
    omega
  refine ⟨?_, ?_, ?_, ?_⟩
  · intro heq
    simp [heq] at hlen
  · intro heq
    simp [heq] at hlen
  · intro heq
    simp [heq] at hlen
  · rw [fileName, String.toList_ofList, List.mem_append, not_or]
    exact ⟨h, a.slash_not_mem_extension⟩

theorem fileName_injective (a : Agent) {stem stem' : List Char}
    (h : a.fileName stem = a.fileName stem') : stem = stem' :=
  List.append_cancel_right (String.ofList_injective h)

end Agent

namespace Path

theorem parts_extension (a : Agent) (cs : List Char) : ∃ init stem,
    (ofChars (cs ++ a.extension)).parts = init ++ [a.fileName stem] ∧ '/' ∉ stem ∧
      ∀ n ∈ init, n ∈ (ofChars cs).parts := by
  -- The extension has no slash, so it stays with the last piece.
  obtain ⟨init, last, hs, ht⟩ := Text.splitOn_append_last a.slash_not_mem_extension cs
  have hmem : last ∈ Text.splitOn '/' cs := by
    rw [hs]
    simp
  have hlast : '/' ∉ last := Text.not_mem_of_mem_splitOn hmem
  have hpart : isPart (last ++ a.extension) = true := by
    have := Path.isPart_of_isName (Path.isName_of_valid (a.valid_fileName hlast))
    rwa [Agent.fileName, String.toList_ofList] at this
  refine ⟨(init.filter isPart).map String.ofList, last, ?_, hlast, fun n hn => ?_⟩
  · rw [ofChars, ht, List.filter_append, List.map_append]
    simp [hpart, Agent.fileName]
  · rw [ofChars, hs, List.filter_append, List.map_append]
    exact List.mem_append_left _ hn

theorem root_extension (a : Agent) {cs : List Char} (h : (ofChars cs).root = 0) :
    (ofChars (cs ++ a.extension)).root = 0 := by
  have hhead : (cs.takeWhile (· == '/')).length = 0 := by
    have hr : rootOf cs = 0 := h
    rw [rootOf] at hr
    split at hr <;> omega
  cases cs with
  | nil =>
    obtain ⟨tail, htail⟩ := List.head?_eq_some_iff.mp a.head?_extension
    rw [List.nil_append, htail]
    rfl
  | cons c cs =>
    have hc : c ≠ '/' := by
      rintro rfl
      simp at hhead
    simp [ofChars, rootOf, hc]

end Path

/-! ## Commands -/

/-- The way of a command below the folder of commands. -/
def commandWay (a : Agent) (init : List String) (stem : List Char) : List String :=
  init ++ [a.fileName stem]

theorem valid_commandWay (a : Agent) {init : List String} {stem : List Char}
    (hinit : ∀ n ∈ init, ValidName n) (hstem : '/' ∉ stem) : ∀ n ∈ commandWay a init stem,
    ValidName n := by
  intro n hn
  rcases List.mem_append.mp hn with hn | hn
  · exact hinit n hn
  · rw [List.mem_singleton.mp hn]
    exact a.valid_fileName hstem

theorem chars_commandWay (a : Agent) (init : List String) (stem : List Char) :
    (Path.mk 0 (commandWay a init stem)).chars =
      Text.joinWith ['/'] (init.map String.toList ++ [stem]) ++ a.extension := by
  rw [Text.joinWith_append_last, Path.chars]
  simp [commandWay, Agent.fileName]

theorem commandWay_injective (a : Agent) {init init' : List String} {stem stem' : List Char}
    (h : commandWay a init stem = commandWay a init' stem') : init = init' ∧ stem = stem' := by
  obtain ⟨hinit, hlast⟩ := List.append_inj' h rfl
  exact ⟨hinit, a.fileName_injective (List.singleton_inj.mp hlast)⟩

/-- A name without two points gives the names of a command, with or without the
extension. -/
theorem exists_parts_of_name (a : Agent) {name : String} (hup : ".." ∉ (Path.ofText name).parts) :
    ∃ init stem,
      (Path.ofText (String.ofList (stripExtension name.toList a.extension ++ a.extension))).parts =
        commandWay a init stem ∧ (∀ n ∈ init, ValidName n) ∧ '/' ∉ stem := by
  have hext : a.extension.isEmpty = false := by
    cases a <;> rfl
  have hclean := Path.clean_ofChars hup
  rw [Path.ofText, String.toList_ofList, stripExtension, if_neg (by simp [hext])]
  -- A name that has the extension loses it and gets it back; another one gets it.
  cases hd : Text.dropEnd? a.extension name.toList with
  | some cs =>
    rw [(Text.dropEnd?_eq_some_iff _ _ _).mp hd] at hclean
    obtain ⟨init, stem, hparts, hstem, -⟩ := Path.parts_extension a cs
    refine ⟨init, stem, hparts, fun n hn => hclean.names n ?_, hstem⟩
    rw [hparts]
    exact List.mem_append_left _ hn
  | none =>
    obtain ⟨init, stem, hparts, hstem, hinit⟩ := Path.parts_extension a name.toList
    exact ⟨init, stem, hparts, fun n hn => hclean.names n (hinit n hn), hstem⟩

/-- A name below a folder gives the way of a command, with or without the
extension. -/
theorem exists_way_of_name (a : Agent) {name : String} (hroot : (Path.ofText name).root = 0)
    (hup : ".." ∉ (Path.ofText name).parts) : ∃ init stem,
      Path.ofText (String.ofList (stripExtension name.toList a.extension ++ a.extension)) =
        ⟨0, commandWay a init stem⟩ ∧ (∀ n ∈ init, ValidName n) ∧ '/' ∉ stem := by
  obtain ⟨init, stem, hparts, hinit, hstem⟩ := exists_parts_of_name a hup
  have hext : a.extension.isEmpty = false := by
    cases a <;> rfl
  have hzero : (Path.ofChars (stripExtension name.toList a.extension ++ a.extension)).root = 0 := by
    rw [stripExtension, if_neg (by simp [hext])]
    cases hd : Text.dropEnd? a.extension name.toList with
    | some cs =>
      rw [Path.ofText, (Text.dropEnd?_eq_some_iff _ _ _).mp hd] at hroot
      exact hroot
    | none => exact Path.root_extension a hroot
  refine ⟨init, stem, ?_, hinit, hstem⟩
  rw [Path.ofText, String.toList_ofList] at hparts ⊢
  rw [← hparts, ← hzero]

/-- The name of a command is its way without the extension, with colons for slashes. -/
theorem commandName?_way (a : Agent) (folder : Path) (init : List String) (stem : List Char) :
    commandName? ⟨folder.root, folder.parts ++ commandWay a init stem⟩ folder (some a.extension) =
      some (Text.replaceChar '/' ':'
        (Text.joinWith ['/'] (init.map String.toList ++ [stem]))) := by
  have hext : a.extension.isEmpty = false := by
    cases a <;> rfl
  have hdrop : Text.dropEnd? a.extension (Path.mk 0 (commandWay a init stem)).chars =
      some (Text.joinWith ['/'] (init.map String.toList ++ [stem])) :=
    (Text.dropEnd?_eq_some_iff _ _ _).mpr (chars_commandWay a init stem)
  rw [commandName?, Path.below?_behind]
  simp only [Option.map_some, hext, Bool.false_eq_true, if_false, hdrop]

/-- The target of a command has its way, with the extension of the destination. -/
theorem commandTarget_way (s d : Agent) (source target : Path) {init : List String}
    {stem : List Char} (hinit : ∀ n ∈ init, ValidName n) (hstem : '/' ∉ stem)
    (hcolon : ':' ∉ (Path.mk 0 (commandWay s init stem)).chars) :
    Sync.commandTarget s d source target
        ⟨source.root, source.parts ++ commandWay s init stem⟩ =
      .ok ⟨target.root, target.parts ++ commandWay d init stem⟩ := by
  -- Without colons in the way, turning slashes into colons can be undone.
  have hplain : ':' ∉ Text.joinWith ['/'] (init.map String.toList ++ [stem]) := by
    rw [chars_commandWay, List.mem_append, not_or] at hcolon
    exact hcolon.1
  have hread : Path.ofChars (Text.joinWith ['/'] (init.map String.toList ++ [stem]) ++
      d.extension) = ⟨0, commandWay d init stem⟩ := by
    have hway : ∀ n ∈ commandWay d init stem, Path.IsName n := fun n hn =>
      Path.isName_of_valid (valid_commandWay d hinit hstem n hn)
    have := Path.ofChars_joinWith hway (Nat.zero_le 2)
    rw [← chars_commandWay d]
    simpa [Path.chars, commandWay] using this
  rw [Sync.commandTarget, commandName?_way]
  simp only [commandFile, Text.replaceChar_back hplain, hread]
  rfl

namespace World

variable {w : World}

theorem exists_stem_of_endsWith {a : Agent} {n : String} (hn : ValidName n)
    (hend : Text.endsWith a.extension n.toList = true) :
    ∃ stem, n = a.fileName stem ∧ '/' ∉ stem := by
  obtain ⟨stem, hstem⟩ := Option.isSome_iff_exists.mp hend
  have htext := (Text.dropEnd?_eq_some_iff _ _ _).mp hstem
  refine ⟨stem, ?_, fun hslash => hn.2.2.2 ?_⟩
  · rw [Agent.fileName, ← htext, String.ofList_toList]
  · rw [htext]
    exact List.mem_append_left _ hslash

/-- Of the names below a folder, those of commands are ways. -/
theorem mem_filter_endsWith {a : Agent} {folder : Path} {place : Place} (h : w.Sound)
    {file : Path} :
    ((∃ names, names ≠ [] ∧ file = ⟨folder.root, folder.parts ++ names⟩ ∧
      (w.tree.bytes? (place ++ names)).isSome = true) ∧
        Text.endsWith a.extension file.name.toList = true) ↔
      ∃ init stem, file = ⟨folder.root, folder.parts ++ commandWay a init stem⟩ ∧
        (w.tree.bytes? (place ++ commandWay a init stem)).isSome = true := by
  constructor
  · rintro ⟨⟨names, hne, rfl, hb⟩, hend⟩
    obtain ⟨b, hb'⟩ := Option.isSome_iff_exists.mp hb
    -- The names come from the tree, so each of them is valid.
    have hn : ∀ n ∈ names, ValidName n := fun n hmem =>
      h.tree.names_of_get? (Tree.bytes?_eq_some_iff.mp hb') n (List.mem_append_right _ hmem)
    obtain ⟨init, last, hnames⟩ := (List.eq_nil_or_concat names).resolve_left hne
    rw [List.concat_eq_append] at hnames
    subst hnames
    have hlast : Path.name ⟨folder.root, folder.parts ++ (init ++ [last])⟩ = last := by
      simp [Path.name]
    rw [hlast] at hend
    obtain ⟨stem, rfl, -⟩ := exists_stem_of_endsWith (hn last (by simp)) hend
    exact ⟨init, stem, rfl, hb⟩
  · rintro ⟨init, stem, rfl, hb⟩
    refine ⟨⟨_, by simp [commandWay], rfl, hb⟩, ?_⟩
    refine Option.isSome_iff_exists.mpr ⟨stem, (Text.dropEnd?_eq_some_iff _ _ _).mpr ?_⟩
    simp [Path.name, commandWay, Agent.fileName]

/-- The commands below a folder are the files with the agent's extension. -/
theorem mem_commandsBelow (h : w.Sound) {a : Agent} {folder : Path} (hf : folder.Clean)
    {file : Path} :
    file ∈ w.commandsBelow a folder ↔ ∃ init stem,
      file = ⟨folder.root, folder.parts ++ commandWay a init stem⟩ ∧
        (w.tree.bytes? (Path.spot w.here folder ++ commandWay a init stem)).isSome = true := by
  rw [commandsBelow, List.mem_filter, mem_filesBelow h hf]
  exact mem_filter_endsWith h

/-- The same, below any folder that is found. -/
theorem mem_commandsBelow_folder (h : w.Sound) {a : Agent} {folder : Path} {place : Place}
    (hf : w.stat folder = .ok (place, .folder)) {file : Path} :
    file ∈ w.commandsBelow a folder ↔ ∃ init stem,
      file = ⟨folder.root, folder.parts ++ commandWay a init stem⟩ ∧
        (w.tree.bytes? (place ++ commandWay a init stem)).isSome = true := by
  rw [commandsBelow, List.mem_filter, mem_filesBelow_folder h hf]
  exact mem_filter_endsWith h

/-- A name that leads to a place below the folder it is looked up in. -/
def LeadsBelow (only : Option String) : Prop :=
  ∀ name, only = some name → (Path.ofText name).root = 0 ∧ ".." ∉ (Path.ofText name).parts

theorem commandFiles_all (w : World) (a : Agent) (folder : Path) {only : Option String}
    (ho : only.filter (fun name => !name.isEmpty) = none) :
    w.commandFiles a folder only = w.commandsBelow a folder := by
  rw [commandFiles, ho]
  cases hfolder : w.isFolder folder with
  | true => simp
  | false => simp [commandsBelow, filesBelow_eq_nil hfolder]

theorem commandFiles_unnamed (w : World) (a : Agent) (folder : Path) {only : Option String}
    (ho : only.filter (fun name => !name.isEmpty) = none) :
    w.commandFiles a folder only = w.commandFiles a folder none := by
  rw [commandFiles, commandFiles, ho]
  rfl

/-- The command with a name is looked for at one path. -/
theorem commandFiles_one (a : Agent) {folder : Path} (hf : folder.Clean) {only : Option String}
    (hbelow : LeadsBelow only) {name : String}
    (ho : only.filter (fun name => !name.isEmpty) = some name) :
    ∃ init stem, (∀ n ∈ init, ValidName n) ∧ '/' ∉ stem ∧ ∀ w : World, w.Sound →
      w.commandFiles a folder only =
        if (w.tree.bytes? (Path.spot w.here folder ++ commandWay a init stem)).isSome then
          [⟨folder.root, folder.parts ++ commandWay a init stem⟩] else [] := by
  have hname := hbelow name (Option.eq_some_of_filter_eq_some ho)
  obtain ⟨init, stem, hway, hinit, hstem⟩ := exists_way_of_name a hname.1 hname.2
  refine ⟨init, stem, hinit, hstem, fun w hw => ?_⟩
  have hfile : folder.append (String.ofList (stripExtension name.toList a.extension ++ a.extension))
      = ⟨folder.root, folder.parts ++ commandWay a init stem⟩ := by
    rw [Path.append, hway]
    rfl
  have hclean := hf.behind (valid_commandWay a hinit hstem)
  rw [commandFiles, ho]
  simp only [commandNamed, hfile, isFile_iff hw hclean, Path.spot_behind]
  by_cases hb : (w.tree.bytes? (Path.spot w.here folder ++ commandWay a init stem)).isSome = true
  · -- Where the file is, the folder of commands is too.
    obtain ⟨b, hb'⟩ := Option.isSome_iff_exists.mp hb
    have hfolder := hw.tree.folder_above (Tree.bytes?_eq_some_iff.mp hb') (List.prefix_append _ _)
      (by simp [commandWay])
    simp [hb, (isFolder_iff hw hf).mpr hfolder]
  · simp [hb]

/-- Every command found below a folder is a file at the place of the folder. -/
theorem exists_way_of_mem_all (h : w.Sound) {a : Agent} {folder file : Path}
    (hfile : file ∈ w.commandFiles a folder none) : ∃ init stem,
      file = ⟨folder.root, folder.parts ++ commandWay a init stem⟩ ∧
        (∀ n ∈ init, ValidName n) ∧ '/' ∉ stem ∧
        (w.tree.bytes? (Path.place w.here folder ++ commandWay a init stem)).isSome = true := by
  rw [commandFiles_all w a folder rfl] at hfile
  cases hfolder : w.isFolder folder with
  | false =>
    rw [commandsBelow, filesBelow_eq_nil hfolder] at hfile
    exact absurd hfile List.not_mem_nil
  | true =>
    obtain ⟨place, hstat⟩ := isFolder_iff_stat.mp hfolder
    obtain ⟨init, stem, rfl, hb⟩ := (mem_commandsBelow_folder h hstat).mp hfile
    obtain ⟨b, hb'⟩ := Option.isSome_iff_exists.mp hb
    have hn := h.tree.names_of_get? (Tree.bytes?_eq_some_iff.mp hb')
    refine ⟨init, stem, rfl, fun n hmem => hn n ?_, fun hslash => ?_, ?_⟩
    · simp [commandWay, hmem]
    · refine (hn (a.fileName stem) (by simp [commandWay])).2.2.2 ?_
      simp [Agent.fileName, hslash]
    · rwa [← place_of_stat hstat]

/-- Every command that is found is a file below the folder of commands. -/
theorem exists_way_of_mem (h : w.Sound) {a : Agent} {folder : Path} (hf : folder.Clean)
    {only : Option String} (ho : LeadsBelow only) {file : Path}
    (hfile : file ∈ w.commandFiles a folder only) : ∃ init stem,
      file = ⟨folder.root, folder.parts ++ commandWay a init stem⟩ ∧
        (∀ n ∈ init, ValidName n) ∧ '/' ∉ stem ∧
        (w.tree.bytes? (Path.spot w.here folder ++ commandWay a init stem)).isSome = true := by
  cases hfilter : only.filter fun name => !name.isEmpty with
  | none =>
    rw [commandFiles_unnamed w a folder hfilter] at hfile
    rw [← Path.place_eq_spot hf]
    exact exists_way_of_mem_all h hfile
  | some name =>
    obtain ⟨init, stem, hinit, hstem, hlist⟩ := commandFiles_one a hf ho hfilter
    rw [hlist w h] at hfile
    split at hfile
    · rename_i hb
      exact ⟨init, stem, List.mem_singleton.mp hfile, hinit, hstem, hb⟩
    · exact absurd hfile List.not_mem_nil

theorem nodup_commandFiles_all (h : w.Sound) (a : Agent) (folder : Path) :
    (w.commandFiles a folder none).Nodup := by
  rw [commandFiles_all w a folder rfl]
  exact (nodup_filesBelow h folder).filter _

theorem nodup_commandFiles (h : w.Sound) {a : Agent} {folder : Path} (hf : folder.Clean)
    {only : Option String} (ho : LeadsBelow only) : (w.commandFiles a folder only).Nodup := by
  cases hfilter : only.filter fun name => !name.isEmpty with
  | none =>
    rw [commandFiles_unnamed w a folder hfilter]
    exact nodup_commandFiles_all h a folder
  | some name =>
    obtain ⟨init, stem, -, -, hlist⟩ := commandFiles_one a hf ho hfilter
    rw [hlist w h]
    split
    · simp
    · exact List.nodup_nil

/-- Which commands are found depends on the files there are. -/
theorem commandFiles_eq {w' : World} (h : w.Sound) (h' : w'.Sound) (a : Agent) {folder : Path}
    (hf : folder.Clean) {only : Option String} (ho : LeadsBelow only)
    (hsame : ∀ names, (w.tree.bytes? (Path.spot w.here folder ++ names)).isSome =
      (w'.tree.bytes? (Path.spot w'.here folder ++ names)).isSome) :
    w.commandFiles a folder only = w'.commandFiles a folder only := by
  cases hfilter : only.filter fun name => !name.isEmpty with
  | none =>
    rw [commandFiles_all w a folder hfilter, commandFiles_all w' a folder hfilter, commandsBelow,
      commandsBelow, filesBelow_eq h h' hf hsame]
  | some name =>
    obtain ⟨init, stem, -, -, hlist⟩ := commandFiles_one a hf ho hfilter
    rw [hlist w h, hlist w' h', hsame]

/-! ## Skills -/

theorem skillFolders_one {folder : Path} (hf : folder.Clean) {only : Option String}
    (hbelow : LeadsBelow only) {name : String}
    (ho : only.filter (fun name => !name.isEmpty) = some name) :
    ∃ names, (∀ n ∈ names, ValidName n) ∧ ∀ w : World, w.Sound →
      w.skillFolders folder only =
        if (w.tree.bytes? (Path.spot w.here folder ++ names ++ [Skill.ownFile])).isSome then
          [⟨folder.root, folder.parts ++ names⟩] else [] := by
  have hname := hbelow name (Option.eq_some_of_filter_eq_some ho)
  have hpath : folder.append name =
      ⟨folder.root, folder.parts ++ (Path.ofText name).parts⟩ := by
    rw [Path.append, Path.join, Path.isAbsolute, hname.1]
    rfl
  have hclean : (Path.ofText name).Clean := Path.clean_ofChars hname.2
  refine ⟨(Path.ofText name).parts, hclean.names, fun w hw => ?_⟩
  have hin := isIn_iff hw (hf.behind hclean.names)
  rw [Path.spot_behind] at hin
  simp only [skillFolders, ho, hpath]
  by_cases hb : (w.tree.bytes?
      (Path.spot w.here folder ++ (Path.ofText name).parts ++ [Skill.ownFile])).isSome = true
  · obtain ⟨b, hb'⟩ := Option.isSome_iff_exists.mp hb
    rw [List.append_assoc] at hb'
    have hfolder := hw.tree.folder_above (Tree.bytes?_eq_some_iff.mp hb') (List.prefix_append _ _)
      (by simp)
    rw [if_pos hb]
    simp [hin.mpr hb, (isFolder_iff hw hf).mpr hfolder]
  · have hno : Skill.isIn w ⟨folder.root, folder.parts ++ (Path.ofText name).parts⟩ = false :=
      Bool.eq_false_iff.mpr fun hskill => hb (hin.mp hskill)
    rw [if_neg hb]
    simp [hno]

theorem skillFolders_all {only : Option String}
    (ho : only.filter (fun name => !name.isEmpty) = none) (w : World) (folder : Path) :
    w.skillFolders folder only = w.skillFolders folder none := by
  rw [skillFolders, skillFolders, ho]
  rfl

/-- Every skill that is found is a folder with the skill's own file. -/
theorem exists_names_of_mem (h : w.Sound) {folder : Path} (hf : folder.Clean)
    {only : Option String} (ho : LeadsBelow only) {p : Path}
    (hp : p ∈ w.skillFolders folder only) : ∃ names,
      p = ⟨folder.root, folder.parts ++ names⟩ ∧ (∀ n ∈ names, ValidName n) ∧
        (w.tree.bytes? (Path.spot w.here folder ++ names ++ [Skill.ownFile])).isSome = true := by
  cases hfilter : only.filter fun name => !name.isEmpty with
  | none =>
    rw [skillFolders_all hfilter, mem_skillFolders h hf] at hp
    obtain ⟨n, rfl, hb⟩ := hp
    obtain ⟨b, hb'⟩ := Option.isSome_iff_exists.mp hb
    have hn := h.tree.names_of_get? (Tree.bytes?_eq_some_iff.mp hb')
    refine ⟨[n], rfl, fun m hm => hn m ?_, by simpa using hb⟩
    rw [List.mem_singleton.mp hm]
    simp
  | some name =>
    obtain ⟨names, hvalid, hlist⟩ := skillFolders_one hf ho hfilter
    rw [hlist w h] at hp
    split at hp
    · rename_i hb
      exact ⟨names, List.mem_singleton.mp hp, hvalid, hb⟩
    · exact absurd hp List.not_mem_nil

/-- The path of a skill that is found can be written down. -/
theorem tidy_of_mem_skillFolders (h : w.Sound) {folder : Path} (hf : folder.Tidy)
    {only : Option String} {p : Path} (hp : p ∈ w.skillFolders folder only) : p.Tidy := by
  unfold skillFolders at hp
  split at hp
  · exact absurd hp List.not_mem_nil
  · split at hp
    · obtain rfl := List.mem_singleton.mp (List.mem_filter.mp hp).1
      exact hf.append _
    · have hentry := (List.mem_filter.mp hp).1
      unfold entries at hentry
      split at hentry
      · obtain ⟨place, hchild, rfl⟩ := List.mem_map.mp (Path.mem_sorted.mp hentry)
        obtain ⟨x, hx, rfl⟩ := List.mem_map.mp (Tree.mem_children.mp hchild).1
        exact hf.behind fun n hn => h.tree.names x hx n (List.mem_of_mem_drop hn)
      · exact absurd hentry List.not_mem_nil

/-- The skills that are found have different names. -/
theorem nodup_skillNames (h : w.Sound) {folder : Path} (hf : folder.Clean)
    {only : Option String} (ho : LeadsBelow only) :
    ((w.skillFolders folder only).map Path.name).Nodup := by
  cases hfilter : only.filter fun name => !name.isEmpty with
  | none =>
    rw [skillFolders_all hfilter]
    refine List.pairwise_map.mpr ?_
    -- Below one folder, a path is known by its last name.
    refine (nodup_skillFolders h folder).imp_of_mem fun {p q} hp hq hpq heq => hpq ?_
    obtain ⟨m, rfl, -⟩ := (mem_skillFolders h hf).mp hp
    obtain ⟨n, rfl, -⟩ := (mem_skillFolders h hf).mp hq
    simpa [Path.name] using heq
  | some name =>
    obtain ⟨names, -, hlist⟩ := skillFolders_one hf ho hfilter
    rw [hlist w h]
    split <;> simp

/-- Which skills are found depends on the files there are. -/
theorem skillFolders_eq {w' : World} (h : w.Sound) (h' : w'.Sound) {folder : Path}
    (hf : folder.Clean) {only : Option String} (ho : LeadsBelow only)
    (hsame : ∀ names, (w.tree.bytes? (Path.spot w.here folder ++ names)).isSome =
      (w'.tree.bytes? (Path.spot w'.here folder ++ names)).isSome) :
    w.skillFolders folder only = w'.skillFolders folder only := by
  cases hfilter : only.filter fun name => !name.isEmpty with
  | none =>
    rw [skillFolders_all hfilter, skillFolders_all hfilter]
    refine Path.eq_of_sorted (pairwise_skillFolders w folder) (pairwise_skillFolders w' folder)
      (nodup_skillFolders h folder) (nodup_skillFolders h' folder) fun q => ?_
    rw [mem_skillFolders h hf, mem_skillFolders h' hf]
    simp only [hsame]
  | some name =>
    obtain ⟨names, -, hlist⟩ := skillFolders_one hf ho hfilter
    rw [hlist w h, hlist w' h', List.append_assoc, List.append_assoc, hsame]

end World

/-! ## Base folders -/

namespace Path

/-- A resolved path has no two points, whatever it was. -/
theorem clean_resolved {here p : Path} (hhere : here.Clean) (hp : ∀ n ∈ p.parts, IsName n) :
    (resolved here p).Clean := by
  refine ⟨Nat.le_succ 1, valid_of_step (fun n hn => absurd hn List.not_mem_nil) fun n hn => ?_⟩
  unfold join at hn
  split at hn
  · exact hp n hn
  · rcases List.mem_append.mp hn with hn | hn
    · exact isName_of_valid (hhere.names n hn)
    · exact hp n hn

theorem names_expanded {home : Path} (hhome : home.Tidy) {cs : List Char} {q : Path}
    (h : expanded home (ofChars cs) = .ok q) : ∀ n ∈ q.parts, IsName n := by
  have hread : ∀ n ∈ (ofChars cs).parts, IsName n := fun n hn => names_ofChars hn
  unfold expanded at h
  split at h
  · rename_i names hroot hparts
    obtain rfl := Except.ok.inj h
    intro n hn
    rw [hparts] at hread
    rcases List.mem_append.mp hn with hn | hn
    · exact hhome.names n hn
    · exact hread n (List.mem_cons_of_mem _ hn)
  · split at h
    · exact nomatch h
    · obtain rfl := Except.ok.inj h
      exact hread
  · obtain rfl := Except.ok.inj h
    exact hread

theorem clean_append {p : Path} (hp : p.Clean) {text : String}
    (h : ".." ∉ (ofText text).parts) : (p.append text).Clean :=
  hp.join (clean_ofChars h)

end Path

namespace Setup

/-- The paths of the setup can be written down. -/
structure Tidy (s : Setup) (w : World) : Prop where
  home : w.home.Tidy
  repository : ∀ p, s.repository = some p → p.Tidy

/-- No path of the setup has two points. -/
structure Clean (s : Setup) (w : World) : Prop where
  home : w.home.Clean
  repository : ∀ p, s.repository = some p → p.Clean

theorem Clean.tidy {s : Setup} {w : World} (h : s.Clean w) : s.Tidy w :=
  ⟨h.home.tidy, fun p hp => (h.repository p hp).tidy⟩

theorem tidy_base {s : Setup} {w : World} (h : s.Tidy w) (hw : w.Sound) {a : Agent} {p : Path}
    (hp : s.base a w = .ok p) : p.Tidy := by
  unfold base at hp
  split at hp
  · rename_i text _
    cases hx : Path.expanded w.home (Path.ofText text) with
    | error e =>
      rw [hx] at hp
      exact nomatch hp
    | ok q =>
      rw [hx] at hp
      obtain rfl := Except.ok.inj hp
      exact (Path.clean_resolved hw.here (Path.names_expanded h.home hx)).tidy
  · split at hp
    · rename_i top htop
      obtain rfl := Except.ok.inj hp
      split
      · exact h.home.append _
      · exact (h.repository top htop).append _
    · obtain rfl := Except.ok.inj hp
      exact h.home.append _

theorem clean_base {s : Setup} {w : World} (h : s.Clean w) (hw : w.Sound) {a : Agent} {p : Path}
    (hp : s.base a w = .ok p) : p.Clean := by
  have hproject : ".." ∉ (Path.ofText a.projectBase).parts := by cases a <;> decide
  have hhome : ".." ∉ (Path.ofText a.homeBase).parts := by cases a <;> decide
  unfold base at hp
  split at hp
  · rename_i text _
    cases hx : Path.expanded w.home (Path.ofText text) with
    | error e =>
      rw [hx] at hp
      exact nomatch hp
    | ok q =>
      rw [hx] at hp
      obtain rfl := Except.ok.inj hp
      exact Path.clean_resolved hw.here (Path.names_expanded h.home.tidy hx)
  · split at hp
    · rename_i top htop
      obtain rfl := Except.ok.inj hp
      split
      · exact Path.clean_append h.home hhome
      · exact Path.clean_append (h.repository top htop) hproject
    · obtain rfl := Except.ok.inj hp
      exact Path.clean_append h.home hhome

/-- Where the base folders are does not depend on the files. -/
theorem base_eq {s : Setup} {a : Agent} {w v : World} (hhome : v.home = w.home)
    (hhere : v.here = w.here) : s.base a v = s.base a w := by
  rw [base, base, hhome, hhere]

theorem tidy_commands {s : Setup} {w : World} (h : s.Tidy w) (hw : w.Sound) {a : Agent} {p : Path}
    (hp : s.commands a w = .ok p) : p.Tidy := by
  obtain ⟨base, hbase, rfl⟩ := exists_of_map_eq_ok hp
  exact (tidy_base h hw hbase).append _

theorem tidy_skills {s : Setup} {w : World} (h : s.Tidy w) (hw : w.Sound) {a : Agent} {p : Path}
    (hp : s.skills a w = .ok p) : p.Tidy := by
  obtain ⟨base, hbase, rfl⟩ := exists_of_map_eq_ok hp
  exact (tidy_base h hw hbase).append _

theorem valid_commandFolder (a : Agent) : ValidName a.commandFolder := by cases a <;> decide

theorem valid_skillFolder (a : Agent) : ValidName a.skillFolder := by cases a <;> decide

end Setup

end AgentRelay
