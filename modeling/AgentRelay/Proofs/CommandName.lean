import AgentRelay.Proofs.Location

/-
  Whether the name of a command leads back to its file.

  A name has colons for the slashes of the way to the file. Two files have one name
  exactly when their ways read the same with slashes as colons, so the names of files
  without colons tell them apart, and so do their targets. The look-up does not read
  colons as slashes: it finds by its name a file that lies directly in the folder, as
  long as the name is not empty and does not end with the extension once more
  (`names_identify_iff`).
-/

namespace AgentRelay

open Files (Place Tree Entry ValidName)

/-! ## Names of ways -/

/-- The name of the command on a way. -/
def wayName (init : List String) (stem : List Char) : List Char :=
  Text.replaceChar '/' ':' (Text.joinWith ['/'] (init.map String.toList ++ [stem]))

theorem wayName_eq_nil_iff {init : List String} {stem : List Char} :
    wayName init stem = [] ↔ init = [] ∧ stem = [] := by
  rw [wayName, Text.replaceChar, List.map_eq_nil_iff, Text.joinWith_eq_nil_iff (by simp),
    List.map_eq_nil_iff]

/-- The name of a file directly in the folder is what stands in front of the extension. -/
theorem wayName_nil {stem : List Char} (h : '/' ∉ stem) : wayName [] stem = stem :=
  Text.replaceChar_of_not_mem h

/-- The way below a folder to a file, with colons for slashes. -/
def spelledBelow (folder file : Path) : Option (List Char) :=
  (folder.below? file).map fun way => Text.replaceChar '/' ':' way.chars

theorem spelledBelow_way (a : Agent) (folder : Path) (init : List String) (stem : List Char) :
    spelledBelow folder ⟨folder.root, folder.parts ++ commandWay a init stem⟩ =
      some (wayName init stem ++ Text.replaceChar '/' ':' a.extension) := by
  rw [spelledBelow, Path.below?_behind, Option.map_some, chars_commandWay, Text.replaceChar_append,
    wayName]

/-- No name on the way below a folder to a file has a colon. -/
def WithoutColons (folder file : Path) : Prop :=
  ∀ way, folder.below? file = some way → ':' ∉ way.chars

/-! ## Looking a name up -/

theorem stripExtension_eq_self_iff (a : Agent) {stem : List Char} :
    stripExtension stem a.extension = stem ↔ Text.endsWith a.extension stem = false := by
  have hlen := a.length_extension
  have hext : a.extension.isEmpty = false := by cases a <;> rfl
  rw [stripExtension, if_neg (by simp [hext]), Text.endsWith]
  cases hd : Text.dropEnd? a.extension stem with
  | none => simp
  | some cs =>
    -- What is left is shorter by the extension.
    have hstem := congrArg List.length ((Text.dropEnd?_eq_some_iff _ _ _).mp hd)
    rw [List.length_append] at hstem
    refine iff_of_false (fun h => ?_) (by simp)
    rw [Option.getD_some] at h
    rw [h] at hstem
    omega

namespace World

variable {w : World}

/-- A name without slashes is looked up directly in the folder. -/
theorem commandNamed_eq (w : World) (a : Agent) (folder : Path) {name : List Char}
    (h : '/' ∉ name) :
    w.commandNamed a folder (String.ofList name) =
      if w.isFile ⟨folder.root, folder.parts ++ commandWay a [] (stripExtension name a.extension)⟩
      then [⟨folder.root, folder.parts ++ commandWay a [] (stripExtension name a.extension)⟩]
      else [] := by
  have hstem : '/' ∉ stripExtension name a.extension := by
    unfold stripExtension
    split
    · exact List.not_mem_nil
    · cases hd : Text.dropEnd? a.extension name with
      | none => exact h
      | some cs =>
        rw [(Text.dropEnd?_eq_some_iff _ _ _).mp hd, List.mem_append, not_or] at h
        exact h.1
  have hfile := Path.append_name folder (a.valid_fileName hstem)
  rw [Agent.fileName] at hfile
  simp only [commandNamed, String.toList_ofList, hfile]
  rfl

/-- What is found below a folder is a file, and the folder is one. -/
theorem found_of_mem_all (h : w.Sound) {a : Agent} {folder file : Path}
    (hfile : file ∈ w.commandFiles a folder none) :
    w.isFolder folder = true ∧ w.isFile file = true := by
  have hfolder : w.isFolder folder = true := by
    cases hf : w.isFolder folder with
    | true => rfl
    | false =>
      rw [commandFiles, hf] at hfile
      exact absurd hfile List.not_mem_nil
  obtain ⟨place, hstat⟩ := isFolder_iff_stat.mp hfolder
  obtain ⟨init, stem, rfl, hinit, hstem, hb⟩ := exists_way_of_mem_all h hfile
  obtain ⟨b, hb'⟩ := Option.isSome_iff_exists.mp hb
  rw [← place_of_stat hstat] at hb'
  have hfound := (stat_behind h hstat (valid_commandWay a hinit hstem)).mpr
    ⟨rfl, Tree.bytes?_eq_some_iff.mp hb'⟩
  exact ⟨hfolder, isFile_iff_stat.mpr ⟨_, b, hfound⟩⟩

theorem mem_all_of_bytes? (h : w.Sound) {a : Agent} {folder : Path} {place : Place}
    (hfolder : w.stat folder = .ok (place, .folder)) (init : List String) (stem : List Char)
    (hb : (w.tree.bytes? (place ++ commandWay a init stem)).isSome = true) :
    ⟨folder.root, folder.parts ++ commandWay a init stem⟩ ∈ w.commandFiles a folder none := by
  rw [commandFiles_all w a folder rfl]
  exact (mem_commandsBelow_folder h hfolder).mpr ⟨init, stem, rfl, hb⟩

/-- A file that its name leads to: it lies directly in the folder, and its name is not
empty and does not end with the extension. The empty name leads to all files, and so to
one that is the only one. -/
def FoundByName (w : World) (a : Agent) (folder file : Path) : Prop :=
  (∃ stem, file = ⟨folder.root, folder.parts ++ [a.fileName stem]⟩ ∧ stem ≠ [] ∧
      Text.endsWith a.extension stem = false) ∨
    (file = ⟨folder.root, folder.parts ++ [a.fileName []]⟩ ∧
      w.commandFiles a folder none = [file])

/-- The look-up of a command's name gives the command alone exactly when its name leads
to it. -/
theorem commandFiles_wayName_iff (h : w.Sound) {a : Agent} {folder : Path} {init : List String}
    {stem : List Char} (hstem : '/' ∉ stem)
    (hfile : ⟨folder.root, folder.parts ++ commandWay a init stem⟩ ∈
      w.commandFiles a folder none) :
    w.commandFiles a folder (some (String.ofList (wayName init stem))) =
        [⟨folder.root, folder.parts ++ commandWay a init stem⟩] ↔
      w.FoundByName a folder ⟨folder.root, folder.parts ++ commandWay a init stem⟩ := by
  obtain ⟨hfolder, hisFile⟩ := found_of_mem_all h hfile
  -- A file directly in the folder is known by what stands in front of the extension.
  have hdirect : ∀ {stem'}, Path.mk folder.root (folder.parts ++ commandWay a init stem) =
      ⟨folder.root, folder.parts ++ commandWay a [] stem'⟩ ↔ init = [] ∧ stem = stem' := by
    intro stem'
    rw [Path.mk.injEq, List.append_cancel_left_eq]
    refine ⟨fun heq => commandWay_injective a heq.2, ?_⟩
    rintro ⟨rfl, rfl⟩
    exact ⟨rfl, rfl⟩
  by_cases hname : wayName init stem = []
  · -- An empty name asks for all commands.
    obtain ⟨rfl, rfl⟩ := wayName_eq_nil_iff.mp hname
    rw [hname, commandFiles_unnamed w a folder rfl]
    refine ⟨fun hall => Or.inr ⟨rfl, hall⟩, ?_⟩
    rintro (⟨stem', heq, hne, -⟩ | ⟨-, hall⟩)
    · exact absurd (hdirect.mp heq).2.symm hne
    · exact hall
  · have hnonempty : (String.ofList (wayName init stem)).isEmpty = false := by
      simpa using hname
    have hasked : Option.filter (fun name : String => !name.isEmpty)
        (some (String.ofList (wayName init stem))) = some (String.ofList (wayName init stem)) := by
      rw [Option.filter_some, hnonempty]
      rfl
    have hlist : w.commandFiles a folder (some (String.ofList (wayName init stem))) =
        w.commandNamed a folder (String.ofList (wayName init stem)) := by
      simp only [commandFiles, hfolder, hasked, Bool.not_true, Bool.false_eq_true, if_false]
    have hslash : '/' ∉ wayName init stem := Text.not_mem_replaceChar (by decide) _
    rw [hlist, commandNamed_eq w a folder hslash]
    constructor
    · intro hone
      split at hone
      · obtain ⟨rfl, hstrip⟩ := hdirect.mp (List.singleton_inj.mp hone).symm
        rw [wayName_nil hstem] at hname hstrip
        exact Or.inl ⟨stem, rfl, hname, (stripExtension_eq_self_iff a).mp hstrip.symm⟩
      · exact absurd hone.symm (List.cons_ne_nil _ _)
    · rintro (⟨stem', heq, -, hend⟩ | ⟨heq, -⟩)
      · obtain ⟨rfl, rfl⟩ := hdirect.mp heq
        rw [wayName_nil hstem, (stripExtension_eq_self_iff a).mpr hend, if_pos hisFile]
      · obtain ⟨rfl, rfl⟩ := hdirect.mp heq
        exact absurd rfl hname

end World

/-- What the names of commands are good for. The look-up of a name gives the file it is
the name of, and no other one, exactly for the files that their names lead to. Two files
have one name exactly when their ways read the same with colons for slashes; so files
without colons have different names, and different targets. -/
theorem names_identify_iff {w : World} (h : w.Sound) (a : Agent) (folder : Path) :
    (∀ f ∈ w.commandFiles a folder none, ∃ name,
      commandName? f folder (some a.extension) = some name ∧
        (w.commandFiles a folder (some (String.ofList name)) = [f] ↔
          w.FoundByName a folder f)) ∧
    ∀ f ∈ w.commandFiles a folder none, ∀ g ∈ w.commandFiles a folder none,
      (commandName? f folder (some a.extension) = commandName? g folder (some a.extension) ↔
        spelledBelow folder f = spelledBelow folder g) ∧
      (WithoutColons folder f → WithoutColons folder g → f ≠ g →
        commandName? f folder (some a.extension) ≠ commandName? g folder (some a.extension) ∧
          ∀ d target, Sync.commandTarget a d folder target f ≠
            Sync.commandTarget a d folder target g) := by
  refine ⟨fun f hf => ?_, fun f hf g hg => ?_⟩
  · obtain ⟨init, stem, rfl, -, hstem, -⟩ := World.exists_way_of_mem_all h hf
    exact ⟨_, commandName?_way a folder init stem, World.commandFiles_wayName_iff h hstem hf⟩
  · obtain ⟨init, stem, rfl, hinit, hstem, -⟩ := World.exists_way_of_mem_all h hf
    obtain ⟨init', stem', rfl, hinit', hstem', -⟩ := World.exists_way_of_mem_all h hg
    refine ⟨?_, fun hplain hplain' hne => ?_⟩
    · rw [commandName?_way, commandName?_way, spelledBelow_way, spelledBelow_way, ← wayName,
        ← wayName, Option.some_inj, Option.some_inj, List.append_cancel_right_eq]
    · have htargets : ∀ d target, Sync.commandTarget a d folder target
            ⟨folder.root, folder.parts ++ commandWay a init stem⟩ ≠
          Sync.commandTarget a d folder target
            ⟨folder.root, folder.parts ++ commandWay a init' stem'⟩ := by
        intro d target heq
        rw [commandTarget_way a d folder target hinit hstem (hplain _ (Path.below?_behind _ _)),
          commandTarget_way a d folder target hinit' hstem' (hplain' _ (Path.below?_behind _ _)),
          Except.ok.injEq, Path.mk.injEq, List.append_cancel_left_eq] at heq
        obtain ⟨rfl, rfl⟩ := commandWay_injective d heq.2
        exact hne rfl
      -- The target depends on the file through its name.
      refine ⟨fun hnames => htargets a folder ?_, htargets⟩
      simp only [Sync.commandTarget, hnames]

/-- A folder of commands with a command in a folder of its own, and further files. -/
def nestedWorld (more : List (Place × Entry)) : World where
  tree := [(["w"], .folder), (["w", "git"], .folder),
    (["w", "git", "commit.md"], .file ByteArray.empty)] ++ more
  home := ⟨1, ["h"]⟩
  here := ⟨1, ["w"]⟩
  repository := none
  held := none
  printed := []
  warnings := []

/-- Beside the nested command a file whose name reads the same. -/
def colonWorld : World := nestedWorld [(["w", "git:commit.md"], .file ByteArray.empty)]

/-- Beside the nested command another one, directly in the folder. -/
def reviewWorld : World := nestedWorld [(["w", "review.md"], .file ByteArray.empty)]

theorem sound_colonWorld : colonWorld.Sound :=
  ⟨by constructor <;> decide +kernel, ⟨by decide, by decide⟩⟩

theorem sound_reviewWorld : reviewWorld.Sound :=
  ⟨by constructor <;> decide +kernel, ⟨by decide, by decide⟩⟩

/-- The nested command is not found by its name. Beside it, a file with a colon has the
same name, and that file is the one found. -/
theorem nested_not_found_by_name :
    (nestedWorld []).commandFiles .claude ⟨1, ["w"]⟩ none = [⟨1, ["w", "git", "commit.md"]⟩] ∧
    commandName? ⟨1, ["w", "git", "commit.md"]⟩ ⟨1, ["w"]⟩ (some Agent.claude.extension) =
      some "git:commit".toList ∧
    (nestedWorld []).commandFiles .claude ⟨1, ["w"]⟩ (some "git:commit") = [] ∧
    ⟨1, ["w", "git", "commit.md"]⟩ ∈ colonWorld.commandFiles .claude ⟨1, ["w"]⟩ none ∧
    ⟨1, ["w", "git:commit.md"]⟩ ∈ colonWorld.commandFiles .claude ⟨1, ["w"]⟩ none ∧
    commandName? ⟨1, ["w", "git:commit.md"]⟩ ⟨1, ["w"]⟩ (some Agent.claude.extension) =
      some "git:commit".toList ∧
    colonWorld.commandFiles .claude ⟨1, ["w"]⟩ (some "git:commit") =
      [⟨1, ["w", "git:commit.md"]⟩] := by
  have hstat : colonWorld.stat ⟨1, ["w"]⟩ = .ok (["w"], .folder) :=
    eq_ok_of_toOption (by decide +kernel)
  exact ⟨by decide +kernel, by decide +kernel, by decide +kernel,
    World.mem_all_of_bytes? sound_colonWorld hstat ["git"] "commit".toList (by decide +kernel),
    World.mem_all_of_bytes? sound_colonWorld hstat [] "git:commit".toList (by decide +kernel),
    by decide +kernel, by decide +kernel⟩

/-- Of a command directly in the folder and a nested one only the first is found by its
name, and the two have different targets. -/
theorem names_identify_review : reviewWorld.Sound ∧
    reviewWorld.commandFiles .claude ⟨1, ["w"]⟩ (some "review") = [⟨1, ["w", "review.md"]⟩] ∧
    reviewWorld.commandFiles .claude ⟨1, ["w"]⟩ (some "git:commit") ≠
      [⟨1, ["w", "git", "commit.md"]⟩] ∧
    ∀ d target, Sync.commandTarget .claude d ⟨1, ["w"]⟩ target ⟨1, ["w", "review.md"]⟩ ≠
      Sync.commandTarget .claude d ⟨1, ["w"]⟩ target ⟨1, ["w", "git", "commit.md"]⟩ := by
  have hstat : reviewWorld.stat ⟨1, ["w"]⟩ = .ok (["w"], .folder) :=
    eq_ok_of_toOption (by decide +kernel)
  have hreview : (⟨1, ["w", "review.md"]⟩ : Path) ∈
      reviewWorld.commandFiles .claude ⟨1, ["w"]⟩ none :=
    World.mem_all_of_bytes? sound_reviewWorld hstat [] "review".toList (by decide +kernel)
  have hcommit : (⟨1, ["w", "git", "commit.md"]⟩ : Path) ∈
      reviewWorld.commandFiles .claude ⟨1, ["w"]⟩ none :=
    World.mem_all_of_bytes? sound_reviewWorld hstat ["git"] "commit".toList (by decide +kernel)
  obtain ⟨hfound, hpairs⟩ := names_identify_iff sound_reviewWorld .claude ⟨1, ["w"]⟩
  refine ⟨sound_reviewWorld, ?_, ?_, fun d target => ?_⟩
  · obtain ⟨name, hname, hiff⟩ := hfound _ hreview
    obtain rfl : "review".toList = name := by
      rw [← Option.some_inj, ← hname]
      decide +kernel
    exact hiff.mpr (Or.inl ⟨"review".toList, by decide, by decide, by decide⟩)
  · obtain ⟨name, hname, hiff⟩ := hfound _ hcommit
    obtain rfl : "git:commit".toList = name := by
      rw [← Option.some_inj, ← hname]
      decide +kernel
    -- The file does not lie directly in the folder.
    intro hone
    rcases hiff.mp hone with ⟨stem, heq, -⟩ | ⟨heq, -⟩
    · exact absurd (congrArg (fun p : Path => p.parts.length) heq) (by simp)
    · exact absurd (congrArg (fun p : Path => p.parts.length) heq) (by simp)
  · refine ((hpairs _ hreview _ hcommit).2 ?_ ?_ (by decide)).2 d target
    · intro way hway
      obtain rfl := Option.some.inj hway
      decide +kernel
    · intro way hway
      obtain rfl := Option.some.inj hway
      decide +kernel

end AgentRelay
