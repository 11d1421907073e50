import AgentRelay.Proofs.Files.Work

/-
  Reading commands and skills.

  Reading leaves the files alone, and what is read depends on nothing but the
  files of the document: a command on its own file (`Command.agrees_read`), a
  skill on what lies below its folder (`Skill.agrees_read`).
-/

namespace AgentRelay

open Files (Place Tree Entry ValidName)
open Work

namespace Command

theorem still_read (a : Agent) (doc : Nat) (path : String) : Still (read a doc path) :=
  Still.bind (Still.explain _ (Disk.still_text _)) fun _ => Still.ofExcept _

/-- A command is read alike wherever its file holds the same bytes. -/
theorem agrees_read {w w' : World} (h : w.Sound) (h' : w'.Sound) (a : Agent) (doc : Nat)
    {p : Path} (hp : p.Clean)
    (hsame : w.tree.bytes? (Path.spot w.here p) = w'.tree.bytes? (Path.spot w'.here p))
    (hthere : (w.tree.bytes? (Path.spot w.here p)).isSome = true) :
    Agrees w w' (read a doc p.text) (read a doc p.text) := by
  obtain ⟨b, hb⟩ := Option.isSome_iff_exists.mp hthere
  rw [read, Path.ofText_text hp.tidy]
  refine Agrees.bind (Agrees.explain _ ?_) fun text => Agrees.ofExcept _
  exact Disk.agrees_text h h' hp hb (hsame ▸ hb)

end Command

namespace Skill

/-- The same files lie below the place of a path. -/
def SameBelow (p : Path) (w w' : World) : Prop :=
  ∀ names, w.tree.bytes? (Path.spot w.here p ++ names) =
    w'.tree.bytes? (Path.spot w'.here p ++ names)

theorem SameBelow.of_sameFiles {p : Path} {w w' v v' : World} (h : SameBelow p w w')
    (hv : w.SameFiles v) (hv' : w'.SameFiles v') : SameBelow p v v' := by
  intro names
  rw [hv.tree, hv.here, hv'.tree, hv'.here]
  exact h names

theorem SameBelow.behind {p : Path} {w w' : World} (h : SameBelow p w w') (names : List String) :
    SameBelow ⟨p.root, p.parts ++ names⟩ w w' := by
  intro more
  rw [Path.spot_behind, Path.spot_behind, List.append_assoc, List.append_assoc]
  exact h (names ++ more)

section
variable {w w' : World} (h : w.Sound) (h' : w'.Sound) {p : Path} (hp : p.Clean)
  (hsame : SameBelow p w w')

/-! ## What is found below a folder -/

include h h' hp hsame

theorem isFile_eq : w.isFile p = w'.isFile p := by
  have hspot := hsame []
  rw [List.append_nil, List.append_nil] at hspot
  rw [Bool.eq_iff_iff, World.isFile_iff h hp, World.isFile_iff h' hp, hspot]

theorem isIn_eq : isIn w p = isIn w' p := by
  rw [Bool.eq_iff_iff, World.isIn_iff h hp, World.isIn_iff h' hp, hsame]

theorem supportIn_eq (a : Agent) : supportIn w a p = supportIn w' a p := by
  rw [supportIn, supportIn, World.filesBelow_eq h h' hp fun names => by rw [hsame names]]

end

/-- Every support file is a file below the folder. -/
theorem file_of_mem_supportIn {w : World} (h : w.Sound) {p : Path} {a : Agent} {f : SupportFile}
    (hf : f ∈ supportIn w a p) :
    ∃ place names, w.stat p = .ok (place, .folder) ∧ Path.ofText f.path = ⟨0, names⟩ ∧
      (∀ n ∈ names, ValidName n) ∧ (w.tree.bytes? (place ++ names)).isSome = true := by
  obtain ⟨way, hway, rfl⟩ := List.mem_map.mp hf
  obtain ⟨q, hq, hqway⟩ := List.mem_filterMap.mp (List.mem_filter.mp hway).1
  obtain ⟨place, hplace⟩ : ∃ place, w.stat p = .ok (place, .folder) := by
    cases hfolder : w.isFolder p with
    | true => exact World.isFolder_iff_stat.mp hfolder
    | false =>
      rw [World.filesBelow_eq_nil hfolder] at hq
      exact absurd hq List.not_mem_nil
  obtain ⟨names, -, rfl, hb⟩ := (World.mem_filesBelow_folder h hplace).mp hq
  rw [Path.below?_behind] at hqway
  obtain rfl := Option.some.inj hqway
  obtain ⟨b, hb'⟩ := Option.isSome_iff_exists.mp hb
  have hn : ∀ n ∈ names, ValidName n := fun n hmem =>
    h.tree.names_of_get? (Tree.bytes?_eq_some_iff.mp hb') n (List.mem_append_right _ hmem)
  have hclean : (Path.mk 0 names).Clean := ⟨Nat.zero_le 2, hn⟩
  exact ⟨place, names, hplace, Path.ofText_text hclean.tidy, hn, hb⟩

/-! ## Reading a skill -/

theorem still_load (folder : Path) (f : SupportFile) : Still (load folder f) := by
  unfold load
  split
  · exact Still.pure _
  · refine Still.bind (Still.attempt (Disk.still_text _)) fun found => ?_
    split
    · exact Still.pure _
    · split
      · exact Still.bind (Still.warn _) fun _ => Still.pure _
      · exact Still.throw _

theorem still_readConfig (folder : Path) : Still (readConfig folder) := by
  refine Still.get_bind fun w => ?_
  split
  · exact Still.pure _
  · refine Still.bind (Still.attempt ?_) fun found => ?_
    · exact Still.bind (Disk.still_text _) fun _ => Still.ofExcept _
    · split
      · exact Still.pure _
      · split
        · exact Still.bind (Still.warn _) fun _ => Still.pure _
        · exact Still.throw _

/-- Reads the parts of a skill in a folder that has the skill's own file. -/
def readOwn (a : Agent) (doc : Nat) (folder : String) :
    Work (Mapping × String × List SupportFile) := do
  let path := Path.ofText folder
  let text ← Disk.text (path.append ownFile)
  let (fields, content) ←
    Work.ofExcept ((Frontmatter.split doc text).mapError (·.about a noun folder))
  let support ← (supportIn (← get) a path).mapM (load path)
  return (fields, content, support)

theorem readParts_eq (a : Agent) (doc : Nat) (folder : String) : readParts a doc folder = (do
    if !isIn (← get) (Path.ofText folder) then throw (.system .noSkillFile)
    readOwn a doc folder) := rfl

theorem still_readOwn (a : Agent) (doc : Nat) (folder : String) : Still (readOwn a doc folder) := by
  refine Still.bind (Disk.still_text _) fun text => Still.bind (Still.ofExcept _) fun parts => ?_
  refine Still.get_bind fun w => Still.bind (Still.mapM fun f _ => still_load _ f) fun _ => ?_
  exact Still.pure _

theorem still_readParts (a : Agent) (doc : Nat) (folder : String) :
    Still (readParts a doc folder) := by
  rw [readParts_eq]
  refine Still.get_bind fun w => ?_
  split
  · exact Still.bind (Still.throw _) fun _ => still_readOwn a doc folder
  · exact still_readOwn a doc folder

theorem still_read (a : Agent) (doc : Nat) (folder : String) : Still (read a doc folder) := by
  refine Still.bind (Still.explain _ (still_readParts a doc folder)) fun parts => ?_
  dsimp only
  split
  · exact Still.bind (still_readConfig _) fun _ => Still.pure _
  · exact Still.bind (Still.pure _) fun _ => Still.pure _

theorem agrees_file {w w' : World} (h : w.Sound) (h' : w'.Sound) {p : Path} {names : List String}
    (hclean : (Path.mk p.root (p.parts ++ names)).Clean) (hsame : SameBelow p w w')
    (hb : (w.tree.bytes? (Path.spot w.here p ++ names)).isSome = true) :
    Agrees w w' (Disk.text ⟨p.root, p.parts ++ names⟩) (Disk.text ⟨p.root, p.parts ++ names⟩) := by
  obtain ⟨b, hb⟩ := Option.isSome_iff_exists.mp hb
  refine Disk.agrees_text h h' hclean (b := b) ?_ ?_
  · rw [Path.spot_behind, hb]
  · rw [Path.spot_behind, ← hsame names, hb]

theorem agrees_load {w w' : World} (h : w.Sound) (h' : w'.Sound) {p : Path} (hp : p.Clean)
    (hsame : SameBelow p w w') {a : Agent} {f : SupportFile} (hf : f ∈ supportIn w a p) :
    Agrees w w' (load p f) (load p f) := by
  obtain ⟨place, names, hplace, hway, hn, hb⟩ := file_of_mem_supportIn h hf
  obtain ⟨rfl, -⟩ := (World.stat_eq_ok_iff h hp).mp hplace
  have hfile := agrees_file h h' (hp.behind hn) hsame hb
  rw [← Path.append_way p hway] at hfile
  unfold load
  split
  · exact Agrees.pure _
  · refine Agrees.bind (Agrees.attempt hfile) fun found => ?_
    split
    · exact Agrees.pure _
    · split
      · exact Agrees.bind (Agrees.warn _) fun _ => Agrees.pure _
      · exact Agrees.throw _

theorem configPath_eq (p : Path) :
    configPath p = ⟨p.root, p.parts ++ [configFolder, configFile]⟩ := by
  rw [configPath, Path.append_name p (by decide), Path.append_name _ (by decide)]
  simp

theorem valid_config : ∀ n ∈ [configFolder, configFile], ValidName n := by decide

theorem agrees_readConfig {w w' : World} (h : w.Sound) (h' : w'.Sound) {p : Path} (hp : p.Clean)
    (hsame : SameBelow p w w') : Agrees w w' (readConfig p) (readConfig p) := by
  have hclean := hp.behind valid_config
  refine Agrees.get_bind fun v v' hv hv' => ?_
  have hsame' := (hsame.of_sameFiles hv hv').behind [configFolder, configFile]
  have hfile := isFile_eq (hv.sound h) (hv'.sound h') hclean hsame'
  rw [configPath_eq, ← hfile]
  by_cases hthere : v.isFile ⟨p.root, p.parts ++ [configFolder, configFile]⟩ = true
  · have hb := (World.isFile_iff (hv.sound h) hclean).mp hthere
    rw [Path.spot_behind, hv.tree, hv.here] at hb
    have hread := agrees_file h h' hclean hsame hb
    rw [hthere]
    refine Agrees.bind (Agrees.attempt ?_) fun found => ?_
    · exact Agrees.bind hread fun _ => Agrees.ofExcept _
    · split
      · exact Agrees.pure _
      · split
        · exact Agrees.bind (Agrees.warn _) fun _ => Agrees.pure _
        · exact Agrees.throw _
  · rw [Bool.eq_false_iff.mpr hthere]
    exact Agrees.pure none

theorem agrees_readParts {w w' : World} (h : w.Sound) (h' : w'.Sound) (a : Agent) (doc : Nat)
    {p : Path} (hp : p.Clean) (hsame : SameBelow p w w') :
    Agrees w w' (readParts a doc p.text) (readParts a doc p.text) := by
  refine Agrees.get_bind fun v v' hv hv' => ?_
  rw [Path.ofText_text hp.tidy, ← isIn_eq (hv.sound h) (hv'.sound h') hp (hsame.of_sameFiles hv hv')]
  by_cases hin : isIn v p = true
  · have hb := (World.isIn_iff (hv.sound h) hp).mp hin
    rw [hv.tree, hv.here] at hb
    have hown := agrees_file h h' (hp.behind (by simpa using World.valid_ownFile)) hsame hb
    rw [← Path.append_name p World.valid_ownFile] at hown
    rw [hin]
    refine Agrees.bind hown fun text => Agrees.bind (Agrees.ofExcept _) fun parts => ?_
    -- The files are listed only now, after the text was read.
    refine Agrees.get_bind fun u u' hu hu' => ?_
    have hsame' := hsame.of_sameFiles hu hu'
    rw [← supportIn_eq (hu.sound h) (hu'.sound h') hp hsame']
    refine Agrees.bind (Agrees.mapM fun f hf => ?_) fun support => Agrees.pure _
    refine agrees_load h h' hp hsame (a := a) ?_
    have hseen : SameBelow p u w := fun names => by rw [hu.tree, hu.here]
    rwa [← supportIn_eq (hu.sound h) h hp hseen]
  · rw [Bool.eq_false_iff.mpr hin]
    exact Agrees.throw_bind _ _ _

/-- A skill is read alike wherever its folder holds the same files. -/
theorem agrees_read {w w' : World} (h : w.Sound) (h' : w'.Sound) (a : Agent) (doc : Nat)
    {p : Path} (hp : p.Clean) (hsame : SameBelow p w w') :
    Agrees w w' (read a doc p.text) (read a doc p.text) := by
  refine Agrees.bind (Agrees.explain _ (agrees_readParts h h' a doc hp hsame)) fun parts => ?_
  rw [Path.ofText_text hp.tidy]
  dsimp only
  split
  · exact Agrees.bind (agrees_readConfig h h' hp hsame) fun _ => Agrees.pure _
  · exact Agrees.bind (Agrees.pure _) fun _ => Agrees.pure _

/-! ## What is read -/

/-- The path of a support file leads below the folder it is put in. -/
def LiesBelow (f : SupportFile) : Prop :=
  ∃ names, Path.ofText f.path = ⟨0, names⟩ ∧ ∀ n ∈ names, ValidName n

/-- The parts of a skill come from its folder: the fields and the content from the text of
its own file, and the support files are those below the folder. -/
structure ReadParts (w : World) (a : Agent) (doc : Nat) (p : Path) (fields : Mapping)
    (content : String) (support : List SupportFile) : Prop where
  own : ∃ text, Frontmatter.split doc text = .ok (fields, content)
  support : ∃ u : World, w.SameFiles u ∧
    support.map SupportFile.path = (supportIn u a p).map SupportFile.path

/-- A skill comes from its folder, with a configuration that was read as well. -/
structure ReadFrom (w : World) (a : Agent) (doc : Nat) (p : Path) (s : Skill) : Prop where
  parts : ReadParts w a doc p s.fields s.content s.support
  config : ∀ m, s.config = some m → ∃ text v, Yaml.readValue 2 text = .ok v ∧ v.entries? = some m
  name : s.name = Mapping.field s.fields nameKey ∨ s.name = .text p.name

theorem ReadParts.below {w : World} (hw : w.Sound) {a : Agent} {doc : Nat} {p : Path}
    {fields : Mapping} {content : String} {support : List SupportFile}
    (h : ReadParts w a doc p fields content support) : ∀ f ∈ support, LiesBelow f := by
  intro f hf
  obtain ⟨u, hu, hpaths⟩ := h.support
  obtain ⟨g, hg, hpath⟩ := List.mem_map.mp (hpaths ▸ List.mem_map_of_mem hf)
  obtain ⟨-, names, -, hway, hn, -⟩ := file_of_mem_supportIn (hu.sound hw) hg
  exact ⟨names, hpath ▸ hway, hn⟩

theorem yields_load {w : World} (p : Path) (f : SupportFile) :
    Yields w (load p f) fun g => g.path = f.path := by
  unfold load
  split
  · exact Yields.pure rfl
  · refine Yields.bind (Still.attempt (Disk.still_text _)) (Yields.any _) fun found _ => ?_
    split
    · exact Yields.pure rfl
    · split
      · exact Yields.bind (Still.warn _) (Yields.any _) fun _ _ => Yields.pure rfl
      · exact Yields.throw _

theorem yields_readOwn {w : World} (a : Agent) (doc : Nat) {p : Path} (hp : p.Tidy) :
    Yields w (readOwn a doc p.text) fun parts =>
      ReadParts w a doc p parts.1 parts.2.1 parts.2.2 := by
  rw [readOwn, Path.ofText_text hp]
  refine Yields.bind (Disk.still_text _) (Yields.any _) fun text _ => ?_
  refine Yields.bind (Still.ofExcept _) (Yields.ofExcept fun parts hparts => ?_ :
    Yields w _ fun parts => Frontmatter.split doc text = .ok parts) fun parts hparts => ?_
  · cases hsplit : Frontmatter.split doc text with
    | error e => rw [hsplit] at hparts; cases hparts
    | ok found =>
      rw [hsplit] at hparts
      exact congrArg Except.ok (Except.ok.inj hparts)
  · refine Yields.get_bind fun u hu => ?_
    refine Yields.bind (Still.mapM fun f _ => still_load p f) (Yields.mapM
      (fun f _ => still_load p f) fun f _ => yields_load p f) fun support hsupport => ?_
    exact Yields.pure ⟨⟨text, hparts⟩, u, hu, hsupport⟩

theorem yields_readParts {w : World} (a : Agent) (doc : Nat) {p : Path} (hp : p.Tidy) :
    Yields w (readParts a doc p.text) fun parts =>
      ReadParts w a doc p parts.1 parts.2.1 parts.2.2 := by
  rw [readParts_eq]
  refine Yields.get_bind fun v _ => ?_
  split
  · exact Yields.bind (Still.throw _) (Yields.any _) fun _ _ => yields_readOwn a doc hp
  · exact yields_readOwn a doc hp

theorem yields_readConfig {w : World} (p : Path) :
    Yields w (readConfig p) fun config => ∀ m, config = some m →
      ∃ text v, Yaml.readValue 2 text = .ok v ∧ v.entries? = some m := by
  have hnone : ∀ m : Mapping, none = some m →
      ∃ text v, Yaml.readValue 2 text = .ok v ∧ v.entries? = some m := fun m hm => by cases hm
  have hread : Yields w (do
      Work.ofExcept ((Yaml.readValue 2 (← Disk.text (configPath p))).mapError .yaml) : Work Value)
      fun v => ∃ text, Yaml.readValue 2 text = .ok v := by
    refine Yields.bind (Disk.still_text _) (Yields.any _) fun text _ =>
      Yields.ofExcept fun v hv => ⟨text, ?_⟩
    cases hyaml : Yaml.readValue 2 text with
    | error e => rw [hyaml] at hv; cases hv
    | ok v' =>
      rw [hyaml] at hv
      exact congrArg Except.ok (Except.ok.inj hv)
  unfold readConfig
  refine Yields.get_bind fun v _ => ?_
  split
  · exact Yields.pure hnone
  · refine Yields.bind (P := fun found => ∀ v, found = .ok v → ∃ text, Yaml.readValue 2 text = .ok v)
      (Still.attempt (Still.bind (Disk.still_text _) fun _ => Still.ofExcept _))
      (fun v hv found hfound value hvalue => ?_) fun found hfound => ?_
    · rw [run_attempt] at hfound
      exact hread v hv value ((Except.ok.inj hfound).trans hvalue)
    · split
      · rename_i value
        obtain ⟨text, htext⟩ := hfound value rfl
        exact Yields.pure fun m hm => ⟨text, value, htext, hm⟩
      · split
        · exact Yields.bind (Still.warn _) (Yields.any _) fun _ _ => Yields.pure hnone
        · exact Yields.throw _

/-- What is read of a skill comes from its folder. -/
theorem yields_readFrom {w : World} (a : Agent) (doc : Nat) {p : Path} (hp : p.Tidy) :
    Yields w (read a doc p.text) (ReadFrom w a doc p) := by
  refine Yields.bind (Still.explain _ (still_readParts a doc p.text))
    (Yields.explain _ (yields_readParts a doc hp)) fun parts hparts => ?_
  dsimp only
  rw [Path.ofText_text hp]
  have hname (v : Value) : (if v.truthy then v else .text p.name) = v ∨
      (if v.truthy then v else .text p.name) = .text p.name := by
    split
    · exact .inl rfl
    · exact .inr rfl
  split
  · refine Yields.bind (still_readConfig _) (yields_readConfig p) fun config hconfig => ?_
    exact Yields.pure ⟨hparts, hconfig, hname _⟩
  · refine Yields.bind (P := fun config => config = none) (Still.pure _) (Yields.pure rfl)
      fun config hconfig => ?_
    refine Yields.pure ⟨hparts, fun m hm => ?_, hname _⟩
    rw [hconfig] at hm
    cases hm

theorem yields_read {w : World} (h : w.Sound) (a : Agent) (doc : Nat) {p : Path} (hp : p.Tidy) :
    Yields w (read a doc p.text) fun s => ∀ f ∈ s.support, LiesBelow f :=
  (yields_readFrom a doc hp).mono fun _ hs => hs.parts.below h

end Skill

end AgentRelay
