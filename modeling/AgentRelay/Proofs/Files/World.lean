import AgentRelay.Location
import AgentRelay.Proofs.Path

/-
  What is seen of a tree through paths.

  A path leads to one place, as long as all folders on the way are there: a
  folder more never closes a way (`walk_mono`). A clean path stands for one
  place whatever the folders are, its spot. In a `Sound` world it is found
  exactly when the tree holds something at the spot (`stat_eq_ok_iff`), and
  whether a path is a file, what lies below a folder, and which skills a folder
  holds depend on nothing but the files of the tree (`isFile_iff`,
  `mem_filesBelow`, `mem_skillFolders`).
-/

namespace AgentRelay

open Files (Place Tree Entry ValidName)

/-- The place where the ways of paths with a root begin. -/
def Path.start (here : Path) (root : Nat) : Place := if root = 0 then here.parts else []

/-- The place of a clean path. -/
def Path.spot (here p : Path) : Place := start here p.root ++ p.parts

/-- The place a path leads to where all folders on its way are there. -/
def Path.place (here p : Path) : Place := p.parts.foldl step (start here p.root)

namespace Path

variable {here p : Path}

theorem foldl_step {names : List String} (hn : ∀ n ∈ names, n ≠ "..") (start : List String) :
    names.foldl step start = start ++ names := by
  induction names generalizing start with
  | nil => simp
  | cons n names ih =>
    rw [List.foldl_cons, step, if_neg (hn n (by simp)),
      ih (fun m hm => hn m (List.mem_cons_of_mem _ hm)), List.append_assoc]
    rfl

theorem not_up_of_valid {names : List String} (hn : ∀ n ∈ names, ValidName n) :
    ∀ n ∈ names, n ≠ ".." := fun n hmem => (hn n hmem).2.2.1

theorem place_eq_spot (hp : p.Clean) : place here p = spot here p :=
  foldl_step (not_up_of_valid hp.names) _

theorem place_behind {names : List String} (hn : ∀ n ∈ names, ValidName n) :
    place here ⟨p.root, p.parts ++ names⟩ = place here p ++ names := by
  rw [place, List.foldl_append, foldl_step (not_up_of_valid hn)]
  rfl

theorem place_append {n : String} (hn : ValidName n) :
    place here (p.append n) = place here p ++ [n] := by
  rw [append_name p hn, place_behind (by simpa using hn)]

theorem valid_of_step {parts names : List String} (hparts : ∀ n ∈ parts, ValidName n)
    (hnames : ∀ n ∈ names, IsName n) : ∀ n ∈ names.foldl step parts, ValidName n := by
  induction names generalizing parts with
  | nil => exact hparts
  | cons name names ih =>
    refine ih (fun n hn => ?_) fun n hn => hnames n (List.mem_cons_of_mem _ hn)
    unfold step at hn
    split at hn
    · exact hparts n (List.dropLast_subset _ hn)
    · rename_i hup
      rcases List.mem_append.mp hn with hn | hn
      · exact hparts n hn
      · rw [List.mem_singleton.mp hn]
        exact valid_of_isName (hnames name (by simp)) hup

theorem valid_place (hhere : here.Clean) (hp : p.Tidy) : ∀ n ∈ place here p, ValidName n := by
  refine valid_of_step (fun n hn => ?_) hp.names
  unfold start at hn
  split at hn
  · exact hhere.names n hn
  · exact absurd hn List.not_mem_nil

theorem spot_behind (names : List String) :
    spot here ⟨p.root, p.parts ++ names⟩ = spot here p ++ names := by
  rw [spot, spot, List.append_assoc]

theorem spot_append {n : String} (hn : ValidName n) :
    spot here (p.append n) = spot here p ++ [n] := by
  rw [append_name p hn, spot_behind]

end Path

/-! ## Walks -/

namespace Files

variable {t : Tree}

theorem refuse_ne_ok {p q : Place} : walk.refuse t p ≠ .ok q := by
  unfold walk.refuse
  split <;> exact nofun

/-- A walk takes a step from every folder it comes to. -/
theorem walk_cons (t : Tree) (here : Place) (name : String) (names : List String) :
    walk t here (name :: names) =
      if t.isFolder here then walk t (Path.step here name) names else walk.refuse t here := by
  cases names with
  | nil =>
    rw [walk, walk]
    by_cases h : t.isFolder here = true
    · simp [h, Path.step]
    · simp [h]
  | cons next names =>
    rw [walk]
    by_cases h : t.isFolder here = true
    · simp [h, Path.step]
    · simp [h]

theorem walk_append (t : Tree) (start : Place) (names more : List String) :
    walk t start (names ++ more) = (walk t start names).bind fun q => walk t q more := by
  induction names generalizing start with
  | nil => rfl
  | cons name names ih =>
    rw [List.cons_append, walk_cons, walk_cons]
    split
    · exact ih _
    · unfold walk.refuse
      split <;> rfl

theorem place_of_walk {names : List String} {start q : Place} (h : walk t start names = .ok q) :
    q = names.foldl Path.step start := by
  induction names generalizing start with
  | nil => exact (Except.ok.inj h).symm
  | cons name names ih =>
    rw [walk_cons] at h
    split at h
    · exact ih h
    · exact absurd h refuse_ne_ok

/-- The last step of a walk is taken from a folder. -/
theorem last_step_of_walk {names : List String} {last : String} {start q : Place}
    (h : walk t start (names ++ [last]) = .ok q) :
    ∃ up, walk t start names = .ok up ∧ t.get? up = some .folder ∧ q = Path.step up last := by
  rw [walk_append] at h
  cases hup : walk t start names with
  | error r =>
    rw [hup] at h
    exact nomatch h
  | ok up =>
    rw [hup] at h
    change walk t up [last] = _ at h
    rw [walk_cons] at h
    split at h
    · rename_i hfolder
      exact ⟨up, rfl, Tree.isFolder_iff.mp hfolder, (Except.ok.inj h).symm⟩
    · exact absurd h refuse_ne_ok

/-- Where every folder is still there, every way is still open. -/
theorem walk_mono {t' : Tree} (hkeep : ∀ p, t.get? p = some .folder → t'.get? p = some .folder)
    {names : List String} {start q : Place} (h : walk t start names = .ok q) :
    walk t' start names = .ok q := by
  induction names generalizing start with
  | nil => exact h
  | cons name names ih =>
    rw [walk_cons] at h ⊢
    split at h
    · rename_i hfolder
      rw [if_pos (Tree.isFolder_iff.mpr (hkeep _ (Tree.isFolder_iff.mp hfolder)))]
      exact ih h
    · exact absurd h refuse_ne_ok

theorem ok_of_walk {names : List String} (hn : ∀ n ∈ names, n ≠ "..") {start q : Place}
    (h : walk t start names = .ok q) :
    q = start ++ names ∧ (names ≠ [] → t.get? q.dropLast = some .folder) := by
  have hplace := place_of_walk h
  rw [Path.foldl_step hn] at hplace
  refine ⟨hplace, fun hne => ?_⟩
  obtain ⟨init, last, rfl⟩ := (List.eq_nil_or_concat names).resolve_left hne
  rw [List.concat_eq_append] at h hn
  obtain ⟨up, -, hfolder, rfl⟩ := last_step_of_walk h
  rwa [Path.step, if_neg (hn last (by simp)), List.dropLast_concat]

theorem folder_on_way (ht : t.Sound) {start : Place} {names : List String} (hne : names ≠ [])
    (h : t.get? (start ++ names).dropLast = some .folder) : t.get? start = some .folder := by
  have hpre : start <+: (start ++ names).dropLast := by
    rw [List.dropLast_append_of_ne_nil hne]
    exact List.prefix_append _ _
  by_cases heq : start = (start ++ names).dropLast
  · rw [heq]
    exact h
  · exact ht.folder_above h hpre heq

/-- In a sound tree the way to a place in a folder is open. -/
theorem walk_of_folder (ht : t.Sound) {names : List String} (hn : ∀ n ∈ names, n ≠ "..")
    {start : Place} (h : names = [] ∨ t.get? (start ++ names).dropLast = some .folder) :
    walk t start names = .ok (start ++ names) := by
  induction start, names using walk.induct t with
  | case1 start => rw [walk, List.append_nil]
  | case2 start name hno | case4 start name next names hno =>
    have hstart := folder_on_way ht (List.cons_ne_nil _ _) (h.resolve_left (List.cons_ne_nil _ _))
    rw [Tree.isFolder_iff.mpr hstart] at hno
    exact nomatch hno
  | case3 start name hfolder => rw [walk, if_neg hfolder, if_neg (hn name (by simp))]
  | case5 start name next names hfolder ih =>
    have hname := hn name (by simp)
    have hup : t.get? ((start ++ [name]) ++ next :: names).dropLast = some .folder := by
      simpa using h
    rw [if_neg hname] at ih
    rw [walk, if_neg hfolder, if_neg hname,
      ih (fun n hmem => hn n (List.mem_cons_of_mem _ hmem)) (Or.inr hup)]
    simp

end Files

namespace World

/-- The tree is sound, and the working folder has a clean path. -/
structure Sound (w : World) : Prop where
  tree : w.tree.Sound
  here : w.here.Clean

variable {w : World}

/-! ## Single paths -/

theorem locate_eq (w : World) (p : Path) :
    w.locate p = Files.walk w.tree (Path.start w.here p.root) p.parts := by
  rw [locate, Files.locate, Path.isAbsolute, Path.start, herePlace]
  by_cases h : p.root = 0 <;> simp [h]

theorem locate_eq_ok_iff (h : w.Sound) {p : Path} (hp : p.Clean) {q : Place} :
    w.locate p = .ok q ↔
      q = Path.spot w.here p ∧ (p.parts = [] ∨ w.tree.get? q.dropLast = some .folder) := by
  have hn : ∀ n ∈ p.parts, n ≠ ".." := fun n hmem => (hp.names n hmem).2.2.1
  rw [locate_eq]
  constructor
  · intro hw
    obtain ⟨rfl, hup⟩ := Files.ok_of_walk hn hw
    refine ⟨rfl, ?_⟩
    by_cases hparts : p.parts = []
    · exact Or.inl hparts
    · exact Or.inr (hup hparts)
  · rintro ⟨rfl, hup⟩
    exact Files.walk_of_folder h.tree hn hup

theorem stat_iff_locate {p : Path} {q : Place} {e : Entry} :
    w.stat p = .ok (q, e) ↔ w.locate p = .ok q ∧ w.tree.get? q = some e := by
  have hlocate : Files.locate w.tree w.herePlace p = w.locate p := rfl
  rw [stat, Files.stat, hlocate]
  cases w.locate p with
  | error r => simp [bind, Except.bind]
  | ok place =>
    simp only [bind, Except.bind, Except.ok.injEq]
    cases hget : w.tree.get? place with
    | none =>
      refine iff_of_false (fun h => by cases h) ?_
      rintro ⟨rfl, he⟩
      rw [hget] at he
      cases he
    | some e' =>
      constructor
      · intro h
        obtain ⟨rfl, rfl⟩ := Prod.mk.inj (Except.ok.inj h)
        exact ⟨rfl, hget⟩
      · rintro ⟨rfl, he⟩
        rw [hget] at he
        rw [Option.some.inj he]
        rfl

theorem place_of_locate {p : Path} {q : Place} (h : w.locate p = .ok q) :
    q = Path.place w.here p := by
  rw [locate_eq] at h
  exact Files.place_of_walk h

theorem place_of_stat {p : Path} {q : Place} {e : Entry} (h : w.stat p = .ok (q, e)) :
    q = Path.place w.here p := place_of_locate (stat_iff_locate.mp h).1

/-- What is found behind a folder that is found. -/
theorem stat_behind (h : w.Sound) {p : Path} {place : Place}
    (hp : w.stat p = .ok (place, .folder)) {names : List String}
    (hn : ∀ n ∈ names, ValidName n) {q : Place} {e : Entry} :
    w.stat ⟨p.root, p.parts ++ names⟩ = .ok (q, e) ↔
      q = place ++ names ∧ w.tree.get? q = some e := by
  obtain ⟨hlocate, hfolder⟩ := stat_iff_locate.mp hp
  rw [locate_eq] at hlocate
  have hway : w.locate ⟨p.root, p.parts ++ names⟩ = Files.walk w.tree place names := by
    rw [locate_eq, Files.walk_append, hlocate]
    rfl
  rw [stat_iff_locate, hway]
  constructor
  · rintro ⟨hwalk, hget⟩
    exact ⟨(Files.ok_of_walk (Path.not_up_of_valid hn) hwalk).1, hget⟩
  · rintro ⟨rfl, hget⟩
    refine ⟨Files.walk_of_folder h.tree (Path.not_up_of_valid hn) ?_, hget⟩
    by_cases hnil : names = []
    · exact Or.inl hnil
    · exact Or.inr (h.tree.parent (List.append_ne_nil_of_right_ne_nil _ hnil) hget)

/-- What is found behind a path shows that the path is a folder. -/
theorem folder_of_locate_behind {p : Path} {names : List String} (hne : names ≠ []) {q : Place}
    (h : w.locate ⟨p.root, p.parts ++ names⟩ = .ok q) :
    ∃ place, w.stat p = .ok (place, .folder) := by
  obtain ⟨name, names, rfl⟩ := List.exists_cons_of_ne_nil hne
  rw [locate_eq, Files.walk_append] at h
  cases hup : Files.walk w.tree (Path.start w.here p.root) p.parts with
  | error r =>
    rw [hup] at h
    exact nomatch h
  | ok place =>
    rw [hup] at h
    change Files.walk w.tree place (name :: names) = _ at h
    rw [Files.walk_cons] at h
    split at h
    · rename_i hfolder
      refine ⟨place, stat_iff_locate.mpr ⟨?_, Tree.isFolder_iff.mp hfolder⟩⟩
      rw [locate_eq, hup]
    · exact absurd h Files.refuse_ne_ok

theorem stat_eq_ok_iff (h : w.Sound) {p : Path} (hp : p.Clean) {q : Place} {e : Entry} :
    w.stat p = .ok (q, e) ↔ q = Path.spot w.here p ∧ w.tree.get? q = some e := by
  rw [stat_iff_locate, locate_eq_ok_iff h hp]
  constructor
  · rintro ⟨⟨hq, -⟩, hget⟩
    exact ⟨hq, hget⟩
  · rintro ⟨rfl, hget⟩
    refine ⟨⟨rfl, ?_⟩, hget⟩
    by_cases hparts : p.parts = []
    · exact Or.inl hparts
    · exact Or.inr (h.tree.parent (List.append_ne_nil_of_right_ne_nil _ hparts) hget)

theorem isFile_iff_stat {p : Path} :
    w.isFile p = true ↔ ∃ q b, w.stat p = .ok (q, .file b) := by
  unfold isFile
  constructor
  · intro h
    split at h
    · rename_i q b hstat
      exact ⟨q, b, hstat⟩
    · exact nomatch h
  · rintro ⟨q, b, hstat⟩
    rw [hstat]

theorem isFile_iff (h : w.Sound) {p : Path} (hp : p.Clean) :
    w.isFile p = true ↔ (w.tree.bytes? (Path.spot w.here p)).isSome = true := by
  rw [isFile_iff_stat, Option.isSome_iff_exists]
  constructor
  · rintro ⟨q, b, hstat⟩
    obtain ⟨rfl, hget⟩ := (stat_eq_ok_iff h hp).mp hstat
    exact ⟨b, Tree.bytes?_eq_some_iff.mpr hget⟩
  · rintro ⟨b, hb⟩
    exact ⟨_, b, (stat_eq_ok_iff h hp).mpr ⟨rfl, Tree.bytes?_eq_some_iff.mp hb⟩⟩

theorem isFolder_iff (h : w.Sound) {p : Path} (hp : p.Clean) :
    w.isFolder p = true ↔ w.tree.get? (Path.spot w.here p) = some .folder := by
  unfold isFolder
  constructor
  · intro hfolder
    split at hfolder
    · rename_i q hstat
      obtain ⟨rfl, hget⟩ := (stat_eq_ok_iff h hp).mp hstat
      exact hget
    · exact nomatch hfolder
  · intro hget
    rw [(stat_eq_ok_iff h hp).mpr ⟨rfl, hget⟩]

/-! ## Listings -/

theorem filesBelow_eq_nil {p : Path} (h : w.isFolder p = false) : w.filesBelow p = [] := by
  unfold isFolder at h
  unfold filesBelow
  split
  · rename_i hstat
    rw [hstat] at h
    exact nomatch h
  · rfl

theorem isFolder_iff_stat {p : Path} :
    w.isFolder p = true ↔ ∃ place, w.stat p = .ok (place, .folder) := by
  unfold isFolder
  constructor
  · intro h
    split at h
    · rename_i place hstat
      exact ⟨place, hstat⟩
    · exact nomatch h
  · rintro ⟨place, hstat⟩
    rw [hstat]

/-- The files below a folder that is found. -/
theorem mem_filesBelow_folder (h : w.Sound) {p : Path} {place : Place}
    (hp : w.stat p = .ok (place, .folder)) {q : Path} :
    q ∈ w.filesBelow p ↔ ∃ names, names ≠ [] ∧ q = ⟨p.root, p.parts ++ names⟩ ∧
      (w.tree.bytes? (place ++ names)).isSome = true := by
  unfold filesBelow
  rw [hp]
  dsimp only
  rw [Path.mem_sorted, List.mem_map]
  constructor
  · rintro ⟨place', hfile, rfl⟩
    obtain ⟨⟨names, rfl⟩, hne, hb⟩ := h.tree.mem_files.mp hfile
    refine ⟨names, fun hnil => hne (by simp [hnil]), ?_, hb⟩
    rw [List.drop_left]
  · rintro ⟨names, hne, rfl, hb⟩
    have hproper : place ≠ place ++ names := by simpa using hne
    refine ⟨place ++ names, h.tree.mem_files.mpr ⟨List.prefix_append _ _, hproper, hb⟩, ?_⟩
    rw [List.drop_left]

theorem mem_filesBelow (h : w.Sound) {p : Path} (hp : p.Clean) {q : Path} :
    q ∈ w.filesBelow p ↔ ∃ names, names ≠ [] ∧ q = ⟨p.root, p.parts ++ names⟩ ∧
      (w.tree.bytes? (Path.spot w.here p ++ names)).isSome = true := by
  cases hfolder : w.isFolder p with
  | true =>
    obtain ⟨place, hstat⟩ := isFolder_iff_stat.mp hfolder
    obtain ⟨rfl, -⟩ := (stat_eq_ok_iff h hp).mp hstat
    exact mem_filesBelow_folder h hstat
  | false =>
    rw [filesBelow_eq_nil hfolder]
    refine ⟨fun hq => absurd hq List.not_mem_nil, ?_⟩
    -- A file at or below the spot would make a folder of it.
    rintro ⟨names, hne, -, hb⟩
    have hproper : Path.spot w.here p ≠ Path.spot w.here p ++ names := by simpa using hne
    obtain ⟨b, hb'⟩ := Option.isSome_iff_exists.mp hb
    have hup := h.tree.folder_above (Tree.bytes?_eq_some_iff.mp hb') (List.prefix_append _ _)
      hproper
    rw [isFolder_iff_stat.mpr ⟨_, (stat_eq_ok_iff h hp).mpr ⟨rfl, hup⟩⟩] at hfolder
    exact nomatch hfolder

theorem pairwise_filesBelow (w : World) (p : Path) :
    (w.filesBelow p).Pairwise fun a b => Path.le a b = true := by
  unfold filesBelow
  split
  · exact Path.pairwise_sorted _
  · exact List.Pairwise.nil

/-- Places below a place give different paths. -/
theorem nodup_map_drop {place : Place} {places : List Place} (hn : places.Nodup)
    (hpre : ∀ q ∈ places, place <+: q) (p : Path) :
    (places.map fun q => Path.mk p.root (p.parts ++ q.drop place.length)).Nodup := by
  refine List.pairwise_map.mpr (hn.imp_of_mem fun {a b} ha hb hab heq => hab ?_)
  obtain ⟨as, rfl⟩ := hpre a ha
  obtain ⟨bs, rfl⟩ := hpre b hb
  simp only [List.drop_left, Path.mk.injEq, List.append_cancel_left_eq, true_and] at heq
  rw [heq]

theorem nodup_filesBelow (h : w.Sound) (p : Path) : (w.filesBelow p).Nodup := by
  unfold filesBelow
  split
  · rename_i place hstat
    refine Path.nodup_sorted.mpr (nodup_map_drop ?_ ?_ p)
    · exact (h.tree.distinct.filter _).filter _
    · intro q hq
      exact (Tree.mem_descendants.mp (List.mem_filter.mp hq).1).2.1
  · exact List.nodup_nil

/-- A listing of files is known by the files there are. -/
theorem filesBelow_eq {w' : World} (h : w.Sound) (h' : w'.Sound) {p : Path} (hp : p.Clean)
    (hsame : ∀ names, (w.tree.bytes? (Path.spot w.here p ++ names)).isSome =
      (w'.tree.bytes? (Path.spot w'.here p ++ names)).isSome) :
    w.filesBelow p = w'.filesBelow p := by
  refine Path.eq_of_sorted (pairwise_filesBelow w p) (pairwise_filesBelow w' p)
    (nodup_filesBelow h p) (nodup_filesBelow h' p) fun q => ?_
  rw [mem_filesBelow h hp, mem_filesBelow h' hp]
  simp only [hsame]

/-! ## Skills -/

theorem valid_ownFile : ValidName Skill.ownFile := by decide

theorem isIn_iff (h : w.Sound) {p : Path} (hp : p.Clean) :
    Skill.isIn w p = true ↔
      (w.tree.bytes? (Path.spot w.here p ++ [Skill.ownFile])).isSome = true := by
  have hclean : (p.append Skill.ownFile).Clean := by
    rw [Path.append_name p valid_ownFile]
    exact hp.behind (by simpa using valid_ownFile)
  rw [Skill.isIn, isFile_iff h hclean, Path.spot_append valid_ownFile]

theorem skillFolders_none (w : World) (p : Path) :
    w.skillFolders p none = if !w.isFolder p then [] else
      (w.entries p).filter fun q => w.isFolder q && Skill.isIn w q := rfl

theorem pairwise_skillFolders (w : World) (p : Path) :
    (w.skillFolders p none).Pairwise fun a b => Path.le a b = true := by
  have hentries : (w.entries p).Pairwise fun a b => Path.le a b = true := by
    unfold entries
    split
    · exact Path.pairwise_sorted _
    · exact List.Pairwise.nil
  rw [skillFolders_none]
  split
  · exact List.Pairwise.nil
  · exact hentries.filter _

theorem nodup_skillFolders (h : w.Sound) (p : Path) : (w.skillFolders p none).Nodup := by
  have hentries : (w.entries p).Nodup := by
    unfold entries
    split
    · rename_i place hstat
      refine Path.nodup_sorted.mpr (nodup_map_drop (h.tree.distinct.filter _) ?_ p)
      exact fun q hq => (Tree.mem_children.mp hq).2.1
    · exact List.nodup_nil
  rw [skillFolders_none]
  split
  · exact List.nodup_nil
  · exact hentries.filter _

theorem mem_skillFolders (h : w.Sound) {p : Path} (hp : p.Clean) {q : Path} :
    q ∈ w.skillFolders p none ↔ ∃ n, q = ⟨p.root, p.parts ++ [n]⟩ ∧
      (w.tree.bytes? (Path.spot w.here p ++ [n, Skill.ownFile])).isSome = true := by
  have hclean : ∀ {n : String}, ValidName n → (Path.mk p.root (p.parts ++ [n])).Clean :=
    fun hn => hp.behind (by simpa using hn)
  rw [skillFolders_none]
  constructor
  · intro hq
    split at hq
    · exact absurd hq List.not_mem_nil
    · obtain ⟨hentry, hskill⟩ := List.mem_filter.mp hq
      unfold entries at hentry
      split at hentry
      · rename_i place hstat
        obtain ⟨rfl, -⟩ := (stat_eq_ok_iff h hp).mp hstat
        obtain ⟨place, hchild, rfl⟩ := List.mem_map.mp (Path.mem_sorted.mp hentry)
        obtain ⟨hmem, ⟨names, rfl⟩, hlen⟩ := Tree.mem_children.mp hchild
        -- A child lies one name below, and that name is listed in the tree.
        obtain ⟨n, rfl⟩ : ∃ n, names = [n] := List.length_eq_one_iff.mp (by simpa using hlen)
        obtain ⟨x, hx, hxp⟩ := List.mem_map.mp hmem
        have hvalid : ValidName n := h.tree.names x hx n (by simp [hxp])
        rw [List.drop_left] at hskill ⊢
        rw [Bool.and_eq_true, isIn_iff h (hclean hvalid), Path.spot_behind] at hskill
        exact ⟨n, rfl, by simpa using hskill.2⟩
      · exact absurd hentry List.not_mem_nil
  · rintro ⟨n, rfl, hb⟩
    obtain ⟨b, hb'⟩ := Option.isSome_iff_exists.mp hb
    have hget := Tree.bytes?_eq_some_iff.mp hb'
    have hvalid : ValidName n := h.tree.names_of_get? hget n (by simp)
    -- The skill's own file makes folders of all that lies above it.
    have hfolder : w.tree.get? (Path.spot w.here p ++ [n]) = some .folder :=
      h.tree.folder_above hget ⟨[Skill.ownFile], by simp⟩ (by simp)
    have htop : w.tree.get? (Path.spot w.here p) = some .folder :=
      h.tree.folder_above hget (List.prefix_append _ _) (by simp)
    rw [(isFolder_iff h hp).mpr htop]
    refine List.mem_filter.mpr ⟨?_, ?_⟩
    · rw [entries, (stat_eq_ok_iff h hp).mpr ⟨rfl, htop⟩]
      refine Path.mem_sorted.mpr (List.mem_map.mpr ⟨Path.spot w.here p ++ [n], ?_, ?_⟩)
      · refine Tree.mem_children.mpr ⟨?_, List.prefix_append _ _, by simp⟩
        exact (h.tree.get?_ne_none_iff (by simp)).mp (by rw [hfolder]; exact nofun)
      · rw [List.drop_left]
    · rw [Bool.and_eq_true, isFolder_iff h (hclean hvalid), isIn_iff h (hclean hvalid),
        Path.spot_behind]
      exact ⟨hfolder, by simpa using hb⟩

end World

end AgentRelay
