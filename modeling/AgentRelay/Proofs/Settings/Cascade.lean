import AgentRelay.Proofs.Files.Work
import AgentRelay.Proofs.Settings.Check

/-
  The settings in effect.

  Settings are loaded from a file whatever it holds, unless there is more wrong with it than
  its notation (`load_eq_ok_iff`); they can be complained about when their keys have texts
  (`complaints_eq_ok_iff`). What stands at the name of a section after one layer was laid
  over another is known from what stands there in the two (`standing_laid`). A section that
  is no mapping after all layers is put right, but what a layer has lost by then does not
  come back: `effective_eq_ok_iff` says when there are settings, and `shaped_of_effective`
  and `has_of_effective` say what they are like.
-/

namespace AgentRelay

theorem Contents.ofName?_name (c : Contents) : Contents.ofName? c.name = some c := by
  cases c <;> decide

theorem Contents.exists_name {s : String} (h : (Contents.ofName? s).isSome = true) :
    ∃ c : Contents, s = c.name := by
  obtain ⟨c, hc⟩ := Option.isSome_iff_exists.mp h
  unfold Contents.ofName? at hc
  have hname := List.find?_some hc
  exact ⟨c, (beq_iff_eq.mp hname).symm⟩

namespace Settings

open Work

/-! ## Settings leave the files alone -/

theorem still_load (doc : Nat) (path : Path) : Still (load doc path) := by
  refine Still.get_bind fun w => ?_
  split
  · exact Still.pure _
  · refine Still.bind (Still.attempt ?_) fun found => ?_
    · exact Still.bind (Disk.still_bytes _) fun _ => Still.ofExcept _
    · split
      · exact Still.pure _
      · split
        · exact Still.bind (Still.warn _) fun _ => Still.pure _
        · exact Still.throw _

theorem still_effective (project : Option Path) : Still (effective project) := by
  refine Still.get_bind fun w => Still.bind (still_load _ _) fun user => ?_
  refine Still.bind (Still.ofExcept _) fun e => ?_
  dsimp only
  split
  · exact Still.bind (Still.pure _) fun own => Still.bind (Still.ofExcept _) fun _ =>
      Still.ofExcept _
  · exact Still.bind (still_load _ _) fun own => Still.bind (Still.ofExcept _) fun _ =>
      Still.ofExcept _

/-! ## Layers -/

/-- When there is a file at the path, then nothing is wrong with its text but the notation,
if anything is. -/
def Legible (w : World) (doc : Nat) (path : Path) : Prop :=
  ∀ place b f, w.stat path = .ok (place, .file b) →
    Yaml.readSource doc (.ofBytes b) = .error f → f = .malformed

/-- The mapping in a file, if there is a file that holds one. -/
def layer? (w : World) (doc : Nat) (path : Path) : Option Mapping :=
  match w.stat path with
  | .ok (_, .file b) =>
    match Yaml.readSource doc (.ofBytes b) with
    | .ok v => v.entries?
    | .error _ => none
  | _ => none

section
variable {w : World} {doc : Nat} {path : Path}

theorem run_load_of_no_file (h : ∀ place b, w.stat path ≠ .ok (place, .file b)) :
    ((load doc path).run w).1 = .ok none := by
  unfold load
  rw [run_get_bind]
  unfold World.isThere
  cases hstat : w.stat path with
  | error refusal => rfl
  | ok found =>
    obtain ⟨place, entry⟩ := found
    cases entry with
    | file b => exact absurd hstat (h place b)
    | folder | lock =>
      simp only [Bool.not_true, Bool.false_eq_true, if_false]
      rw [run_bind, run_attempt, run_bind, Disk.bytes, run_get_bind, hstat]
      rfl

theorem run_load_of_file {place : Files.Place} {b : ByteArray}
    (hstat : w.stat path = .ok (place, .file b)) :
    ((load doc path).run w).1 =
      match Yaml.readSource doc (.ofBytes b) with
      | .ok v => .ok v.entries?
      | .error .malformed => .ok none
      | .error f => .error (.yaml f) := by
  have hbytes : (Disk.bytes path).run w = (.ok b, w) := by
    rw [Disk.bytes, run_get_bind, hstat]
    rfl
  unfold load
  rw [run_get_bind]
  unfold World.isThere
  rw [hstat]
  simp only [Bool.not_true, Bool.false_eq_true, if_false]
  rw [run_bind, run_attempt, run_bind, hbytes]
  dsimp only
  cases Yaml.readSource doc (.ofBytes b) with
  | ok v => rfl
  | error f => cases f <;> rfl

/-- Settings are loaded unless there is a file with more wrong than its notation. -/
theorem load_eq_ok_iff {r : Option Mapping} :
    ((load doc path).run w).1 = .ok r ↔ Legible w doc path ∧ r = layer? w doc path := by
  by_cases hfile : ∃ place b, w.stat path = .ok (place, .file b)
  · obtain ⟨place, b, hstat⟩ := hfile
    have hlegible : Legible w doc path ↔
        ∀ f, Yaml.readSource doc (.ofBytes b) = .error f → f = .malformed := by
      refine ⟨fun h f => h place b f hstat, fun h place' b' f hstat' => ?_⟩
      cases hstat.symm.trans hstat'
      exact h f
    rw [run_load_of_file hstat, hlegible, layer?, hstat]
    dsimp only
    cases Yaml.readSource doc (.ofBytes b) with
    | ok v => simp [eq_comm]
    | error f => cases f <;> simp [eq_comm]
  · have hnone : ∀ place b, w.stat path ≠ .ok (place, .file b) := fun place b h =>
      hfile ⟨place, b, h⟩
    have hlegible : Legible w doc path := fun place b f h => absurd h (hnone place b)
    have hlayer : layer? w doc path = none := by
      unfold layer?
      split
      · rename_i place b h
        exact absurd h (hnone place b)
      · rfl
    rw [run_load_of_no_file hnone, hlayer]
    simp [hlegible, eq_comm]

theorem exists_read_of_layer? {m : Mapping} (h : layer? w doc path = some m) :
    ∃ b v, Yaml.readSource doc (.ofBytes b) = .ok v ∧ v.entries? = some m := by
  unfold layer? at h
  split at h
  · rename_i b hstat
    split at h
    · rename_i v hread
      exact ⟨b, v, hread, h⟩
    · cases h
  · cases h

theorem Legible.of_same {v : World} (h : w.SameFiles v) : Legible v doc path ↔ Legible w doc path := by
  rw [Legible, Legible, h.stat]

theorem layer?_of_same {v : World} (h : w.SameFiles v) : layer? v doc path = layer? w doc path := by
  rw [layer?, layer?, h.stat]

end

/-! ## Layer by layer -/

/-- A layer counts when its keys have texts and it can be laid over the settings. -/
theorem withFile_eq_ok_iff {e : Effective} {path : Path} {layer : Option Mapping} {m : Mapping} :
    (∃ e', e.withFile path layer = .ok e' ∧ e'.settings = m) ↔
      Nameable (layer.getD []) ∧ laid? e.settings (layer.getD []) = some m := by
  have hnothing : Nameable [] := ⟨fun _ h => absurd h List.not_mem_nil,
    fun _ h => absurd h List.not_mem_nil⟩
  cases layer with
  | none => simp [Effective.withFile, laid?, hnothing]
  | some n =>
    rw [Effective.withFile, Option.getD_some, laid?]
    by_cases hempty : n.isEmpty = true
    · obtain rfl := List.isEmpty_iff.mp hempty
      simp [hnothing, pure, Except.pure]
    · rw [if_neg hempty, if_neg hempty, ← complaints_eq_ok_iff]
      cases complaints n defaults with
      | error misfit =>
        refine iff_of_false ?_ ?_
        · rintro ⟨e', he', -⟩
          cases he'
        · rintro ⟨⟨found, hfound⟩, -⟩
          cases hfound
      | ok found =>
        cases layered? e.settings n with
        | none =>
          refine iff_of_false ?_ ?_
          · rintro ⟨e', he', -⟩
            cases he'
          · rintro ⟨-, hm⟩
            cases hm
        | some settings =>
          constructor
          · rintro ⟨e', he', rfl⟩
            obtain rfl := Except.ok.inj he'
            exact ⟨⟨found, rfl⟩, rfl⟩
          · rintro ⟨-, hm⟩
            obtain rfl := Option.some.inj hm
            exact ⟨_, rfl, rfl⟩

/-! ## What is put right -/

/-- The entries of a mapping that stands under a name. -/
theorem exists_entries_of_standing {m : Mapping} {name key : String} {b : Bool}
    (h : standing m name key = .mapping b) :
    ∃ n, (Mapping.field m name).entries? = some n ∧ Mapping.contains n (.text key) = b := by
  unfold standing at h
  rw [Mapping.field]
  split at h
  · cases h
  · rename_i v hv
    rw [hv]
    cases v with
    | map o n =>
      exact ⟨_, rfl, (contains_of_keys (keys_entries? rfl) _).trans (Standing.mapping.inj h)⟩
    | _ => cases h

theorem standing_set_same (m : Mapping) (name key : String) (v : Value) :
    standing (Mapping.set m (.text name) v) name key = .ofValue key v := by
  rw [standing, Mapping.get?_set_same]

theorem standing_set_of_ne {m : Mapping} {name other : String} (key : String) {v : Value}
    (hne : other ≠ name) :
    standing (Mapping.set m (.text name) v) other key = standing m other key := by
  rw [standing, Mapping.get?_set_of_ne m name other v hne, standing]

/-- Only what is no mapping is put right. -/
theorem standing_withMapping {name key : String} {standard m : Mapping}
    (hpointer : standing m name key ≠ .pointer) :
    standing (withMapping name standard m) name key =
      match standing m name key with
      | .mapping b => .mapping b
      | _ => .mapping (Mapping.contains standard (.text key)) := by
  have hput := standing_set_same m name key (Value.mapping standard)
  unfold withMapping
  rw [Mapping.field]
  unfold standing at hpointer ⊢
  cases hv : Mapping.get? m (.text name) with
  | none => exact hput
  | some v =>
    rw [hv] at hpointer
    cases v with
    | map o n =>
      change standing m name key = _
      rw [standing, hv]
      rfl
    | loop s o => exact absurd rfl hpointer
    | _ => exact hput

theorem standing_withMapping_of_ne {name other : String} (key : String) {standard m : Mapping}
    (hne : other ≠ name) :
    standing (withMapping name standard m) other key = standing m other key := by
  unfold withMapping
  split
  · rfl
  · exact standing_set_of_ne key hne

/-! ## The choice of contents -/

theorem changedEntries_eq_map (o : Origin) (f : Mapping → Mapping) (m : Mapping) :
    changedEntries o f m = m.map fun e => (e.1, changed o f e.2) := by
  induction m with
  | nil => rfl
  | cons e m ih => rw [changedEntries, ih, List.map_cons]

theorem get?_changedEntries (o : Origin) (f : Mapping → Mapping) (m : Mapping) (k : Scalar) :
    Mapping.get? (changedEntries o f m) k = (Mapping.get? m k).map (changed o f) := by
  rw [changedEntries_eq_map, Mapping.get?_map_value]

theorem keys_changedEntries (o : Origin) (f : Mapping → Mapping) (m : Mapping) :
    (changedEntries o f m).map (·.1) = m.map (·.1) := by
  rw [changedEntries_eq_map, List.map_map]
  rfl

/-- The entries of a section with the choice of contents put right. -/
def fixed (m : Mapping) : Mapping :=
  Mapping.set m (.text contentKey) (.text Contents.skills.name)

theorem contains_fixed {m : Mapping} {key : String} (hne : key ≠ contentKey) :
    Mapping.contains (fixed m) (.text key) = Mapping.contains m (.text key) := by
  rw [fixed, contains_set, Scalar.same_text_text]
  simp [hne.symm]

/-- The settings with the choice of contents put right. -/
def fixedSettings (settings : Mapping) : Mapping :=
  match Mapping.field settings runKey with
  | .map o m =>
    if Value.isNode o then changedEntries o fixed settings
    else Mapping.set settings (.text runKey) (.map o (fixed m))
  | _ => settings

/-- The choice of contents is put right where it is not one of those there are. -/
theorem withContents_eq_ok_iff {e : Effective} {m : Mapping} :
    (∃ e', e.withContents = .ok e' ∧ e'.settings = m) ↔
      (Mapping.field (run e.settings) contentKey).literal?.isSome ∧
      m = if isContents (Mapping.field (run e.settings) contentKey) then e.settings
        else fixedSettings e.settings := by
  unfold Effective.withContents
  dsimp only
  by_cases hcontents : isContents (Mapping.field (run e.settings) contentKey) = true
  · have htext : (Mapping.field (run e.settings) contentKey).literal?.isSome = true := by
      revert hcontents
      generalize Mapping.field (run e.settings) contentKey = chosen
      intro hcontents
      unfold isContents at hcontents
      split at hcontents
      · rfl
      · cases hcontents
    simp [hcontents, htext, pure, Except.pure, eq_comm]
  · rw [if_neg hcontents, if_neg hcontents]
    cases (Mapping.field (run e.settings) contentKey).literal? with
    | none => simp [throw, throwThe, MonadExceptOf.throw]
    | some text =>
      constructor
      · rintro ⟨e', he, rfl⟩
        obtain rfl := Except.ok.inj he
        exact ⟨rfl, rfl⟩
      · rintro ⟨-, rfl⟩
        exact ⟨_, rfl, rfl⟩

theorem get?_of_field_eq_map {m : Mapping} {name : String} {o : Origin} {n : Mapping}
    (h : Mapping.field m name = .map o n) : Mapping.get? m (.text name) = some (.map o n) := by
  rw [Mapping.field] at h
  cases hget : Mapping.get? m (.text name) with
  | none =>
    rw [hget] at h
    cases h
  | some v =>
    rw [hget] at h
    exact congrArg some h

/-- The other keys of the sections stay as they are. -/
theorem standing_fixedSettings {m : Mapping} {key : String} (hne : key ≠ contentKey)
    (name : String) : standing (fixedSettings m) name key = standing m name key := by
  unfold fixedSettings
  split
  · rename_i o n hfield
    split
    · rw [standing, get?_changedEntries, standing]
      cases Mapping.get? m (.text name) with
      | none => rfl
      | some v =>
        cases v with
        | map p x =>
          refine congrArg Standing.mapping ?_
          split
          · rw [contains_fixed hne]
            exact contains_of_keys (keys_changedEntries _ _ _) _
          · exact contains_of_keys (keys_changedEntries _ _ _) _
        | _ => rfl
    · by_cases hname : name = runKey
      · subst hname
        rw [standing_set_same, standing, get?_of_field_eq_map hfield]
        exact congrArg Standing.mapping (contains_fixed hne)
      · exact standing_set_of_ne key hname
  · rfl

/-- Where the settings have a section for runs, the choice is right afterwards. -/
theorem chosen_fixedSettings {m n : Mapping} {o : Origin}
    (h : Mapping.field m runKey = .map o n) :
    Mapping.field (run (fixedSettings m)) contentKey = .text Contents.skills.name := by
  have hfixed : ∀ x, Mapping.get? (fixed x) (.text contentKey) =
      some (.text Contents.skills.name) := fun x => Mapping.get?_set_same x contentKey _
  unfold fixedSettings
  rw [h]
  dsimp only
  by_cases hnode : Value.isNode o = true
  · have hfield : Mapping.field (changedEntries o fixed m) runKey =
        .map o (fixed (changedEntries o fixed n)) := by
      rw [Mapping.field, get?_changedEntries, get?_of_field_eq_map h]
      simp [changed]
    rw [if_pos hnode, run, hfield, Value.entries?, if_pos hnode, Option.getD_some, Mapping.field,
      Mapping.get?_fillEntries, hfixed]
    rfl
  · have hfield : Mapping.field (Mapping.set m (.text runKey) (.map o (fixed n))) runKey =
        .map o (fixed n) := by
      rw [Mapping.field, Mapping.get?_set_same]
      rfl
    rw [if_neg hnode, run, hfield, Value.entries?, if_neg hnode, Option.getD_some, Mapping.field,
      hfixed]
    rfl

/-! ## The settings in effect -/

/-- The settings with both sections. -/
def whole (settings : Mapping) : Mapping :=
  withMapping foldersKey folderDefaults (withMapping runKey runDefaults settings)

/-- The settings with everything put right. -/
def finished (settings : Mapping) : Mapping :=
  if isContents (Mapping.field (run (whole settings)) contentKey) then whole settings
  else fixedSettings (whole settings)

/-- The choice of contents in the settings can be told. -/
def Told (settings : Mapping) : Prop :=
  (Mapping.field (run (whole settings)) contentKey).literal?.isSome

theorem completed_eq_ok_iff {e : Effective} {m : Mapping} :
    (∃ e', e.completed = .ok e' ∧ e'.settings = m) ↔ Told e.settings ∧ m = finished e.settings :=
  withContents_eq_ok_iff

/-- What the file of the user and that of the project set. One file counts once. -/
def userLayer (w : World) : Mapping := (layer? w 0 (userFile w)).getD []

def projectLayer (w : World) (project : Option Path) : Mapping :=
  if projectFile w project = userFile w then []
  else (layer? w 1 (projectFile w project)).getD []

/-- Both files can be read, as far as they are there, and compared with what is known. -/
structure Readable (w : World) (project : Option Path) : Prop where
  user : Legible w 0 (userFile w)
  own : projectFile w project ≠ userFile w → Legible w 1 (projectFile w project)
  userKeys : Nameable (userLayer w)
  ownKeys : Nameable (projectLayer w project)

/-- The defaults with both layers over them. -/
def cascade? (w : World) (project : Option Path) : Option Mapping :=
  (laid? defaults (userLayer w)).bind fun m => laid? m (projectLayer w project)

section
variable {α : Type} {w : World} {a : α}

theorem run_load_bind_eq_ok_iff {doc : Nat} {path : Path} {f : Option Mapping → Work α} :
    ((load doc path >>= f).run w).1 = .ok a ↔ Legible w doc path ∧
      ((f (layer? w doc path)).run ((load doc path).run w).2).1 = .ok a := by
  rw [run_bind]
  cases hload : (load doc path).run w with
  | mk r v =>
    have hiff := @load_eq_ok_iff w doc path
    rw [hload] at hiff
    cases r with
    | ok r =>
      obtain ⟨hlegible, rfl⟩ := hiff.mp rfl
      simp [hlegible]
    | error e =>
      have hillegible : ¬ Legible w doc path := fun h => nomatch hiff.mpr ⟨h, rfl⟩
      simp [hillegible]

theorem run_ofExcept_bind_eq_ok_iff {β : Type} {r : Except Failure β} {f : β → Work α} :
    ((Work.ofExcept r >>= f).run w).1 = .ok a ↔ ∃ b, r = .ok b ∧ ((f b).run w).1 = .ok a := by
  cases r with
  | ok b => simp [ofExcept_ok_bind]
  | error e =>
    exact ⟨fun h => (nomatch h), fun ⟨_, h, _⟩ => nomatch h⟩

end

/-- Both layers are laid over the defaults, and the settings are put right. -/
theorem exists_settled_iff {path ownPath : Path} {user own : Option Mapping} {m : Mapping}
    {hasUser hasProject : Bool} :
    (∃ f, (∃ e, Effective.start.withFile path user = .ok e ∧
        ∃ e', e.withFile ownPath own = .ok e' ∧
          ({ e' with hasUser := hasUser, hasProject := hasProject } : Effective).completed =
            .ok f) ∧ f.settings = m) ↔
      Nameable (user.getD []) ∧ Nameable (own.getD []) ∧
        ∃ s, ((laid? defaults (user.getD [])).bind fun n => laid? n (own.getD [])) = some s ∧
          Told s ∧ m = finished s := by
  constructor
  · rintro ⟨f, ⟨e, huser, e', hown, hcompleted⟩, rfl⟩
    obtain ⟨hkeys, hlaid⟩ := withFile_eq_ok_iff.mp ⟨e, huser, rfl⟩
    obtain ⟨hkeys', hlaid'⟩ := withFile_eq_ok_iff.mp ⟨e', hown, rfl⟩
    have hfine := (@completed_eq_ok_iff { e' with hasUser := hasUser, hasProject := hasProject }
      _).mp ⟨f, hcompleted, rfl⟩
    refine ⟨hkeys, hkeys', e'.settings, ?_, hfine⟩
    change (laid? Effective.start.settings _).bind _ = _
    rw [hlaid]
    exact hlaid'
  · rintro ⟨hkeys, hkeys', s, hcascade, hfine⟩
    obtain ⟨n, hlaid, hlaid'⟩ := Option.bind_eq_some_iff.mp hcascade
    obtain ⟨e, huser, rfl⟩ := (@withFile_eq_ok_iff Effective.start path user n).mpr ⟨hkeys, hlaid⟩
    obtain ⟨e', hown, rfl⟩ := (@withFile_eq_ok_iff e ownPath own s).mpr ⟨hkeys', hlaid'⟩
    obtain ⟨f, hcompleted, rfl⟩ :=
      (@completed_eq_ok_iff { e' with hasUser := hasUser, hasProject := hasProject } m).mpr hfine
    exact ⟨f, ⟨e, huser, e', hown, hcompleted⟩, rfl⟩

/-- There are settings exactly when both files can be read and compared with what is known,
the layers can be laid over one another, and the choice of contents can be told. -/
theorem effective_eq_ok_iff {w : World} {project : Option Path} {m : Mapping} :
    (∃ e, ((effective project).run w).1 = .ok e ∧ e.settings = m) ↔
      Readable w project ∧ ∃ s, cascade? w project = some s ∧ Told s ∧ m = finished s := by
  have hlast : ∀ (r : Except Failure Effective) (v : World) (e : Effective),
      ((Work.ofExcept r).run v).1 = .ok e ↔ r = .ok e := by
    intro r v e
    cases r <;> exact Iff.rfl
  unfold effective
  rw [run_get_bind]
  dsimp only
  simp only [run_load_bind_eq_ok_iff, run_ofExcept_bind_eq_ok_iff]
  by_cases hone : projectFile w project = userFile w
  · have hlayer : projectLayer w project = (none : Option Mapping).getD [] := if_pos hone
    simp only [if_pos hone, pure_bind, run_ofExcept_bind_eq_ok_iff, hlast]
    rw [cascade?, hlayer]
    constructor
    · rintro ⟨e, ⟨huser, hrest⟩, he⟩
      obtain ⟨hkeys, hkeys', hfine⟩ := exists_settled_iff.mp ⟨e, hrest, he⟩
      exact ⟨⟨huser, fun h => absurd hone h, hkeys, hlayer ▸ hkeys'⟩, hfine⟩
    · rintro ⟨hread, hfine⟩
      obtain ⟨e, hrest, he⟩ :=
        exists_settled_iff.mpr ⟨hread.userKeys, hlayer ▸ hread.ownKeys, hfine⟩
      exact ⟨e, ⟨hread.user, hrest⟩, he⟩
  · have hlayer : projectLayer w project = (layer? w 1 (projectFile w project)).getD [] :=
      if_neg hone
    have hsame := still_load 0 (userFile w) w
    simp only [if_neg hone, run_load_bind_eq_ok_iff, run_ofExcept_bind_eq_ok_iff, hlast,
      Legible.of_same hsame, layer?_of_same hsame]
    rw [cascade?, hlayer]
    constructor
    · rintro ⟨e, ⟨huser, e₁, hfile, hown, hrest⟩, he⟩
      obtain ⟨hkeys, hkeys', hfine⟩ := exists_settled_iff.mp ⟨e, ⟨e₁, hfile, hrest⟩, he⟩
      exact ⟨⟨huser, fun _ => hown, hkeys, hlayer ▸ hkeys'⟩, hfine⟩
    · rintro ⟨hread, hfine⟩
      obtain ⟨e, ⟨e₁, hfile, hrest⟩, he⟩ :=
        exists_settled_iff.mpr ⟨hread.userKeys, hlayer ▸ hread.ownKeys, hfine⟩
      exact ⟨e, ⟨hread.user, e₁, hfile, hread.own hone, hrest⟩, he⟩

/-! ## What the settings are like -/

theorem exists_name_of_isContents {v : Value} (h : isContents v = true) :
    ∃ c : Contents, v = .text c.name := by
  unfold isContents at h
  split at h
  · rename_i s
    obtain ⟨c, rfl⟩ := Contents.exists_name h
    exact ⟨c, rfl⟩
  · cases h

/-- The settings have both sections, and a choice of contents. -/
structure Shaped (settings : Mapping) : Prop where
  runs : ∃ m, (Mapping.field settings runKey).entries? = some m
  contents : ∃ c : Contents, Mapping.field (run settings) contentKey = .text c.name
  folders : ∃ m, (Mapping.field settings foldersKey).entries? = some m

/-- Nothing under the names of the sections points out of the settings. -/
def Bounded (settings : Mapping) : Prop :=
  ∀ key, standing settings runKey key ≠ .pointer ∧ standing settings foldersKey key ≠ .pointer

theorem standing_finished {m : Mapping} {key : String} (hne : key ≠ contentKey) (name : String) :
    standing (finished m) name key = standing (whole m) name key := by
  unfold finished
  split
  · rfl
  · exact standing_fixedSettings hne name

section
variable {m : Mapping} (hm : Bounded m)
include hm

theorem standing_whole_run (key : String) :
    standing (whole m) runKey key =
      match standing m runKey key with
      | .mapping b => .mapping b
      | _ => .mapping (Mapping.contains runDefaults (.text key)) := by
  rw [whole, standing_withMapping_of_ne key (by decide), standing_withMapping (hm key).1]

theorem standing_whole_folders (key : String) :
    standing (whole m) foldersKey key =
      match standing m foldersKey key with
      | .mapping b => .mapping b
      | _ => .mapping (Mapping.contains folderDefaults (.text key)) := by
  have hkept : standing (withMapping runKey runDefaults m) foldersKey key =
      standing m foldersKey key := standing_withMapping_of_ne key (by decide)
  rw [whole, standing_withMapping (hkept ▸ (hm key).2), hkept]

/-- Both sections are mappings in the end, and the choice is one of those there are. -/
theorem shaped_finished : Shaped (finished m) := by
  have hne : removeForeignKey ≠ contentKey := by decide
  have hruns : ∃ b, standing (whole m) runKey removeForeignKey = .mapping b := by
    rw [standing_whole_run hm]
    split <;> exact ⟨_, rfl⟩
  have hfolders : ∃ b, standing (whole m) foldersKey removeForeignKey = .mapping b := by
    rw [standing_whole_folders hm]
    split <;> exact ⟨_, rfl⟩
  obtain ⟨b, hruns⟩ := hruns
  obtain ⟨b', hfolders⟩ := hfolders
  refine ⟨?_, ?_, ?_⟩
  · obtain ⟨n, hn, -⟩ :=
      exists_entries_of_standing ((standing_finished hne _).trans hruns)
    exact ⟨n, hn⟩
  · unfold finished
    split
    · rename_i hcontents
      exact exists_name_of_isContents hcontents
    · obtain ⟨n, hn, -⟩ := exists_entries_of_standing hruns
      cases hfield : Mapping.field (whole m) runKey with
      | map o x => exact ⟨.skills, chosen_fixedSettings hfield⟩
      | _ =>
        rw [hfield] at hn
        cases hn
  · obtain ⟨n, hn, -⟩ :=
      exists_entries_of_standing ((standing_finished hne _).trans hfolders)
    exact ⟨n, hn⟩

/-- A setting that has a default is there in the end, unless a section without it has taken
the place of the defaults. -/
theorem contains_finished {key : String} (hne : key ≠ contentKey)
    (hdefault : Mapping.contains runDefaults (.text key) = true) :
    Mapping.contains (run (finished m)) (.text key) = true ↔
      standing m runKey key ≠ .mapping false := by
  have hstanding := (standing_finished hne runKey).trans (standing_whole_run hm key)
  have hcontains : ∀ b, standing (finished m) runKey key = .mapping b →
      Mapping.contains (run (finished m)) (.text key) = b := by
    intro b hb
    obtain ⟨n, hn, hcontains⟩ := exists_entries_of_standing hb
    rw [run, hn]
    exact hcontains
  cases h : standing m runKey key with
  | pointer => exact absurd h (hm key).1
  | mapping b =>
    rw [h] at hstanding
    rw [hcontains b hstanding]
    cases b <;> simp
  | _ =>
    rw [h] at hstanding
    rw [hcontains _ hstanding, hdefault]
    simp

end

/-! ## Where defaults are lost -/

section
variable {w : World} {project : Option Path} {s : Mapping}

theorem read_layers {layer : Mapping} (h : ∃ doc path, layer = (layer? w doc path).getD []) :
    layer.Distinct ∧ Bounded layer := by
  obtain ⟨doc, path, rfl⟩ := h
  cases hlayer : layer? w doc path with
  | none => exact ⟨List.Pairwise.nil, fun _ => ⟨nofun, nofun⟩⟩
  | some m =>
    obtain ⟨b, v, hread, hm⟩ := exists_read_of_layer? hlayer
    have hpointer : ∀ name key, standing m name key ≠ .pointer := by
      intro name key hpointer
      unfold standing at hpointer
      split at hpointer
      · cases hpointer
      · rename_i x hget
        obtain ⟨k, hmem, -⟩ := Mapping.mem_of_get? hget
        cases x with
        | loop shape o => exact Yaml.no_loop_of_readSource hread hm hmem shape o rfl
        | _ => cases hpointer
    exact ⟨Yaml.distinct_of_readSource hread hm, fun key => ⟨hpointer _ key, hpointer _ key⟩⟩

theorem read_userLayer (w : World) : (userLayer w).Distinct ∧ Bounded (userLayer w) :=
  read_layers ⟨0, userFile w, rfl⟩

theorem read_projectLayer (w : World) (project : Option Path) :
    (projectLayer w project).Distinct ∧ Bounded (projectLayer w project) := by
  unfold projectLayer
  split
  · exact ⟨List.Pairwise.nil, fun _ => ⟨nofun, nofun⟩⟩
  · exact read_layers ⟨1, projectFile w project, rfl⟩

/-- What stands under a name after both layers. -/
theorem standing_cascade (h : cascade? w project = some s) (name key : String) :
    standing s name key =
      ((standing defaults name key).laid (standing (userLayer w) name key)).laid
        (standing (projectLayer w project) name key) := by
  obtain ⟨m, hm, hs⟩ := Option.bind_eq_some_iff.mp h
  rw [standing_laid name key (read_projectLayer w project).1 hs,
    standing_laid name key (read_userLayer w).1 hm]

theorem Standing.laid_ne_pointer {lower upper : Standing} (hl : lower ≠ .pointer)
    (hu : upper ≠ .pointer) : lower.laid upper ≠ .pointer := by
  cases lower <;> cases upper <;> simp_all [Standing.laid]

theorem bounded_cascade (h : cascade? w project = some s) : Bounded s := by
  intro key
  have hdefaults : standing defaults runKey key ≠ .pointer ∧
      standing defaults foldersKey key ≠ .pointer := ⟨nofun, nofun⟩
  have huser := (read_userLayer w).2 key
  have hown := (read_projectLayer w project).2 key
  rw [standing_cascade h, standing_cascade h]
  exact ⟨Standing.laid_ne_pointer (Standing.laid_ne_pointer hdefaults.1 huser.1) hown.1,
    Standing.laid_ne_pointer (Standing.laid_ne_pointer hdefaults.2 huser.2) hown.2⟩

/-- The settings that are on or off, each of which has a default. -/
def switches : List String := [removeForeignKey, keepExistingKey, deleteOrphansKey]

/-- The user's settings have something in the place of the section for runs that is no
mapping, and in its place the project's settings have a section without the key. -/
def Lost (w : World) (project : Option Path) (key : String) : Prop :=
  standing (userLayer w) runKey key = .other ∧
    standing (projectLayer w project) runKey key = .mapping false

/-- A switch has a value in the end, unless it was lost between the layers. -/
theorem contains_switch_iff (h : cascade? w project = some s) {key : String}
    (hkey : key ∈ switches) :
    Mapping.contains (run (finished s)) (.text key) = true ↔ ¬ Lost w project key := by
  have hdefault : Mapping.contains runDefaults (.text key) = true := by
    revert key
    decide
  have hne : key ≠ contentKey := by
    revert key
    decide
  have hstanding : standing defaults runKey key = .mapping true := congrArg Standing.mapping hdefault
  have huser := ((read_userLayer w).2 key).1
  have hown := ((read_projectLayer w project).2 key).1
  rw [contains_finished (bounded_cascade h) hne hdefault, standing_cascade h, hstanding, Lost]
  cases hu : standing (userLayer w) runKey key <;>
    cases ho : standing (projectLayer w project) runKey key <;>
    simp_all [Standing.laid]

end

end Settings

end AgentRelay
