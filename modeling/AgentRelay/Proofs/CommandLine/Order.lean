import AgentRelay.CommandLine.Program
import AgentRelay.Proofs.Settings.Cascade
import AgentRelay.Proofs.Sync.Report

/-
  The order that a command line and the settings come to.

  Settings should never be in the way of a run. `settings_serve_iff` says for which files
  they are not: then whatever subcommand is called in whatever way, there is an order unless
  the words themselves name contents that there are not. In `undecodableWorld` the settings
  cannot be read, and in `lostWorld` they are read without a complaint about what they lack,
  and there is no order (`settings_fail`).
-/

namespace AgentRelay.CommandLine

open Work

/-- The words name contents that there are, if they name any. -/
def Arguments.NamesContents (a : Arguments) : Prop :=
  ∀ g, a.value? .contents = some g → (Contents.ofName? g.shown).isSome

section
variable {settings : Mapping}

theorem exists_contents {a : Arguments} (hshaped : Settings.Shaped settings)
    (ha : a.NamesContents) : ∃ c, contents a settings = .ok c := by
  obtain ⟨standard, hstandard⟩ := hshaped.contents
  unfold contents
  dsimp only
  rw [hstandard]
  cases hg : a.value? .contents with
  | none =>
    refine ⟨standard, ?_⟩
    simp only [Option.map_none, Option.getD_none, Value.text?, Option.getD_some,
      Contents.ofName?_name]
  | some g =>
    obtain ⟨c, hc⟩ := Option.isSome_iff_exists.mp (ha g hg)
    refine ⟨c, ?_⟩
    simp only [Option.map_some, Option.getD_some, hc]

theorem exists_chosen (a : Arguments) (c : Choice) {key : String}
    (h : Mapping.contains (Settings.run settings) (.text key) = true) :
    ∃ b, chosen a c settings key = .ok b := by
  obtain ⟨v, hv⟩ := Option.isSome_iff_exists.mp h
  refine ⟨a.has c || v.truthy, ?_⟩
  rw [chosen, setting, hv]
  rfl

theorem exists_setup (a : Arguments) (w : World) (hshaped : Settings.Shaped settings) :
    ∃ s, setup a w settings = .ok s := by
  obtain ⟨m, hm⟩ := hshaped.folders
  have hfolders : Settings.chosenFolders settings = .ok (m.filterMap Settings.chosenFolder?) := by
    rw [Settings.chosenFolders, Settings.folderEntries, hm]
    rfl
  rw [setup, chosenFolders, hfolders]
  exact ⟨_, rfl⟩

/-- Settings with both sections and all switches come to an order. -/
theorem exists_order (c : Subcommand) {a : Arguments} (w : World)
    (hshaped : Settings.Shaped settings)
    (hswitches : ∀ key ∈ Settings.switches,
      Mapping.contains (Settings.run settings) (.text key) = true)
    (ha : a.NamesContents) : ∃ o, order c a w settings = .ok o := by
  obtain ⟨contents, hcontents⟩ := exists_contents hshaped ha
  obtain ⟨hremove, hkeep, hdelete⟩ :
      Mapping.contains (Settings.run settings) (.text Settings.removeForeignKey) = true ∧
        Mapping.contains (Settings.run settings) (.text Settings.keepExistingKey) = true ∧
        Mapping.contains (Settings.run settings) (.text Settings.deleteOrphansKey) = true := by
    simpa [Settings.switches] using hswitches
  obtain ⟨remove, hremove⟩ := exists_chosen a .removeForeign hremove
  obtain ⟨keep, hkeep⟩ := exists_chosen a .keepExisting hkeep
  obtain ⟨delete, hdelete⟩ := exists_chosen a .deleteOrphans hdelete
  obtain ⟨places, hplaces⟩ := exists_setup a w hshaped
  rw [order, hcontents, hremove, hkeep, hplaces, hdelete]
  cases c.isPreview <;> exact ⟨_, rfl⟩

end

/-- For a project and a world, there are settings with both sections, a choice of contents
and all switches, and with them an order for every subcommand and all words that name no
contents that there are not, exactly when both files with settings can be read and compared
with what is known, the layers can be laid over one another, the choice of contents can be
told, and no switch is lost: that is, the user's settings do not have something in the place
of the section for runs that is no mapping, while the project's have a section without the
switch there. Whenever there are settings, they have both sections and a choice of
contents. -/
theorem settings_serve_iff (project : Option Path) (w : World) :
    ((∃ e w', (Settings.effective project).run w = (.ok e, w') ∧ Settings.Shaped e.settings ∧
        (∀ key ∈ Settings.switches,
          Mapping.contains (Settings.run e.settings) (.text key) = true) ∧
        ∀ c a, a.NamesContents → ∃ o, order c a w' e.settings = .ok o) ↔
      Settings.Readable w project ∧
        (∃ s, Settings.cascade? w project = some s ∧ Settings.Told s) ∧
        ∀ key ∈ Settings.switches, ¬ Settings.Lost w project key) ∧
    ∀ e w', (Settings.effective project).run w = (.ok e, w') → Settings.Shaped e.settings := by
  have hsettings : ∀ e w', (Settings.effective project).run w = (.ok e, w') →
      Settings.Readable w project ∧ ∃ s, Settings.cascade? w project = some s ∧
        Settings.Told s ∧ e.settings = Settings.finished s := fun e w' hrun =>
    Settings.effective_eq_ok_iff.mp ⟨e, congrArg Prod.fst hrun, rfl⟩
  refine ⟨⟨?_, ?_⟩, fun e w' hrun => ?_⟩
  · rintro ⟨e, w', hrun, -, hswitches, -⟩
    obtain ⟨hread, s, hs, htold, he⟩ := hsettings e w' hrun
    rw [he] at hswitches
    exact ⟨hread, ⟨s, hs, htold⟩, fun key hkey =>
      (Settings.contains_switch_iff hs hkey).mp (hswitches key hkey)⟩
  · rintro ⟨hread, ⟨s, hs, htold⟩, hkept⟩
    obtain ⟨e, hrun, he⟩ := Settings.effective_eq_ok_iff.mpr ⟨hread, s, hs, htold, rfl⟩
    have hshaped : Settings.Shaped e.settings :=
      he ▸ Settings.shaped_finished (Settings.bounded_cascade hs)
    have hswitches : ∀ key ∈ Settings.switches,
        Mapping.contains (Settings.run e.settings) (.text key) = true := fun key hkey =>
      he ▸ (Settings.contains_switch_iff hs hkey).mpr (hkept key hkey)
    exact ⟨e, _, Prod.ext hrun rfl, hshaped, hswitches, fun c a ha =>
      exists_order c _ hshaped hswitches ha⟩
  · obtain ⟨-, s, hs, -, he⟩ := hsettings e w' hrun
    exact he ▸ Settings.shaped_finished (Settings.bounded_cascade hs)

/-- A user and a project with settings, in files with some text. -/
def settingsWorld (user own : ByteArray) : World where
  tree :=
    [(["h"], .folder), (["h", ".config"], .folder), (["h", ".config", "acsync"], .folder),
      (["h", ".config", "acsync", "config.yaml"], .file user),
      (["w"], .folder), (["w", ".config"], .folder), (["w", ".config", "acsync"], .folder),
      (["w", ".config", "acsync", "config.yaml"], .file own)]
  home := ⟨1, ["h"]⟩
  here := ⟨1, ["w"]⟩
  repository := some ⟨1, ["w"]⟩
  held := none
  printed := []
  warnings := []

/-- The user chooses contents that there are not, and the project has a number in the place
of the base folders. -/
def oddWorld : World :=
  settingsWorld (Text.encode "sync:\n  content_type: all\n") (Text.encode "dirs: 3\n")

/-- Odd settings serve: there is an order with the contents that the words name. -/
theorem odd_settings_serve : ∃ e w',
    (Settings.effective (some ⟨1, ["w"]⟩)).run oddWorld = (.ok e, w') ∧
      Settings.Shaped e.settings ∧
      ∃ o, order .apply ⟨[.text "claude"], [(.contents, .text "both")], false⟩ w' e.settings =
        .ok o := by
  have hreturns : ((Settings.effective (some ⟨1, ["w"]⟩)).run oddWorld).1.toOption.isSome =
      true := by decide +kernel
  have huser : ∀ key ∈ Settings.switches,
      Settings.standing (Settings.userLayer oddWorld) Settings.runKey key ≠ .other := by
    decide +kernel
  cases hrun : (Settings.effective (some ⟨1, ["w"]⟩)).run oddWorld with
  | mk r w' =>
    cases r with
    | error e =>
      rw [hrun] at hreturns
      cases hreturns
    | ok e =>
      obtain ⟨hread, s, hs, htold, -⟩ :=
        Settings.effective_eq_ok_iff.mp ⟨e, congrArg Prod.fst hrun, rfl⟩
      obtain ⟨e', v, hrun', hshaped, -, horder⟩ :=
        (settings_serve_iff (some ⟨1, ["w"]⟩) oddWorld).1.mpr
          ⟨hread, ⟨s, hs, htold⟩, fun key hkey hlost => huser key hkey hlost.1⟩
      refine ⟨e', v, hrun.symm.trans hrun', hshaped, horder _ _ fun g hg => ?_⟩
      obtain rfl : Given.text "both" = g := Option.some.inj hg
      decide

/-- The file of the user is no text. -/
def undecodableWorld : World := settingsWorld ⟨#[255]⟩ (Text.encode "")

/-- The user has nothing in the place of the section for runs, and the project chooses
contents there. -/
def lostWorld : World :=
  settingsWorld (Text.encode "sync:\n") (Text.encode "sync:\n  content_type: both\n")

/-- Why there is no order with the settings of a world, if there is none. -/
def orderFailure? (w : World) : Option Failure :=
  let found : Except Failure Sync.Order := do
    let e ← ((Settings.effective (some ⟨1, ["w"]⟩)).run w).1
    order .apply ⟨[.text "claude"], [], false⟩ w e.settings
  match found with
  | .ok _ => none
  | .error f => some f

/-- There may be no settings, and there may be settings without an order. -/
theorem settings_fail :
    ((Settings.effective (some ⟨1, ["w"]⟩)).run undecodableWorld).1.toOption.isNone ∧
      ((Settings.effective (some ⟨1, ["w"]⟩)).run lostWorld).1.toOption.isSome ∧
      orderFailure? undecodableWorld = some (.yaml .undecodable) ∧
      orderFailure? lostWorld = some (.noSetting Settings.removeForeignKey) := by
  refine ⟨?_, ?_, ?_, ?_⟩
  · decide +kernel
  · decide +kernel
  · decide +kernel
  · decide +kernel

end AgentRelay.CommandLine
