import AgentRelay.Proofs.Document.Again
import AgentRelay.Proofs.Hub.Again
import AgentRelay.Proofs.Sync.Rereading
import AgentRelay.Proofs.Sync.Turns

/-
  Items that are settled.

  A command is settled when it stands at its target as what it becomes there once more
  (`CommandSettled`), and a skill when it also stands in its folder with its support files
  and its configuration (`SkillSettled`). An item that has been taken is settled
  (`settled_of_takeCommand`, `settled_of_takeSkill`); for the hub this rests on the fields
  that are found there coming back as they were written. An item that is settled can be
  taken again, and no file changes (`CommandSettled.repeats`, `SkillSettled.repeats`).
-/

namespace AgentRelay.Sync

open Files (Place Tree Entry ValidName)
open Work
open Yaml (InDocument)

/-! ## What a command becomes again -/

section
variable {s d : Agent} {removeForeign : Bool} {file target : Path} {b : ByteArray}
  {there : Option ByteArray} {text : String}

theorem spoke_of_ne_hub {a : Agent} (h : a ≠ Agent.hub) : a ∈ Agent.spokes := by
  cases a <;> first | decide | exact absurd rfl h

theorem clear_broughtCommand {n : Neutral} (hs : s ≠ Agent.hub)
    (h : broughtCommand s d file b = .ok n) :
    n.Clear 1 ∧ n.background.agent = some s.name := by
  obtain ⟨c, hc, h⟩ := exists_of_bind_eq_ok h
  obtain ⟨t, -, hc⟩ := exists_of_bind_eq_ok hc
  have hn := ok_of_mapError h
  exact ⟨Command.clear_toNeutral hs (Command.clear_of_ofText (by decide) hc) hn,
    Command.agent_toNeutral hn⟩

/-- The fields the hub finds have no nodes but their own. -/
theorem from_existingFields {fields : Mapping} (h : existingFields d target there = .ok fields) :
    fields.From (InDocument 1) := by
  have hnone : Mapping.From (InDocument 1) [] := fun e he => absurd he List.not_mem_nil
  unfold existingFields at h
  split at h
  · rename_i hhub
    split at h
    · obtain ⟨c, hc, rfl⟩ := exists_of_map_eq_ok h
      obtain ⟨t, -, hc⟩ := exists_of_bind_eq_ok hc
      rw [hhub] at hc
      obtain ⟨⟨m, content⟩, hsplit, rfl⟩ := exists_of_map_eq_ok hc
      exact Frontmatter.from_split (ok_of_mapError hsplit)
    · obtain rfl := Except.ok.inj h
      exact hnone
  · obtain rfl := Except.ok.inj h
    exact hnone

/-- What the hub finds in a text. -/
theorem existingFields_encode {fields : Mapping} {content : String}
    (h : Frontmatter.split 1 (Frontmatter.reread text) = .ok (fields, content)) :
    existingFields Agent.hub target (some (Text.encode text)) = .ok fields := by
  have hc : Command.ofBytes Agent.hub 1 target (Text.encode text) =
      Command.ofText Agent.hub 1 target.text (Frontmatter.reread text) := by
    rw [Command.ofBytes, Disk.decoded_encode]
    rfl
  rw [existingFields, if_pos rfl, hc]
  change (((Frontmatter.split 1 (Frontmatter.reread text)).mapError _).map _).map _ = _
  rw [h]
  rfl

/-- What a command has become, it becomes again where it stands. -/
theorem converted_again (hne : s ≠ d)
    (hback : d = Agent.hub → ∀ n existing, broughtCommand s d file b = .ok n →
      existingFields d target there = .ok existing →
      Frontmatter.ComesBack 1 (n.toCommand d ⟨removeForeign, existing⟩).fields (bodyText d n.body))
    (h : converted s d removeForeign file target b there = .ok text) :
    converted s d removeForeign file target b (some (Text.encode text)) = .ok text := by
  by_cases hhub : d = Agent.hub
  · subst hhub
    obtain ⟨n, existing, hn, hexisting, htorn, htext⟩ := converted_eq_ok_iff.mp h
    obtain ⟨hclear, hagent⟩ := clear_broughtCommand hne hn
    have hjoin : Frontmatter.join (n.toCommand Agent.hub ⟨removeForeign, existing⟩).fields
        (bodyText Agent.hub n.body) = .ok text := by
      obtain ⟨t, hjoined, heq⟩ := exists_of_map_eq_ok htext
      rw [Phrase.whole.inj heq]
      exact ok_of_mapError hjoined
    obtain ⟨read, c, g, hsplit, hfrom, hread⟩ :=
      Frontmatter.split_again hjoin (hback rfl n existing hn hexisting)
    refine converted_eq_ok_iff.mpr ⟨n, read, hn, existingFields_encode hsplit, htorn, ?_⟩
    rw [Hub.text_toCommand_again (spoke_of_ne_hub hne) hclear hagent removeForeign
      (from_existingFields hexisting) hfrom hread, htext]
  · exact (converted_congr fun heq => absurd heq hhub).trans h

end

/-! ## Commands -/

/-- What is told of an item that is there already. -/
def Order.again (o : Order) (target : Path) : Operation :=
  ⟨if o.keepExisting then .skipped else .modified, target, false⟩

/-- The command in a file stands at its target, as what it becomes there unless what exists is
kept. -/
def CommandSettled (here : Path) (s d : Agent) (o : Order) (file target : Path) (v : World) : Prop :=
  ∃ b n there, v.tree.bytes? (Path.spot here file) = some b ∧ broughtCommand s d file b = .ok n ∧
    v.tree.bytes? (Path.spot here target) = some there ∧
    (o.keepExisting = false → ∃ text, there = Text.encode text ∧
      converted s d o.removeForeign file target b (some there) = .ok text)

section
variable {here : Path} {s d : Agent} {o : Order} {file target : Path} {w v : World}

theorem CommandSettled.same (h : CommandSettled here s d o file target w)
    (hfile : v.tree.bytes? (Path.spot here file) = w.tree.bytes? (Path.spot here file))
    (htarget : v.tree.bytes? (Path.spot here target) = w.tree.bytes? (Path.spot here target)) :
    CommandSettled here s d o file target v := by
  obtain ⟨b, n, there, hb, hn, hthere, hagain⟩ := h
  exact ⟨b, n, there, hfile.trans hb, hn, htarget.trans hthere, hagain⟩

theorem bytesAt_clean (h : w.Sound) (ht : target.Clean) :
    bytesAt w target = w.tree.bytes? (Path.spot w.here target) := by
  rw [bytesAt, Path.place_eq_spot ht]
  by_cases hfile : w.isFile target = true
  · rw [if_pos hfile]
  · rw [if_neg hfile]
    exact (Option.not_isSome_iff_eq_none.mp (mt (World.isFile_iff h ht).mpr hfile)).symm

/-- A command that has been taken is settled. -/
theorem settled_of_takeCommand (hne : s ≠ d) (hwrites : o.preview = false) (hf : file.Clean)
    (ht : target.Clean) (hapart : Path.spot here file ≠ Path.spot here target)
    (hw : w.Stands here target.root)
    (hback : d = Agent.hub → ∀ b n existing, w.tree.bytes? (Path.spot here file) = some b →
      broughtCommand s d file b = .ok n →
      existingFields d target (w.tree.bytes? (Path.spot here target)) = .ok existing →
      Frontmatter.ComesBack 1 (n.toCommand d ⟨o.removeForeign, existing⟩).fields
        (bodyText d n.body))
    {op : Operation} (h : (takeCommand s d o file target).run w = (.ok op, v)) :
    CommandSettled here s d o file target v := by
  obtain ⟨b, n, hb, hn, hdone⟩ := of_run_takeCommand hwrites hf.tidy ht.tidy hw h
  rw [Path.place_eq_spot hf] at hb
  rcases hdone with ⟨hskips, -, hsame⟩ | ⟨hskips, -, text, hconverted, hstat⟩
  · rw [Order.skips, Bool.and_eq_true] at hskips
    obtain ⟨there, hthere⟩ := Option.isSome_iff_exists.mp
      ((World.isFile_iff hw.sound ht).mp hskips.1)
    rw [hw.here_eq] at hthere
    refine ⟨b, n, there, by rw [hsame.tree, hb], hn, by rw [hsame.tree, hthere], fun hkeep => ?_⟩
    rw [hkeep] at hskips
    cases hskips.2
  · have hgrows := (takeCommand_grows s d o file ht.tidy rfl : Grows here target.root _ _) w hw
    rw [h, Path.place_eq_spot ht] at hgrows
    rw [bytesAt_clean hw.sound ht, hw.here_eq] at hconverted
    obtain ⟨-, hget⟩ := World.stat_iff_locate.mp hstat
    rw [Path.place_eq_spot ht] at hget
    exact ⟨b, n, Text.encode text, (hgrows.2.bytes? hapart).trans hb, hn,
      Tree.bytes?_eq_some_iff.mpr hget, fun _ => ⟨text, rfl,
        converted_again hne (fun hhub n existing => hback hhub b n existing hb) hconverted⟩⟩

theorem run_existingCommand (hw : w.Sound) (ht : target.Clean) {b : ByteArray}
    (hb : w.tree.bytes? (Path.spot w.here target) = some b) {fields : Mapping}
    (h : existingFields d target (some b) = .ok fields) :
    (existingCommand d target true).run w = (.ok fields, w) := by
  unfold existingFields at h
  unfold existingCommand
  by_cases hhub : d = Agent.hub
  · rw [if_pos hhub] at h
    obtain ⟨c, hc, rfl⟩ := exists_of_map_eq_ok h
    rw [if_pos ⟨hhub, rfl⟩, run_bind_of_ok (Command.run_read hw ht hb hc)]
    rfl
  · rw [if_neg hhub] at h
    obtain rfl := Except.ok.inj h
    rw [if_neg fun hboth => hhub hboth.1]
    rfl

/-- The work ends with an operation, and no file changes. -/
def Repeats (here : Path) (root : Nat) (op : Operation) (x : Work Operation) (w : World) : Prop :=
  ∃ v, x.run w = (.ok op, v) ∧ v.Stands here root ∧ w.SameBytes v

theorem Repeats.bind {α : Type} {root : Nat} {op : Operation} {x : Work α}
    {f : α → Work Operation} {u : World} {a : α} (hrun : x.run w = (.ok a, u))
    (hsame : w.SameFiles u) (h : Repeats here root op (f a) u) :
    Repeats here root op (x >>= f) w := by
  obtain ⟨v, hv, hstands, hbytes⟩ := h
  exact ⟨v, (run_bind_of_ok hrun).trans hv, hstands, hsame.sameBytes.trans hbytes⟩

/-- Telling what is missing leaves every file as it is. -/
theorem repeats_finish {root : Nat} {a : Agent} {body : List Body.Segment} {label : String}
    {op op' : Operation} {write : Work Operation} (hwrites : o.preview = false)
    (hwrite : ∀ y : World, y.Stands here root → w.SameFiles y → Repeats here root op' write y)
    (hw : w.Stands here root) :
    Repeats here root op' (
      have finish : PUnit → Work Operation := fun _ =>
        if o.preview = true then pure op else write
      if o.verbose = true then tellMissing a body label >>= finish else finish PUnit.unit) w := by
  refine of_finish (P := fun x => ∀ y : World, y.Stands here root → w.SameFiles y →
    Repeats here root op' x y) a o body label (fun x hx y hy hsame => ?_) (fun hpreview => ?_)
    (fun _ => hwrite) w hw (World.SameFiles.refl w)
  · have hstill := still_tellMissing a body label y
    have hends : Ends (fun _ => False) (tellMissing a body label) := ends_tellMissing a body label
    cases hrun : (tellMissing a body label).run y with
    | mk r u =>
      rw [hrun] at hstill
      cases r with
      | error e => exact ((hends y).2 e (by rw [hrun])).elim
      | ok _ => exact Repeats.bind hrun hstill (hx u (hstill.stands hy) (hsame.trans hstill))
  · rw [hwrites] at hpreview
    cases hpreview

/-- A text can be written where it stands. -/
theorem repeats_writing (ht : target.Clean) {text : String} {op : Operation}
    (hw : w.Stands here target.root)
    (hb : w.tree.bytes? (Path.spot here target) = some (Text.encode text)) :
    Repeats here target.root op (do
      Disk.folders target.parent
      Disk.write target text
      return op) w := by
  have hget := Tree.bytes?_eq_some_iff.mp hb
  have hparts : target.parts ≠ [] := fun hnil => by
    have hstart : Path.spot here target = Path.start here target.root := by
      rw [Path.spot, hnil, List.append_nil]
    rw [hstart, hw.start] at hget
    cases hget
  have hspot : Path.spot here target.parent = (Path.spot here target).dropLast := by
    rw [Path.spot, Path.spot, List.dropLast_append_of_ne_nil hparts]
    rfl
  have hopen : ∀ q, q <+: Path.spot here target.parent → w.tree.Open q := fun q hq => by
    rw [hspot] at hq
    refine hw.sound.tree.open_above hget (hq.trans (List.dropLast_prefix _)) fun heq => ?_
    have hlen := hq.length_le
    have hne : Path.spot here target ≠ [] := by simp [Path.spot, hparts]
    have := List.length_pos_iff.mpr hne
    rw [heq, List.length_dropLast] at hlen
    omega
  obtain ⟨u, hfolders, hu, hsame, -⟩ := Disk.run_folders hw ht.parent rfl hopen
  obtain ⟨v, hwrite, hv, hsame'⟩ := Disk.run_rewrite hu ht rfl (by rw [hsame.bytes, hb])
  refine ⟨v, ?_, hv, hsame.trans hsame'⟩
  rw [run_bind_of_ok hfolders, Disk.write, run_bind_of_ok hwrite]
  rfl

/-- A command that is settled can be taken again, and no file changes. -/
theorem CommandSettled.repeats (h : CommandSettled here s d o file target w)
    (hwrites : o.preview = false) (hf : file.Clean) (ht : target.Clean)
    (hw : w.Stands here target.root) :
    Repeats here target.root (o.again target) (takeCommand s d o file target) w := by
  obtain ⟨b, n, there, hb, hn, hthere, hagain⟩ := h
  obtain ⟨c, hc, hneutral⟩ := exists_of_bind_eq_ok hn
  have hfile : w.isFile target = true :=
    (World.isFile_iff hw.sound ht).mpr (by rw [hw.here_eq, hthere]; rfl)
  have hread := Command.run_read hw.sound hf (by rw [hw.here_eq]; exact hb) hc
  refine Repeats.bind hread (World.SameFiles.refl w) ?_
  rw [Repeats, hneutral, ofExcept_ok_bind, run_get_bind]
  dsimp only
  rw [hfile]
  cases hkeep : o.keepExisting with
  | true =>
    refine ⟨w, ?_, hw, World.SameBytes.refl w⟩
    rw [Order.skips, hkeep, Order.again, hkeep, hwrites]
    rfl
  | false =>
    obtain ⟨text, rfl, hconverted⟩ := hagain hkeep
    obtain ⟨n', existing, hn', hexisting, htorn, htext⟩ := converted_eq_ok_iff.mp hconverted
    obtain rfl := Except.ok.inj (hn.symm.trans hn')
    have hfound := run_existingCommand hw.sound ht (by rw [hw.here_eq]; exact hthere) hexisting
    rw [if_neg (by simp [Order.skips, hkeep])]
    refine Repeats.bind hfound (World.SameFiles.refl w) ?_
    have hstat : w.stat file = .ok (Path.spot w.here file, .file b) :=
      (World.stat_eq_ok_iff hw.sound hf).mpr ⟨rfl, by
        rw [hw.here_eq]; exact Tree.bytes?_eq_some_iff.mp hb⟩
    have hwhole : Command.whole? (Command.isTorn w s file) (.whole text) = some text :=
      Command.whole?_eq_some_iff.mpr ⟨(Command.isTorn_eq s hstat).trans htorn, rfl⟩
    rw [htext, ofExcept_ok_bind, hwhole]
    refine repeats_finish hwrites (fun y hy hsame => ?_) hw
    have hop : o.again target = .writing target true o.preview := by
      rw [Order.again, hkeep, hwrites]
      rfl
    rw [hop, hwrites]
    exact repeats_writing ht hy (by rw [hsame.tree]; exact hthere)

end

/-! ## Skills -/

/-- What an agent finds in the text of a skill it has: only the hub looks. -/
def FoundAgain (d : Agent) (text : String) (fields : Mapping) : Prop :=
  if d = Agent.hub then
    ∃ content, Frontmatter.split 1 (Frontmatter.reread text) = .ok (fields, content)
  else fields = []

/-- The skill in a folder stands at its target, as what it becomes there unless what exists
is kept. -/
def SkillSettled (here : Path) (s d : Agent) (o : Order) (folder target : Path) (v : World) :
    Prop :=
  ∃ skill n, ((Skill.read s 0 folder.text).run v).1 = .ok skill ∧
    skill.toNeutral s (some d.name) = .ok n ∧
    (v.tree.bytes? (Path.spot here target ++ [Skill.ownFile])).isSome = true ∧
    (o.keepExisting = false → ∃ text existing, FoundAgain d text existing ∧
      (n.toSkill d ⟨o.removeForeign, existing⟩).text = .ok text ∧
      Skill.Stored here d (n.toSkill d ⟨o.removeForeign, existing⟩) folder target v)

section
variable {here : Path} {s d : Agent} {o : Order} {folder target : Path} {w v : World}

theorem support_toSkill {skill : Skill} {n : Neutral} (h : skill.toNeutral s (some d.name) = .ok n)
    (options : WriteOptions) : (n.toSkill d options).support = skill.support := by
  rw [Neutral.toSkill, support_toNeutral h]
  rfl

/-- A skill is settled as long as the files in its folder are the same and its target is as it
was. -/
theorem SkillSettled.stays (h : SkillSettled here s d o folder target w) (hw : w.Sound)
    (hv : v.Sound) (hwhere : w.here = here) (hhere : v.here = here) (hf : folder.Clean)
    (hsource : ∀ names, v.tree.bytes? (Path.spot here folder ++ names) =
      w.tree.bytes? (Path.spot here folder ++ names))
    (htarget : ∀ names, v.tree.get? (Path.spot here target ++ names) =
      w.tree.get? (Path.spot here target ++ names)) : SkillSettled here s d o folder target v := by
  obtain ⟨skill, n, hread, hn, hown, hagain⟩ := h
  have hbelow : Skill.SameBelow folder w v := fun names => by
    rw [hwhere, hhere]
    exact (hsource names).symm
  obtain ⟨hsame, -, -⟩ := Skill.agrees_read hw hv s 0 hf hbelow w v (World.SameFiles.refl w)
    (World.SameFiles.refl v)
  refine ⟨skill, n, hsame ▸ hread, hn, by rw [Tree.bytes?, htarget]; exact hown, fun hkeep => ?_⟩
  obtain ⟨text, existing, hfound, htext, hstored⟩ := hagain hkeep
  exact ⟨text, existing, hfound, htext, hstored.stays hv hsource htarget⟩

theorem from_existingSkill {there : Bool} {fields : Mapping} (ht : target.Tidy)
    (h : (existingSkill d target there).run w = (.ok fields, v)) :
    fields.From (InDocument 1) ∧ (d ≠ Agent.hub → fields = []) := by
  unfold existingSkill at h
  split at h
  · rename_i hhub
    obtain ⟨skill, u, hread, h⟩ := ok_of_run_bind h
    obtain ⟨hfields, -⟩ := Prod.mk.inj h
    obtain rfl := Except.ok.inj hfields
    have hfrom := Skill.yields_readFrom d 1 ht w (World.SameFiles.refl w) skill (by rw [hread])
    obtain ⟨text, hsplit⟩ := hfrom.parts.own
    exact ⟨Frontmatter.from_split hsplit, fun hne => absurd hhub.1 hne⟩
  · obtain ⟨hfields, -⟩ := Prod.mk.inj h
    obtain rfl := Except.ok.inj hfields
    exact ⟨fun e he => absurd he List.not_mem_nil, fun _ => rfl⟩

/-- A skill that has been written is found again as what it became. -/
theorem exists_foundAgain (hne : s ≠ d) {skill : Skill} {n : Neutral} (hclear : skill.Clear 1)
    (hn : skill.toNeutral s (some d.name) = .ok n) {removeForeign : Bool} {existing : Mapping}
    (hfrom : existing.From (InDocument 1)) (hnone : d ≠ Agent.hub → existing = [])
    (hback : d = Agent.hub → Frontmatter.ComesBack 1
      (n.toSkill d ⟨removeForeign, existing⟩).fields (n.toSkill d ⟨removeForeign, existing⟩).content)
    {text : String} (htext : (n.toSkill d ⟨removeForeign, existing⟩).text = .ok text) :
    ∃ read, FoundAgain d text read ∧ (n.toSkill d ⟨removeForeign, read⟩).text = .ok text ∧
      (n.toSkill d ⟨removeForeign, read⟩).config =
        (n.toSkill d ⟨removeForeign, existing⟩).config := by
  by_cases hhub : d = Agent.hub
  · subst hhub
    obtain ⟨read, c, g, hsplit, hread, hrereads⟩ :=
      Frontmatter.split_again (ok_of_mapError htext) (hback rfl)
    refine ⟨read, by rw [FoundAgain, if_pos rfl]; exact ⟨c, hsplit⟩, ?_, rfl⟩
    rw [Hub.text_toSkill_again (spoke_of_ne_hub hne) (Skill.clear_toNeutral hne hclear hn)
      (Skill.agent_toNeutral hn) removeForeign hfrom hread hrereads, htext]
  · exact ⟨existing, by rw [FoundAgain, if_neg hhub]; exact hnone hhub, htext, rfl⟩

section
variable (hne : s ≠ d) (hf : folder.Clean) (ht : target.Clean)
  (hapart : ∀ names, ¬ Path.spot here target <+: Path.spot here folder ++ names)
include hne hf ht hapart

/-- A skill that has been written is settled. -/
theorem settled_of_write {skill : Skill} {n : Neutral} {existing : Mapping}
    (hfits : Skill.Fits skill.support) (hclear : skill.Clear 1)
    (hn : skill.toNeutral s (some d.name) = .ok n) (hfrom : existing.From (InDocument 1))
    (hnone : d ≠ Agent.hub → existing = [])
    (hback : d = Agent.hub → Frontmatter.ComesBack 1
      (n.toSkill d ⟨o.removeForeign, existing⟩).fields
      (n.toSkill d ⟨o.removeForeign, existing⟩).content)
    (hw : w.Stands here target.root) {paths : List Path}
    (hwrite : (Skill.write d (n.toSkill d ⟨o.removeForeign, existing⟩) (some folder) target).run w =
      (.ok paths, v))
    (hread : ((Skill.read s 0 folder.text).run v).1 = .ok skill) :
    SkillSettled here s d o folder target v := by
  have hsupport := support_toSkill hn ⟨o.removeForeign, existing⟩
  obtain ⟨hstored, -⟩ := Skill.stored_of_write ht rfl hf hapart (hsupport ▸ hfits) hw hwrite
  obtain ⟨text, htext, hb⟩ := hstored.own
  obtain ⟨read, hfound, hagain, hconfig⟩ :=
    exists_foundAgain hne hclear hn hfrom hnone hback htext
  exact ⟨skill, n, hread, hn, by rw [hb]; rfl, fun _ => ⟨text, read, hfound, hagain,
    hstored.congr (hagain.trans htext.symm) rfl hconfig⟩⟩

/-- A skill that has been taken is settled. -/
theorem settled_of_takeSkill (hwrites : o.preview = false) (hw : w.Stands here target.root)
    (hback : d = Agent.hub → ∀ skill n existing,
      ((Skill.read s 0 folder.text).run w).1 = .ok skill →
      skill.toNeutral s (some d.name) = .ok n →
      ((existingSkill d target (Skill.isIn w target)).run w).1 = .ok existing →
      Frontmatter.ComesBack 1 (n.toSkill d ⟨o.removeForeign, existing⟩).fields
        (n.toSkill d ⟨o.removeForeign, existing⟩).content)
    {op : Operation} (h : (takeSkill s d o folder target).run w = (.ok op, v)) :
    SkillSettled here s d o folder target v := by
  have hmoved := (takeSkill_confined s d o hf.tidy ht rfl : Confined here target.root _ _) w hw
  rw [h] at hmoved
  obtain ⟨hv, hmoved⟩ := hmoved
  unfold takeSkill at h
  obtain ⟨skill, u, hread, h⟩ := ok_of_run_bind h
  have hsame := Skill.still_read s 0 folder.text w
  rw [hread] at hsame
  have hreadFrom := Skill.yields_readFrom s 0 hf.tidy w (World.SameFiles.refl w) skill
    (by rw [hread])
  obtain ⟨n, hneutral, h⟩ := ok_of_run_ofExcept_bind h
  have hn := ok_of_mapError hneutral
  -- Nothing has changed in the folder of the skill, so it is read alike.
  have hbelow : Skill.SameBelow folder w v := fun names => by
    rw [hw.here_eq, hv.here_eq, hmoved.bytes? (hapart names)]
  have hreadAgain : ((Skill.read s 0 folder.text).run v).1 = .ok skill := by
    rw [← (Skill.agrees_read hw.sound hv.sound s 0 hf hbelow w v (World.SameFiles.refl w)
      (World.SameFiles.refl v)).1, hread]
  rw [run_get_bind] at h
  dsimp only at h
  have hin : Skill.isIn u target = Skill.isIn w target :=
    Skill.isIn_eq (hsame.sound hw.sound) hw.sound ht fun names => by rw [hsame.tree, hsame.here]
  rw [hin] at h
  split at h
  · rename_i hskips
    obtain ⟨-, rfl⟩ := Prod.mk.inj h
    rw [Order.skips, Bool.and_eq_true] at hskips
    have hown := (World.isIn_iff hw.sound ht).mp hskips.1
    rw [hw.here_eq, ← hsame.tree] at hown
    refine ⟨skill, n, hreadAgain, hn, hown, fun hkeep => ?_⟩
    rw [hkeep] at hskips
    cases hskips.2
  · obtain ⟨existing, u', hexisting, h⟩ := ok_of_run_bind h
    have hsame' := hsame.trans (by
      have := still_existingSkill d target (Skill.isIn w target) u
      rwa [hexisting] at this)
    obtain ⟨hfrom, hnone⟩ := from_existingSkill ht.tidy hexisting
    have hexistingAt : ((existingSkill d target (Skill.isIn w target)).run w).1 = .ok existing := by
      rw [(agrees_existingSkill hw.sound hw.sound d ht (fun _ => rfl) _ w u
        (World.SameFiles.refl w) hsame).1, hexisting]
    refine of_run_finish (Q := fun _ v => ((Skill.read s 0 folder.text).run v).1 = .ok skill →
      SkillSettled here s d o folder target v) hwrites (fun y hy _ op v hrun hreadAgain => ?_)
      (hsame'.stands hw) h hreadAgain
    obtain ⟨paths, v', hwrite, hpure⟩ := ok_of_run_bind hrun
    obtain ⟨-, rfl⟩ := Prod.mk.inj hpure
    exact settled_of_write hne hf ht hapart (hreadFrom.parts.fits hw.sound)
      (Skill.clear_of_readFrom (by decide) (by decide) hreadFrom) hn hfrom hnone
      (fun hhub => hback hhub skill n existing (by rw [hread]) hn hexistingAt) hy hwrite hreadAgain

end

theorem run_existingSkill (hw : w.Sound) (ht : target.Clean) {text : String}
    (hb : w.tree.bytes? (Path.spot w.here target ++ [Skill.ownFile]) = some (Text.encode text))
    {existing : Mapping} (h : FoundAgain d text existing) :
    ∃ v, (existingSkill d target true).run w = (.ok existing, v) ∧ w.SameFiles v := by
  unfold FoundAgain at h
  unfold existingSkill
  by_cases hhub : d = Agent.hub
  · subst hhub
    rw [if_pos rfl] at h
    obtain ⟨content, hsplit⟩ := h
    have hbare : Skill.hasConfig Agent.hub = false := by decide
    obtain ⟨skill, v, hread, hv, hfields⟩ := Skill.run_read hbare hw ht hb
      (Disk.decoded_encode text) hsplit
    rw [if_pos ⟨rfl, rfl⟩, run_bind_of_ok hread, hfields]
    exact ⟨v, rfl, hv⟩
  · rw [if_neg hhub] at h
    rw [if_neg fun hboth => hhub hboth.1, h]
    exact ⟨w, rfl, World.SameFiles.refl w⟩

/-- A skill that is settled can be taken again, and no file changes. -/
theorem SkillSettled.repeats (h : SkillSettled here s d o folder target w)
    (hwrites : o.preview = false) (hf : folder.Clean) (ht : target.Clean)
    (hapart : ∀ names, ¬ Path.spot here target <+: Path.spot here folder ++ names)
    (hw : w.Stands here target.root) :
    Repeats here target.root (o.again target) (takeSkill s d o folder target) w := by
  obtain ⟨skill, n, hread, hn, hown, hagain⟩ := h
  have hfits := (Skill.yields_readFrom s 0 hf.tidy w (World.SameFiles.refl w) skill
    hread).parts.fits hw.sound
  have hsame := Skill.still_read s 0 folder.text w
  cases hrun : (Skill.read s 0 folder.text).run w with
  | mk r u =>
    rw [hrun] at hread hsame
    obtain rfl : r = .ok skill := hread
    have hu := hsame.stands hw
    have hin : Skill.isIn u target = true := by
      rw [World.isIn_iff hu.sound ht, hu.here_eq, hsame.tree]
      exact hown
    refine Repeats.bind hrun hsame ?_
    rw [Repeats, hn, Except.mapError, ofExcept_ok_bind, run_get_bind]
    dsimp only
    rw [hin]
    cases hkeep : o.keepExisting with
    | true =>
      refine ⟨u, ?_, hu, World.SameBytes.refl u⟩
      rw [Order.skips, hkeep, Order.again, hkeep, hwrites]
      rfl
    | false =>
      obtain ⟨text, existing, hfound, htext, hstored⟩ := hagain hkeep
      obtain ⟨text', htext', hb⟩ := hstored.own
      obtain rfl := Except.ok.inj (htext.symm.trans htext')
      obtain ⟨x, hexisting, hx⟩ := run_existingSkill hu.sound ht
        (by rw [hu.here_eq, hsame.tree]; exact hb) hfound
      rw [if_neg (by simp [Order.skips, hkeep])]
      refine Repeats.bind hexisting hx (repeats_finish hwrites (fun y hy hfiles => ?_)
        (hx.stands hu))
      have hall := (hsame.trans hx).trans hfiles
      obtain ⟨paths, z, hwrite, hz, hbytes⟩ := Skill.Stored.write_again ht rfl hf hapart
        (hstored.stays hy.sound (fun _ => by rw [hall.tree]) fun _ => by rw [hall.tree])
        (support_toSkill hn _ ▸ hfits) hy
      refine ⟨z, ?_, hz, hbytes⟩
      rw [run_bind_of_ok hwrite, Order.again, hkeep]
      rfl

end

end AgentRelay.Sync
