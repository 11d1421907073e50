import AgentRelay.Proofs.Except
import AgentRelay.Proofs.Sync.Item

/-
  What a command becomes.

  The text written for a command depends on the bytes of its file and, where the
  hub is the destination, on the bytes of the command that is already at the
  target (`converted`). A command that has been taken stands at its target with
  this text (`of_run_takeCommand`).
-/

namespace AgentRelay

open Files (Tree)
open Work

theorem Command.whole?_eq_some_iff {torn : Bool} {p : Phrase} {text : String} :
    whole? torn p = some text ↔ torn = false ∧ p = .whole text := by
  cases torn <;> cases p <;> simp [whole?, Phrase.whole?]

/-- The command of an agent in a file that holds some bytes. -/
def Command.ofBytes (a : Agent) (doc : Nat) (p : Path) (b : ByteArray) :
    Except Failure Command := do
  Command.ofText a doc p.text (← Disk.decoded b)

/-- The prompt of the command in some bytes is torn. -/
def Command.isTornIn (a : Agent) (b : ByteArray) : Bool :=
  (Disk.decoded b).toOption.any (hasTornPrompt a)

theorem Command.isTorn_eq (a : Agent) {w : World} {p : Path} {q : Files.Place} {b : ByteArray}
    (h : w.stat p = .ok (q, .file b)) : isTorn w a p = isTornIn a b := by
  rw [isTorn, Disk.result_text h, isTornIn]

/-- A command that has been read is the one in the bytes of its file. -/
theorem Command.of_run_read {a : Agent} {doc : Nat} {p : Path} (hp : p.Tidy) {w v : World}
    {c : Command} (h : (Command.read a doc p.text).run w = (.ok c, v)) :
    w.SameFiles v ∧
      ∃ b, w.stat p = .ok (Path.place w.here p, .file b) ∧ Command.ofBytes a doc p b = .ok c := by
  have hstill := Command.still_read a doc p.text w
  rw [h] at hstill
  rw [Command.read, Path.ofText_text hp] at h
  obtain ⟨t, u, htext, h⟩ := ok_of_run_bind h
  rw [run_explain] at htext
  cases hr : (Disk.text p).run w with
  | mk r v' =>
    rw [hr] at htext
    cases r with
    | error e => cases htext
    | ok t' =>
      obtain ⟨b, hb, hdecoded⟩ := Disk.stat_of_run_text hr
      obtain rfl := Except.ok.inj (Prod.mk.inj htext).1
      refine ⟨hstill, b, hb, ?_⟩
      rw [Command.ofBytes, hdecoded]
      change Command.ofText a doc p.text t' = _
      cases hc : Command.ofText a doc p.text t' with
      | error e =>
        rw [hc] at h
        cases h
      | ok c' =>
        rw [hc] at h
        exact congrArg Except.ok (Except.ok.inj (Prod.mk.inj h).1)

namespace Sync

/-- The fields of the command whose bytes are at a target, which only the hub looks at. -/
def existingFields (d : Agent) (target : Path) (there : Option ByteArray) :
    Except Failure Mapping :=
  if d = Agent.hub then
    match there with
    | some b => (Command.ofBytes d 1 target b).map Command.fields
    | none => .ok []
  else .ok []

/-- The text that the command in a file becomes at a target. -/
def converted (s d : Agent) (removeForeign : Bool) (file target : Path) (b : ByteArray)
    (there : Option ByteArray) : Except Failure String := do
  let command ← Command.ofBytes s 0 file b
  let neutral ← (command.toNeutral s (some d.name)).mapError .misfit
  let existing ← existingFields d target there
  let text ← (neutral.toCommand d ⟨removeForeign, existing⟩).text
  (Command.whole? (Command.isTornIn s b) text).elim (.error .unencodable) .ok

/-- The command in a file, in the form in which it travels. -/
def broughtCommand (s d : Agent) (file : Path) (b : ByteArray) : Except Failure Neutral := do
  let command ← Command.ofBytes s 0 file b
  (command.toNeutral s (some d.name)).mapError .misfit

section
variable {s d : Agent} {removeForeign : Bool} {file target : Path} {b : ByteArray}
  {there : Option ByteArray} {text : String}

theorem converted_eq_ok_iff : converted s d removeForeign file target b there = .ok text ↔
    ∃ n existing, broughtCommand s d file b = .ok n ∧
      existingFields d target there = .ok existing ∧ Command.isTornIn s b = false ∧
      (n.toCommand d ⟨removeForeign, existing⟩).text = .ok (.whole text) := by
  have heq : converted s d removeForeign file target b there =
      (do
        let n ← broughtCommand s d file b
        let existing ← existingFields d target there
        let text ← (n.toCommand d ⟨removeForeign, existing⟩).text
        (Command.whole? (Command.isTornIn s b) text).elim (.error .unencodable) .ok) := by
    rw [broughtCommand, bind_assoc]
    rfl
  rw [heq]
  constructor
  · intro h
    obtain ⟨n, hn, h⟩ := exists_of_bind_eq_ok h
    obtain ⟨existing, hexisting, h⟩ := exists_of_bind_eq_ok h
    obtain ⟨p, hp, h⟩ := exists_of_bind_eq_ok h
    cases hwhole : Command.whole? (Command.isTornIn s b) p with
    | none =>
      rw [hwhole] at h
      exact nomatch h
    | some t =>
      rw [hwhole] at h
      obtain rfl := Except.ok.inj h
      obtain ⟨htorn, rfl⟩ := Command.whole?_eq_some_iff.mp hwhole
      exact ⟨n, existing, hn, hexisting, htorn, hp⟩
  · rintro ⟨n, existing, hn, hexisting, htorn, h⟩
    rw [hn]
    change (existingFields d target there >>= _) = _
    rw [hexisting]
    change ((n.toCommand d ⟨removeForeign, existing⟩).text >>= _) = _
    rw [h, htorn]
    rfl

end

/-- What is at the target counts only for the hub. -/
theorem converted_congr {s d : Agent} {removeForeign : Bool} {file target : Path} {b : ByteArray}
    {there there' : Option ByteArray} (h : d = Agent.hub → there = there') :
    converted s d removeForeign file target b there =
      converted s d removeForeign file target b there' := by
  have hfields : existingFields d target there = existingFields d target there' := by
    unfold existingFields
    by_cases hhub : d = Agent.hub
    · rw [h hhub]
    · rw [if_neg hhub, if_neg hhub]
  rw [converted, converted, hfields]

/-- The bytes at a path that is a file. -/
def bytesAt (w : World) (p : Path) : Option ByteArray :=
  if w.isFile p then w.tree.bytes? (Path.place w.here p) else none

/-- Behind a folder that is found, whatever is there is seen. -/
theorem bytesAt_behind {w : World} (h : w.Sound) {p : Path} {place : Files.Place}
    (hp : w.stat p = .ok (place, .folder)) {names : List String}
    (hn : ∀ n ∈ names, Files.ValidName n) :
    bytesAt w ⟨p.root, p.parts ++ names⟩ =
      w.tree.bytes? (Path.place w.here ⟨p.root, p.parts ++ names⟩) := by
  have hplace : Path.place w.here ⟨p.root, p.parts ++ names⟩ = place ++ names := by
    rw [Path.place_behind hn, ← World.place_of_stat hp]
  rw [bytesAt, hplace]
  cases hb : w.tree.bytes? (place ++ names) with
  | none => simp
  | some b =>
    have hstat := (World.stat_behind h hp hn).mpr ⟨rfl, Files.Tree.bytes?_eq_some_iff.mp hb⟩
    rw [World.isFile, hstat]
    rfl

theorem of_run_existingCommand {d : Agent} {target : Path} (ht : target.Tidy) {w v : World}
    {fields : Mapping}
    (h : (existingCommand d target (w.isFile target)).run w = (.ok fields, v)) :
    existingFields d target (bytesAt w target) = .ok fields := by
  unfold existingCommand at h
  unfold existingFields bytesAt
  by_cases hhub : d = Agent.hub
  · by_cases hthere : w.isFile target = true
    · rw [if_pos ⟨hhub, hthere⟩] at h
      obtain ⟨c, u, hread, h⟩ := ok_of_run_bind h
      obtain ⟨-, b, hb, hc⟩ := Command.of_run_read ht hread
      obtain rfl := Except.ok.inj (Prod.mk.inj h).1
      rw [if_pos hhub, if_pos hthere, Tree.bytes?_eq_some_iff.mpr (World.stat_iff_locate.mp hb).2]
      dsimp only
      rw [hc]
      rfl
    · rw [if_neg fun hboth => hthere hboth.2] at h
      obtain rfl := Except.ok.inj (Prod.mk.inj h).1
      rw [if_pos hhub, if_neg hthere]
  · rw [if_neg fun hboth => hhub hboth.1] at h
    obtain rfl := Except.ok.inj (Prod.mk.inj h).1
    rw [if_neg hhub]

/-- What has been written at a target is found there. -/
theorem of_run_writing {here target : Path} (ht : target.Tidy) {whole : Option String}
    {op op' : Operation} {w v : World} (hw : w.Stands here target.root)
    (h : (do
      Disk.folders target.parent
      Disk.writeWhole target whole
      return op : Work Operation).run w = (.ok op', v)) :
    op' = op ∧ ∃ text, whole = some text ∧
      v.stat target = .ok (Path.place here target, .file (Text.encode text)) := by
  obtain ⟨_, u, hfolders, h⟩ := ok_of_run_bind h
  obtain ⟨_, u', hwrite, h⟩ := ok_of_run_bind h
  obtain ⟨hop, rfl⟩ := Prod.mk.inj h
  have hgrows : Grows here target.root (fun _ => False) (Disk.folders target.parent) :=
    Disk.folders_grows ht.parent rfl
  obtain ⟨hstands, -⟩ := hgrows w hw
  rw [hfolders] at hstands
  obtain ⟨text, rfl, hwrite⟩ := Disk.of_run_writeWhole hwrite
  refine ⟨(Except.ok.inj hop).symm, text, rfl, ?_⟩
  rw [← hstands.here_eq]
  exact Disk.stat_of_writeBytes hwrite

/-- Telling what is missing leaves the end of an item as it is. -/
theorem of_run_finish {here : Path} {root : Nat} {a : Agent} {o : Order}
    {body : List Body.Segment} {label : String} {op op' : Operation} {write : Work Operation}
    {Q : Operation → World → Prop} (hwrites : o.preview = false)
    {w v : World} (hwrite : ∀ y : World, y.Stands here root → w.SameFiles y → ∀ op v,
      write.run y = (.ok op, v) → Q op v) (hw : w.Stands here root)
    (h : (
      have finish : PUnit → Work Operation := fun _ =>
        if o.preview = true then pure op else write
      if o.verbose = true then tellMissing a body label >>= finish
        else finish PUnit.unit).run w = (.ok op', v)) :
    Q op' v := by
  refine of_finish (P := fun x => ∀ y : World, y.Stands here root → w.SameFiles y → ∀ op v,
    x.run y = (.ok op, v) → Q op v) a o body label (fun x hx y hy hsame op v hrun => ?_)
    (fun hpreview => ?_) (fun _ => hwrite) w hw (World.SameFiles.refl w) op' v h
  · obtain ⟨_, y', htell, hrun⟩ := ok_of_run_bind hrun
    have hstill := still_tellMissing a body label y
    rw [htell] at hstill
    exact hx y' (hstill.stands hy) (hsame.trans hstill) op v hrun
  · rw [hwrites] at hpreview
    exact nomatch hpreview

/-- A command that has been taken was left alone, or written with the text it becomes. -/
theorem of_run_takeCommand {s d : Agent} {o : Order} {here file target : Path}
    (hwrites : o.preview = false) (hf : file.Tidy) (ht : target.Tidy) {w v : World}
    (hw : w.Stands here target.root) {op : Operation}
    (h : (takeCommand s d o file target).run w = (.ok op, v)) :
    ∃ b n, w.tree.bytes? (Path.place here file) = some b ∧ broughtCommand s d file b = .ok n ∧
      ((o.skips (w.isFile target) = true ∧ op = ⟨.skipped, target, false⟩ ∧ w.SameFiles v) ∨
        (o.skips (w.isFile target) = false ∧ op = .writing target (w.isFile target) false ∧
          ∃ text, converted s d o.removeForeign file target b (bytesAt w target) = .ok text ∧
            v.stat target = .ok (Path.place here target, .file (Text.encode text)))) := by
  unfold takeCommand at h
  obtain ⟨command, u, hread, h⟩ := ok_of_run_bind h
  obtain ⟨hsame, b, hb, hcommand⟩ := Command.of_run_read hf hread
  obtain ⟨neutral, hneutral, h⟩ := ok_of_run_ofExcept_bind h
  have hbrought : broughtCommand s d file b = .ok neutral := by
    rw [broughtCommand, hcommand]
    exact hneutral
  have hfile : u.isFile target = w.isFile target := by
    rw [World.isFile, World.isFile, hsame.stat target]
  have htorn : Command.isTorn u s file = Command.isTornIn s b :=
    Command.isTorn_eq s ((hsame.stat file).trans hb)
  have hplace := Tree.bytes?_eq_some_iff.mpr (World.stat_iff_locate.mp hb).2
  refine ⟨b, neutral, by rw [← hw.here_eq]; exact hplace, hbrought, ?_⟩
  rw [run_get_bind] at h
  dsimp only at h
  rw [hfile] at h
  split at h
  · rename_i hskips
    obtain ⟨hop, rfl⟩ := Prod.mk.inj h
    rw [hwrites] at hop
    exact .inl ⟨hskips, (Except.ok.inj hop).symm, hsame⟩
  · rename_i hskips
    obtain ⟨existing, u', hexisting, h⟩ := ok_of_run_bind h
    rw [← hfile] at hexisting
    have hfields := of_run_existingCommand ht hexisting
    have hsame' := still_existingCommand d target (u.isFile target) u
    rw [hexisting] at hsame'
    obtain ⟨phrase, hphrase, h⟩ := ok_of_run_ofExcept_bind h
    have hbytes : bytesAt u target = bytesAt w target := by
      rw [bytesAt, bytesAt, hfile, hsame.tree, hsame.here]
    obtain ⟨rfl, text, hwhole, hstat⟩ := of_run_finish (Q := fun op v =>
        op = Operation.writing target (w.isFile target) false ∧
          ∃ text, Command.whole? (Command.isTorn u s file) phrase = some text ∧
            v.stat target = .ok (Path.place here target, .file (Text.encode text)))
      hwrites (fun y hy _ op v hrun => of_run_writing ht hy hrun)
      ((hsame.trans hsame').stands hw) h
    rw [hbytes] at hfields
    rw [htorn] at hwhole
    obtain ⟨hnot, rfl⟩ := Command.whole?_eq_some_iff.mp hwhole
    exact .inr ⟨Bool.eq_false_iff.mpr hskips, rfl, text,
      converted_eq_ok_iff.mpr ⟨neutral, existing, hbrought, hfields, hnot, hphrase⟩, hstat⟩

end Sync

end AgentRelay
