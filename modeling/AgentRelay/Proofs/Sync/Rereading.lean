import AgentRelay.Proofs.Document.Failing
import AgentRelay.Proofs.Frontmatter
import AgentRelay.Proofs.Files.Again
import AgentRelay.Proofs.Sync.Conversion

/-
  Reading documents whose files are known.

  A command is read wherever its file holds bytes that are a command of the agent
  (`Command.run_read`). A skill is read wherever its own file holds a text that can be
  split, because what cannot be read of the files beside it is left out
  (`Skill.run_read`).
-/

namespace AgentRelay

open Files (Place)
open Work

namespace Disk

theorem decoded_encode (text : String) :
    decoded (Text.encode text) = .ok (Frontmatter.reread text) := by
  rw [decoded, Text.decode?_encode]
  rfl

theorem run_text {w : World} (h : w.Sound) {p : Path} (hp : p.Clean) {b : ByteArray} {t : String}
    (hb : w.tree.bytes? (Path.spot w.here p) = some b) (ht : decoded b = .ok t) :
    (text p).run w = (.ok t, w) := by
  rw [text, run_bind_of_ok (run_bytes h hp hb)]
  unfold decoded at ht
  cases hd : Text.decode? b with
  | some s =>
    rw [hd] at ht
    obtain rfl := Except.ok.inj ht
    rfl
  | none =>
    rw [hd] at ht
    cases ht

end Disk

theorem Work.run_explain_of_ok {α : Type} {x : Work α} (f : Failure → Failure) {w v : World} {a : α}
    (h : x.run w = (.ok a, v)) : (x.explain f).run w = (.ok a, v) := by
  rw [run_explain, h]
  rfl

theorem Command.run_read {a : Agent} {doc : Nat} {w : World} (h : w.Sound) {p : Path}
    (hp : p.Clean) {b : ByteArray} (hb : w.tree.bytes? (Path.spot w.here p) = some b)
    {c : Command} (hc : ofBytes a doc p b = .ok c) : (read a doc p.text).run w = (.ok c, w) := by
  obtain ⟨t, ht, hc⟩ := exists_of_bind_eq_ok hc
  rw [read, Path.ofText_text hp.tidy,
    run_bind_of_ok (run_explain_of_ok _ (Disk.run_text h hp hb ht)), hc]
  rfl

namespace Skill

/-- What cannot be read of a support file is left out. -/
theorem manages_load (w : World) (p : Path) (f : SupportFile) :
    Manages (fun v => w.SameFiles v) (load p f) := by
  intro v hv
  unfold load
  split
  · exact ⟨f, v, rfl, hv⟩
  · -- A text that cannot be read has a cause, which is told.
    have hends : Ends (fun e => ∃ c, e.cause? = some c) (Disk.text (p.append f.path)) :=
      Disk.ends_text (fun e => ⟨_, rfl⟩) ⟨_, rfl⟩ _
    have hstill := hv.trans (Disk.still_text (p.append f.path) v)
    rw [run_bind, run_attempt]
    dsimp only
    cases hread : ((Disk.text (p.append f.path)).run v).1 with
    | ok t => exact ⟨_, _, rfl, hstill⟩
    | error e =>
      obtain ⟨c, hc⟩ := (hends v).2 e hread
      dsimp only
      rw [hc]
      exact ⟨f, _, rfl, hstill.trans (Still.warn _ _)⟩

/-- A skill of an agent without configurations is read where its own file holds a text that
can be split. -/
theorem run_read {a : Agent} (ha : hasConfig a = false) {doc : Nat} {w : World} (h : w.Sound)
    {p : Path} (hp : p.Clean) {b : ByteArray}
    (hb : w.tree.bytes? (Path.spot w.here p ++ [ownFile]) = some b) {t content : String}
    {fields : Mapping} (ht : Disk.decoded b = .ok t)
    (hsplit : Frontmatter.split doc t = .ok (fields, content)) :
    ∃ s v, (read a doc p.text).run w = (.ok s, v) ∧ w.SameFiles v ∧ s.fields = fields := by
  have hin : isIn w p = true := (World.isIn_iff h hp).mpr (by rw [hb]; rfl)
  have hown := Disk.run_text h (hp.behind (by simpa using World.valid_ownFile))
    ((congrArg w.tree.bytes? (Path.spot_behind [ownFile])).trans hb) ht
  have hloads : Manages (fun v => w.SameFiles v) ((supportIn w a p).mapM (load p)) :=
    Manages.mapM fun f _ => manages_load w p f
  obtain ⟨support, v, hsupport, hv⟩ := hloads w (World.SameFiles.refl w)
  have hparts : (readParts a doc p.text).run w = (.ok (fields, content, support), v) := by
    rw [readParts_eq, run_get_bind, Path.ofText_text hp.tidy, hin]
    change (readOwn a doc p.text).run w = _
    rw [readOwn, Path.ofText_text hp.tidy, Path.append_name p World.valid_ownFile,
      run_bind_of_ok hown, hsplit]
    change (((supportIn w a p).mapM (load p) >>= fun support =>
      pure (fields, content, support) : Work _)).run w = _
    rw [run_bind_of_ok hsupport]
    rfl
  rw [read, run_bind_of_ok (run_explain_of_ok _ hparts), ha]
  exact ⟨_, v, rfl, hv, rfl⟩

end Skill

end AgentRelay
