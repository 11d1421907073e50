import AgentRelay.Proofs.Document.Reading

/-
  Writing skills.

  A skill whose support files lead below its folder is written below the place
  of the folder and nowhere else (`Skill.write_confined`), also when writing
  fails on the way.
-/

namespace AgentRelay.Skill

open Files (Place Tree Entry ValidName)
open Work

variable {here : Path} {root : Nat} {target : Path}

/-- What is done at a place below a folder is done below the folder. -/
theorem confined_below {α : Type} {x : Work α} {names : List String}
    (h : Confined here root (· = Path.spot here ⟨target.root, target.parts ++ names⟩) x) :
    Confined here root (Path.spot here target <+: ·) x := by
  refine h.mono fun q hq => ?_
  rw [hq, Path.spot_behind]
  exact List.prefix_append _ _

theorem folders_below {R : Place → Prop} {p : Path} (hp : p.Clean) (hroot : p.root = root) :
    Confined here root R (Disk.folders p) :=
  (Disk.folders_grows hp.tidy hroot).confined.mono fun _ h => h.elim

section
variable (ht : target.Clean) (hroot : target.root = root)
include ht hroot

theorem write_below {names : List String} (hn : ∀ n ∈ names, ValidName n) (text : String) :
    Confined here root (Path.spot here target <+: ·)
      (Disk.write ⟨target.root, target.parts ++ names⟩ text) :=
  confined_below (Disk.write_confined (ht.behind hn) hroot text)

theorem writeSupport_confined (source : Option Path) {f : SupportFile} (hf : LiesBelow f) :
    Confined here root (Path.spot here target <+: ·) (writeSupport source target f) := by
  obtain ⟨names, hway, hn⟩ := hf
  have hclean := ht.behind hn
  unfold writeSupport
  rw [Path.append_way target hway]
  refine Confined.bind (folders_below hclean.parent hroot) fun _ => ?_
  split
  · split
    · exact Confined.of_still (Still.pure _)
    · refine Confined.get_bind fun w _ => ?_
      split
      · refine Confined.bind (confined_below (Disk.copy_confined _ hclean hroot)) fun _ => ?_
        exact Confined.of_still (Still.pure _)
      · exact Confined.of_still (Still.pure _)
  · split
    · exact Confined.of_still (Still.pure _)
    · exact Confined.bind (write_below ht hroot hn _) fun _ => Confined.of_still (Still.pure _)

theorem removeConfig_confined :
    Confined here root (Path.spot here target <+: ·) (removeConfig target) := by
  have hconfig := ht.behind valid_config
  have hfolder : ∀ n ∈ [configFolder], ValidName n := by decide
  refine Confined.get_bind fun w _ => ?_
  rw [configPath_eq]
  split
  · refine Confined.bind (confined_below (Disk.removeFile_confined hconfig)) fun _ => ?_
    refine Confined.get_bind fun w _ => ?_
    split
    · -- The configuration's folder goes too when nothing else is in it.
      rw [Path.append_name target (by decide)]
      refine (Disk.removeFolder_confined (ht.behind hfolder) hroot (by simp)).mono fun q hq => ?_
      rw [Path.spot_behind] at hq
      exact (List.prefix_append _ _).trans hq
    · exact Confined.of_still (Still.pure _)
  · exact Confined.of_still (Still.pure _)

theorem writeConfig_confined (config : Mapping) :
    Confined here root (Path.spot here target <+: ·) (writeConfig target config) := by
  have hfolder : ∀ n ∈ [configFolder], ValidName n := by decide
  rw [writeConfig, configPath_eq, Path.append_name target (by decide)]
  refine Confined.bind (folders_below (ht.behind hfolder) hroot) fun _ => ?_
  refine Confined.bind (Confined.of_still (Still.ofExcept _)) fun text => ?_
  exact Confined.bind (write_below ht hroot valid_config text) fun _ =>
    Confined.of_still (Still.pure _)

/-- A skill is written below its folder. -/
theorem write_confined (a : Agent) {s : Skill} (hs : ∀ f ∈ s.support, LiesBelow f)
    (source : Option Path) :
    Confined here root (Path.spot here target <+: ·) (write a s source target) := by
  have hown : ∀ n ∈ [ownFile], ValidName n := by decide
  rw [write, Path.append_name target (by decide)]
  refine Confined.bind (Confined.of_still (Still.ofExcept _)) fun text => ?_
  refine Confined.bind (folders_below ht hroot) fun _ => ?_
  refine Confined.bind (write_below ht hroot hown text) fun _ => ?_
  refine Confined.bind (Confined.filterMapM fun f hf => ?_) fun support => ?_
  · exact writeSupport_confined ht hroot source (hs f hf)
  · split
    · split
      · refine Confined.bind (writeConfig_confined ht hroot _) fun _ => ?_
        exact Confined.of_still (Still.pure _)
      · refine Confined.bind (removeConfig_confined ht hroot) fun _ => ?_
        exact Confined.of_still (Still.pure _)
    · exact Confined.of_still (Still.pure _)

end

end AgentRelay.Skill
