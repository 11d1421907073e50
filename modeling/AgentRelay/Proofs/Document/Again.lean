import AgentRelay.Proofs.Document.Writing
import AgentRelay.Proofs.Files.Again

/-
  Skills that are written again.

  A skill that has been written stands in its folder (`Stored`): its own file, the
  files beside it, and its configuration or none (`stored_of_write`). It stands there as
  long as the files do (`Stored.stays`), and where it stands it can be written again,
  which changes no file (`Stored.write_again`).
-/

namespace AgentRelay

open Files (Place Tree Entry ValidName)
open Work

namespace Work

variable {α β : Type} {I J : World → Prop}

/-- What holds after the work when it ends well. -/
def Leaves (I : World → Prop) (x : Work α) (J : World → Prop) : Prop :=
  ∀ w a v, I w → x.run w = (.ok a, v) → J v

namespace Leaves

theorem filterMapM {f : α → Work (Option β)} {as : List α} (h : ∀ a ∈ as, Leaves I (f a) I) :
    Leaves I (as.filterMapM f) I := by
  induction as with
  | nil =>
    intro w bs v hw hrun
    obtain ⟨-, rfl⟩ := Prod.mk.inj hrun
    exact hw
  | cons a as ih =>
    intro w bs v hw hrun
    have hrest := ih fun b hb => h b (List.mem_cons_of_mem _ hb)
    rw [List.filterMapM_cons] at hrun
    obtain ⟨found, u, ha, hrun⟩ := ok_of_run_bind hrun
    have hu := h a (by simp) w found u hw ha
    cases found with
    | none => exact hrest u bs v hu hrun
    | some b =>
      obtain ⟨bs', u', hbs, hpure⟩ := ok_of_run_bind hrun
      obtain ⟨-, rfl⟩ := Prod.mk.inj hpure
      exact hrest u bs' u' hu hbs

/-- What is left by one piece of work, and kept by all behind it, holds in the end. -/
theorem each {f : α → Work (Option β)} {P : α → World → Prop} {as : List α}
    (h : ∀ a ∈ as, Leaves I (f a) fun v => I v ∧ P a v)
    (hkeep : as.Pairwise fun a b => Leaves (fun v => I v ∧ P a v) (f b) fun v => I v ∧ P a v) :
    Leaves I (as.filterMapM f) fun v => I v ∧ ∀ a ∈ as, P a v := by
  induction as with
  | nil =>
    intro w bs v hw hrun
    obtain ⟨-, rfl⟩ := Prod.mk.inj hrun
    exact ⟨hw, fun _ ha => absurd ha List.not_mem_nil⟩
  | cons a as ih =>
    intro w bs v hw hrun
    have hrest := ih (fun b hb => h b (List.mem_cons_of_mem _ hb)) hkeep.of_cons
    have hbehind := filterMapM (List.pairwise_cons.mp hkeep).1
    rw [List.filterMapM_cons] at hrun
    obtain ⟨found, u, ha, hrun⟩ := ok_of_run_bind hrun
    have hu := h a (by simp) w found u hw ha
    have hall : ∀ bs' v', (as.filterMapM f).run u = (.ok bs', v') →
        I v' ∧ ∀ b ∈ a :: as, P b v' := fun bs' v' hrun => by
      have hv := hrest u bs' v' hu.1 hrun
      exact ⟨hv.1, List.forall_mem_cons.mpr ⟨(hbehind u bs' v' hu hrun).2, hv.2⟩⟩
    cases found with
    | none => exact hall bs v hrun
    | some b =>
      obtain ⟨bs', u', hbs, hpure⟩ := ok_of_run_bind hrun
      obtain ⟨-, rfl⟩ := Prod.mk.inj hpure
      exact hall bs' u' hbs

end Leaves

end Work

namespace Skill

variable {here : Path} {root : Nat} {source target : Path} {a : Agent} {s : Skill}

/-! ## The ways to support files -/

/-- The names on the way to a support file. -/
def way (f : SupportFile) : List String := (Path.ofText f.path).parts

/-- Ways that lead to files beside a skill's own. -/
structure Fit (ways : List (List String)) : Prop where
  ne_nil : ∀ ns ∈ ways, ns ≠ []
  own : ∀ ns ∈ ways, ns ≠ [ownFile]
  distinct : ways.Nodup
  /-- Nothing lies below a file. -/
  files : ∀ ms ∈ ways, ∀ ns ∈ ways, ms <+: ns → ms = ns

/-- Support files that lead below the folder they are put in, each to a place of its own. -/
structure Fits (support : List SupportFile) : Prop where
  below : ∀ f ∈ support, LiesBelow f
  fit : Fit (support.map way)

theorem LiesBelow.append {f : SupportFile} (h : LiesBelow f) (p : Path) :
    p.append f.path = ⟨p.root, p.parts ++ way f⟩ := by
  obtain ⟨names, hway, -⟩ := h
  rw [way, hway, Path.append_way p hway]

theorem LiesBelow.valid {f : SupportFile} (h : LiesBelow f) : ∀ n ∈ way f, ValidName n := by
  obtain ⟨names, hway, hn⟩ := h
  rw [way, hway]
  exact hn

theorem Fits.ne_nil {support : List SupportFile} (h : Fits support) {f : SupportFile}
    (hf : f ∈ support) : way f ≠ [] := h.fit.ne_nil _ (List.mem_map_of_mem hf)

/-- No support file is in the way of another. -/
theorem Fits.clear {support : List SupportFile} (h : Fits support) {f g : SupportFile}
    (hf : f ∈ support) (hg : g ∈ support) : ¬ way f <+: (way g).dropLast := fun hpre => by
  have heq := h.fit.files _ (List.mem_map_of_mem hf) _ (List.mem_map_of_mem hg)
    (hpre.trans (List.dropLast_prefix _))
  have hlen := hpre.length_le
  have := List.length_pos_iff.mpr (h.ne_nil hg)
  rw [heq, List.length_dropLast] at hlen
  omega

/-- A file below a folder, and the way to it as it is written down. -/
theorem exists_way_of_mem {w : World} (h : w.Sound) {p q : Path} (hq : q ∈ w.filesBelow p) :
    ∃ names, q = ⟨p.root, p.parts ++ names⟩ ∧
      (p.below? q).map Path.text = some (Path.mk 0 names).text ∧
      Path.ofText (Path.mk 0 names).text = ⟨0, names⟩ := by
  cases hfolder : w.isFolder p with
  | false =>
    rw [World.filesBelow_eq_nil hfolder] at hq
    exact absurd hq List.not_mem_nil
  | true =>
    obtain ⟨place, hplace⟩ := World.isFolder_iff_stat.mp hfolder
    obtain ⟨names, -, rfl, hb⟩ := (World.mem_filesBelow_folder h hplace).mp hq
    obtain ⟨b, hb⟩ := Option.isSome_iff_exists.mp hb
    have hn : ∀ n ∈ names, ValidName n := fun n hmem =>
      h.tree.names_of_get? (Tree.bytes?_eq_some_iff.mp hb) n (List.mem_append_right _ hmem)
    have hclean : (Path.mk 0 names).Clean := ⟨Nat.zero_le 2, hn⟩
    exact ⟨names, rfl, by rw [Path.below?_behind]; rfl, Path.ofText_text hclean.tidy⟩

/-- The files below a folder stand beside each other. -/
theorem fit_supportIn {w : World} (h : w.Sound) (a : Agent) (p : Path) :
    Fit ((supportIn w a p).map way) := by
  -- Every listed file has a way of valid names to a file below the place of the folder.
  have hfile : ∀ ns ∈ (supportIn w a p).map way, ∃ place b, w.stat p = .ok (place, .folder) ∧
      w.tree.bytes? (place ++ ns) = some b := fun ns hns => by
    obtain ⟨f, hf, rfl⟩ := List.mem_map.mp hns
    obtain ⟨place, names, hplace, hway, -, hb⟩ := file_of_mem_supportIn h hf
    obtain ⟨b, hb⟩ := Option.isSome_iff_exists.mp hb
    exact ⟨place, b, hplace, by rw [way, hway]; exact hb⟩
  refine ⟨fun ns hns hnil => ?_, fun ns hns hown => ?_, ?_, fun ms hms ns hns hpre => ?_⟩
  · obtain ⟨place, b, hplace, hb⟩ := hfile ns hns
    have hget := (World.stat_iff_locate.mp hplace).2
    rw [hnil, List.append_nil, Tree.bytes?_eq_some_iff, hget] at hb
    cases hb
  · obtain ⟨f, hf, rfl⟩ := List.mem_map.mp hns
    obtain ⟨text, htext, rfl⟩ := List.mem_map.mp hf
    obtain ⟨hmem, hfree⟩ := List.mem_filter.mp htext
    obtain ⟨q, hqmem, hq⟩ := List.mem_filterMap.mp hmem
    obtain ⟨names, -, htext, hread⟩ := exists_way_of_mem h hqmem
    obtain rfl := Option.some.inj (hq.symm.trans htext)
    rw [way, hread] at hown
    obtain rfl : names = [ownFile] := hown
    -- The skill's own file is no support file.
    have hreserved : (reserved a).contains (Path.mk 0 [ownFile]).text = true := by
      cases a <;> decide
    rw [hreserved] at hfree
    cases hfree
  · refine List.pairwise_map.mpr (List.pairwise_map.mpr (List.Pairwise.filter _ ?_))
    refine List.pairwise_filterMap.mpr ((World.nodup_filesBelow h p).imp_of_mem
      fun {q q'} hq hq' hne text htext text' htext' heq => ?_)
    obtain ⟨names, rfl, hway, hread⟩ := exists_way_of_mem h hq
    obtain ⟨names', rfl, hway', hread'⟩ := exists_way_of_mem h hq'
    obtain rfl := Option.some.inj (htext.symm.trans hway)
    obtain rfl := Option.some.inj (htext'.symm.trans hway')
    rw [way, way, hread, hread'] at heq
    exact hne (congrArg (fun ns => Path.mk p.root (p.parts ++ ns)) heq)
  · obtain ⟨place, b, hplace, hb⟩ := hfile ms hms
    obtain ⟨place', b', hplace', hb'⟩ := hfile ns hns
    obtain ⟨rfl, -⟩ := Prod.mk.inj (Except.ok.inj (hplace.symm.trans hplace'))
    refine Classical.byContradiction fun hne => ?_
    have hbelow := h.tree.nothing_below_file (Tree.bytes?_eq_some_iff.mp hb)
      ((List.prefix_append_right_inj place).mpr hpre) fun heq => hne (List.append_cancel_left heq)
    rw [Tree.bytes?_eq_some_iff.mp hb'] at hbelow
    cases hbelow

theorem ReadParts.fits {w : World} (hw : w.Sound) {a : Agent} {doc : Nat} {p : Path}
    {fields : Mapping} {content : String} {support : List SupportFile}
    (h : ReadParts w a doc p fields content support) : Fits support := by
  refine ⟨h.below hw, ?_⟩
  obtain ⟨u, hu, hpaths⟩ := h.support
  have hways := congrArg (List.map fun t => (Path.ofText t).parts) hpaths
  rw [List.map_map, List.map_map] at hways
  change support.map way = (supportIn u a p).map way at hways
  rw [hways]
  exact fit_supportIn (hu.sound hw) a p

/-! ## Writing support files -/

/-- The bytes a support file is written with: those of a binary file are where it comes
from. -/
def carried (here source : Path) (w : World) (f : SupportFile) : Option ByteArray :=
  if f.kind = .binary then w.tree.bytes? (Path.spot here source ++ way f)
  else f.content.map Text.encode

theorem carried_congr {w v : World} {f : SupportFile}
    (h : v.tree.bytes? (Path.spot here source ++ way f) =
      w.tree.bytes? (Path.spot here source ++ way f)) :
    carried here source v f = carried here source w f := by
  unfold carried
  rw [h]

end Skill

namespace Disk

variable {here : Path} {root : Nat} {p : Path}

theorem copy_grows (source : Path) (hp : p.Tidy) (hroot : p.root = root) :
    Grows here root (· = Path.place here p) (copy source p) := by
  have hrest : Grows here root (· = Path.place here p)
      (bytes source >>= fun b => writeBytes p b) :=
    Grows.bind (Grows.of_still (still_bytes source)) fun b => writeBytes_grows hp hroot b
  refine Grows.get_bind fun w _ => ?_
  dsimp only
  split
  · split
    · exact Grows.bind (Grows.of_still (Still.throw _)) fun _ => hrest
    · exact hrest
  · exact hrest

end Disk

namespace Skill

variable {here : Path} {root : Nat} {source target : Path} {a : Agent} {s : Skill}

theorem spot_way (p : Path) (f : SupportFile) :
    Path.spot here ⟨p.root, p.parts ++ way f⟩ = Path.spot here p ++ way f := Path.spot_behind _

/-- The folder that a support file is put in. -/
theorem spot_parent_way (p : Path) {f : SupportFile} (hne : way f ≠ []) :
    Path.spot here (Path.parent ⟨p.root, p.parts ++ way f⟩) =
      Path.spot here p ++ (way f).dropLast := by
  rw [Path.parent, List.dropLast_append_of_ne_nil hne]
  exact Path.spot_behind (p := p) _

section

variable (ht : target.Clean) (hroot : target.root = root)
include ht hroot

/-- A support file is written at its place, and folders are only made. -/
theorem writeSupport_grows (source : Option Path) {f : SupportFile} (hf : LiesBelow f) :
    Grows here root (· = Path.spot here target ++ way f) (writeSupport source target f) := by
  have hclean := ht.behind hf.valid
  have hplace : Path.place here ⟨target.root, target.parts ++ way f⟩ =
      Path.spot here target ++ way f := by rw [Path.place_eq_spot hclean, spot_way]
  have hat {α : Type} {x : Work α} (h : Grows here root
      (· = Path.place here ⟨target.root, target.parts ++ way f⟩) x) :
      Grows here root (· = Path.spot here target ++ way f) x := h.mono fun q hq => hq.trans hplace
  unfold writeSupport
  rw [hf.append target]
  refine Grows.bind ((Disk.folders_grows hclean.parent.tidy hroot).mono fun _ h => h.elim)
    fun _ => ?_
  split
  · split
    · exact Grows.of_still (Still.pure _)
    · refine Grows.get_bind fun w _ => ?_
      split
      · exact Grows.bind (hat (Disk.copy_grows _ hclean.tidy hroot)) fun _ =>
          Grows.of_still (Still.pure _)
      · exact Grows.of_still (Still.pure _)
  · split
    · exact Grows.of_still (Still.pure _)
    · exact Grows.bind (hat (Disk.write_grows hclean.tidy hroot _)) fun _ =>
        Grows.of_still (Still.pure _)

section

variable {f : SupportFile} (hf : LiesBelow f) (hne : way f ≠ []) (hs : source.Clean)
  (hapart : Path.spot here source ++ way f ≠ Path.spot here target ++ way f) {w : World}
include hf hs hapart

omit hroot in
/-- Behind the folders on its way a support file is written with the bytes that are carried,
if there are any. -/
theorem run_writeSupport_eq {u : World} (hu : u.Stands here root)
    (hfolders : (Disk.folders (Path.parent ⟨target.root, target.parts ++ way f⟩)).run w =
      (.ok (), u)) :
    (writeSupport (some source) target f).run w =
      ((carried here source u f).elim (pure none) fun b =>
        Disk.writeBytes ⟨target.root, target.parts ++ way f⟩ b >>= fun _ =>
          pure (some ⟨target.root, target.parts ++ way f⟩) : Work (Option Path)).run u := by
  have hclean := ht.behind hf.valid
  have hsclean := hs.behind hf.valid
  unfold writeSupport
  rw [hf.append target, run_bind_of_ok hfolders]
  by_cases hbinary : f.kind = .binary
  · have hcarried : carried here source u f =
        u.tree.bytes? (Path.spot here source ++ way f) := if_pos hbinary
    have hfile : u.isFile ⟨source.root, source.parts ++ way f⟩ = true ↔
        (carried here source u f).isSome = true := by
      rw [World.isFile_iff hu.sound hsclean, hu.here_eq, spot_way, hcarried]
    rw [if_pos hbinary, run_get_bind, hf.append source]
    cases hb : carried here source u f with
    | none =>
      rw [if_neg (by simp [hfile, hb])]
      rfl
    | some b =>
      have hcopy := Disk.run_copy hu hsclean hclean (b := b) (by rwa [spot_way, spot_way])
        (by rw [spot_way, ← hcarried, hb])
      rw [if_pos (hfile.mpr (by rw [hb]; rfl)), run_bind, hcopy, Option.elim_some, run_bind]
  · have hcarried : carried here source u f = f.content.map Text.encode := if_neg hbinary
    rw [if_neg hbinary, hcarried]
    cases f.content with
    | none => rfl
    | some text => rfl

include hne

/-- A support file that has been written stands in its folder with its bytes. -/
theorem of_run_writeSupport {v : World} {r : Option Path} (hw : w.Stands here root)
    (h : (writeSupport (some source) target f).run w = (.ok r, v)) :
    v.tree.get? (Path.spot here target ++ (way f).dropLast) = some .folder ∧
      ∀ b, carried here source w f = some b →
        v.tree.bytes? (Path.spot here target ++ way f) = some b := by
  have hclean := ht.behind hf.valid
  obtain ⟨u, hfolders⟩ : ∃ u, (Disk.folders
      (Path.parent ⟨target.root, target.parts ++ way f⟩)).run w = (.ok (), u) := by
    unfold writeSupport at h
    rw [hf.append target] at h
    obtain ⟨_, u, hfolders, -⟩ := ok_of_run_bind h
    exact ⟨u, hfolders⟩
  have hgrown := Disk.folders_grows hclean.parent.tidy hroot w hw
  rw [hfolders] at hgrown
  obtain ⟨hu, hgrown⟩ := hgrown
  have hfolder : u.tree.get? (Path.spot here target ++ (way f).dropLast) = some .folder := by
    obtain ⟨q, hq⟩ := Disk.stat_of_folders hfolders
    obtain ⟨hspot, hget⟩ := (World.stat_eq_ok_iff hu.sound hclean.parent).mp hq
    rwa [hspot, hu.here_eq, spot_parent_way target hne] at hget
  rw [run_writeSupport_eq ht hf hs hapart hu hfolders,
    carried_congr (hgrown.bytes? not_false)] at h
  cases hb : carried here source w f with
  | none =>
    rw [hb] at h
    obtain ⟨-, rfl⟩ := Prod.mk.inj h
    exact ⟨hfolder, fun b hnone => by cases hnone⟩
  | some b =>
    rw [hb] at h
    obtain ⟨_, x, hwrite, h⟩ := ok_of_run_bind h
    obtain ⟨-, rfl⟩ := Prod.mk.inj h
    have hx := Disk.writeBytes_grows hclean.tidy hroot b u hu
    rw [hwrite] at hx
    have hstat := (World.stat_iff_locate.mp (Disk.stat_of_writeBytes hwrite)).2
    rw [hu.here_eq, Path.place_eq_spot hclean, spot_way] at hstat
    refine ⟨hx.2.folders _ hfolder, fun b' hb' => ?_⟩
    rw [← hb']
    exact Tree.bytes?_eq_some_iff.mpr hstat

/-- On an open way, and where no folder is in its place, a support file can be written, and
everything but the folders on the way to it is known then. -/
theorem run_writeSupport (hw : w.Stands here root)
    (hopen : ∀ q, q <+: Path.spot here target ++ (way f).dropLast → w.tree.Open q)
    (hthere : carried here source w f ≠ none →
      w.tree.get? (Path.spot here target ++ way f) ≠ some .folder) :
    ∃ r v, (writeSupport (some source) target f).run w = (.ok r, v) ∧
      ∀ q, ¬ q <+: Path.spot here target ++ (way f).dropLast →
        v.tree.get? q = if q = Path.spot here target ++ way f then
          ((carried here source w f).map Entry.file).or (w.tree.get? q) else w.tree.get? q := by
  have hclean := ht.behind hf.valid
  have hparent : Path.spot here (Path.parent ⟨target.root, target.parts ++ way f⟩) =
      Path.spot here target ++ (way f).dropLast := spot_parent_way target hne
  obtain ⟨u, hfolders, hu, hsame, hfolder⟩ :=
    Disk.run_folders hw hclean.parent hroot (hparent ▸ hopen)
  have hexact : ∀ q, ¬ q <+: Path.spot here target ++ (way f).dropLast →
      u.tree.get? q = w.tree.get? q := fun q hq => by
    have hkeeps := (Disk.keeps_folders hclean.parent (hparent ▸ hq) :
      Keeps (World.At here q (w.tree.get? q)) _) w ⟨hw.here_eq, rfl⟩
    rw [hfolders] at hkeeps
    exact hkeeps.2
  rw [run_writeSupport_eq ht hf hs hapart hu hfolders, carried_congr (hsame.bytes _)]
  cases hb : carried here source w f with
  | none =>
    refine ⟨none, u, rfl, fun q hq => ?_⟩
    rw [hexact q hq]
    split
    · rfl
    · rfl
  | some b =>
    have hthere' : u.tree.get? (Path.spot here target ++ way f) ≠ some .folder := by
      rw [hexact _ (Files.not_prefix_dropLast hne)]
      exact hthere (by rw [hb]; simp)
    have hrun := Disk.run_writeBytes hu hclean
      (by rw [spot_way, List.dropLast_append_of_ne_nil hne, ← hparent]; exact hfolder)
      (spot_way target f ▸ hthere') b
    rw [spot_way] at hrun
    refine ⟨some ⟨target.root, target.parts ++ way f⟩, _, run_bind_of_ok hrun, fun q hq => ?_⟩
    change (u.tree.put _ _).get? q = _
    rw [Tree.get?_put (by simp [hne]), hexact q hq]
    split
    · rfl
    · rfl

end

/-! ## Configurations -/

/-- The names on the way to the configuration. -/
abbrev configWay : List String := [configFolder, configFile]

/-- Removing a configuration always ends well. Nothing stands in its place then, if it was
there, and no other file has changed. -/
theorem run_removeConfig {w : World} (hw : w.Stands here root) :
    ∃ v, (removeConfig target).run w = (.ok (), v) ∧ v.Stands here root ∧
      v.home = w.home ∧ v.held = w.held ∧
      (∀ q, v.tree.bytes? q =
        if q = Path.spot here target ++ configWay then none else w.tree.bytes? q) ∧
      ((w.tree.bytes? (Path.spot here target ++ configWay)).isSome = true →
        v.tree.get? (Path.spot here target ++ configWay) = none) := by
  have hconfig := ht.behind valid_config
  have hfolder : (Path.mk target.root (target.parts ++ [configFolder])).Clean :=
    ht.behind (by decide)
  have hspot : Path.spot here ⟨target.root, target.parts ++ [configFolder]⟩ =
      Path.spot here target ++ [configFolder] := Path.spot_behind _
  have hconfigSpot : Path.spot here ⟨target.root, target.parts ++ configWay⟩ =
      Path.spot here target ++ configWay := Path.spot_behind _
  have hpre : Path.spot here target ++ [configFolder] <+: Path.spot here target ++ configWay :=
    ⟨[configFile], by simp [configWay]⟩
  have hne : Path.spot here target ++ [configFolder] ≠ Path.spot here target ++ configWay := by
    simp [configWay]
  have hfile : w.isFile (configPath target) = true ↔
      (w.tree.bytes? (Path.spot here target ++ configWay)).isSome = true := by
    rw [configPath_eq, World.isFile_iff hw.sound hconfig, hw.here_eq, hconfigSpot]
  rw [removeConfig, run_get_bind]
  by_cases hthere : (w.tree.bytes? (Path.spot here target ++ configWay)).isSome = true
  · obtain ⟨b, hb⟩ := Option.isSome_iff_exists.mp hthere
    obtain ⟨u, hrun, hu, hgrown, hnone⟩ := Disk.run_removeFile hw hconfig (hconfigSpot ▸ hb)
    rw [hconfigSpot] at hgrown hnone
    have hbytes : ∀ q, u.tree.bytes? q =
        if q = Path.spot here target ++ configWay then none else w.tree.bytes? q := fun q => by
      split
      · rename_i hq
        exact Tree.bytes?_eq_none_of_get? (.inl (hq ▸ hnone))
      · rename_i hq
        exact hgrown.bytes? hq
    rw [if_pos (hfile.mpr hthere), configPath_eq, Path.append_name target (by decide),
      run_bind_of_ok hrun, run_get_bind]
    split
    · rename_i hempty
      have hup := hgrown.folders _
        (hw.sound.tree.folder_above (Tree.bytes?_eq_some_iff.mp hb) hpre hne)
      obtain ⟨v, hrun', hv, hsame, hgone⟩ := Disk.run_removeFolder hu hfolder hroot (by simp)
        (hspot ▸ hup) (List.isEmpty_iff.mp hempty)
      refine ⟨v, hrun', hv, hsame.home.trans hgrown.home, hsame.held.trans hgrown.held,
        fun q => (hsame.bytes q).trans (hbytes q), fun _ => ?_⟩
      rw [hgone, hspot, if_pos hpre]
    · exact ⟨u, rfl, hu, hgrown.home, hgrown.held, hbytes, fun _ => hnone⟩
  · rw [if_neg (mt hfile.mp hthere)]
    refine ⟨w, rfl, hw, rfl, rfl, fun q => ?_, fun h => absurd h hthere⟩
    split
    · rename_i hq
      rw [hq]
      exact Option.not_isSome_iff_eq_none.mp hthere
    · rfl

omit ht hroot in
/-- Removing a configuration stands in the way of nothing. -/
theorem keeps_open_removeConfig (target : Path) (q : Place) :
    Keeps (fun w => w.tree.Open q) (removeConfig target) := by
  have hstill : Keeps (fun w => w.tree.Open q) (Pure.pure () : Work Unit) :=
    Keeps.of_still (fun _ _ hv hw => by rwa [hv.tree]) (Still.pure _)
  refine Keeps.get_bind fun w _ => ?_
  split
  · refine Keeps.bind (Disk.keeps_open_removeFile q _) fun _ => Keeps.get_bind fun w _ => ?_
    split
    · exact Disk.keeps_open_removeFolder q _
    · exact hstill
  · exact hstill

omit hroot in
/-- Removing a configuration takes away its file and a folder without entries. -/
theorem filled_removeConfig {w : World} (hw : w.Stands here root) {q : Place}
    (hq : w.tree.Filled q) (hne : q ≠ Path.spot here target ++ configWay) :
    ((removeConfig target).run w).2.tree.Filled q := by
  have hconfig : Path.place w.here (configPath target) = Path.spot here target ++ configWay := by
    rw [configPath_eq, hw.here_eq, Path.place_eq_spot (ht.behind valid_config), Path.spot_behind]
  have hfile := Disk.filled_removeFile hw.sound hq (p := configPath target) (hconfig ▸ hne)
  have hgrows := (Disk.removeFile_grows (configPath target) : Grows here root _ _) w hw
  rw [removeConfig, run_get_bind]
  split
  · rw [run_bind]
    cases hrun : (Disk.removeFile (configPath target)).run w with
    | mk r u =>
      rw [hrun] at hfile hgrows
      cases r with
      | error e => exact hfile
      | ok _ =>
        dsimp only
        rw [run_get_bind]
        split
        · exact Disk.filled_removeFolder hgrows.1.sound hfile (List.isEmpty_iff.mp ‹_›)
        · exact hfile
  · exact hq

/-- A configuration that has been written stands in its place. -/
theorem of_run_writeConfig {config : Mapping} {w v : World} {p : Path} (hw : w.Stands here root)
    (h : (writeConfig target config).run w = (.ok p, v)) :
    ∃ text, Yaml.write config = .ok text ∧ v.Stands here root ∧
      w.Grown (· = Path.spot here target ++ configWay) v ∧
      v.tree.bytes? (Path.spot here target ++ configWay) = some (Text.encode text) := by
  have hconfig := ht.behind valid_config
  have hfolderName : ∀ n ∈ [configFolder], ValidName n := by decide
  have hspot : Path.place here ⟨target.root, target.parts ++ configWay⟩ =
      Path.spot here target ++ configWay :=
    (Path.place_eq_spot hconfig).trans (Path.spot_behind _)
  rw [writeConfig, configPath_eq, Path.append_name target (by decide)] at h
  obtain ⟨_, u, hfolders, h⟩ := ok_of_run_bind h
  have hgrown := (Disk.folders_grows (ht.behind hfolderName).tidy hroot : Grows here root _ _) w hw
  rw [hfolders] at hgrown
  obtain ⟨text, htext, h⟩ := ok_of_run_ofExcept_bind h
  obtain ⟨_, x, hwrite, h⟩ := ok_of_run_bind h
  obtain ⟨-, rfl⟩ := Prod.mk.inj h
  have hx := (Disk.write_grows hconfig.tidy hroot text : Grows here root _ _) u hgrown.1
  rw [hwrite, hspot] at hx
  have hstat := (World.stat_iff_locate.mp (Disk.stat_of_writeBytes hwrite)).2
  rw [hgrown.1.here_eq, hspot] at hstat
  refine ⟨text, ?_, hx.1, (hgrown.2.mono fun _ h => h.elim).trans hx.2,
    Tree.bytes?_eq_some_iff.mpr hstat⟩
  cases hyaml : Yaml.write config with
  | error e => rw [hyaml] at htext; cases htext
  | ok t =>
    rw [hyaml] at htext
    exact congrArg Except.ok (Except.ok.inj htext)

/-- On an open way, and where no folder is in its place, a configuration can be written. -/
theorem run_writeConfig {config : Mapping} {text : String} (htext : Yaml.write config = .ok text)
    {w : World} (hw : w.Stands here root)
    (hopen : ∀ q, q <+: Path.spot here target ++ [configFolder] → w.tree.Open q)
    (hthere : w.tree.get? (Path.spot here target ++ configWay) ≠ some .folder) :
    ∃ p v, (writeConfig target config).run w = (.ok p, v) ∧ v.Stands here root ∧
      w.Moved (· = Path.spot here target ++ configWay) v ∧
      v.tree.bytes? (Path.spot here target ++ configWay) = some (Text.encode text) := by
  have hconfig := ht.behind valid_config
  have hfolder : (Path.mk target.root (target.parts ++ [configFolder])).Clean :=
    ht.behind (by decide)
  have hspot : Path.spot here ⟨target.root, target.parts ++ [configFolder]⟩ =
      Path.spot here target ++ [configFolder] := Path.spot_behind _
  have hconfigSpot : Path.spot here ⟨target.root, target.parts ++ configWay⟩ =
      Path.spot here target ++ configWay := Path.spot_behind _
  have hdrop : (Path.spot here target ++ configWay).dropLast =
      Path.spot here target ++ [configFolder] := by
    rw [List.dropLast_append_of_ne_nil (by simp)]
    rfl
  obtain ⟨u, hfolders, hu, hsame, hup⟩ := Disk.run_folders hw hfolder hroot (hspot ▸ hopen)
  have hgrown := ((Disk.folders_grows hfolder.tidy hroot : Grows here root _ _) w hw).2
  have hkeeps := (Disk.keeps_folders hfolder (by
      intro hpre
      have := hpre.length_le
      simp [hspot, configWay] at this) : Keeps (World.At here (Path.spot here target ++ configWay)
        (w.tree.get? (Path.spot here target ++ configWay))) _) w ⟨hw.here_eq, rfl⟩
  rw [hfolders] at hgrown hkeeps
  obtain ⟨v, hwrite, hv, hmoved, hbytes⟩ := Disk.exists_run_writeBytes hu hconfig hroot
    (by rw [hconfigSpot, hdrop, ← hspot]; exact hup)
    (by rw [hconfigSpot, hkeeps.2]; exact hthere) (Text.encode text)
  rw [hconfigSpot] at hmoved hbytes
  refine ⟨configPath target, v, ?_, hv, (hgrown.toMoved.mono fun _ h => h.elim).trans hmoved,
    hbytes⟩
  rw [writeConfig, configPath_eq, Path.append_name target (by decide), run_bind_of_ok hfolders,
    htext]
  change ((Disk.write _ text >>= fun _ => pure _ : Work Path)).run u = _
  rw [Disk.write, run_bind_of_ok hwrite]
  rfl

end

/-! ## Skills that stand in their folders -/

/-- A skill as an agent has written it into a folder. -/
structure Stored (here : Path) (a : Agent) (s : Skill) (source target : Path) (v : World) :
    Prop where
  own : ∃ text, s.text = .ok text ∧
    v.tree.bytes? (Path.spot here target ++ [ownFile]) = some (Text.encode text)
  /-- The way to a support file is open. -/
  clear : ∀ f ∈ s.support, ∀ q, q <+: Path.spot here target ++ (way f).dropLast → v.tree.Open q
  support : ∀ f ∈ s.support, ∀ b, carried here source v f = some b →
    (hasConfig a = true → way f ≠ configWay) →
    v.tree.bytes? (Path.spot here target ++ way f) = some b
  /-- In the place of the configuration a support file does not stay. -/
  replaced : ∀ f ∈ s.support, carried here source v f ≠ none → way f = configWay →
    v.tree.get? (Path.spot here target ++ configWay) ≠ some .folder
  config : hasConfig a = true → ∀ m, s.fullConfig? = some m → ∃ text, Yaml.write m = .ok text ∧
    v.tree.bytes? (Path.spot here target ++ configWay) = some (Text.encode text)
  bare : hasConfig a = true → s.fullConfig? = none →
    v.tree.bytes? (Path.spot here target ++ configWay) = none

namespace Stored

variable {v v' : World}

/-- A skill stands in its folder as long as the folder is as it is, and the files in the folder
it comes from. -/
theorem stays (h : Stored here a s source target v) (hsound : v'.Sound)
    (hsource : ∀ names, v'.tree.bytes? (Path.spot here source ++ names) =
      v.tree.bytes? (Path.spot here source ++ names))
    (htarget : ∀ names, v'.tree.get? (Path.spot here target ++ names) =
      v.tree.get? (Path.spot here target ++ names)) : Stored here a s source target v' := by
  have hcarried (f : SupportFile) : carried here source v' f = carried here source v f :=
    carried_congr (hsource _)
  have hbytes (names : List String) : v'.tree.bytes? (Path.spot here target ++ names) =
      v.tree.bytes? (Path.spot here target ++ names) := by rw [Tree.bytes?, htarget, ← Tree.bytes?]
  obtain ⟨text, htext, hb⟩ := h.own
  rw [← hbytes] at hb
  refine ⟨⟨text, htext, hb⟩, fun f hf q hq => ?_, fun f hf b hb hway => ?_,
    fun f hf hb hway => ?_, fun ha m hm => ?_, fun ha hm => ?_⟩
  · rcases List.prefix_or_prefix_of_prefix hq (List.prefix_append _ _) with hpre | ⟨names, rfl⟩
    · refine hsound.tree.open_above (Tree.bytes?_eq_some_iff.mp hb)
        (hpre.trans (List.prefix_append _ _)) fun heq => ?_
      exact Files.not_append_prefix (List.cons_ne_nil _ _) (heq ▸ hpre)
    · rw [Tree.Open, htarget]
      exact h.clear f hf _ hq
  · rw [hbytes]
    exact h.support f hf b (hcarried f ▸ hb) hway
  · rw [htarget]
    exact h.replaced f hf (hcarried f ▸ hb) hway
  · obtain ⟨text, htext, hb⟩ := h.config ha m hm
    exact ⟨text, htext, by rw [hbytes]; exact hb⟩
  · rw [hbytes]
    exact h.bare ha hm

/-- What stands in the folder is known by the text, the support files and the
configuration. -/
theorem congr {t : Skill} (h : Stored here a s source target v) (htext : t.text = s.text)
    (hsupport : t.support = s.support) (hconfig : t.config = s.config) :
    Stored here a t source target v := by
  have hfull : t.fullConfig? = s.fullConfig? := by rw [fullConfig?, hconfig, ← fullConfig?]
  refine ⟨?_, ?_, ?_, ?_, ?_, ?_⟩
  · rw [htext]; exact h.own
  · rw [hsupport]; exact h.clear
  · rw [hsupport]; exact h.support
  · rw [hsupport]; exact h.replaced
  · rw [hfull]; exact h.config
  · rw [hfull]; exact h.bare

end Stored

/-! ## A skill that has been written -/

/-- The skill's own file stands in its folder, and nothing outside has changed. -/
structure Begun (here : Path) (root : Nat) (target : Path) (text : String) (w v : World) :
    Prop where
  stands : v.Stands here root
  outside : ∀ q, ¬ Path.spot here target <+: q → v.tree.bytes? q = w.tree.bytes? q
  own : v.tree.bytes? (Path.spot here target ++ [ownFile]) = some (Text.encode text)

/-- A support file stands in its folder. -/
def Placed (here source target : Path) (w : World) (f : SupportFile) (v : World) : Prop :=
  v.tree.get? (Path.spot here target ++ (way f).dropLast) = some .folder ∧
    ∀ b, carried here source w f = some b →
      v.tree.bytes? (Path.spot here target ++ way f) = some b

theorem Begun.carried {text : String} {w v : World} (h : Begun here root target text w v)
    (hapart : ∀ names, ¬ Path.spot here target <+: Path.spot here source ++ names)
    (f : SupportFile) : carried here source v f = carried here source w f :=
  carried_congr (h.outside _ (hapart _))

section

variable (ht : target.Clean) (hroot : target.root = root) (hs : source.Clean)
  (hapart : ∀ names, ¬ Path.spot here target <+: Path.spot here source ++ names)
include ht hroot hs hapart

/-- Each support file is placed, and those behind it leave it where it is. -/
theorem leaves_support (hfits : Fits s.support) (text : String) (w : World) :
    Leaves (Begun here root target text w) (s.support.filterMapM (writeSupport (some source) target))
      fun v => Begun here root target text w v ∧
        ∀ f ∈ s.support, Placed here source target w f v := by
  have hne (f : SupportFile) (hf : f ∈ s.support) : Path.spot here target ++ [ownFile] ≠
      Path.spot here target ++ way f := fun heq =>
    hfits.fit.own _ (List.mem_map_of_mem hf) (List.append_cancel_left heq).symm
  have hbegun (f : SupportFile) (hf : f ∈ s.support) {y y' : World} {r : Option Path}
      (hy : Begun here root target text w y)
      (hrun : (writeSupport (some source) target f).run y = (.ok r, y')) :
      y.Grown (· = Path.spot here target ++ way f) y' ∧ Begun here root target text w y' := by
    have hy' := writeSupport_grows ht hroot (some source) (hfits.below f hf) y hy.stands
    rw [hrun] at hy'
    refine ⟨hy'.2, hy'.1, fun q hq => ?_, ?_⟩
    · rw [hy'.2.bytes? fun heq : q = _ => hq (heq ▸ List.prefix_append _ _)]
      exact hy.outside q hq
    · rw [hy'.2.bytes? (hne f hf)]
      exact hy.own
  refine Leaves.each (fun f hf y r y' hy hrun => ⟨(hbegun f hf hy hrun).2, ?_⟩) ?_
  · obtain ⟨hfolder, hbytes⟩ := of_run_writeSupport ht hroot (hfits.below f hf)
      (hfits.ne_nil hf) hs (fun heq => hapart (way f) (heq ▸ List.prefix_append _ _))
      hy.stands hrun
    exact ⟨hfolder, fun b hb => hbytes b (by rw [hy.carried hapart]; exact hb)⟩
  · refine (List.pairwise_map.mp hfits.fit.distinct).imp_of_mem
      fun {f g} hf hg hfg y r y' hy hrun => ?_
    obtain ⟨hgrown, hbegun⟩ := hbegun g hg hy.1 hrun
    refine ⟨hbegun, hgrown.folders _ hy.2.1, fun b hb => ?_⟩
    rw [hgrown.bytes? fun heq => hfg (List.append_cancel_left heq)]
    exact hy.2.2 b hb

omit ht hroot hs in
/-- Where the own file and the support files stand, the rest is up to the
configuration. -/
theorem stored_of_placed {text : String} (htext : s.text = .ok text) {w y v : World}
    (hbegun : Begun here root target text w y)
    (hplaced : ∀ f ∈ s.support, Placed here source target w f y)
    (hsame : ∀ q, (hasConfig a = true → q ≠ Path.spot here target ++ configWay) →
      v.tree.bytes? q = y.tree.bytes? q)
    (hopen : ∀ q, y.tree.get? q = some .folder → v.tree.Open q)
    (hreplaced : (y.tree.bytes? (Path.spot here target ++ configWay)).isSome = true →
      v.tree.get? (Path.spot here target ++ configWay) ≠ some .folder)
    (hconfig : hasConfig a = true → ∀ m, s.fullConfig? = some m → ∃ text, Yaml.write m = .ok text ∧
      v.tree.bytes? (Path.spot here target ++ configWay) = some (Text.encode text))
    (hbare : hasConfig a = true → s.fullConfig? = none →
      v.tree.bytes? (Path.spot here target ++ configWay) = none) :
    Stored here a s source target v := by
  have hcarried (f : SupportFile) : carried here source v f = carried here source w f := by
    rw [← hbegun.carried hapart f]
    refine carried_congr (hsame _ fun _ heq => hapart (way f) ?_)
    rw [heq]
    exact List.prefix_append _ _
  refine ⟨⟨text, htext, ?_⟩, fun f hf q hq => ?_, fun f hf b hb hway => ?_,
    fun f hf hb hway => hreplaced ?_, hconfig, hbare⟩
  · rw [hsame _ fun _ heq => ?_, hbegun.own]
    have := congrArg List.length heq
    simp [configWay] at this
  · have hfolder := (hplaced f hf).1
    by_cases heq : q = Path.spot here target ++ (way f).dropLast
    · exact hopen q (heq ▸ hfolder)
    · exact hopen q (hbegun.stands.sound.tree.folder_above hfolder hq heq)
  · rw [hsame _ fun ha heq => hway ha (List.append_cancel_left heq)]
    exact (hplaced f hf).2 b (hcarried f ▸ hb)
  · obtain ⟨b, hb⟩ := Option.ne_none_iff_exists'.mp hb
    have := (hplaced f hf).2 b (hcarried f ▸ hb)
    rw [hway] at this
    rw [this]
    rfl

omit ht hroot hs hapart in
/-- What is done last: the configuration is written or removed, where the agent has one. -/
inductive Configured (a : Agent) (s : Skill) (target : Path) (y v : World) : Prop where
  | written (m : Mapping) (p : Path) (ha : hasConfig a = true) (hm : s.fullConfig? = some m)
      (hrun : (writeConfig target m).run y = (.ok p, v))
  | removed (ha : hasConfig a = true) (hm : s.fullConfig? = none)
      (hrun : (removeConfig target).run y = (.ok (), v))
  | none (ha : hasConfig a = false) (hv : v = y)

/-- A skill that has been written: its own file and the support files stand in its folder when
the configuration is seen to. -/
theorem of_run_write (hfits : Fits s.support) {w v : World} {paths : List Path}
    (hw : w.Stands here root) (h : (write a s (some source) target).run w = (.ok paths, v)) :
    ∃ text y, s.text = .ok text ∧ Begun here root target text w y ∧
      (∀ f ∈ s.support, Placed here source target w f y) ∧ Configured a s target y v := by
  have hown : ∀ n ∈ [ownFile], ValidName n := by decide
  have hownClean := ht.behind hown
  have hownPlace : Path.place here ⟨target.root, target.parts ++ [ownFile]⟩ =
      Path.spot here target ++ [ownFile] :=
    (Path.place_eq_spot hownClean).trans (Path.spot_behind _)
  rw [write, Path.append_name target (by decide)] at h
  obtain ⟨text, htext, h⟩ := ok_of_run_ofExcept_bind h
  obtain ⟨_, u, hfolders, h⟩ := ok_of_run_bind h
  obtain ⟨_, x, hwrite, h⟩ := ok_of_run_bind h
  obtain ⟨rs, y, hsupport, h⟩ := ok_of_run_bind h
  have hu := (Disk.folders_grows ht.tidy hroot : Grows here root _ _) w hw
  rw [hfolders] at hu
  have hx := (Disk.write_grows hownClean.tidy hroot text : Grows here root _ _) u hu.1
  rw [hwrite, hownPlace] at hx
  have hstat := (World.stat_iff_locate.mp (Disk.stat_of_writeBytes hwrite)).2
  rw [hu.1.here_eq, hownPlace] at hstat
  have hbegun : Begun here root target text w x := by
    refine ⟨hx.1, fun q hq => ?_, Tree.bytes?_eq_some_iff.mpr hstat⟩
    rw [hx.2.bytes? fun heq : q = _ => hq (heq ▸ List.prefix_append _ _),
      hu.2.bytes? not_false]
  obtain ⟨hbegun, hplaced⟩ := leaves_support ht hroot hs hapart hfits text w x rs y hbegun hsupport
  refine ⟨text, y, htext, hbegun, hplaced, ?_⟩
  by_cases ha : hasConfig a = true
  · rw [if_pos ha] at h
    split at h
    · rename_i m hm
      obtain ⟨p, z, hconfig, h⟩ := ok_of_run_bind h
      obtain ⟨-, rfl⟩ := Prod.mk.inj h
      exact .written m p ha hm hconfig
    · rename_i hm
      obtain ⟨_, z, hremove, h⟩ := ok_of_run_bind h
      obtain ⟨-, rfl⟩ := Prod.mk.inj h
      exact .removed ha hm hremove
  · rw [if_neg ha] at h
    obtain ⟨-, rfl⟩ := Prod.mk.inj h
    exact .none (Bool.eq_false_iff.mpr ha) rfl

/-- A skill that has been written stands in its folder. -/
theorem stored_of_write (hfits : Fits s.support) {w v : World} {paths : List Path}
    (hw : w.Stands here root) (h : (write a s (some source) target).run w = (.ok paths, v)) :
    Stored here a s source target v ∧ v.Stands here root := by
  obtain ⟨text, y, htext, hbegun, hplaced, hconfigured⟩ :=
    of_run_write ht hroot hs hapart hfits hw h
  cases hconfigured with
  | written m p ha hm hrun =>
    obtain ⟨yaml, hyaml, hz, hgrown, hbytes⟩ := of_run_writeConfig ht hroot hbegun.stands hrun
    refine ⟨stored_of_placed hapart htext hbegun hplaced
      (fun q hq => hgrown.bytes? (hq ha)) (fun q hq => .inr (hgrown.folders q hq))
      (fun _ => Tree.ne_folder_of_bytes hbytes) (fun _ m' hm' => ?_) fun _ hm' => ?_, hz⟩
    · obtain rfl := Option.some.inj (hm.symm.trans hm')
      exact ⟨yaml, hyaml, hbytes⟩
    · rw [hm] at hm'
      cases hm'
  | removed ha hm hrun =>
    obtain ⟨z, hremove, hz, -, -, hbytes, hgone⟩ := run_removeConfig ht hroot hbegun.stands
    obtain ⟨-, rfl⟩ := Prod.mk.inj (hremove.symm.trans hrun)
    refine ⟨stored_of_placed hapart htext hbegun hplaced
      (fun q hq => (hbytes q).trans (if_neg (hq ha))) (fun q hq => ?_)
      (fun hthere => by simp [hgone hthere]) (fun _ m' hm' => ?_)
      fun _ _ => (hbytes _).trans (if_pos rfl), hz⟩
    · have hopen := keeps_open_removeConfig target q y (.inr hq)
      rwa [hrun] at hopen
    · rw [hm] at hm'
      cases hm'
  | none ha hv =>
    subst hv
    have hno : ¬ hasConfig a = true := Bool.eq_false_iff.mp ha
    exact ⟨stored_of_placed hapart htext hbegun hplaced (fun _ _ => rfl)
      (fun _ hq => .inr hq)
      (fun hthere => by
        obtain ⟨b, hb⟩ := Option.isSome_iff_exists.mp hthere
        exact Tree.ne_folder_of_bytes hb) (fun ha' => absurd ha' hno) fun ha' => absurd ha' hno,
      hbegun.stands⟩

/-! ## Writing it again -/

omit ht hroot hs hapart in
/-- The place of the configuration is written. -/
def Busy (here : Path) (a : Agent) (s : Skill) (source : Path) (v : World) : Prop :=
  (∃ f ∈ s.support, way f = configWay ∧ carried here source v f ≠ none) ∨
    (hasConfig a = true ∧ ∃ m, s.fullConfig? = some m)

omit ht hroot hs hapart in
/-- A skill that stands in its folder is being written again: but for the place of the
configuration every file is as it was. No folder is lost, and the ways to the support files are
open. -/
structure Rewriting (here : Path) (root : Nat) (a : Agent) (s : Skill) (source target : Path)
    (v y : World) : Prop where
  stands : y.Stands here root
  home : y.home = v.home
  held : y.held = v.held
  bytes : ∀ q, (hasConfig a = true → q ≠ Path.spot here target ++ configWay) →
    y.tree.bytes? q = v.tree.bytes? q
  folders : ∀ q, v.tree.get? q = some .folder → y.tree.get? q = some .folder
  clear : ∀ f ∈ s.support, ∀ q, q <+: Path.spot here target ++ (way f).dropLast → y.tree.Open q
  free : Busy here a s source v →
    y.tree.get? (Path.spot here target ++ configWay) ≠ some .folder

variable {v : World} (h : Stored here a s source target v)
include h

omit ht hroot hs hapart in
theorem Stored.free (hbusy : Busy here a s source v) :
    v.tree.get? (Path.spot here target ++ configWay) ≠ some .folder := by
  rcases hbusy with ⟨f, hf, hway, hb⟩ | ⟨ha, m, hm⟩
  · exact h.replaced f hf hb hway
  · obtain ⟨_, -, hb⟩ := h.config ha m hm
    exact Tree.ne_folder_of_bytes hb

omit ht hroot hs hapart in
/-- Where the configuration is written, no support file lies below it. -/
theorem Stored.config_clear (hfits : Fits s.support) (hbusy : Busy here a s source v)
    {f : SupportFile} (hf : f ∈ s.support) : ¬ Path.spot here target ++ configWay <+:
      Path.spot here target ++ (way f).dropLast := fun hpre => by
  rcases hbusy with ⟨g, hg, hway, -⟩ | ⟨ha, m, hm⟩
  · refine hfits.clear hg hf ?_
    rw [hway]
    exact (List.prefix_append_right_inj _).mp hpre
  · obtain ⟨_, -, hb⟩ := h.config ha m hm
    rw [Tree.bytes?_eq_none_of_get? (h.clear f hf _ hpre)] at hb
    cases hb

/-- A support file is written again. -/
theorem Stored.manages_support (hfits : Fits s.support) {f : SupportFile} (hf : f ∈ s.support) :
    Manages (Rewriting here root a s source target v) (writeSupport (some source) target f) := by
  intro y hy
  have hcarried : carried here source y f = carried here source v f :=
    carried_congr (hy.bytes _ fun _ heq => hapart (way f) (heq ▸ List.prefix_append _ _))
  have hthere : carried here source y f ≠ none →
      y.tree.get? (Path.spot here target ++ way f) ≠ some .folder := fun hb => by
    rw [hcarried] at hb
    by_cases hway : way f = configWay
    · rw [hway]
      exact hy.free (.inl ⟨f, hf, hway, hb⟩)
    · obtain ⟨b, hb⟩ := Option.ne_none_iff_exists'.mp hb
      refine Tree.ne_folder_of_bytes (b := b) ?_
      rw [hy.bytes _ fun _ heq => hway (List.append_cancel_left heq)]
      exact h.support f hf b hb fun _ => hway
  have hne := hfits.ne_nil hf
  have hbeside : Path.spot here source ++ way f ≠ Path.spot here target ++ way f :=
    fun heq => hapart (way f) (heq ▸ List.prefix_append _ _)
  obtain ⟨r, z, hrun, hexact⟩ := run_writeSupport ht hroot (hfits.below f hf) hne hs hbeside
    hy.stands (hy.clear f hf) hthere
  obtain ⟨hfolder, -⟩ := of_run_writeSupport ht hroot (hfits.below f hf) hne hs hbeside hy.stands
    hrun
  have hgrows := writeSupport_grows ht hroot (some source) (hfits.below f hf) y hy.stands
  rw [hrun] at hgrows
  obtain ⟨hz, hgrown⟩ := hgrows
  have hplace := (hexact _ (Files.not_prefix_dropLast hne)).trans (if_pos rfl)
  rw [hcarried] at hplace
  refine ⟨r, z, hrun, hz, hgrown.home.trans hy.home, hgrown.held.trans hy.held,
    fun q hq => ?_, fun q hq => hgrown.folders q (hy.folders q hq), fun g hg q hq => ?_,
    fun hbusy => ?_⟩
  · by_cases heq : q = Path.spot here target ++ way f
    · cases hb : carried here source v f with
      | none =>
        rw [hb] at hplace
        rw [← hy.bytes q hq, heq, Tree.bytes?, hplace]
        rfl
      | some b =>
        rw [hb] at hplace
        rw [heq] at hq ⊢
        rw [h.support f hf b hb fun ha hway => hq ha (by rw [hway])]
        exact Tree.bytes?_eq_some_iff.mpr hplace
    · exact (hgrown.bytes? heq).trans (hy.bytes q hq)
  · by_cases hpre : q <+: Path.spot here target ++ (way f).dropLast
    · by_cases heq : q = Path.spot here target ++ (way f).dropLast
      · exact .inr (heq ▸ hfolder)
      · exact hz.sound.tree.open_above hfolder hpre heq
    · -- The way to one support file does not lead through another.
      rw [Tree.Open, hexact q hpre, if_neg fun heq => hfits.clear hf hg
        ((List.prefix_append_right_inj _).mp (heq ▸ hq))]
      exact hy.clear g hg q hq
  · rw [hexact _ (h.config_clear hfits hbusy hf)]
    have hfree := hy.free hbusy
    split
    · cases carried here source y f with
      | none => exact hfree
      | some b => simp
    · exact hfree

omit hs hapart in
/-- The own file of a skill is written again, and no folder has been made in the place of the
configuration then. -/
theorem Stored.own_again (hv : v.Stands here root) {text : String} (htext : s.text = .ok text) :
    ∃ u x, (Disk.folders target).run v = (.ok (), u) ∧
      (Disk.write ⟨target.root, target.parts ++ [ownFile]⟩ text).run u = (.ok (), x) ∧
      Rewriting here root a s source target v x := by
  have hown : ∀ n ∈ [ownFile], ValidName n := by decide
  have hownClean := ht.behind hown
  have hownSpot : Path.spot here ⟨target.root, target.parts ++ [ownFile]⟩ =
      Path.spot here target ++ [ownFile] := Path.spot_behind _
  obtain ⟨text', htext', hb⟩ := h.own
  obtain rfl := Except.ok.inj (htext'.symm.trans htext)
  have hopen : ∀ q, q <+: Path.spot here target → v.tree.Open q := fun q hq => by
    refine hv.sound.tree.open_above (Tree.bytes?_eq_some_iff.mp hb)
      (hq.trans (List.prefix_append _ _)) fun heq => ?_
    exact Files.not_append_prefix (List.cons_ne_nil _ _) (heq ▸ hq)
  obtain ⟨u, hfolders, hu, hsame, -⟩ := Disk.run_folders hv ht hroot hopen
  obtain ⟨x, hwrite, hx, hsame'⟩ := Disk.run_rewrite hu hownClean hroot
    (by rw [hownSpot, hsame.bytes]; exact hb)
  have hall := hsame.trans hsame'
  have hfoldersGrown := (Disk.folders_grows ht.tidy hroot : Grows here root _ _) v hv
  have hwriteGrown := (Disk.writeBytes_grows hownClean.tidy hroot (Text.encode text') :
    Grows here root _ _) u hu
  rw [hfolders] at hfoldersGrown
  rw [hwrite] at hwriteGrown
  -- Below the folder nothing has been put but the own file.
  have hplace {q : Place} (hpre : ¬ q <+: Path.spot here target)
      (hne : q ≠ Path.spot here target ++ [ownFile]) : x.tree.get? q = v.tree.get? q := by
    have hkeeps := (Disk.keeps_folders ht hpre :
      Keeps (World.At here q (v.tree.get? q)) _) v ⟨hv.here_eq, rfl⟩
    rw [hfolders] at hkeeps
    have hkeeps' := Disk.keeps_writeBytes (p := ⟨target.root, target.parts ++ [ownFile]⟩)
      (by rwa [Path.place_eq_spot hownClean, hownSpot]) (Text.encode text') u hkeeps
    rw [hwrite] at hkeeps'
    exact hkeeps'.2
  refine ⟨u, x, hfolders, hwrite, hx, hall.home, hall.held, fun q _ => hall.bytes q,
    fun q hq => hwriteGrown.2.folders q (hfoldersGrown.2.folders q hq), fun f hf q hq => ?_,
    fun hbusy => ?_⟩
  · by_cases hpre : q <+: Path.spot here target
    · refine hx.sound.tree.open_above (Tree.bytes?_eq_some_iff.mp ((hall.bytes _).trans hb))
        (hpre.trans (List.prefix_append _ _)) fun heq => ?_
      exact Files.not_append_prefix (List.cons_ne_nil _ _) (heq ▸ hpre)
    · rw [Tree.Open, hplace hpre fun heq => ?_]
      · exact h.clear f hf q hq
      · rw [heq] at hq
        rw [Tree.bytes?_eq_none_of_get? (h.clear f hf _ hq)] at hb
        cases hb
  · rw [hplace (Files.not_append_prefix (List.cons_ne_nil _ _)) fun heq => ?_]
    · exact h.free hbusy
    · have := congrArg List.length heq
      simp at this

section

variable {y : World} (hv : v.Stands here root) (hy : Rewriting here root a s source target v y)
  (ha : hasConfig a = true)
include hv hy ha

omit hs hapart in
/-- A configuration is written again. -/
theorem Stored.writeConfig_again {m : Mapping} (hm : s.fullConfig? = some m) :
    ∃ p z, (writeConfig target m).run y = (.ok p, z) ∧ z.Stands here root ∧ v.SameBytes z := by
  obtain ⟨yaml, hyaml, hconfig⟩ := h.config ha m hm
  obtain ⟨p, z, hrun, hz, hmoved, hbytes⟩ := run_writeConfig ht hroot hyaml hy.stands
    (fun q hq => by
      have hne : q ≠ Path.spot here target ++ configWay := fun heq => by
        have := hq.length_le
        simp [heq, configWay] at this
      exact .inr (hy.folders q (hv.sound.tree.folder_above (Tree.bytes?_eq_some_iff.mp hconfig)
        (hq.trans ⟨[configFile], by simp [configWay]⟩) hne)))
    (hy.free (.inr ⟨ha, m, hm⟩))
  refine ⟨p, z, hrun, hz, hmoved.home.trans hy.home, by rw [hz.here_eq, hv.here_eq],
    hmoved.held.trans hy.held, fun q => ?_⟩
  by_cases heq : q = Path.spot here target ++ configWay
  · rw [heq, hbytes, hconfig]
  · rw [hmoved.bytes? heq, hy.bytes q fun _ => heq]

omit hs hapart in
/-- Where there is no configuration, removing it changes no file. -/
theorem Stored.removeConfig_again (hm : s.fullConfig? = none) :
    ∃ z, (removeConfig target).run y = (.ok (), z) ∧ z.Stands here root ∧ v.SameBytes z := by
  obtain ⟨z, hrun, hz, hhome, hheld, hbytes, -⟩ := run_removeConfig ht hroot hy.stands
  refine ⟨z, hrun, hz, hhome.trans hy.home, by rw [hz.here_eq, hv.here_eq], hheld.trans hy.held,
    fun q => ?_⟩
  rw [hbytes]
  split
  · rename_i heq
    rw [heq, h.bare ha hm]
  · rename_i heq
    exact hy.bytes q fun _ => heq

end

/-- Where a skill stands it can be written again, and no file changes. -/
theorem Stored.write_again (hfits : Fits s.support) (hv : v.Stands here root) :
    ∃ paths z, (write a s (some source) target).run v = (.ok paths, z) ∧ z.Stands here root ∧
      v.SameBytes z := by
  obtain ⟨text, htext, -⟩ := h.own
  obtain ⟨u, x, hfolders, hwrite, hx⟩ := h.own_again ht hroot hv htext
  obtain ⟨rs, y, hsupport, hy⟩ := Manages.filterMapM
    (fun f hf => h.manages_support ht hroot hs hapart hfits hf) x hx
  rw [write, Path.append_name target (by decide), htext, ofExcept_ok_bind,
    run_bind_of_ok hfolders, run_bind_of_ok hwrite, run_bind_of_ok hsupport]
  by_cases ha : hasConfig a = true
  · rw [if_pos ha]
    split
    · rename_i m hm
      obtain ⟨p, z, hrun, hz⟩ := h.writeConfig_again ht hroot hv hy ha hm
      rw [run_bind_of_ok hrun]
      exact ⟨_, z, rfl, hz⟩
    · rename_i hm
      obtain ⟨z, hrun, hz⟩ := h.removeConfig_again ht hroot hv hy ha hm
      rw [run_bind_of_ok hrun]
      exact ⟨_, z, rfl, hz⟩
  · rw [if_neg ha]
    exact ⟨_, y, rfl, hy.stands, hy.home, by rw [hy.stands.here_eq, hv.here_eq], hy.held,
      fun q => hy.bytes q fun ha' => absurd ha' ha⟩

end

/-! ## Places that are left alone -/

section

variable {q : Place} {e : Option Entry} (ht : target.Clean)
  (habove : ¬ q <+: Path.spot here target) (hbelow : ¬ Path.spot here target <+: q)
include ht habove hbelow

/-- A place apart from a folder is apart from what lies in the folder. -/
theorem apart_behind {names : List String} (hn : ∀ n ∈ names, ValidName n) :
    ¬ q <+: Path.spot here ⟨target.root, target.parts ++ names⟩ ∧
      ¬ Path.place here ⟨target.root, target.parts ++ names⟩ <+: q := by
  rw [Path.place_eq_spot (ht.behind hn), Path.spot_behind]
  refine ⟨fun hpre => ?_, fun hpre => hbelow ((List.prefix_append _ _).trans hpre)⟩
  exact (List.prefix_or_prefix_of_prefix hpre (List.prefix_append _ names)).elim habove hbelow

theorem keeps_foldersBehind {names : List String} (hn : ∀ n ∈ names, ValidName n) :
    Keeps (World.At here q e) (Disk.folders ⟨target.root, target.parts ++ names⟩) :=
  Disk.keeps_folders (ht.behind hn) (apart_behind ht habove hbelow hn).1

theorem keeps_writeBehind {names : List String} (hn : ∀ n ∈ names, ValidName n) (text : String) :
    Keeps (World.At here q e) (Disk.write ⟨target.root, target.parts ++ names⟩ text) :=
  Disk.keeps_writeBytes (fun heq => (apart_behind ht habove hbelow hn).2
    (heq ▸ List.prefix_rfl)) _

theorem keeps_writeSupport (source : Option Path) {f : SupportFile} (hf : LiesBelow f) :
    Keeps (World.At here q e) (writeSupport source target f) := by
  have hstill {α : Type} (x : α) : Keeps (World.At here q e) (pure x : Work α) :=
    Keeps.of_still World.At.same (Still.pure x)
  obtain ⟨hfree, happart⟩ := apart_behind ht habove hbelow hf.valid
  have hparent : ¬ q <+: Path.spot here (Path.parent ⟨target.root, target.parts ++ way f⟩) :=
    fun hpre => hfree (hpre.trans ((List.prefix_append_right_inj _).mpr (List.dropLast_prefix _)))
  unfold writeSupport
  rw [hf.append target]
  refine Keeps.bind (Disk.keeps_folders (ht.behind hf.valid).parent hparent) fun _ => ?_
  split
  · split
    · exact hstill _
    · refine Keeps.get_bind fun w _ => ?_
      split
      · exact Keeps.bind (Disk.keeps_copy _ fun heq => happart (heq ▸ List.prefix_rfl))
          fun _ => hstill _
      · exact hstill _
  · split
    · exact hstill _
    · exact Keeps.bind (keeps_writeBehind ht habove hbelow hf.valid _) fun _ => hstill _

theorem keeps_removeConfig : Keeps (World.At here q e) (removeConfig target) := by
  have hfolder : ∀ n ∈ [configFolder], ValidName n := by decide
  refine Keeps.get_bind fun w _ => ?_
  rw [configPath_eq, Path.append_name target (by decide)]
  split
  · refine Keeps.bind (Disk.keeps_removeFile (apart_behind ht habove hbelow valid_config).2)
      fun _ => Keeps.get_bind fun w _ => ?_
    split
    · exact Disk.keeps_removeFolder (apart_behind ht habove hbelow hfolder).2
    · exact Keeps.of_still World.At.same (Still.pure _)
  · exact Keeps.of_still World.At.same (Still.pure _)

theorem keeps_writeConfig (config : Mapping) :
    Keeps (World.At here q e) (writeConfig target config) := by
  have hfolder : ∀ n ∈ [configFolder], ValidName n := by decide
  rw [writeConfig, configPath_eq, Path.append_name target (by decide)]
  refine Keeps.bind (keeps_foldersBehind ht habove hbelow hfolder) fun _ => ?_
  refine Keeps.bind (Keeps.of_still World.At.same (Still.ofExcept _)) fun text => ?_
  exact Keeps.bind (keeps_writeBehind ht habove hbelow valid_config text) fun _ =>
    Keeps.of_still World.At.same (Still.pure _)

/-- What lies apart from the folder of a skill holds what it held when the skill is
written. -/
theorem keeps_write (a : Agent) {s : Skill} (hs : ∀ f ∈ s.support, LiesBelow f)
    (source : Option Path) : Keeps (World.At here q e) (write a s source target) := by
  have hstill {α : Type} (x : α) : Keeps (World.At here q e) (pure x : Work α) :=
    Keeps.of_still World.At.same (Still.pure x)
  have hown : ∀ n ∈ [ownFile], ValidName n := by decide
  rw [write, Path.append_name target (by decide)]
  refine Keeps.bind (Keeps.of_still World.At.same (Still.ofExcept _)) fun text => ?_
  refine Keeps.bind (Disk.keeps_folders ht habove) fun _ => ?_
  refine Keeps.bind (keeps_writeBehind ht habove hbelow hown text) fun _ => ?_
  refine Keeps.bind (Keeps.filterMapM hstill fun f hf => ?_) fun support => ?_
  · exact keeps_writeSupport ht habove hbelow source (hs f hf)
  · split
    · split
      · exact Keeps.bind (keeps_writeConfig ht habove hbelow _) fun _ => hstill _
      · exact Keeps.bind (keeps_removeConfig ht habove hbelow) fun _ => hstill _
    · exact hstill _

end

/-! ## Places that stay filled -/

section

variable {q : Place}

theorem keeps_filled_writeSupport (source : Option Path) (target : Path) (f : SupportFile) :
    Keeps (fun w => w.tree.Filled q) (writeSupport source target f) := by
  have hstill (r : Option Path) : Keeps (fun w => w.tree.Filled q) (pure r : Work (Option Path)) :=
    Keeps.of_still Disk.filled_same (Still.pure r)
  unfold writeSupport
  refine Keeps.bind (Disk.keeps_filled_folders _) fun _ => ?_
  split
  · split
    · exact hstill _
    · refine Keeps.get_bind fun w _ => ?_
      split
      · exact Keeps.bind (Disk.keeps_filled_copy _ _) fun _ => hstill _
      · exact hstill _
  · split
    · exact hstill _
    · exact Keeps.bind (Disk.keeps_filled_writeBytes _ _) fun _ => hstill _

theorem keeps_filled_writeConfig (target : Path) (config : Mapping) :
    Keeps (fun w => w.tree.Filled q) (writeConfig target config) := by
  unfold writeConfig
  refine Keeps.bind (Disk.keeps_filled_folders _) fun _ => ?_
  refine Keeps.bind (Keeps.of_still Disk.filled_same (Still.ofExcept _)) fun text => ?_
  exact Keeps.bind (Disk.keeps_filled_writeBytes _ _) fun _ =>
    Keeps.of_still Disk.filled_same (Still.pure _)

/-- Writing a skill leaves every filled place filled but that of the configuration. -/
theorem keeps_filled_write (ht : target.Clean) (hroot : target.root = root) (a : Agent) {s : Skill}
    (hs : ∀ f ∈ s.support, LiesBelow f)
    (source : Option Path) (hq : q ≠ Path.spot here target ++ configWay) :
    Keeps (fun w => w.Stands here root ∧ w.tree.Filled q) (write a s source target) := by
  have hown : ∀ n ∈ [ownFile], ValidName n := by decide
  have hsame (w v : World) (hv : w.SameFiles v) (hw : w.Stands here root ∧ w.tree.Filled q) :
      v.Stands here root ∧ v.tree.Filled q := ⟨hv.stands hw.1, Disk.filled_same w v hv hw.2⟩
  have hstill {α : Type} (x : α) :
      Keeps (fun w => w.Stands here root ∧ w.tree.Filled q) (pure x : Work α) :=
    Keeps.of_still hsame (Still.pure x)
  rw [write, Path.append_name target (by decide)]
  refine Keeps.bind (Keeps.of_still hsame (Still.ofExcept _)) fun text => ?_
  refine Keeps.bind ((Disk.folders_grows ht.tidy hroot).confined.keeps_with
    (Disk.keeps_filled_folders target)) fun _ => ?_
  refine Keeps.bind ((Disk.write_grows (ht.behind hown).tidy hroot text).confined.keeps_with
    (Disk.keeps_filled_writeBytes _ _)) fun _ => ?_
  refine Keeps.bind (Keeps.filterMapM hstill fun f hf =>
    (writeSupport_grows ht hroot source (hs f hf)).confined.keeps_with
      (keeps_filled_writeSupport source target f)) fun support => ?_
  split
  · split
    · exact Keeps.bind ((writeConfig_confined ht hroot _).keeps_with
        (keeps_filled_writeConfig target _)) fun _ => hstill _
    · refine Keeps.bind (fun w hw => ⟨?_, filled_removeConfig ht hw.1 hw.2 hq⟩) fun _ => hstill _
      exact (removeConfig_confined ht hroot w hw.1).1
  · exact hstill _

end

end Skill

end AgentRelay
