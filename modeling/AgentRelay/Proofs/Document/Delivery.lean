import AgentRelay.Proofs.Document.Writing
import AgentRelay.Proofs.Except
import AgentRelay.Proofs.Files.Patch

/-
  What writing a skill delivers.

  Everything that is done to files while a skill is written is a list of writes, one
  after the other: the skill's own file, then each support file that has something to
  write when its turn comes (`sent`), then the configuration. Work that ends well has
  patched the files by all of these, and work that fails by those in front of the
  failure (`goes_write`); besides, folders are made. Support files with places of their
  own then hold what was written. There is one exception: an agent that keeps
  configurations takes a file in the place of one away when the skill has none, also a
  support file that it has just written and reports (`write_delivers`).
-/

namespace AgentRelay

open Files (Place Tree Entry ValidName)
open Work
open World (Patched)

namespace Skill

variable {here : Path} {root : Nat} {target : Path} {w v : World}

/-! ## Support files -/

/-- What a support file is written with, when there is something to write: its text, or
the bytes that a binary file has in the folder it comes from. -/
def content? (source : Option Path) (w : World) (f : SupportFile) : Option ByteArray :=
  if f.kind = .binary then source.bind fun folder => w.fileAt? (folder.append f.path)
  else f.content.map Text.encode

/-- What one support file adds to the writes, once its folders have been made. -/
def sentOne (source : Option Path) (target : Path) (w : World) (f : SupportFile) :
    List FileWrite :=
  let path := target.append f.path
  ((content? source ((Disk.folders path.parent).run w).2 f).map fun b => (path, b)).toList

/-- What support files add to the writes, each in the world that it meets. -/
def sent (source : Option Path) (target : Path) : World → List SupportFile → List FileWrite
  | _, [] => []
  | w, f :: fs =>
    sentOne source target w f ++ sent source target ((writeSupport source target f).run w).2 fs

/-- Some writes have been made, and their paths are reported. -/
def Reported (here : Path) (root : Nat) (w : World) (ws : List FileWrite) (paths : List Path)
    (v : World) : Prop :=
  paths = ws.map Prod.fst ∧ Patched here root w ws v

section
variable (ht : target.Tidy) (hroot : target.root = root) (source : Option Path)
include ht hroot

/-- One support file: it is written when there is something to write, and reported then;
where that fails no file has changed. -/
theorem goes_writeSupport {f : SupportFile} (hf : (Path.ofText f.path).root = 0)
    (hw : w.Stands here root) :
    Goes w (writeSupport source target f)
      (fun r v => Reported here root w (sentOne source target w f) r.toList v)
      (fun _ => Patched here root w []) := by
  have hpath : (target.append f.path).Tidy := ht.append f.path
  have hpathRoot : (target.append f.path).root = root := by
    rw [Path.append, Path.join, Path.isAbsolute, hf]
    exact hroot
  unfold writeSupport
  refine (Disk.goes_folders hw hpath.parent hpathRoot).bind fun _ u hu => ?_
  obtain ⟨hfolders, hu⟩ := hu
  have hsent : sentOne source target w f =
      ((content? source u f).map fun b => (target.append f.path, b)).toList := by
    rw [sentOne, hfolders]
  -- Behind the folders there is nothing to write, or it is written.
  have hnone (hc : content? source u f = none) : Goes u (pure none : Work (Option Path))
      (fun r v => Reported here root w (sentOne source target w f) r.toList v)
      (fun _ => Patched here root w []) := by
    rw [hsent, hc]
    exact .pure ⟨rfl, hu⟩
  have hsome {b : ByteArray} (hc : content? source u f = some b) {x : Work Unit}
      (hx : Goes u x (fun _ v => Patched here root u [(target.append f.path, b)] v)
        fun _ => Patched here root u []) : Goes u (x >>= fun _ => pure (some (target.append f.path)))
      (fun r v => Reported here root w (sentOne source target w f) r.toList v)
      (fun _ => Patched here root w []) := by
    rw [hsent, hc]
    refine (hx.mono (fun _ v hv => hu.trans hv) fun _ v hv => hu.trans hv).bind fun _ v hv => ?_
    exact .pure ⟨rfl, hv⟩
  split
  · rename_i hkind
    cases source with
    | none => exact hnone (if_pos hkind)
    | some folder =>
      have hcontent : content? (some folder) u f = u.fileAt? (folder.append f.path) :=
        if_pos hkind
      refine Goes.get_bind ?_
      rw [World.isFile_eq_fileAt?]
      cases hb : u.fileAt? (folder.append f.path) with
      | none => exact hnone (hcontent.trans hb)
      | some b => exact hsome (hcontent.trans hb) (Disk.goes_copy hu.stands hpath hpathRoot hb)
  · rename_i hkind
    have hcontent : content? source u f = f.content.map Text.encode := if_neg hkind
    cases htext : f.content with
    | none => exact hnone (by rw [hcontent, htext]; rfl)
    | some text =>
      exact hsome (by rw [hcontent, htext]; rfl)
        (Disk.goes_writeBytes hu.stands hpath hpathRoot (Text.encode text))

/-- Support files, one after the other: those that have something to write are written and
reported. A failure leaves what was written in front of it. -/
theorem goes_support {fs : List SupportFile} (hf : ∀ f ∈ fs, (Path.ofText f.path).root = 0)
    (hw : w.Stands here root) :
    Goes w (fs.filterMapM (writeSupport source target))
      (Reported here root w (sent source target w fs))
      (fun _ v => ∃ front back, fs = front ++ back ∧
        Patched here root w (sent source target w front) v) := by
  induction fs generalizing w with
  | nil => exact .pure ⟨rfl, .refl hw⟩
  | cons f fs ih =>
    have hone := (goes_writeSupport ht hroot source (hf f (by simp)) hw).known
    refine (hone.mono (fun _ _ h => h) fun _ v hv => ?_).filterMapM_cons fun r u hr => ?_
    · exact ⟨[], f :: fs, rfl, hv⟩
    · obtain ⟨hrun, hr, hu⟩ := hr
      have hsent (gs : List SupportFile) : sent source target w (f :: gs) =
          sentOne source target w f ++ sent source target u gs := by
        rw [sent, hrun]
      refine (ih (fun g hg => hf g (List.mem_cons_of_mem _ hg)) hu.stands).mono
        (fun rs v h => ?_) fun _ v h => ?_
      · rw [Reported, hsent, List.map_append, hr, h.1]
        exact ⟨rfl, hu.trans h.2⟩
      · obtain ⟨front, back, rfl, hv⟩ := h
        exact ⟨f :: front, back, rfl, hsent front ▸ hu.trans hv⟩

end

/-! ## The configuration -/

/-- The place of the configuration, where the folder is found. -/
theorem place_configPath : Path.place here (configPath target) =
    Path.place here target ++ [configFolder, configFile] := by
  rw [configPath_eq, Path.place_behind valid_config]

/-- A configuration is written at its place. A failure changes no file. -/
theorem goes_writeConfig (ht : target.Tidy) (hroot : target.root = root)
    (hw : w.Stands here root) (config : Mapping) :
    Goes w (writeConfig target config)
      (fun p v => p = configPath target ∧ ∃ text, Yaml.write config = .ok text ∧
        Patched here root w [(configPath target, Text.encode text)] v)
      (fun _ => Patched here root w []) := by
  have hpath : (configPath target).Tidy := (ht.append _).append _
  have hpathRoot : (configPath target).root = root := by rw [configPath_eq, ← hroot]
  have hfolderRoot : (target.append configFolder).root = root := by
    rw [Path.append_name target (by decide), ← hroot]
  unfold writeConfig
  refine (Disk.goes_folders hw (ht.append configFolder) hfolderRoot).bind fun _ u hu => ?_
  cases hyaml : Yaml.write config with
  | error e => exact .of_failed rfl hu.2
  | ok text =>
    have hwrite := Disk.goes_writeBytes hu.2.stands hpath hpathRoot (Text.encode text)
    refine Goes.bind (x := Disk.write (configPath target) text)
      (hwrite.mono (fun _ v hv => hu.2.trans hv) fun _ v hv => hu.2.trans hv) fun _ v hv => ?_
    exact .pure ⟨rfl, text, rfl, hv⟩

/-- An agent that keeps configurations may take the folder of one away. The start of paths
with a root is not that folder. -/
def Spares (a : Agent) (here : Path) (root : Nat) (target : Path) : Prop :=
  hasConfig a → Path.start here root ≠ Path.place here target ++ [configFolder]

/-- Behind a folder that is found, removing the configuration ends well. No file is at
its place then, and every other file is as it was. -/
theorem run_removeConfig_behind (hw : w.Stands here root) {place : Place}
    (hs : w.stat target = .ok (place, .folder)) :
    ∃ v, (removeConfig target).run w = (.ok (), v) ∧
      (∀ q, v.tree.bytes? q =
        if q = Path.place here (configPath target) then none else w.tree.bytes? q) ∧
      (Path.start here root ≠ Path.place here target ++ [configFolder] →
        v.Stands here root) := by
  have hplace : place = Path.place here target := hw.here_eq ▸ World.place_of_stat hs
  have hfolder : ∀ n ∈ [configFolder], ValidName n := by decide
  have hfind {q : Place} {e : Entry} : w.stat (configPath target) = .ok (q, e) ↔
      q = Path.place here (configPath target) ∧ w.tree.get? q = some e := by
    rw [configPath_eq, World.stat_behind hw.sound hs valid_config, hplace,
      Path.place_behind valid_config]
  rw [removeConfig, run_get_bind]
  split
  · rename_i hfile
    obtain ⟨q, b, hstat⟩ := World.isFile_iff_stat.mp hfile
    obtain ⟨hq, hget⟩ := hfind.mp hstat
    obtain ⟨u, hremove, hu, hgrown, hgone⟩ := Disk.run_removeFile_found hw hstat
    have hbytes : ∀ q', u.tree.bytes? q' =
        if q' = Path.place here (configPath target) then none else w.tree.bytes? q' := fun q' => by
      split
      · rename_i heq
        rw [heq, ← hq, hgone]
      · rename_i hne
        exact hgrown.bytes? fun heq => hne (heq.trans hq)
    rw [run_bind_of_ok hremove, run_get_bind]
    split
    · rename_i hempty
      -- The folder of the configuration is there, since there was a file in it.
      have hup : w.tree.get? (place ++ [configFolder]) = some .folder := by
        refine hw.sound.tree.folder_above (q := q) hget ?_ ?_
        · rw [hq, place_configPath, hplace]
          exact ⟨[configFile], by simp⟩
        · rw [hq, place_configPath, hplace]
          simp
      have hfound : u.stat (target.append configFolder) =
          .ok (place ++ [configFolder], .folder) := by
        rw [Path.append_name target (by decide)]
        exact hgrown.stat ((World.stat_behind hw.sound hs hfolder).mpr ⟨rfl, hup⟩)
      obtain ⟨v, hrun, hsame, hv⟩ := Disk.run_removeFolder_found hu hfound (by simp)
        (List.isEmpty_iff.mp hempty)
      exact ⟨v, hrun, fun q' => by rw [hsame, hbytes], fun hspare => hv (hplace ▸ hspare)⟩
    · exact ⟨u, rfl, hbytes, fun _ => hu⟩
  · rename_i hfile
    refine ⟨w, rfl, fun q => ?_, fun _ => hw⟩
    split
    · rename_i hq
      refine Option.eq_none_iff_forall_ne_some.mpr fun b hb => hfile ?_
      exact World.isFile_iff_stat.mpr ⟨q, b, hfind.mpr ⟨hq, Tree.bytes?_eq_some_iff.mp hb⟩⟩
    · rfl

/-! ## A whole skill -/

/-- The world when the own file has been written. -/
def begun (target : Path) (text : String) (w : World) : World :=
  ((Disk.folders target >>= fun _ => Disk.write (target.append ownFile) text).run w).2

/-- What is written in front of the configuration: the own file, then support files. -/
def parcel (source : Option Path) (target : Path) (text : String) (w : World)
    (fs : List SupportFile) : List FileWrite :=
  (target.append ownFile, Text.encode text) :: sent source target (begun target text w) fs

/-- The configuration of a skill as it is written. -/
def dump? (s : Skill) : Option ByteArray :=
  s.fullConfig?.bind fun m => (Yaml.write m).toOption.map Text.encode

/-- The files after an agent has taken care of the configuration. -/
def settled (here : Path) (a : Agent) (s : Skill) (target : Path)
    (files : Place → Option ByteArray) (q : Place) : Option ByteArray :=
  if hasConfig a ∧ q = Path.place here (configPath target) then dump? s else files q

theorem settled_of_ne {a : Agent} {s : Skill} {files : Place → Option ByteArray} {q : Place}
    (h : hasConfig a → q ≠ Path.place here (configPath target)) :
    settled here a s target files q = files q := if_neg fun hq => h hq.1 hq.2

/-- The configuration has been taken care of: it is the last path, when there is one. -/
structure Settled (here : Path) (root : Nat) (a : Agent) (s : Skill) (target : Path)
    (ws : List FileWrite) (w : World) (paths : List Path) (v : World) : Prop where
  paths : paths = ws.map Prod.fst ++
    (if hasConfig a ∧ s.fullConfig?.isSome then [configPath target] else [])
  files : v.tree.bytes? = settled here a s target (patch here w.tree.bytes? ws)
  dump : hasConfig a → (dump? s).isSome = s.fullConfig?.isSome
  stands : Spares a here root target → v.Stands here root

/-- What is done once the files have been written. -/
def finish (a : Agent) (s : Skill) (target : Path) (paths : List Path) : Work (List Path) :=
  if hasConfig a then
    match s.fullConfig? with
    | some config => do return paths ++ [← writeConfig target config]
    | none => do
      removeConfig target
      return paths
  else return paths

section
variable {a : Agent} {s : Skill} {source : Option Path} (ht : target.Tidy)
  (hroot : target.root = root) (hw : w.Stands here root)

theorem write_eq : write a s source target = (do
    let text ← Work.ofExcept s.text
    (Disk.folders target >>= fun _ => Disk.write (target.append ownFile) text)
    let support ← s.support.filterMapM (writeSupport source target)
    finish a s target (target.append ownFile :: support)) := by
  unfold write
  simp only [bind_assoc]
  rfl

include ht hroot

include hw in
/-- The own file comes first. -/
theorem goes_own (text : String) :
    Goes w (Disk.folders target >>= fun _ => Disk.write (target.append ownFile) text)
      (fun _ v => Patched here root w [(target.append ownFile, Text.encode text)] v ∧
        v.stat target = .ok (Path.place here target, .folder))
      (fun _ => Patched here root w []) := by
  have hownRoot : (target.append ownFile).root = root := by
    rw [Path.append_name target (by decide), ← hroot]
  refine (Disk.goes_folders hw ht hroot).bind fun _ u hu => ?_
  obtain ⟨hfolders, hu⟩ := hu
  obtain ⟨q, hfound⟩ := Disk.stat_of_folders hfolders
  obtain rfl : q = Path.place here target := hu.stands.here_eq ▸ World.place_of_stat hfound
  have hwrite := Disk.goes_writeBytes hu.stands (ht.append ownFile) hownRoot (Text.encode text)
  refine hwrite.mono (fun _ v hv => ?_) fun _ v hv => hu.trans hv
  exact ⟨hu.trans hv, hv.stat hu.stands.here_eq hfound⟩

/-- The configuration comes last. It is written, or what is at its place is taken away. -/
theorem goes_finish {u : World} {ws : List FileWrite} (hu : Patched here root w ws u) {q : Place}
    (hfound : u.stat target = .ok (q, .folder)) :
    Goes u (finish a s target (ws.map Prod.fst)) (Settled here root a s target ws w)
      (fun _ => Patched here root w ws) := by
  unfold finish
  split
  · rename_i ha
    have hsettled : settled here a s target (patch here w.tree.bytes? ws) = fun q =>
        if q = Path.place here (configPath target) then dump? s else u.tree.bytes? q := by
      unfold settled
      simp only [ha, true_and, hu.files]
    split
    · rename_i m hm
      refine ((goes_writeConfig ht hroot hu.stands m).mono (fun _ _ h => h)
        fun _ v hv => hu.trans_nil hv).bind fun p v hv => ?_
      obtain ⟨rfl, text, htext, hv⟩ := hv
      have hdump : dump? s = some (Text.encode text) := by
        rw [dump?, hm, Option.bind_some, htext]
        rfl
      refine .pure ⟨?_, ?_, fun _ => by rw [hdump, hm]; rfl, fun _ => hv.stands⟩
      · rw [if_pos ⟨ha, by rw [hm]; rfl⟩]
      · rw [hv.files, hsettled, hdump]
        rfl
    · rename_i hm
      have hdump : dump? s = none := by rw [dump?, hm]; rfl
      obtain ⟨v, hrun, hbytes, hv⟩ := run_removeConfig_behind hu.stands hfound
      refine .of_ok (run_bind_of_ok hrun) ⟨?_, ?_, fun _ => by rw [hdump, hm]; rfl,
        fun hspare => hv (hspare ha)⟩
      · rw [hm, if_neg (fun h => nomatch h.2), List.append_nil]
      · rw [hsettled, hdump]
        exact funext hbytes
  · rename_i ha
    refine .pure ⟨?_, ?_, fun h => absurd h ha, fun _ => hu.stands⟩
    · rw [if_neg fun h => ha h.1, List.append_nil]
    · rw [hu.files]
      exact funext fun q => (settled_of_ne fun h => absurd h ha).symm

variable (hs : ∀ f ∈ s.support, (Path.ofText f.path).root = 0)
include hw hs

/-- Where a skill has been written, the files are the old ones patched by all that was
sent, with the configuration settled. Where that has failed, they are the old ones, or
these patched by what was sent in front of the failure. -/
theorem goes_write : Goes w (write a s source target)
    (fun paths v => ∃ text, s.text = .ok text ∧
      Settled here root a s target (parcel source target text w s.support) w paths v)
    (fun _ v => Patched here root w [] v ∨
      ∃ text front back, s.text = .ok text ∧ s.support = front ++ back ∧
        Patched here root w (parcel source target text w front) v) := by
  rw [write_eq]
  cases htext : s.text with
  | error e => exact .of_failed rfl (.inl (.refl hw))
  | ok text =>
    rw [ofExcept_ok_bind]
    refine ((goes_own ht hroot hw text).known.mono (fun _ _ h => h) fun _ v hv => .inl hv).bind
      fun _ u hu => ?_
    obtain ⟨hrun, hu, hfound⟩ := hu
    have hparcel (fs : List SupportFile) : parcel source target text w fs =
        [(target.append ownFile, Text.encode text)] ++ sent source target u fs := by
      rw [parcel, begun, hrun]
      rfl
    refine ((goes_support ht hroot source hs hu.stands).mono (fun _ _ h => h)
      fun _ v hv => ?_).bind fun rs x hx => ?_
    · obtain ⟨front, back, hsplit, hv⟩ := hv
      exact .inr ⟨text, front, back, rfl, hsplit, hparcel front ▸ hu.trans hv⟩
    · obtain ⟨rfl, hx⟩ := hx
      have hall : Patched here root w (parcel source target text w s.support) x :=
        hparcel s.support ▸ hu.trans hx
      have hpaths : target.append ownFile :: (sent source target u s.support).map Prod.fst =
          (parcel source target text w s.support).map Prod.fst := by
        rw [hparcel]
        rfl
      rw [hpaths]
      refine (goes_finish ht hroot hall (hx.stat hu.stands.here_eq hfound)).mono
        (fun paths v hv => ⟨text, rfl, hv⟩) fun _ v hv => ?_
      exact .inr ⟨text, s.support, [], rfl, (List.append_nil _).symm, hv⟩

end

/-! ## What stands there afterwards -/

/-- The own file and the support files have places of their own. -/
def Apart (here target : Path) (fs : List SupportFile) : Prop :=
  ((target.append ownFile :: fs.map fun f => target.append f.path).map (Path.place here)).Nodup

instance (here target : Path) (fs : List SupportFile) : Decidable (Apart here target fs) :=
  inferInstanceAs (Decidable (List.Nodup _))

/-- No file of the skill is written over what another one is copied from. -/
def Unspoiled (here : Path) (source : Option Path) (target : Path) (fs : List SupportFile) : Prop :=
  ∀ folder, source = some folder → ∀ f ∈ fs, f.kind = .binary →
    (folder.append f.path).Clean ∧
    Path.spot here (folder.append f.path) ≠ Path.place here (target.append ownFile) ∧
    ∀ g ∈ fs, g ≠ f → Path.spot here (folder.append f.path) ≠ Path.place here (target.append g.path)

/-- What support files have to write, told from one world. -/
def supplied (source : Option Path) (target : Path) (w : World) (fs : List SupportFile) :
    List FileWrite :=
  fs.filterMap fun f => (content? source w f).map fun b => (target.append f.path, b)

theorem content?_eq {u : World} {f : SupportFile} (hu : u.Stands here root)
    (hw : w.Stands here root) (h : ∀ folder, source = some folder → f.kind = .binary →
      (folder.append f.path).Clean ∧ u.tree.bytes? (Path.spot here (folder.append f.path)) =
        w.tree.bytes? (Path.spot here (folder.append f.path))) :
    content? source u f = content? source w f := by
  unfold content?
  split
  · rename_i hkind
    cases hsource : source with
    | none => rfl
    | some folder =>
      obtain ⟨hclean, hsame⟩ := h folder hsource hkind
      rw [Option.bind_some, Option.bind_some, World.fileAt?_eq hu.sound hclean,
        World.fileAt?_eq hw.sound hclean, hu.here_eq, hw.here_eq, hsame]
  · rfl

theorem sentOne_sublist (f : SupportFile) :
    ((sentOne source target w f).map Prod.fst).Sublist [target.append f.path] := by
  rw [sentOne]
  cases content? source ((Disk.folders (target.append f.path).parent).run w).2 f with
  | none => exact List.nil_sublist _
  | some b => exact List.Sublist.refl _

/-- Each support file is written at most once. -/
theorem sent_sublist (fs : List SupportFile) :
    ((sent source target w fs).map Prod.fst).Sublist (fs.map fun f => target.append f.path) := by
  induction fs generalizing w with
  | nil => exact List.Sublist.refl _
  | cons f fs ih =>
    rw [sent, List.map_append]
    exact (sentOne_sublist f).append ih

theorem nodup_parcel {text : String} {fs : List SupportFile} (h : Apart here target fs) :
    ((parcel source target text w fs).map fun e => Path.place here e.1).Nodup := by
  refine List.Nodup.sublist ?_ h
  have hsub : ((parcel source target text w fs).map Prod.fst).Sublist
      (target.append ownFile :: fs.map fun f => target.append f.path) :=
    (sent_sublist fs).cons_cons _
  have hplaces := hsub.map (Path.place here)
  rwa [List.map_map] at hplaces

section
variable (ht : target.Tidy) (hroot : target.root = root)
include ht hroot

/-- Support files whose origins are left alone are written with what is there at first. -/
theorem sent_eq_supplied {u : World} {fs : List SupportFile}
    (hs : ∀ f ∈ fs, (Path.ofText f.path).root = 0) (hw : w.Stands here root)
    (hu : u.Stands here root)
    (hclean : ∀ folder, source = some folder → ∀ f ∈ fs, f.kind = .binary →
      (folder.append f.path).Clean ∧ u.tree.bytes? (Path.spot here (folder.append f.path)) =
        w.tree.bytes? (Path.spot here (folder.append f.path)))
    (hapart : ∀ folder, source = some folder → fs.Pairwise fun g f => f.kind = .binary →
      Path.spot here (folder.append f.path) ≠ Path.place here (target.append g.path)) :
    sent source target u fs = supplied source target w fs := by
  induction fs generalizing u with
  | nil => rfl
  | cons f fs ih =>
    have hpathRoot : (target.append f.path).root = root := by
      rw [Path.append, Path.join, Path.isAbsolute, hs f (by simp)]
      exact hroot
    have hfolders := Disk.patched_folders hu (ht.append f.path).parent hpathRoot
    have hone : sentOne source target u f =
        ((content? source w f).map fun b => (target.append f.path, b)).toList := by
      rw [sentOne, content?_eq hfolders.stands hw fun folder hfolder hkind => ?_]
      obtain ⟨hc, hsame⟩ := hclean folder hfolder f (by simp) hkind
      exact ⟨hc, by rw [hfolders.files]; exact hsame⟩
    obtain ⟨ws, hws, hx⟩ : ∃ ws, ws.Sublist (sentOne source target u f) ∧
        Patched here root u ws ((writeSupport source target f).run u).2 := by
      refine Goes.after (R := fun v => ∃ ws : List FileWrite,
        ws.Sublist (sentOne source target u f) ∧ Patched here root u ws v) ?_
      exact (goes_writeSupport ht hroot source (hs f (by simp)) hu).mono
        (fun _ v hv => ⟨_, List.Sublist.refl _, hv.2⟩) fun _ v hv => ⟨[], List.nil_sublist _, hv⟩
    have hrest : sent source target ((writeSupport source target f).run u).2 fs =
        supplied source target w fs := by
      refine ih (fun g hg => hs g (List.mem_cons_of_mem _ hg)) hx.stands
        (fun folder hfolder g hg hkind => ?_) fun folder hfolder => (hapart folder hfolder).of_cons
      obtain ⟨hc, hsame⟩ := hclean folder hfolder g (List.mem_cons_of_mem _ hg) hkind
      refine ⟨hc, ?_⟩
      rw [hx.files, patch_of_ne fun e he => ?_, hsame]
      have hpath := ((hws.map Prod.fst).trans (sentOne_sublist f)).subset (List.mem_map_of_mem he)
      rw [List.mem_singleton.mp hpath]
      exact List.rel_of_pairwise_cons (hapart folder hfolder) hg hkind
    rw [sent, hone, hrest, supplied, supplied, List.filterMap_cons]
    cases content? source w f <;> rfl

end

section
variable {a : Agent} {s : Skill} (ht : target.Tidy)
  (hroot : target.root = root) (hw : w.Stands here root)
  (hs : ∀ f ∈ s.support, (Path.ofText f.path).root = 0)
include ht hroot hw hs

theorem parcel_eq_supplied {text : String} (hd : Apart here target s.support)
    (hspare : Unspoiled here source target s.support) :
    parcel source target text w s.support =
      (target.append ownFile, Text.encode text) :: supplied source target w s.support := by
  rw [parcel, List.cons.injEq]
  refine ⟨rfl, ?_⟩
  obtain ⟨ws, hws, hx⟩ : ∃ ws : List FileWrite, (∀ e ∈ ws, e.1 = target.append ownFile) ∧
      Patched here root w ws (begun target text w) := by
    refine Goes.after (R := fun v => ∃ ws : List FileWrite,
      (∀ e ∈ ws, e.1 = target.append ownFile) ∧ Patched here root w ws v) ?_
    exact (goes_own ht hroot hw text).mono (fun _ v hv => ⟨_, by simp, hv.1⟩)
      fun _ v hv => ⟨[], by simp, hv⟩
  refine sent_eq_supplied ht hroot hs hw hx.stands (fun folder hfolder f hf hkind => ?_)
    fun folder hfolder => ?_
  · obtain ⟨hclean, hown, -⟩ := hspare folder hfolder f hf hkind
    refine ⟨hclean, ?_⟩
    rw [hx.files, patch_of_ne fun e he => ?_]
    rwa [hws e he]
  · -- Two support files at places of their own are not the same.
    have hpair : s.support.Pairwise fun g f =>
        Path.place here (target.append g.path) ≠ Path.place here (target.append f.path) := by
      have := (List.nodup_cons.mp hd).2
      rwa [List.map_map, List.nodup_iff_pairwise_ne, List.pairwise_map] at this
    refine hpair.imp_of_mem fun {g f} hg hf hne hkind => ?_
    exact (hspare folder hfolder f hf hkind).2.2 g hg fun heq => hne (heq ▸ rfl)

/-- Writing a skill reports what it writes: the own file, each support file that has
something to write, and the configuration. Each of them holds what it stands for, and no
other file changes. But an agent that keeps configurations takes away what is at the
place of one when the skill has none, and a support file written there is reported and
missing. -/
theorem write_delivers (hd : Apart here target s.support) {paths : List Path}
    (h : (write a s source target).run w = (.ok paths, v)) :
    ∃ text, s.text = .ok text ∧
      let files := parcel source target text w s.support
      paths = files.map Prod.fst ++
        (if hasConfig a ∧ s.fullConfig?.isSome then [configPath target] else []) ∧
      (Unspoiled here source target s.support → files =
        (target.append ownFile, Text.encode text) :: supplied source target w s.support) ∧
      (∀ e ∈ files, (hasConfig a → Path.place here e.1 ≠ Path.place here (configPath target)) →
        v.tree.bytes? (Path.place here e.1) = some e.2) ∧
      (hasConfig a → v.tree.bytes? (Path.place here (configPath target)) = dump? s ∧
        (dump? s).isSome = s.fullConfig?.isSome) ∧
      (∀ q, (∀ e ∈ files, q ≠ Path.place here e.1) →
        (hasConfig a → q ≠ Path.place here (configPath target)) →
        v.tree.bytes? q = w.tree.bytes? q) ∧
      ((∀ p ∈ paths, (v.tree.bytes? (Path.place here p)).isSome) ↔
        ¬ (hasConfig a ∧ s.fullConfig? = none ∧
          ∃ e ∈ files, Path.place here e.1 = Path.place here (configPath target))) := by
  obtain ⟨text, htext, hpaths, hbytes, hdump, -⟩ := (goes_write ht hroot hw hs).ok h
  refine ⟨text, htext, ?_⟩
  intro files
  have hheld : ∀ e ∈ files,
      (hasConfig a → Path.place here e.1 ≠ Path.place here (configPath target)) →
      v.tree.bytes? (Path.place here e.1) = some e.2 := fun e he hne => by
    rw [hbytes, settled_of_ne hne]
    exact patch_of_mem (nodup_parcel hd) he
  have hconfig : hasConfig a → v.tree.bytes? (Path.place here (configPath target)) = dump? s :=
    fun ha => by rw [hbytes, settled, if_pos ⟨ha, rfl⟩]
  refine ⟨hpaths, parcel_eq_supplied ht hroot hw hs hd, hheld,
    fun ha => ⟨hconfig ha, hdump ha⟩, fun q hq hne => ?_, fun hall hlost => ?_,
    fun hkept p hp => ?_⟩
  · rw [hbytes, settled_of_ne hne]
    exact patch_of_ne hq
  · obtain ⟨ha, hnone, e, he, hplace⟩ := hlost
    have hmem : e.1 ∈ paths := by
      rw [hpaths]
      exact List.mem_append_left _ (List.mem_map_of_mem he)
    have := hall e.1 hmem
    rw [hplace, hconfig ha, hdump ha, hnone] at this
    exact nomatch this
  · rw [hpaths] at hp
    rcases List.mem_append.mp hp with hp | hp
    · obtain ⟨e, he, rfl⟩ := List.mem_map.mp hp
      by_cases hat : hasConfig a ∧ Path.place here e.1 = Path.place here (configPath target)
      · obtain ⟨ha, hplace⟩ := hat
        rw [hplace, hconfig ha, hdump ha, Option.isSome_iff_ne_none]
        exact fun hnone => hkept ⟨ha, hnone, e, he, hplace⟩
      · rw [hheld e he fun ha hplace => hat ⟨ha, hplace⟩]
        rfl
    · split at hp
      · rename_i hfull
        rw [List.mem_singleton.mp hp, hconfig hfull.1, hdump hfull.1]
        exact hfull.2
      · exact absurd hp List.not_mem_nil

end

/-- A folder with a binary file, and a skill's folder that holds a file already. -/
def shelfWorld : World where
  tree := [(["w"], .folder), (["w", "from"], .folder),
    (["w", "from", "b.png"], .file (Text.encode "png")), (["w", "s"], .folder),
    (["w", "s", "old.txt"], .file (Text.encode "old"))]
  home := ⟨1, ["h"]⟩
  here := ⟨1, ["w"]⟩
  repository := none
  held := none
  printed := []
  warnings := []

def shelfFolder : Path := ⟨1, ["w", "s"]⟩

/-- A skill without a configuration that has a file where an agent keeps one. -/
def lostSkill : Skill where
  name := .text "s"
  content := "hi\n"
  folder := "/w/from"
  support := [⟨"agents/openai.yaml", .text, some "x"⟩]
  fields := []
  config := none

/-- The file is reported, and it is not there. -/
theorem support_reported_missing :
    Apart ⟨1, ["w"]⟩ shelfFolder lostSkill.support ∧
    ((write .codex lostSkill none shelfFolder).run shelfWorld).1 =
      .ok [⟨1, ["w", "s", "SKILL.md"]⟩, ⟨1, ["w", "s", "agents", "openai.yaml"]⟩] ∧
    ((write .codex lostSkill none shelfFolder).run shelfWorld).2.tree.bytes?
      ["w", "s", "agents", "openai.yaml"] = none :=
  ⟨by decide +kernel, eq_ok_of_toOption (by decide +kernel), by decide +kernel⟩

/-- A skill with a text file, a binary file and a configuration. -/
def shelfSkill : Skill where
  name := .text "s"
  content := "hi\n"
  folder := "/w/from"
  support := [⟨"a.txt", .text, some "x"⟩, ⟨"b.png", .binary, none⟩]
  fields := []
  config := some [(.text "k", .text "v")]

theorem unspoiled_shelfSkill :
    Unspoiled ⟨1, ["w"]⟩ (some ⟨1, ["w", "from"]⟩) shelfFolder shelfSkill.support := by
  intro folder hfolder f hf hkind
  obtain rfl := Option.some.inj hfolder
  obtain rfl : f = ⟨"b.png", .binary, none⟩ := by
    rcases List.mem_cons.mp hf with rfl | hf
    · exact nomatch hkind
    · exact List.mem_singleton.mp hf
  refine ⟨⟨by decide +kernel, by decide +kernel⟩, by decide +kernel, fun g hg hne => ?_⟩
  rcases List.mem_cons.mp hg with rfl | hg
  · decide +kernel
  · exact absurd (List.mem_singleton.mp hg) hne

/-- A skill that is written beside another file. -/
theorem write_delivers_shelf : ∃ v,
    (write .codex shelfSkill (some ⟨1, ["w", "from"]⟩) shelfFolder).run shelfWorld =
      (.ok [⟨1, ["w", "s", "SKILL.md"]⟩, ⟨1, ["w", "s", "a.txt"]⟩, ⟨1, ["w", "s", "b.png"]⟩,
        ⟨1, ["w", "s", "agents", "openai.yaml"]⟩], v) ∧
    v.tree.bytes? ["w", "s", "SKILL.md"] = some (Text.encode "hi\n") ∧
    v.tree.bytes? ["w", "s", "a.txt"] = some (Text.encode "x") ∧
    v.tree.bytes? ["w", "s", "b.png"] = some (Text.encode "png") ∧
    v.tree.bytes? ["w", "s", "agents", "openai.yaml"] = some (Text.encode "k: v\n") ∧
    v.tree.bytes? ["w", "s", "old.txt"] = some (Text.encode "old") := by
  obtain ⟨v, hrun⟩ : ∃ v,
      (write .codex shelfSkill (some ⟨1, ["w", "from"]⟩) shelfFolder).run shelfWorld =
        (.ok [⟨1, ["w", "s", "SKILL.md"]⟩, ⟨1, ["w", "s", "a.txt"]⟩, ⟨1, ["w", "s", "b.png"]⟩,
          ⟨1, ["w", "s", "agents", "openai.yaml"]⟩], v) :=
    exists_run (eq_ok_of_toOption (by decide +kernel))
  have hstands : shelfWorld.Stands ⟨1, ["w"]⟩ 1 :=
    ⟨⟨by constructor <;> decide +kernel, ⟨by decide, by decide⟩⟩, rfl, rfl⟩
  obtain ⟨text, htext, -, hsupplied, hheld, hconfig, hother, -⟩ :=
    write_delivers ⟨by decide +kernel, by decide⟩ rfl hstands (by decide +kernel)
      (by decide +kernel) hrun
  have hown : shelfSkill.text = .ok "hi\n" := eq_ok_of_toOption (by decide +kernel)
  obtain rfl : "hi\n" = text := Except.ok.inj (hown.symm.trans htext)
  -- What the skill has to write, told from the world before.
  have hfiles := (hsupplied unspoiled_shelfSkill).trans (b := _) (c :=
    [(⟨1, ["w", "s", "SKILL.md"]⟩, Text.encode "hi\n"), (⟨1, ["w", "s", "a.txt"]⟩, Text.encode "x"),
      (⟨1, ["w", "s", "b.png"]⟩, Text.encode "png")]) (by decide +kernel)
  rw [hfiles] at hheld hother
  refine ⟨v, hrun, ?_, ?_, ?_, ?_, ?_⟩
  · exact hheld _ (.head _) fun _ => by decide +kernel
  · exact hheld _ (.tail _ (.head _)) fun _ => by decide +kernel
  · exact hheld _ (.tail _ (.tail _ (.head _))) fun _ => by decide +kernel
  · exact (hconfig rfl).1.trans (by decide +kernel)
  · exact (hother ["w", "s", "old.txt"] (by decide +kernel) fun _ => by decide +kernel).trans
      (by decide +kernel)

end Skill

end AgentRelay
