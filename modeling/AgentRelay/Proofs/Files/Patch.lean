import AgentRelay.Proofs.Files.Again

/-
  Files that are written one after the other.

  What a piece of work does to files is told as a list of writes: a later write at a
  place counts (`patch`), and a place that is not written holds what it held
  (`patch_of_ne`). What is the case after work is told for its two ends, also for work
  that is put together (`Work.Goes`, `Goes.bind`). Work on files patches by what it
  writes, and where it fails it changes no file (`Disk.goes_writeBytes`,
  `Disk.goes_copy`); folders it only makes (`Disk.goes_folders`).
-/

namespace AgentRelay

open Files (Place Tree Entry)
open Work

/-- A write: a path and the bytes of the file that is put there. -/
abbrev FileWrite := Path × ByteArray

/-- The files after some writes. -/
def patch (here : Path) (files : Place → Option ByteArray) (writes : List FileWrite) :
    Place → Option ByteArray :=
  writes.foldl (fun files e q => if q = Path.place here e.1 then some e.2 else files q) files

section

variable {here : Path} {files : Place → Option ByteArray}

theorem patch_append (ws ws' : List FileWrite) :
    patch here files (ws ++ ws') = patch here (patch here files ws) ws' := List.foldl_append

/-- A place that is not written holds what it held. -/
theorem patch_of_ne {ws : List FileWrite} {q : Place} (h : ∀ e ∈ ws, q ≠ Path.place here e.1) :
    patch here files ws q = files q := by
  induction ws generalizing files with
  | nil => rfl
  | cons e ws ih =>
    rw [patch, List.foldl_cons, ← patch, ih fun e' he => h e' (List.mem_cons_of_mem _ he),
      if_neg (h e (by simp))]

/-- What is written at a place of its own stays there. -/
theorem patch_of_mem {ws : List FileWrite} (hd : (ws.map fun e => Path.place here e.1).Nodup)
    {e : FileWrite} (he : e ∈ ws) : patch here files ws (Path.place here e.1) = some e.2 := by
  induction ws generalizing files with
  | nil => exact absurd he List.not_mem_nil
  | cons e' ws ih =>
    rw [List.map_cons, List.nodup_cons] at hd
    rw [patch, List.foldl_cons, ← patch]
    rcases List.mem_cons.mp he with rfl | he
    · rw [patch_of_ne fun e' he' heq => hd.1 (List.mem_map.mpr ⟨e', he', heq.symm⟩), if_pos rfl]
    · exact ih hd.2 he

end

namespace World

/-- The bytes of the file at a path, when there is one. -/
def fileAt? (w : World) (p : Path) : Option ByteArray :=
  match w.stat p with
  | .ok (_, .file b) => some b
  | _ => none

variable {here : Path} {root : Nat} {u v w : World} {p : Path}

theorem isFile_eq_fileAt? : w.isFile p = (w.fileAt? p).isSome := by
  unfold isFile fileAt?
  cases w.stat p with
  | error r => rfl
  | ok found =>
    obtain ⟨q, e⟩ := found
    cases e <;> rfl

/-- Where a path has no two points, what it shows is what lies at its spot. -/
theorem fileAt?_eq (h : w.Sound) (hp : p.Clean) :
    w.fileAt? p = w.tree.bytes? (Path.spot w.here p) := by
  unfold fileAt?
  split
  · rename_i q b hstat
    obtain ⟨rfl, hget⟩ := (stat_eq_ok_iff h hp).mp hstat
    exact (Tree.bytes?_eq_some_iff.mpr hget).symm
  · rename_i hno
    cases hb : w.tree.bytes? (Path.spot w.here p) with
    | none => rfl
    | some b =>
      exact absurd ((stat_eq_ok_iff h hp).mpr ⟨rfl, Tree.bytes?_eq_some_iff.mp hb⟩)
        (hno (Path.spot w.here p) b)

/-- Files have been written one after the other, and every folder is still there. -/
structure Patched (here : Path) (root : Nat) (w : World) (ws : List FileWrite) (v : World) :
    Prop where
  stands : v.Stands here root
  folders : ∀ q, w.tree.get? q = some .folder → v.tree.get? q = some .folder
  files : v.tree.bytes? = patch here w.tree.bytes? ws

namespace Patched

variable {ws ws' : List FileWrite}

theorem refl (hw : w.Stands here root) : Patched here root w [] w := ⟨hw, fun _ h => h, rfl⟩

theorem trans (h : Patched here root u ws v) (h' : Patched here root v ws' w) :
    Patched here root u (ws ++ ws') w :=
  ⟨h'.stands, fun q hq => h'.folders q (h.folders q hq), by rw [h'.files, h.files, patch_append]⟩

theorem of_same (hw : w.Stands here root) (h : w.SameFiles v) : Patched here root w [] v :=
  ⟨h.stands hw, fun q hq => by rw [h.tree, hq], by rw [h.tree]; rfl⟩

/-- New folders change no file. -/
theorem of_grown (hv : v.Stands here root) (h : w.Grown (fun _ => False) v) :
    Patched here root w [] v :=
  ⟨hv, h.folders, funext fun _ => h.bytes? not_false⟩

theorem trans_nil (h : Patched here root u ws v) (h' : Patched here root v [] w) :
    Patched here root u ws w := by
  have hall := h.trans h'
  rwa [List.append_nil] at hall

/-- A folder that is found is found afterwards. -/
theorem stat (h : Patched here root w ws v) (hw : w.here = here) {q : Place}
    (hs : w.stat p = .ok (q, .folder)) : v.stat p = .ok (q, .folder) := by
  obtain ⟨hl, hget⟩ := stat_iff_locate.mp hs
  refine stat_iff_locate.mpr ⟨?_, h.folders q hget⟩
  rw [locate_eq] at hl ⊢
  rw [h.stands.here_eq, ← hw]
  exact Files.walk_mono h.folders hl

end Patched

end World

open World (Patched)

namespace Work

variable {α β : Type} {w : World}

theorem exists_run {x : Work α} {r : Except Failure α} (h : (x.run w).1 = r) :
    ∃ v, x.run w = (r, v) := ⟨_, Prod.ext h rfl⟩

/-- What is the case after work that has ended well, and after work that has failed. -/
structure Goes (w : World) (x : Work α) (P : α → World → Prop) (Q : Failure → World → Prop) :
    Prop where
  ok {a : α} {v : World} (h : x.run w = (.ok a, v)) : P a v
  failed {e : Failure} {v : World} (h : x.run w = (.error e, v)) : Q e v

namespace Goes

variable {x : Work α} {P : α → World → Prop} {Q : Failure → World → Prop}

theorem of_ok {a : α} {v : World} (hx : x.run w = (.ok a, v)) (h : P a v) : Goes w x P Q := by
  refine ⟨fun h' => ?_, fun h' => ?_⟩
  · obtain ⟨ha, rfl⟩ := Prod.mk.inj (hx.symm.trans h')
    exact Except.ok.inj ha ▸ h
  · exact nomatch (Prod.mk.inj (hx.symm.trans h')).1

theorem of_failed {e : Failure} {v : World} (hx : x.run w = (.error e, v)) (h : Q e v) :
    Goes w x P Q := by
  refine ⟨fun h' => ?_, fun h' => ?_⟩
  · exact nomatch (Prod.mk.inj (hx.symm.trans h')).1
  · obtain ⟨he, rfl⟩ := Prod.mk.inj (hx.symm.trans h')
    exact Except.error.inj he ▸ h

theorem pure {a : α} (h : P a w) : Goes w (pure a : Work α) P Q := of_ok rfl h

/-- Work that leaves the files alone does so at both ends. -/
theorem of_still (h : Still x) : Goes w x (fun a v => x.run w = (.ok a, v) ∧ w.SameFiles v)
    fun _ => w.SameFiles := by
  have hsame := h w
  cases hx : x.run w with
  | mk r v =>
    rw [hx] at hsame
    cases r with
    | ok a => exact of_ok hx ⟨rfl, hsame⟩
    | error e => exact of_failed hx hsame

/-- What goes alike in a run that is the same. -/
theorem of_run {y : Work α} {u : World} (hx : x.run w = y.run u) (h : Goes u y P Q) :
    Goes w x P Q := ⟨fun h' => h.ok (hx.symm.trans h'), fun h' => h.failed (hx.symm.trans h')⟩

/-- The run is known besides. -/
theorem known (h : Goes w x P Q) : Goes w x (fun a v => x.run w = (.ok a, v) ∧ P a v) Q := by
  cases hx : x.run w with
  | mk r v =>
    cases r with
    | ok a => exact of_ok hx ⟨rfl, h.ok hx⟩
    | error e => exact of_failed hx (h.failed hx)

theorem mono (h : Goes w x P Q) {P' : α → World → Prop} {Q' : Failure → World → Prop}
    (hP : ∀ a v, P a v → P' a v) (hQ : ∀ e v, Q e v → Q' e v) : Goes w x P' Q' := by
  cases hx : x.run w with
  | mk r v =>
    cases r with
    | ok a => exact of_ok hx (hP a v (h.ok hx))
    | error e => exact of_failed hx (hQ e v (h.failed hx))

/-- What is the case in the end, however the work ends. -/
theorem after {R : World → Prop} (h : Goes w x (fun _ => R) fun _ => R) : R (x.run w).2 := by
  cases hx : x.run w with
  | mk r v =>
    cases r with
    | ok a => exact h.ok hx
    | error e => exact h.failed hx

theorem bind (hx : Goes w x P Q) {f : α → Work β} {P' : β → World → Prop}
    (hf : ∀ a u, P a u → Goes u (f a) P' Q) : Goes w (x >>= f) P' Q := by
  cases hrun : x.run w with
  | mk r u =>
    cases r with
    | ok a => exact of_run (run_bind_of_ok hrun) (hf a u (hx.ok hrun))
    | error e => exact of_failed (by rw [run_bind, hrun]) (hx.failed hrun)

theorem get_bind {f : World → Work β} {P' : β → World → Prop} (h : Goes w (f w) P' Q) :
    Goes w (get >>= f) P' Q := of_run (run_get_bind f w) h

/-- Work on one after the other gives what each of them gives. -/
theorem filterMapM_cons {f : α → Work (Option β)} {a : α} {as : List α}
    {P : Option β → World → Prop} (hone : Goes w (f a) P Q) {P' : List β → World → Prop}
    (hrest : ∀ r u, P r u → Goes u (as.filterMapM f) (fun bs v => P' (r.toList ++ bs) v) Q) :
    Goes w ((a :: as).filterMapM f) P' Q := by
  rw [List.filterMapM_cons]
  refine hone.bind fun r u hr => ?_
  cases r with
  | none => exact hrest none u hr
  | some b => exact (hrest (some b) u hr).bind fun bs v h => pure h

end Goes

end Work

namespace Disk

variable {here : Path} {root : Nat} {w v : World} {p : Path}

section
variable (hw : w.Stands here root) (hp : p.Tidy) (hroot : p.root = root)
include hw hp hroot

theorem patched_folders : Patched here root w [] ((folders p).run w).2 := by
  obtain ⟨hv, hgrown⟩ := folders_grows hp hroot w hw
  exact .of_grown hv hgrown

/-- Making folders changes no file. -/
theorem goes_folders : Goes w (folders p)
    (fun _ v => (folders p).run w = (.ok (), v) ∧ Patched here root w [] v)
    fun _ => Patched here root w [] := by
  have hv := patched_folders hw hp hroot
  cases hrun : (folders p).run w with
  | mk r v =>
    rw [hrun] at hv
    cases r with
    | ok _ => exact .of_ok hrun ⟨rfl, hv⟩
    | error e => exact .of_failed hrun hv

theorem patched_writeBytes {b : ByteArray} (h : (writeBytes p b).run w = (.ok (), v)) :
    Patched here root w [(p, b)] v := by
  obtain ⟨hv, hgrown⟩ := writeBytes_grows hp hroot b w hw
  rw [h] at hv hgrown
  refine ⟨hv, hgrown.folders, funext fun q => ?_⟩
  change _ = if q = Path.place here p then some b else _
  split
  · rename_i hq
    have hstat := (World.stat_iff_locate.mp (stat_of_writeBytes h)).2
    rw [hq, ← hw.here_eq]
    exact Tree.bytes?_eq_some_iff.mpr hstat
  · rename_i hq
    exact hgrown.bytes? hq

omit hw hp hroot in
/-- A file that cannot be written leaves everything as it is. -/
theorem same_of_failed_writeBytes {b : ByteArray} {e : Failure}
    (h : (writeBytes p b).run w = (.error e, v)) : v = w := by
  rw [writeBytes, run_get_bind] at h
  cases hl : w.locate p with
  | error r =>
    rw [hl] at h
    exact (Prod.mk.inj h).2.symm
  | ok q =>
    rw [hl] at h
    by_cases hthere : w.tree.get? q = some .folder
    · simp only [hthere] at h
      exact (Prod.mk.inj h).2.symm
    · simp only at h
      rw [run_put] at h
      cases h

/-- A file is written, or everything is as it was. -/
theorem goes_writeBytes (b : ByteArray) : Goes w (writeBytes p b)
    (fun _ v => Patched here root w [(p, b)] v) fun _ => Patched here root w [] := by
  cases hrun : (writeBytes p b).run w with
  | mk r v =>
    cases r with
    | ok _ => exact .of_ok hrun (patched_writeBytes hw hp hroot hrun)
    | error e =>
      obtain rfl := same_of_failed_writeBytes hrun
      exact .of_failed hrun (.refl hw)

end

theorem run_bytes_fileAt? {source : Path} {b : ByteArray} (h : w.fileAt? source = some b) :
    (bytes source).run w = (.ok b, w) := by
  unfold World.fileAt? at h
  rw [bytes, run_get_bind]
  cases hstat : w.stat source with
  | error r =>
    rw [hstat] at h
    cases h
  | ok found =>
    obtain ⟨q, e⟩ := found
    rw [hstat] at h
    cases e with
    | folder | lock => cases h
    | file b' =>
      obtain rfl := Option.some.inj h
      rfl

/-- The file that is copied is written with its bytes, or everything is as it was. -/
theorem goes_copy (hw : w.Stands here root) (hp : p.Tidy) (hroot : p.root = root) {source : Path}
    {b : ByteArray} (h : w.fileAt? source = some b) :
    Goes w (copy source p) (fun _ v => Patched here root w [(p, b)] v)
      fun _ => Patched here root w [] := by
  have hrest : Goes w (bytes source >>= fun b => writeBytes p b)
      (fun _ v => Patched here root w [(p, b)] v) (fun _ => Patched here root w []) :=
    .of_run (run_bind_of_ok (run_bytes_fileAt? h)) (goes_writeBytes hw hp hroot b)
  refine Goes.get_bind ?_
  dsimp only
  split
  · split
    · exact .of_failed rfl (.refl hw)
    · exact hrest
  · exact hrest

/-- A file that is found can be removed; every other file is as it was. -/
theorem run_removeFile_found (hw : w.Stands here root) {q : Place} {b : ByteArray}
    (hs : w.stat p = .ok (q, .file b)) :
    ∃ v, (removeFile p).run w = (.ok (), v) ∧ v.Stands here root ∧ w.Grown (· = q) v ∧
      v.tree.bytes? q = none := by
  have hplace := World.place_of_stat hs
  have hrun : (removeFile p).run w = (.ok (), { w with tree := w.tree.remove q }) := by
    rw [removeFile, run_get_bind, hs]
    rfl
  have hv := (removeFile_grows p : Grows here root _ _) w hw
  have hgone := bytes_of_removeFile hrun
  rw [hrun, ← hw.here_eq, ← hplace] at hv
  rw [← hplace] at hgone
  exact ⟨_, hrun, hw.here_eq ▸ hv.1, hv.2, hgone⟩

/-- A folder that is found and has no entries can be removed; no file changes. -/
theorem run_removeFolder_found (hw : w.Stands here root) {q : Place}
    (hs : w.stat p = .ok (q, .folder)) (hne : q ≠ []) (hempty : w.entries p = []) :
    ∃ v, (removeFolder p).run w = (.ok (), v) ∧ v.tree.bytes? = w.tree.bytes? ∧
      (Path.start here root ≠ q → v.Stands here root) := by
  have hget := (World.stat_iff_locate.mp hs).2
  have hbelow {q' : Place} (hpre : q <+: q') (hq : q ≠ q') : w.tree.get? q' = none :=
    hw.sound.tree.nothing_below (children_of_entries hs hempty) hpre hq
  have hrun : (removeFolder p).run w = (.ok (), { w with tree := w.tree.remove q }) := by
    rw [removeFolder, run_get_bind, hs]
    rfl
  refine ⟨_, hrun, funext fun q' => ?_, fun hstart => remove_stands hw fun hpre => ?_⟩
  · rw [Tree.bytes?_remove hne]
    split
    · rename_i hpre
      refine (Tree.bytes?_eq_none_of_get? ?_).symm
      by_cases hq : q = q'
      · exact .inr (hq ▸ hget)
      · exact .inl (hbelow hpre hq)
    · rfl
  · have hnone := hbelow hpre hstart.symm
    rw [hw.start] at hnone
    cases hnone

end Disk

end AgentRelay
