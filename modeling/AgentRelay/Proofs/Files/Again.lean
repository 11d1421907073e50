import AgentRelay.Proofs.Files.Work

/-
  Work that is done again.

  What is done a second time meets files that hold what they are to hold. Where
  nothing is in the way a folder can be made (`Disk.run_folders`), and a file that is
  written again with its bytes leaves every file as it was (`Disk.run_rewrite`).
  Besides, work is confined exactly: a place outside of what the work is about holds
  the same entry afterwards, also where it held none (`Disk.keeps_folders` and so on).
-/

namespace AgentRelay

open Files (Place Tree Entry ValidName)

/-- Every file holds the same bytes, seen from the same place. -/
structure World.SameBytes (w v : World) : Prop where
  home : v.home = w.home
  here : v.here = w.here
  held : v.held = w.held
  bytes : ∀ q, v.tree.bytes? q = w.tree.bytes? q

namespace World

variable {u v w : World}

theorem SameBytes.refl (w : World) : w.SameBytes w := ⟨rfl, rfl, rfl, fun _ => rfl⟩

theorem SameBytes.trans (h : u.SameBytes v) (h' : v.SameBytes w) : u.SameBytes w :=
  ⟨h'.home.trans h.home, h'.here.trans h.here, h'.held.trans h.held,
    fun q => (h'.bytes q).trans (h.bytes q)⟩

/-- New folders change no file. -/
theorem Moved.sameBytes (h : w.Moved (fun _ => False) v) : w.SameBytes v :=
  ⟨h.home, h.here, h.held, fun _ => h.bytes? not_false⟩

theorem SameFiles.sameBytes (h : w.SameFiles v) : w.SameBytes v := h.moved.sameBytes

/-- A place holds an entry, or none. -/
def At (here : Path) (q : Place) (e : Option Entry) (w : World) : Prop :=
  w.here = here ∧ w.tree.get? q = e

theorem At.same {here : Path} {q : Place} {e : Option Entry} :
    ∀ w v : World, w.SameFiles v → w.At here q e → v.At here q e := fun w v hv h =>
  ⟨hv.here.trans h.1, by rw [hv.tree]; exact h.2⟩

end World

theorem Files.not_append_prefix {p : Place} {names : List String} (h : names ≠ []) :
    ¬ p ++ names <+: p := fun hpre => by
  have hlen := hpre.length_le
  have := List.length_pos_iff.mpr h
  rw [List.length_append] at hlen
  omega

theorem Files.not_prefix_dropLast {p : Place} {names : List String} (h : names ≠ []) :
    ¬ p ++ names <+: p ++ names.dropLast := fun hpre => by
  have hlen := ((List.prefix_append_right_inj p).mp hpre).length_le
  have := List.length_pos_iff.mpr h
  rw [List.length_dropLast] at hlen
  omega

namespace Files.Tree

variable {t : Tree}

theorem ne_folder_of_bytes {p : Place} {b : ByteArray} (h : t.bytes? p = some b) :
    t.get? p ≠ some .folder := by
  rw [bytes?_eq_some_iff.mp h]
  exact nofun

theorem bytes?_put {p q : Place} (hp : p ≠ []) (b : ByteArray) :
    (t.put p (.file b)).bytes? q = if q = p then some b else t.bytes? q := by
  rw [bytes?, get?_put hp]
  by_cases hq : q = p
  · rw [if_pos hq, if_pos hq]
  · rw [if_neg hq, if_neg hq, bytes?]

theorem bytes?_remove {p q : Place} (hp : p ≠ []) :
    (t.remove p).bytes? q = if p <+: q then none else t.bytes? q := by
  rw [bytes?, get?_remove hp]
  by_cases hq : p <+: q
  · rw [if_pos hq, if_pos hq]
  · rw [if_neg hq, if_neg hq, bytes?]

theorem get?_remove_or (t : Tree) (p q : Place) :
    (t.remove p).get? q = none ∨ (t.remove p).get? q = t.get? q := by
  by_cases hp : p = []
  · by_cases hq : q = []
    · exact .inr (by rw [get?, get?, if_pos hq, if_pos hq])
    · exact .inl (by simp [get?, hq, remove, hp, isWithin])
  · rw [get?_remove hp]
    split
    · exact .inl rfl
    · exact .inr rfl

/-- Nothing lies below a place without children. -/
theorem Sound.nothing_below (h : t.Sound) {p q : Place} (hc : t.children p = []) (hpq : p <+: q)
    (hne : p ≠ q) : t.get? q = none := by
  obtain ⟨names, rfl⟩ := hpq
  obtain ⟨n, names, rfl⟩ := List.exists_cons_of_ne_nil fun hnil : names = [] =>
    hne (by rw [hnil, List.append_nil])
  refine Classical.byContradiction fun hthere => ?_
  obtain ⟨e, he⟩ := Option.ne_none_iff_exists'.mp hthere
  have hchild : t.get? (p ++ [n]) ≠ none := by
    by_cases hlast : names = []
    · rw [hlast] at he
      rw [he]
      exact nofun
    · have hpre : p ++ [n] <+: p ++ n :: names := ⟨names, by simp⟩
      rw [h.folder_above he hpre (by simp [hlast])]
      exact nofun
  have hmem : p ++ [n] ∈ t.children p := mem_children.mpr
    ⟨(h.get?_ne_none_iff (by simp)).mp hchild, List.prefix_append _ _, by simp⟩
  rw [hc] at hmem
  exact absurd hmem List.not_mem_nil

/-- Nothing stands in the way of a folder at the place. -/
def Open (t : Tree) (p : Place) : Prop := t.get? p = none ∨ t.get? p = some .folder

theorem Open.put_folder {p q : Place} (h : t.Open p) (hq : q ≠ []) : (t.put q .folder).Open p := by
  by_cases hpq : p = q
  · exact .inr (by rw [get?_put hq, if_pos hpq])
  · rwa [Open, get?_put hq, if_neg hpq]

/-- What is removed is in the way of nothing. -/
theorem Open.remove {p : Place} (h : t.Open p) (q : Place) : (t.remove q).Open p := by
  rcases get?_remove_or t q p with hnone | hsame
  · exact .inl hnone
  · rwa [Open, hsame]

/-- Something other than a folder is at the place. -/
def Filled (t : Tree) (p : Place) : Prop := t.get? p ≠ none ∧ t.get? p ≠ some .folder

/-- A place stays filled unless a folder is put over it. -/
theorem Filled.put {p q : Place} {e : Entry} (h : t.Filled p) (hq : q ≠ [])
    (he : e = .folder → t.get? q = none) : (t.put q e).Filled p := by
  by_cases hpq : p = q
  · rw [Filled, get?_put hq, if_pos hpq]
    refine ⟨Option.some_ne_none e, fun hfolder => h.1 ?_⟩
    rw [hpq]
    exact he (Option.some.inj hfolder)
  · rwa [Filled, get?_put hq, if_neg hpq]

/-- A filled place is not removed together with a file elsewhere. -/
theorem Filled.remove {p q : Place} (h : t.Filled p) (hq : q ≠ []) (hpq : ¬ q <+: p) :
    (t.remove q).Filled p := by rwa [Filled, get?_remove hq, if_neg hpq]

/-- A file can be put at the place: the way to it is open, and it is no folder. -/
structure Admits (t : Tree) (p : Place) : Prop where
  way : ∀ q, q <+: p → q ≠ p → t.Open q
  free : t.get? p ≠ some .folder

theorem Filled.admits {p : Place} (h : t.Filled p) (ht : t.Sound) : t.Admits p := by
  obtain ⟨e, he⟩ := Option.ne_none_iff_exists'.mp h.1
  exact ⟨fun q hq hne => .inr (ht.folder_above he hq hne), h.2⟩

theorem Admits.remove {p : Place} (h : t.Admits p) (q : Place) : (t.remove q).Admits p := by
  refine ⟨fun r hr hne => (h.way r hr hne).remove q, ?_⟩
  rcases get?_remove_or t q p with hnone | hsame
  · rw [hnone]
    exact nofun
  · rw [hsame]
    exact h.free

/-- Above a place that is there the way is open. -/
theorem Sound.open_above (h : t.Sound) {p q : Place} {e : Entry} (he : t.get? q = some e)
    (hpq : p <+: q) (hne : p ≠ q) : t.Open p := .inr (h.folder_above he hpq hne)

/-- On an open way a walk stops only where something is missing. -/
theorem missing_of_walk {names : List String} (hn : ∀ n ∈ names, n ≠ "..") {start : Place}
    (hopen : ∀ q, q <+: start ++ names → t.Open q) {r : Refusal}
    (h : walk t start names = .error r) : r = .missing := by
  induction names generalizing start with
  | nil => cases h
  | cons n names ih =>
    rw [walk_cons] at h
    split at h
    · have hstep : Path.step start n = start ++ [n] := if_neg (hn n (by simp))
      rw [hstep] at h
      refine ih (fun m hm => hn m (List.mem_cons_of_mem _ hm)) (fun q hq => hopen q ?_) h
      rwa [List.append_assoc] at hq
    · rename_i hfolder
      have hstart := (hopen start (List.prefix_append _ _)).resolve_right
        fun he => hfolder (isFolder_iff.mpr he)
      unfold walk.refuse at h
      rw [hstart] at h
      exact (Except.error.inj h).symm

end Files.Tree

namespace Work

variable {α β : Type}

theorem run_bind_of_ok {x : Work α} {f : α → Work β} {w v : World} {a : α}
    (h : x.run w = (.ok a, v)) : (x >>= f).run w = (f a).run v := by rw [run_bind, h]

namespace Keeps

variable {I : World → Prop}

theorem filterMapM {f : α → Work (Option β)} {as : List α}
    (hpure : ∀ bs : List β, Keeps I (pure bs : Work (List β))) (h : ∀ a ∈ as, Keeps I (f a)) :
    Keeps I (as.filterMapM f) := by
  induction as with
  | nil => exact hpure []
  | cons a as ih =>
    have hrest : Keeps I (as.filterMapM f) := ih fun b hb => h b (List.mem_cons_of_mem _ hb)
    rw [List.filterMapM_cons]
    refine bind (h a (by simp)) fun found => ?_
    cases found with
    | none => exact hrest
    | some b => exact bind hrest fun bs => hpure (b :: bs)

end Keeps

/-- Confined work that keeps a property keeps it together with the world's soundness. -/
theorem Confined.keeps_with {here : Path} {root : Nat} {R : Place → Prop} {I : World → Prop}
    {x : Work α} (h : Confined here root R x) (hx : Keeps I x) :
    Keeps (fun w => w.Stands here root ∧ I w) x := fun w hw => ⟨(h w hw.1).1, hx w hw.2⟩

/-- The work ends well and keeps a property of the world. -/
def Manages (I : World → Prop) (x : Work α) : Prop := ∀ w, I w → ∃ a v, x.run w = (.ok a, v) ∧ I v

namespace Manages

variable {I : World → Prop}

theorem pure (a : α) : Manages I (pure a : Work α) := fun w hw => ⟨a, w, rfl, hw⟩

theorem bind {x : Work α} {f : α → Work β} (hx : Manages I x) (hf : ∀ a, Manages I (f a)) :
    Manages I (x >>= f) := fun w hw => by
  obtain ⟨a, u, ha, hu⟩ := hx w hw
  rw [run_bind_of_ok ha]
  exact hf a u hu

theorem mapM {f : α → Work β} {as : List α} (h : ∀ a ∈ as, Manages I (f a)) :
    Manages I (as.mapM f) := by
  induction as with
  | nil => exact pure []
  | cons a as ih =>
    rw [List.mapM_cons]
    refine bind (h a (by simp)) fun b => ?_
    exact bind (ih fun b hb => h b (List.mem_cons_of_mem _ hb)) fun bs => pure (b :: bs)

theorem filterMapM {f : α → Work (Option β)} {as : List α} (h : ∀ a ∈ as, Manages I (f a)) :
    Manages I (as.filterMapM f) := by
  induction as with
  | nil => exact pure []
  | cons a as ih =>
    have hrest : Manages I (as.filterMapM f) := ih fun b hb => h b (List.mem_cons_of_mem _ hb)
    rw [List.filterMapM_cons]
    refine bind (h a (by simp)) fun found => ?_
    cases found with
    | none => exact hrest
    | some b => exact bind hrest fun bs => pure (b :: bs)

end Manages

end Work

namespace Disk

open Work

variable {here : Path} {root : Nat} {p : Path} {w : World}

/-! ## Folders -/

/-- The first try to make a folder finds a folder, makes it, or finds nothing above. -/
theorem run_tryFolder (hw : w.Stands here root) (hp : p.Clean)
    (hopen : ∀ q, q <+: Path.spot here p → w.tree.Open q) :
    (w.isFolder p = true ∧ (tryFolder p).run w = (.ok (some .taken), w)) ∨
      ((tryFolder p).run w).1 = .ok none ∨
      (p.parts ≠ [] ∧ w.tree.get? (Path.spot here p).dropLast ≠ some .folder ∧
        (tryFolder p).run w = (.ok (some .missing), w)) := by
  have hup := Path.not_up_of_valid hp.names
  rw [tryFolder, run_get_bind]
  cases hl : w.locate p with
  | error r =>
    have hmissing : r = .missing := by
      rw [World.locate_eq, hw.here_eq] at hl
      exact Tree.missing_of_walk hup hopen hl
    have hnot (h : p.parts = [] ∨ w.tree.get? (Path.spot here p).dropLast = some .folder) :
        False := by
      have hok : w.locate p = .ok (Path.spot here p) :=
        (World.locate_eq_ok_iff hw.sound hp).mpr ⟨by rw [hw.here_eq], h⟩
      rw [hl] at hok
      cases hok
    exact .inr (.inr ⟨fun h => hnot (.inl h), fun h => hnot (.inr h), by rw [hmissing]; rfl⟩)
  | ok q =>
    obtain ⟨hspot, -⟩ := (World.locate_eq_ok_iff hw.sound hp).mp hl
    rw [hw.here_eq] at hspot
    rcases hopen q (hspot ▸ List.prefix_rfl) with hget | hget
    · exact .inr (.inl (by simp only [hget]; rfl))
    · refine .inl ⟨?_, by simp only [hget]; rfl⟩
      rw [World.isFolder_iff hw.sound hp, hw.here_eq, ← hspot, hget]

theorem run_unlessFolder {r : Files.Refusal} (h : w.isFolder p = true) :
    (unlessFolder p r).run w = (.ok (), w) := by
  rw [unlessFolder, run_get_bind, if_pos h]
  rfl

section

variable {I : World → Prop}

/-- A folder is made where nothing was. -/
theorem keeps_tryFolder_of (hput : ∀ (w : World) (q : Place), q ≠ [] → w.tree.get? q = none → I w →
    I { w with tree := w.tree.put q .folder }) (p : Path) : Keeps I (tryFolder p) := by
  intro w hw
  rw [tryFolder, run_get_bind]
  cases hl : w.locate p with
  | error r => exact hw
  | ok q =>
    cases hget : w.tree.get? q with
    | some e => simp only [hget]; exact hw
    | none =>
      simp only [hget]
      rw [run_bind, run_put]
      refine hput w q (fun hnil => ?_) hget hw
      rw [hnil] at hget
      cases hget

variable (hstill : ∀ w v : World, w.SameFiles v → I w → I v)
include hstill

/-- What is kept where a single folder is made is kept where those above it are made as well. -/
theorem keeps_foldersFrom_of {P : Path → Prop} (hup : ∀ p, P p → P p.parent)
    (htry : ∀ p, P p → Keeps I (tryFolder p)) (fuel : Nat) {p : Path} (hp : P p) :
    Keeps I (foldersFrom fuel p) := by
  induction fuel generalizing p with
  | zero => exact Keeps.of_still hstill (still_refuse p _)
  | succ fuel ih =>
    rw [foldersFrom]
    refine Keeps.bind (htry p hp) fun found => ?_
    split
    · exact Keeps.of_still hstill (Still.pure _)
    · split
      · exact Keeps.of_still hstill (still_refuse p _)
      · refine Keeps.bind (ih (hup p hp)) fun _ => Keeps.bind (htry p hp) fun found => ?_
        split
        · exact Keeps.of_still hstill (Still.pure _)
        · exact Keeps.of_still hstill (still_unlessFolder p _)
    · exact Keeps.of_still hstill (still_unlessFolder p _)

end

/-- Making folders stands in the way of no other folder. -/
theorem keeps_open_foldersFrom (q : Place) (fuel : Nat) (p : Path) :
    Keeps (fun w => w.tree.Open q) (foldersFrom fuel p) :=
  keeps_foldersFrom_of (P := fun _ => True) (fun _ _ hv hw => by rwa [hv.tree]) (fun _ _ => trivial)
    (fun p _ => keeps_tryFolder_of (fun _ _ hne _ hw => hw.put_folder hne) p) fuel trivial

theorem run_foldersFrom {fuel : Nat} (hfuel : p.parts.length < fuel) (hw : w.Stands here root)
    (hp : p.Clean) (hroot : p.root = root)
    (hopen : ∀ q, q <+: Path.spot here p → w.tree.Open q) :
    ((foldersFrom fuel p).run w).1 = .ok () := by
  induction fuel generalizing p w with
  | zero => omega
  | succ fuel ih =>
    rw [foldersFrom]
    rcases run_tryFolder hw hp hopen with ⟨hfolder, htry⟩ | hmade | ⟨hparts, -, htry⟩
    · rw [run_bind_of_ok htry]
      simp only
      rw [run_unlessFolder hfolder]
    · rw [run_bind]
      cases htry : (tryFolder p).run w with
      | mk found u =>
        rw [htry] at hmade
        subst hmade
        rfl
    · rw [run_bind_of_ok htry]
      have hne : p.parent ≠ p := fun heq => by
        have hlen := congrArg (fun q : Path => q.parts.length) heq
        have := List.length_pos_iff.mpr hparts
        simp only [Path.parent, List.length_dropLast] at hlen
        omega
      have hspot : Path.spot here p.parent = (Path.spot here p).dropLast := by
        rw [Path.spot, Path.spot, List.dropLast_append_of_ne_nil hparts]
        rfl
      have hparent : ((foldersFrom fuel p.parent).run w).1 = .ok () := by
        refine ih ?_ hw hp.parent hroot fun q hq => hopen q (hq.trans ?_)
        · have := List.length_pos_iff.mpr hparts
          simp only [Path.parent, List.length_dropLast]
          omega
        · rw [hspot]
          exact List.dropLast_prefix _
      obtain ⟨hu, hgrown⟩ := foldersFrom_grows hp.parent.tidy hroot fuel w hw
      simp only [if_neg hne]
      cases hrun : (foldersFrom fuel p.parent).run w with
      | mk done u =>
        rw [hrun] at hparent hu hgrown
        obtain rfl : done = .ok () := hparent
        rw [run_bind_of_ok hrun]
        -- The folder above is there now, so this one is made or found.
        have hopen' : ∀ q, q <+: Path.spot here p → u.tree.Open q := fun q hq => by
          have hkept := keeps_open_foldersFrom q fuel p.parent w (hopen q hq)
          rwa [hrun] at hkept
        rcases run_tryFolder hu hp hopen' with ⟨hfolder, htry⟩ | hmade | ⟨-, hup, -⟩
        · rw [run_bind_of_ok htry]
          exact congrArg Prod.fst (run_unlessFolder hfolder)
        · rw [run_bind]
          cases htry : (tryFolder p).run u with
          | mk found u' =>
            rw [htry] at hmade
            subst hmade
            rfl
        · obtain ⟨q, hq⟩ := stat_of_foldersFrom hrun
          obtain ⟨hplace, hget⟩ := (World.stat_eq_ok_iff hu.sound hp.parent).mp hq
          rw [hplace, hu.here_eq, hspot] at hget
          exact absurd hget hup

/-- Where nothing is in the way, a folder can be made. -/
theorem run_folders (hw : w.Stands here root) (hp : p.Clean) (hroot : p.root = root)
    (hopen : ∀ q, q <+: Path.spot here p → w.tree.Open q) :
    ∃ v, (folders p).run w = (.ok (), v) ∧ v.Stands here root ∧ w.SameBytes v ∧
      v.tree.get? (Path.spot here p) = some .folder := by
  have hok : ((folders p).run w).1 = .ok () :=
    run_foldersFrom (Nat.lt_succ_self _) hw hp hroot hopen
  obtain ⟨hv, hgrown⟩ := folders_grows hp.tidy hroot w hw
  cases hrun : (folders p).run w with
  | mk done v =>
    rw [hrun] at hok hv hgrown
    obtain rfl : done = .ok () := hok
    refine ⟨v, rfl, hv, hgrown.sameBytes, ?_⟩
    obtain ⟨q, hq⟩ := stat_of_folders hrun
    obtain ⟨hspot, hget⟩ := (World.stat_eq_ok_iff hv.sound hp).mp hq
    rwa [hspot, hv.here_eq] at hget

/-! ## Files -/

/-- In a folder a file can be written where no folder is. -/
theorem run_writeBytes (hw : w.Stands here root) (hp : p.Clean)
    (hup : w.tree.get? (Path.spot here p).dropLast = some .folder)
    (hthere : w.tree.get? (Path.spot here p) ≠ some .folder) (b : ByteArray) :
    (writeBytes p b).run w =
      (.ok (), { w with tree := w.tree.put (Path.spot here p) (.file b) }) := by
  have hl : w.locate p = .ok (Path.spot here p) :=
    (World.locate_eq_ok_iff hw.sound hp).mpr ⟨by rw [hw.here_eq], .inr hup⟩
  rw [writeBytes, run_get_bind, hl]
  dsimp only
  split
  · exact absurd ‹_› hthere
  · exact run_put _ _ w

/-- In a folder a file can be written where no folder is; then it holds the bytes, and
every other file holds what it held. -/
theorem exists_run_writeBytes (hw : w.Stands here root) (hp : p.Clean) (hroot : p.root = root)
    (hup : w.tree.get? (Path.spot here p).dropLast = some .folder)
    (hthere : w.tree.get? (Path.spot here p) ≠ some .folder) (b : ByteArray) :
    ∃ v, (writeBytes p b).run w = (.ok (), v) ∧ v.Stands here root ∧
      w.Moved (· = Path.spot here p) v ∧ v.tree.bytes? (Path.spot here p) = some b := by
  have hrun := run_writeBytes hw hp hup hthere b
  obtain ⟨hv, hmoved⟩ := writeBytes_confined hp hroot b w hw
  rw [hrun] at hv hmoved
  refine ⟨_, hrun, hv, hmoved, ?_⟩
  have hne : Path.spot here p ≠ [] := by
    intro hnil
    rw [hnil] at hthere
    exact hthere rfl
  exact (Tree.bytes?_put hne b).trans (if_pos rfl)

/-- A file that is written with the bytes it has. -/
theorem run_rewrite (hw : w.Stands here root) (hp : p.Clean) (hroot : p.root = root)
    {b : ByteArray} (hb : w.tree.bytes? (Path.spot here p) = some b) :
    ∃ v, (writeBytes p b).run w = (.ok (), v) ∧ v.Stands here root ∧ w.SameBytes v := by
  have hget := Tree.bytes?_eq_some_iff.mp hb
  have hne : Path.spot here p ≠ [] := by
    intro hnil
    rw [hnil] at hget
    cases hget
  obtain ⟨v, hrun, hv, hmoved, hwritten⟩ := exists_run_writeBytes hw hp hroot
    (hw.sound.tree.parent hne hget) (Tree.ne_folder_of_bytes hb) b
  refine ⟨v, hrun, hv, hmoved.home, hmoved.here, hmoved.held, fun q => ?_⟩
  by_cases hq : q = Path.spot here p
  · rw [hq, hwritten, hb]
  · exact hmoved.bytes? hq

/-- A file can be removed. Nothing is in its place then, and every other file is as it
was. -/
theorem run_removeFile (hw : w.Stands here root) (hp : p.Clean) {b : ByteArray}
    (hb : w.tree.bytes? (Path.spot here p) = some b) :
    ∃ v, (removeFile p).run w = (.ok (), v) ∧ v.Stands here root ∧
      w.Grown (· = Path.spot here p) v ∧ v.tree.get? (Path.spot here p) = none := by
  have hget := Tree.bytes?_eq_some_iff.mp hb
  have hs : w.stat p = .ok (Path.spot here p, .file b) :=
    (World.stat_eq_ok_iff hw.sound hp).mpr ⟨by rw [hw.here_eq], hget⟩
  have hrun : (removeFile p).run w =
      (.ok (), { w with tree := w.tree.remove (Path.spot here p) }) := by
    rw [removeFile, run_get_bind, hs]
    rfl
  have hv := (removeFile_grows p : Grows here root _ _) w hw
  rw [hrun, Path.place_eq_spot hp] at hv
  refine ⟨_, hrun, hv.1, hv.2, ?_⟩
  have hne : Path.spot here p ≠ [] := by
    intro hnil
    rw [hnil] at hget
    cases hget
  exact (Tree.get?_remove hne).trans (if_pos List.prefix_rfl)

/-- A folder without entries has no children. -/
theorem children_of_entries {place : Place} (hs : w.stat p = .ok (place, .folder))
    (h : w.entries p = []) : w.tree.children place = [] := by
  unfold World.entries at h
  rw [hs] at h
  dsimp only at h
  refine List.eq_nil_iff_forall_not_mem.mpr fun q hq => ?_
  have hmem := Path.mem_sorted.mpr (List.mem_map_of_mem
    (f := fun q => Path.mk p.root (p.parts ++ q.drop place.length)) hq)
  rw [h] at hmem
  exact absurd hmem List.not_mem_nil

/-- A folder without entries can be removed, and every file is as it was. -/
theorem run_removeFolder (hw : w.Stands here root) (hp : p.Clean) (hroot : p.root = root)
    (hparts : p.parts ≠ []) (hf : w.tree.get? (Path.spot here p) = some .folder)
    (hempty : w.entries p = []) :
    ∃ v, (removeFolder p).run w = (.ok (), v) ∧ v.Stands here root ∧ w.SameBytes v ∧
      ∀ q, v.tree.get? q = if Path.spot here p <+: q then none else w.tree.get? q := by
  have hs : w.stat p = .ok (Path.spot here p, .folder) :=
    (World.stat_eq_ok_iff hw.sound hp).mpr ⟨by rw [hw.here_eq], hf⟩
  have hchildren := children_of_entries hs hempty
  have hrun : (removeFolder p).run w =
      (.ok (), { w with tree := w.tree.remove (Path.spot here p) }) := by
    rw [removeFolder, run_get_bind, hs]
    rfl
  have hv := removeFolder_confined hp hroot hparts w hw
  rw [hrun] at hv
  have hne : Path.spot here p ≠ [] := by simp [Path.spot, hparts]
  refine ⟨_, hrun, hv.1, ⟨hv.2.home, hv.2.here, hv.2.held, fun q => ?_⟩,
    fun q => Tree.get?_remove hne⟩
  change (w.tree.remove _).bytes? q = _
  rw [Tree.bytes?_remove hne]
  split
  · rename_i hpre
    refine (Tree.bytes?_eq_none_of_get? ?_).symm
    by_cases hq : Path.spot here p = q
    · exact .inr (hq ▸ hf)
    · exact .inl (hw.sound.tree.nothing_below hchildren hpre hq)
  · rfl

/-- Removing a folder fails and leaves the files as they are, or takes the files in it away. -/
theorem removeFolder_bytes (hw : w.Stands here root) (hp : p.Clean) (hparts : p.parts ≠ []) :
    (∃ e, (removeFolder p).run w = (.error e, w)) ∨
      ∃ v, (removeFolder p).run w = (.ok (), v) ∧
        ∀ q, v.tree.bytes? q = if Path.spot here p <+: q then none else w.tree.bytes? q := by
  rw [removeFolder, run_get_bind]
  cases hs : w.stat p with
  | error r => exact .inl ⟨_, rfl⟩
  | ok found =>
    obtain ⟨place, entry⟩ := found
    cases entry with
    | file | lock => exact .inl ⟨_, rfl⟩
    | folder =>
      obtain ⟨hspot, -⟩ := (World.stat_eq_ok_iff hw.sound hp).mp hs
      rw [hw.here_eq] at hspot
      have hne : place ≠ [] := by
        rw [hspot, Path.spot]
        exact List.append_ne_nil_of_right_ne_nil _ hparts
      refine .inr ⟨_, rfl, fun q => ?_⟩
      rw [← hspot]
      exact Tree.bytes?_remove hne

/-- A copy of another file is its bytes, written. -/
theorem run_copy {source : Path} (hw : w.Stands here root) (hs : source.Clean) (hp : p.Clean)
    (hne : Path.spot here source ≠ Path.spot here p) {b : ByteArray}
    (hb : w.tree.bytes? (Path.spot here source) = some b) :
    (copy source p).run w = (writeBytes p b).run w := by
  have hbytes : (bytes source).run w = (.ok b, w) :=
    run_bytes hw.sound hs (by rw [hw.here_eq]; exact hb)
  have hrest : (bytes source >>= fun b => writeBytes p b).run w = (writeBytes p b).run w :=
    run_bind_of_ok hbytes
  rw [copy, run_get_bind]
  dsimp only
  split
  · rename_i a e c e' ha hc
    have ha := ((World.stat_eq_ok_iff hw.sound hs).mp ha).1
    have hc := ((World.stat_eq_ok_iff hw.sound hp).mp hc).1
    rw [hw.here_eq] at ha hc
    rw [if_neg fun heq => hne (by rw [← ha, ← hc, heq])]
    exact hrest
  · exact hrest

/-! ## Places that stay as they are -/

section

variable {q : Place} {e : Option Entry}

theorem keeps_tryFolder (hq : q ≠ Path.place here p) :
    Keeps (World.At here q e) (tryFolder p) := by
  intro w hw
  rw [tryFolder, run_get_bind]
  cases hl : w.locate p with
  | error r => exact hw
  | ok place =>
    cases hget : w.tree.get? place with
    | some e => simp only [hget]; exact hw
    | none =>
      have hplace := World.place_of_locate hl
      rw [hw.1] at hplace
      simp only [hget]
      rw [run_bind, run_put]
      exact ⟨hw.1, (Tree.get?_put_of_ne _ _ _ _ (hplace ▸ hq)).trans hw.2⟩

/-- Folders are made on the way to a path and nowhere else. -/
theorem keeps_folders (hp : p.Clean) (hq : ¬ q <+: Path.spot here p) :
    Keeps (World.At here q e) (folders p) := by
  refine keeps_foldersFrom_of (P := fun p => p.Clean ∧ ¬ q <+: Path.spot here p) World.At.same
    (fun p ⟨hp, hq⟩ => ⟨hp.parent, fun hpre => hq (hpre.trans ?_)⟩) (fun p ⟨hp, hq⟩ => ?_) _ ⟨hp, hq⟩
  · exact (List.prefix_append_right_inj _).mpr (List.dropLast_prefix _)
  · exact keeps_tryFolder fun heq => hq (heq ▸ Path.place_eq_spot hp ▸ List.prefix_rfl)

/-- What is there is there behind the making of folders. -/
theorem keeps_there_folders {e : Entry} (p : Path) :
    Keeps (World.At here q (some e)) (folders p) :=
  keeps_foldersFrom_of (P := fun _ => True) World.At.same (fun _ _ => trivial)
    (fun p _ => keeps_tryFolder_of (fun _ place _ hnone hw => ⟨hw.1, by
      rw [Tree.get?_put_of_ne _ _ _ _ fun heq => ?_]
      · exact hw.2
      · rw [← heq, hw.2] at hnone
        cases hnone⟩) p) _ trivial

/-- Making a lock changes nothing but its own place, and that only where nothing is. -/
theorem keeps_makeLock {e : Option Entry} (hq : q = Path.place here p → e ≠ none) :
    Keeps (World.At here q e) (makeLock p) := by
  intro w hw
  rw [makeLock, run_get_bind]
  cases hl : w.locate p with
  | error r => exact hw
  | ok place =>
    cases hget : w.tree.get? place with
    | some found => cases found <;> (simp only [hget]; exact hw)
    | none =>
      simp only [hget]
      rw [run_put]
      refine ⟨hw.1, (Tree.get?_put_of_ne _ _ _ _ fun heq => ?_).trans hw.2⟩
      have hplace := World.place_of_locate hl
      rw [hw.1] at hplace
      refine hq (heq.trans hplace) ?_
      rw [← hw.2, heq, hget]

theorem keeps_writeBytes (hq : q ≠ Path.place here p) (b : ByteArray) :
    Keeps (World.At here q e) (writeBytes p b) := by
  intro w hw
  rw [writeBytes, run_get_bind]
  cases hl : w.locate p with
  | error r => exact hw
  | ok place =>
    have hplace := World.place_of_locate hl
    rw [hw.1] at hplace
    have hput : (({ w with tree := w.tree.put place (.file b) } : World)).At here q e :=
      ⟨hw.1, (Tree.get?_put_of_ne _ _ _ _ (hplace ▸ hq)).trans hw.2⟩
    dsimp only
    split
    · exact hw
    · exact hput

theorem keeps_copy (source : Path) (hq : q ≠ Path.place here p) :
    Keeps (World.At here q e) (copy source p) := by
  have hrest : Keeps (World.At here q e) (bytes source >>= fun b => writeBytes p b) :=
    Keeps.bind (Keeps.of_still World.At.same (still_bytes source)) fun b =>
      keeps_writeBytes hq b
  refine Keeps.get_bind fun w _ => ?_
  dsimp only
  split
  · split
    · exact Keeps.bind (Keeps.of_still World.At.same (Still.throw _)) fun _ => hrest
    · exact hrest
  · exact hrest

theorem at_remove {w : World} (hw : w.At here q e) {place : Place}
    (hplace : place = Path.place w.here p) (hq : ¬ Path.place here p <+: q) :
    World.At here q e { w with tree := w.tree.remove place } := by
  rw [hw.1] at hplace
  have hne : place ≠ [] := by
    rintro rfl
    exact hq (hplace ▸ List.nil_prefix)
  exact ⟨hw.1, by rw [Tree.get?_remove hne, if_neg (hplace ▸ hq)]; exact hw.2⟩

theorem keeps_removeFile (hq : ¬ Path.place here p <+: q) :
    Keeps (World.At here q e) (removeFile p) := by
  intro w hw
  rw [removeFile, run_get_bind]
  cases hs : w.stat p with
  | error r => exact hw
  | ok found =>
    obtain ⟨place, entry⟩ := found
    cases entry with
    | folder | lock => exact hw
    | file b => exact at_remove hw (World.place_of_stat hs) hq

theorem keeps_removeFolder (hq : ¬ Path.place here p <+: q) :
    Keeps (World.At here q e) (removeFolder p) := by
  intro w hw
  rw [removeFolder, run_get_bind]
  cases hs : w.stat p with
  | error r => exact hw
  | ok found =>
    obtain ⟨place, entry⟩ := found
    cases entry with
    | file | lock => exact hw
    | folder => exact at_remove hw (World.place_of_stat hs) hq

end

/-! ## Places that stay open -/

section

variable {I : World → Prop} (hremove : ∀ (w : World) (q : Place), I w →
  I { w with tree := w.tree.remove q })
include hremove

theorem keeps_removeFile_of (p : Path) : Keeps I (removeFile p) := by
  intro w hw
  rw [removeFile, run_get_bind]
  cases w.stat p with
  | error r => exact hw
  | ok found =>
    obtain ⟨place, entry⟩ := found
    cases entry with
    | folder | lock => exact hw
    | file b => exact hremove w place hw

theorem keeps_removeFolder_of (p : Path) : Keeps I (removeFolder p) := by
  intro w hw
  rw [removeFolder, run_get_bind]
  cases w.stat p with
  | error r => exact hw
  | ok found =>
    obtain ⟨place, entry⟩ := found
    cases entry with
    | file | lock => exact hw
    | folder => exact hremove w place hw

end

theorem keeps_open_removeFile (q : Place) (p : Path) :
    Keeps (fun w => w.tree.Open q) (removeFile p) :=
  keeps_removeFile_of (fun _ place hw => hw.remove place) p

theorem keeps_open_removeFolder (q : Place) (p : Path) :
    Keeps (fun w => w.tree.Open q) (removeFolder p) :=
  keeps_removeFolder_of (fun _ place hw => hw.remove place) p

theorem keeps_admits_removeFolder (q : Place) (p : Path) :
    Keeps (fun w => w.tree.Admits q) (removeFolder p) :=
  keeps_removeFolder_of (fun _ place hw => hw.remove place) p

/-! ## Places that stay filled -/

section

variable {q : Place}

/-- What is filled outside of the places that have changed is filled. -/
theorem filled_of_moved {R : Place → Prop} {w v : World} (h : w.Moved R v) (hq : ¬ R q)
    (hfilled : w.tree.Filled q) : v.tree.Filled q := by
  rcases h.outside q hq with heq | ⟨hnone, -⟩
  · rwa [Tree.Filled, heq]
  · exact absurd hnone hfilled.1

theorem filled_same (w v : World) (hv : w.SameFiles v) (hw : w.tree.Filled q) : v.tree.Filled q := by
  rwa [hv.tree]

theorem keeps_filled_folders (p : Path) : Keeps (fun w => w.tree.Filled q) (folders p) :=
  keeps_foldersFrom_of (P := fun _ => True) filled_same (fun _ _ => trivial)
    (fun p _ => keeps_tryFolder_of (fun _ _ hne hnone hw => hw.put hne fun _ => hnone) p) _ trivial

theorem keeps_filled_writeBytes (p : Path) (b : ByteArray) :
    Keeps (fun w => w.tree.Filled q) (writeBytes p b) := by
  intro w hw
  rw [writeBytes, run_get_bind]
  cases hl : w.locate p with
  | error r => exact hw
  | ok place =>
    have hput (hne : w.tree.get? place ≠ some .folder) :
        (w.tree.put place (.file b)).Filled q := by
      refine hw.put (fun hnil => hne ?_) (by simp)
      rw [hnil]
      rfl
    cases hget : w.tree.get? place with
    | none =>
      simp only [hget]
      exact hput (by simp [hget])
    | some found =>
      cases found with
      | folder =>
        simp only [hget]
        exact hw
      | file _ | lock =>
        simp only [hget]
        exact hput (by simp [hget])

theorem keeps_filled_copy (source p : Path) :
    Keeps (fun w => w.tree.Filled q) (copy source p) := by
  have hrest : Keeps (fun w => w.tree.Filled q) (bytes source >>= fun b => writeBytes p b) :=
    Keeps.bind (Keeps.of_still filled_same (still_bytes source)) fun b => keeps_filled_writeBytes p b
  refine Keeps.get_bind fun w _ => ?_
  dsimp only
  split
  · split
    · exact Keeps.bind (Keeps.of_still filled_same (Still.throw _)) fun _ => hrest
    · exact hrest
  · exact hrest

/-- A lock can be made where no folder is. -/
theorem run_makeLock {w : World} (hl : w.locate p = .ok q) (hfree : w.tree.get? q ≠ some .folder) :
    ((makeLock p).run w).1 = .ok () := by
  rw [makeLock, run_get_bind, hl]
  cases hget : w.tree.get? q with
  | none => simp only [hget]; rfl
  | some found =>
    cases found with
    | folder => exact absurd hget hfree
    | file _ | lock => simp only [hget]; rfl

/-- Where a lock has been made, its place is filled. -/
theorem filled_of_makeLock {w v : World} (h : (makeLock p).run w = (.ok (), v)) :
    v.tree.Filled (Path.place w.here p) := by
  rw [makeLock, run_get_bind] at h
  cases hl : w.locate p with
  | error r =>
    rw [hl] at h
    cases h
  | ok place =>
    rw [hl] at h
    rw [← World.place_of_locate hl]
    cases hget : w.tree.get? place with
    | none =>
      simp only [hget] at h
      obtain ⟨-, rfl⟩ := Prod.mk.inj h
      have hnil : place ≠ [] := by
        rintro rfl
        cases hget
      have hput := Tree.get?_put_same w.tree place .lock hnil
      exact ⟨by simp [hput], by simp [hput]⟩
    | some found =>
      cases found with
      | folder =>
        simp only [hget] at h
        cases h
      | file _ | lock =>
        simp only [hget] at h
        obtain ⟨-, rfl⟩ := Prod.mk.inj h
        exact ⟨by simp [hget], by simp [hget]⟩

variable {w : World} (hw : w.Sound) (hq : w.tree.Filled q)
include hw hq

/-- Nothing lies below a file, so removing one takes nothing else away. -/
theorem filled_removeFile (hne : q ≠ Path.place w.here p) :
    ((removeFile p).run w).2.tree.Filled q := by
  rw [removeFile, run_get_bind]
  cases hs : w.stat p with
  | error r => exact hq
  | ok found =>
    obtain ⟨place, entry⟩ := found
    cases entry with
    | folder | lock => exact hq
    | file b =>
      have hget := (World.stat_iff_locate.mp hs).2
      refine hq.remove (fun hnil => ?_) fun hpre => hq.1 ?_
      · rw [hnil] at hget
        cases hget
      · exact hw.tree.nothing_below_file hget hpre fun heq => hne (heq ▸ World.place_of_stat hs)

/-- Nothing lies in a folder without entries. -/
theorem filled_removeFolder (hempty : w.entries p = []) :
    ((removeFolder p).run w).2.tree.Filled q := by
  rw [removeFolder, run_get_bind]
  cases hs : w.stat p with
  | error r => exact hq
  | ok found =>
    obtain ⟨place, entry⟩ := found
    cases entry with
    | file | lock => exact hq
    | folder =>
      have hget := (World.stat_iff_locate.mp hs).2
      have hbelow : ¬ place <+: q := fun hpre => by
        by_cases heq : place = q
        · exact hq.2 (heq ▸ hget)
        · exact hq.1 (hw.tree.nothing_below (children_of_entries hs hempty) hpre heq)
      exact hq.remove (fun hnil => hbelow (hnil ▸ List.nil_prefix)) hbelow

end

end Disk

end AgentRelay
