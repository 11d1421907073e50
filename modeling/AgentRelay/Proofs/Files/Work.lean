import AgentRelay.Proofs.Files.World

/-
  What work does to files.

  `Still` work leaves the files alone. `Agrees w w' x y` says that two pieces of
  work leave the files of `w` and of `w'` alone and end in the same way, however
  much was printed before. `Confined here root R x` says that `x` keeps the world
  sound and changes no place outside of `R`, except that it may make a folder
  where nothing was; work that `Grows` leaves every folder there besides. Every
  rule below holds for work that fails as well.
-/

namespace AgentRelay

open Files (Place Tree Entry ValidName)

/-- The same files, seen from the same place. -/
structure World.SameFiles (w v : World) : Prop where
  tree : v.tree = w.tree
  home : v.home = w.home
  here : v.here = w.here
  repository : v.repository = w.repository
  held : v.held = w.held

namespace World.SameFiles

variable {u v w : World}

theorem refl (w : World) : w.SameFiles w := ⟨rfl, rfl, rfl, rfl, rfl⟩

theorem symm (h : w.SameFiles v) : v.SameFiles w :=
  ⟨h.tree.symm, h.home.symm, h.here.symm, h.repository.symm, h.held.symm⟩

theorem trans (h : u.SameFiles v) (h' : v.SameFiles w) : u.SameFiles w :=
  ⟨h'.tree.trans h.tree, h'.home.trans h.home, h'.here.trans h.here,
    h'.repository.trans h.repository, h'.held.trans h.held⟩

theorem stat (h : w.SameFiles v) (p : Path) : v.stat p = w.stat p := by
  rw [World.stat, World.stat, World.herePlace, World.herePlace, h.tree, h.here]

theorem sound (h : w.SameFiles v) (hw : w.Sound) : v.Sound :=
  ⟨h.tree ▸ hw.tree, h.here ▸ hw.here⟩

end World.SameFiles

namespace Work

variable {α β : Type}

/-! ## Runs -/

theorem run_bind (x : Work α) (f : α → Work β) (w : World) :
    (x >>= f).run w = match x.run w with
      | (.ok a, v) => (f a).run v
      | (.error e, v) => (.error e, v) := by
  -- The world is threaded outside of the failure, so it is kept where work fails.
  change (StateT.bind x.run (ExceptT.bindCont f)) w = _
  simp only [StateT.bind, bind]
  cases x.run w with
  | mk r v => cases r <;> rfl

theorem run_get_bind (f : World → Work β) (w : World) :
    ((get : Work World) >>= f).run w = (f w).run w := rfl

theorem ofExcept_ok_bind (a : α) (f : α → Work β) : (Work.ofExcept (.ok a) >>= f) = f a :=
  pure_bind a f

theorem ok_of_run_ofExcept_bind {r : Except Failure α} {f : α → Work β} {w v : World} {b : β}
    (h : (Work.ofExcept r >>= f).run w = (.ok b, v)) : ∃ a, r = .ok a ∧ (f a).run w = (.ok b, v) := by
  cases r with
  | ok a => exact ⟨a, rfl, h⟩
  | error e => exact nomatch h

theorem ofExcept_error_bind (e : Failure) (f : α → Work β) :
    (Work.ofExcept (.error e) >>= f) = throw e := rfl

/-- Work that ends well has ended well up to its last step. -/
theorem ok_of_run_bind {x : Work α} {f : α → Work β} {w v : World} {b : β}
    (h : (x >>= f).run w = (.ok b, v)) :
    ∃ a u, x.run w = (.ok a, u) ∧ (f a).run u = (.ok b, v) := by
  rw [run_bind] at h
  cases hx : x.run w with
  | mk r u =>
    rw [hx] at h
    cases r with
    | ok a => exact ⟨a, u, rfl, h⟩
    | error e => exact nomatch h

theorem run_attempt (x : Work α) (w : World) :
    x.attempt.run w = (.ok (x.run w).1, (x.run w).2) := rfl

theorem run_explain (f : Failure → Failure) (x : Work α) (w : World) :
    (x.explain f).run w = ((x.run w).1.mapError f, (x.run w).2) := rfl

/-! ## Work that leaves the files alone -/

/-- The files are the same after the work. -/
def Still (x : Work α) : Prop := ∀ w : World, w.SameFiles (x.run w).2

namespace Still

theorem pure (a : α) : Still (pure a : Work α) := World.SameFiles.refl

theorem throw (e : Failure) : Still (throw e : Work α) := World.SameFiles.refl

theorem ofExcept (r : Except Failure α) : Still (Work.ofExcept r) := by
  cases r with
  | ok a => exact pure a
  | error e => exact throw e

theorem bind {x : Work α} {f : α → Work β} (hx : Still x) (hf : ∀ a, Still (f a)) :
    Still (x >>= f) := by
  intro w
  have h := hx w
  rw [run_bind]
  split
  · rename_i a v heq
    rw [heq] at h
    exact h.trans (hf a v)
  · rename_i e v heq
    rw [heq] at h
    exact h

theorem get_bind {f : World → Work β} (hf : ∀ w, Still (f w)) :
    Still ((get : Work World) >>= f) := fun w => hf w w

theorem attempt {x : Work α} (hx : Still x) : Still x.attempt := hx

theorem explain {x : Work α} (f : Failure → Failure) (hx : Still x) : Still (x.explain f) := hx

theorem say (line : String) : Still (World.say line) := fun _ => ⟨rfl, rfl, rfl, rfl, rfl⟩

theorem warn (m : Warning) : Still (World.warn m) := fun _ => ⟨rfl, rfl, rfl, rfl, rfl⟩

theorem mapM {f : α → Work β} {as : List α} (hf : ∀ a ∈ as, Still (f a)) : Still (as.mapM f) := by
  induction as with
  | nil => exact pure []
  | cons a as ih =>
    rw [List.mapM_cons]
    refine bind (hf a (by simp)) fun b => bind ?_ fun bs => pure (b :: bs)
    exact ih fun a ha => hf a (List.mem_cons_of_mem _ ha)

theorem forM {f : α → Work PUnit} {as : List α} (hf : ∀ a ∈ as, Still (f a)) :
    Still (as.forM f) := by
  induction as with
  | nil => exact pure PUnit.unit
  | cons a as ih =>
    have hrest : Still (as.forM f) := ih fun b hb => hf b (List.mem_cons_of_mem _ hb)
    exact bind (hf a (by simp)) fun _ => hrest

end Still

/-! ## Work that ends in the same way -/

/-- On the files of `w` and of `w'` two pieces of work end in the same way, and
leave the files alone. -/
def Agrees (w w' : World) (x y : Work α) : Prop :=
  ∀ v v' : World, w.SameFiles v → w'.SameFiles v' →
    (x.run v).1 = (y.run v').1 ∧ w.SameFiles (x.run v).2 ∧ w'.SameFiles (y.run v').2

namespace Agrees

variable {w w' : World}

theorem of_still {x y : Work α} (hx : Still x) (hy : Still y)
    (h : ∀ v v' : World, w.SameFiles v → w'.SameFiles v' → (x.run v).1 = (y.run v').1) :
    Agrees w w' x y :=
  fun v v' hv hv' => ⟨h v v' hv hv', hv.trans (hx v), hv'.trans (hy v')⟩

theorem pure (a : α) : Agrees w w' (pure a) (pure a) :=
  of_still (Still.pure a) (Still.pure a) fun _ _ _ _ => rfl

theorem throw (e : Failure) : Agrees w w' (throw e : Work α) (throw e) :=
  of_still (Still.throw e) (Still.throw e) fun _ _ _ _ => rfl

theorem throw_bind (e : Failure) (f g : α → Work β) :
    Agrees w w' ((MonadExcept.throw e : Work α) >>= f) ((MonadExcept.throw e : Work α) >>= g) :=
  fun _ _ hv hv' => ⟨rfl, hv, hv'⟩

theorem ofExcept (r : Except Failure α) : Agrees w w' (Work.ofExcept r) (Work.ofExcept r) := by
  cases r with
  | ok a => exact pure a
  | error e => exact throw e

theorem bind {x y : Work α} {f g : α → Work β} (hxy : Agrees w w' x y)
    (hfg : ∀ a, Agrees w w' (f a) (g a)) : Agrees w w' (x >>= f) (y >>= g) := by
  intro v v' hv hv'
  obtain ⟨hresult, hafter, hafter'⟩ := hxy v v' hv hv'
  rw [run_bind, run_bind]
  cases hx : x.run v with
  | mk r u =>
    cases hy : y.run v' with
    | mk r' u' =>
      rw [hx] at hresult hafter
      rw [hy] at hresult hafter'
      obtain rfl : r = r' := hresult
      cases r with
      | ok a => exact hfg a u u' hafter hafter'
      | error e => exact ⟨rfl, hafter, hafter'⟩

theorem get_bind {f g : World → Work β}
    (h : ∀ v v' : World, w.SameFiles v → w'.SameFiles v' → Agrees w w' (f v) (g v')) :
    Agrees w w' ((get : Work World) >>= f) ((get : Work World) >>= g) :=
  fun v v' hv hv' => h v v' hv hv' v v' hv hv'

theorem attempt {x y : Work α} (h : Agrees w w' x y) : Agrees w w' x.attempt y.attempt := by
  intro v v' hv hv'
  obtain ⟨hresult, hafter, hafter'⟩ := h v v' hv hv'
  rw [run_attempt, run_attempt, hresult]
  exact ⟨rfl, hafter, hafter'⟩

theorem explain (f : Failure → Failure) {x y : Work α} (h : Agrees w w' x y) :
    Agrees w w' (x.explain f) (y.explain f) := by
  intro v v' hv hv'
  obtain ⟨hresult, hafter, hafter'⟩ := h v v' hv hv'
  rw [run_explain, run_explain, hresult]
  exact ⟨rfl, hafter, hafter'⟩

theorem say (line : String) : Agrees w w' (World.say line) (World.say line) :=
  of_still (Still.say line) (Still.say line) fun _ _ _ _ => rfl

theorem warn (m : Warning) : Agrees w w' (World.warn m) (World.warn m) :=
  of_still (Still.warn m) (Still.warn m) fun _ _ _ _ => rfl

theorem mapM {f g : α → Work β} {as : List α} (h : ∀ a ∈ as, Agrees w w' (f a) (g a)) :
    Agrees w w' (as.mapM f) (as.mapM g) := by
  induction as with
  | nil => exact pure []
  | cons a as ih =>
    rw [List.mapM_cons, List.mapM_cons]
    refine bind (h a (by simp)) fun b => bind ?_ fun bs => pure (b :: bs)
    exact ih fun a ha => h a (List.mem_cons_of_mem _ ha)

theorem forM {f g : α → Work PUnit} {as : List α} (h : ∀ a ∈ as, Agrees w w' (f a) (g a)) :
    Agrees w w' (as.forM f) (as.forM g) := by
  induction as with
  | nil => exact pure PUnit.unit
  | cons a as ih =>
    have hrest : Agrees w w' (as.forM f) (as.forM g) :=
      ih fun b hb => h b (List.mem_cons_of_mem _ hb)
    exact bind (h a (by simp)) fun _ => hrest

end Agrees

/-! ## What work yields -/

/-- On the files of a world, what the work ends with has a property. -/
def Yields (w : World) (x : Work α) (P : α → Prop) : Prop :=
  ∀ v : World, w.SameFiles v → ∀ a, (x.run v).1 = .ok a → P a

namespace Yields

variable {w : World} {P : α → Prop}

theorem any (x : Work α) : Yields w x fun _ => True := fun _ _ _ _ => trivial

theorem pure {a : α} (h : P a) : Yields w (pure a) P := by
  intro v _ b hb
  obtain rfl := Except.ok.inj hb
  exact h

theorem throw (e : Failure) : Yields w (throw e : Work α) P := fun _ _ _ hb => nomatch hb

theorem ofExcept {r : Except Failure α} (h : ∀ a, r = .ok a → P a) :
    Yields w (Work.ofExcept r) P := by
  cases r with
  | ok a => exact pure (h a rfl)
  | error e => exact throw e

theorem bind {x : Work α} {f : α → Work β} {Q : β → Prop} (hs : Still x) (hx : Yields w x P)
    (hf : ∀ a, P a → Yields w (f a) Q) : Yields w (x >>= f) Q := by
  intro v hv b hb
  have hafter := hs v
  rw [run_bind] at hb
  cases h : x.run v with
  | mk r u =>
    rw [h] at hb hafter
    cases r with
    | ok a => exact hf a (hx v hv a (by rw [h])) u (hv.trans hafter) b hb
    | error e => exact nomatch hb

theorem get_bind {f : World → Work β} {Q : β → Prop}
    (hf : ∀ v, w.SameFiles v → Yields w (f v) Q) : Yields w ((get : Work World) >>= f) Q :=
  fun v hv => hf v hv v hv

theorem explain (f : Failure → Failure) {x : Work α} (h : Yields w x P) :
    Yields w (x.explain f) P := by
  intro v hv a ha
  rw [run_explain] at ha
  cases hx : (x.run v).1 with
  | ok b =>
    rw [hx] at ha
    exact h v hv a (hx.trans ha)
  | error e =>
    rw [hx] at ha
    exact nomatch ha

theorem mono {x : Work α} {Q : α → Prop} (h : Yields w x P) (hPQ : ∀ a, P a → Q a) :
    Yields w x Q := fun v hv a ha => hPQ a (h v hv a ha)

theorem mapM {γ : Type} {f : α → Work β} {as : List α} {φ : β → γ} {ψ : α → γ}
    (hs : ∀ a ∈ as, Still (f a)) (h : ∀ a ∈ as, Yields w (f a) fun b => φ b = ψ a) :
    Yields w (as.mapM f) fun bs => bs.map φ = as.map ψ := by
  induction as with
  | nil => exact pure rfl
  | cons a as ih =>
    have hsrest : Still (as.mapM f) := Still.mapM fun a ha => hs a (List.mem_cons_of_mem _ ha)
    have hrest : Yields w (as.mapM f) fun bs => bs.map φ = as.map ψ :=
      ih (fun a ha => hs a (List.mem_cons_of_mem _ ha)) fun a ha => h a (List.mem_cons_of_mem _ ha)
    rw [List.mapM_cons]
    refine bind (hs a (by simp)) (h a (by simp)) fun b hb => bind hsrest hrest fun bs hbs => ?_
    exact pure (by rw [List.map_cons, List.map_cons, hb, hbs])

end Yields

/-! ## Work that foretells other work -/

/-- When `y` ends on the files of `w'` with a good result, then `x` ends well on
those of `w`, and the results are related. -/
def Foretells (w w' : World) (good : β → Prop) (Q : α → β → Prop) (x : Work α) (y : Work β) :
    Prop :=
  ∀ v v' : World, w.SameFiles v → w'.SameFiles v' →
    ∀ b, (y.run v').1 = .ok b → good b → ∃ a, (x.run v).1 = .ok a ∧ Q a b

namespace Foretells

variable {γ : Type} {w w' : World} {good : β → Prop} {Q : α → β → Prop}

theorem pure {a : α} {y : Work β} (h : ∀ v b, (y.run v).1 = .ok b → good b → Q a b) :
    Foretells w w' good Q (pure a) y :=
  fun _ v' _ _ b hb hgood => ⟨a, rfl, h v' b hb hgood⟩

/-- Both begin alike, and go on from there. -/
theorem bind {x y : Work γ} {f : γ → Work α} {g : γ → Work β} (hxy : Agrees w w' x y)
    (hfg : ∀ c, Foretells w w' good Q (f c) (g c)) :
    Foretells w w' good Q (x >>= f) (y >>= g) := by
  intro v v' hv hv' b hb hgood
  obtain ⟨hresult, hafter, hafter'⟩ := hxy v v' hv hv'
  rw [run_bind] at hb ⊢
  cases hx : x.run v with
  | mk r u =>
    cases hy : y.run v' with
    | mk r' u' =>
      rw [hx] at hresult hafter
      rw [hy] at hresult hafter' hb
      obtain rfl : r = r' := hresult
      cases r with
      | ok c => exact hfg c u u' hafter hafter' b hb hgood
      | error e => exact nomatch hb

theorem get_bind {f : World → Work α} {g : World → Work β}
    (h : ∀ v v' : World, w.SameFiles v → w'.SameFiles v' →
      Foretells w w' good Q (f v) (g v')) :
    Foretells w w' good Q ((get : Work World) >>= f) ((get : Work World) >>= g) :=
  fun v v' hv hv' => h v v' hv hv' v v' hv hv'

end Foretells

end Work

/-! ## Work that keeps to some places -/

/-- The world is sound, and paths with this root begin in a folder. -/
structure World.Stands (here : Path) (root : Nat) (w : World) : Prop where
  sound : w.Sound
  here_eq : w.here = here
  start : w.tree.get? (Path.start here root) = some .folder

/-- Outside of some places nothing has changed, but where nothing was there may be a folder
or a lock. -/
structure World.Moved (R : Place → Prop) (w v : World) : Prop where
  home : v.home = w.home
  here : v.here = w.here
  repository : v.repository = w.repository
  held : v.held = w.held
  outside : ∀ q, ¬ R q → v.tree.get? q = w.tree.get? q ∨
    (w.tree.get? q = none ∧ v.tree.bytes? q = none)

namespace World

variable {R R' : Place → Prop} {u v w : World}

theorem SameFiles.moved (h : w.SameFiles v) : w.Moved R v :=
  ⟨h.home, h.here, h.repository, h.held, fun _ _ => Or.inl (by rw [h.tree])⟩

theorem SameFiles.stands (h : w.SameFiles v) {here : Path} {root : Nat} (hw : w.Stands here root) :
    v.Stands here root :=
  ⟨h.sound hw.sound, h.here.trans hw.here_eq, by rw [h.tree, hw.start]⟩

namespace Moved

theorem trans (h : u.Moved R v) (h' : v.Moved R w) : u.Moved R w := by
  refine ⟨h'.home.trans h.home, h'.here.trans h.here, h'.repository.trans h.repository,
    h'.held.trans h.held, fun q hq => ?_⟩
  rcases h.outside q hq with heq | ⟨hnone, hbare⟩
  · rw [← heq]
    exact h'.outside q hq
  · refine Or.inr ⟨hnone, ?_⟩
    rcases h'.outside q hq with heq | ⟨-, hbare'⟩
    · rw [Tree.bytes?, heq]
      exact hbare
    · exact hbare'

theorem mono (h : w.Moved R v) (hR : ∀ q, R q → R' q) : w.Moved R' v :=
  ⟨h.home, h.here, h.repository, h.held, fun q hq => h.outside q fun hr => hq (hR q hr)⟩

/-- No file outside of the places has changed. -/
theorem bytes? (h : w.Moved R v) {q : Place} (hq : ¬ R q) : v.tree.bytes? q = w.tree.bytes? q := by
  rcases h.outside q hq with heq | ⟨hnone, hbare⟩
  · unfold Tree.bytes?
    rw [heq]
  · rw [hbare, Tree.bytes?_eq_none_of_get? (Or.inl hnone)]

/-- A folder outside of the places is still there. -/
theorem folder (h : w.Moved R v) {q : Place} (hq : ¬ R q) (hf : w.tree.get? q = some .folder) :
    v.tree.get? q = some .folder := by
  rcases h.outside q hq with heq | ⟨hnone, -⟩
  · rw [heq, hf]
  · rw [hf] at hnone
    exact nomatch hnone

end Moved

/-- Besides, every folder is still there. -/
structure Grown (R : Place → Prop) (w v : World) : Prop extends w.Moved R v where
  folders : ∀ q, w.tree.get? q = some .folder → v.tree.get? q = some .folder

theorem SameFiles.grown (h : w.SameFiles v) : w.Grown R v :=
  ⟨h.moved, fun q hq => by rw [h.tree, hq]⟩

namespace Grown

theorem trans (h : u.Grown R v) (h' : v.Grown R w) : u.Grown R w :=
  ⟨h.toMoved.trans h'.toMoved, fun q hq => h'.folders q (h.folders q hq)⟩

theorem mono (h : w.Grown R v) (hR : ∀ q, R q → R' q) : w.Grown R' v :=
  ⟨h.toMoved.mono hR, h.folders⟩

/-- A way that was open is open. -/
theorem locate (h : w.Grown R v) {p : Path} {q : Place} (hl : w.locate p = .ok q) :
    v.locate p = .ok q := by
  rw [locate_eq] at hl ⊢
  rw [h.here]
  exact Files.walk_mono h.folders hl

/-- A folder that was found is found. -/
theorem stat (h : w.Grown R v) {p : Path} {q : Place} (hs : w.stat p = .ok (q, .folder)) :
    v.stat p = .ok (q, .folder) := by
  obtain ⟨hl, hget⟩ := stat_iff_locate.mp hs
  exact stat_iff_locate.mpr ⟨h.locate hl, h.folders q hget⟩

end Grown

end World

namespace Work

variable {α β : Type}

/-- What each of two pieces of work keeps, both keep together, also when one of them
fails. -/
theorem keeps_bind {I : World → Prop} {T : World → World → Prop}
    (htrans : ∀ u v w, T u v → T v w → T u w) {x : Work α} {f : α → Work β}
    (hx : ∀ w, I w → I (x.run w).2 ∧ T w (x.run w).2)
    (hf : ∀ a w, I w → I ((f a).run w).2 ∧ T w ((f a).run w).2) (w : World) (hw : I w) :
    I ((x >>= f).run w).2 ∧ T w ((x >>= f).run w).2 := by
  obtain ⟨hI, hT⟩ := hx w hw
  rw [run_bind]
  cases h : x.run w with
  | mk r v =>
    rw [h] at hI hT
    cases r with
    | ok a =>
      obtain ⟨hI', hT'⟩ := hf a v hI
      exact ⟨hI', htrans _ _ _ hT hT'⟩
    | error e => exact ⟨hI, hT⟩

/-- The work keeps a property of the world, also when it fails. -/
def Keeps (I : World → Prop) (x : Work α) : Prop := ∀ w, I w → I (x.run w).2

namespace Keeps

variable {I : World → Prop}

theorem of_still (hI : ∀ w v, w.SameFiles v → I w → I v) {x : Work α} (h : Still x) : Keeps I x :=
  fun w hw => hI _ _ (h w) hw

theorem bind {x : Work α} {f : α → Work β} (hx : Keeps I x) (hf : ∀ a, Keeps I (f a)) :
    Keeps I (x >>= f) := fun w hw =>
  (keeps_bind (T := fun _ _ => True) (fun _ _ _ _ _ => trivial) (fun w hw => ⟨hx w hw, trivial⟩)
    (fun a w hw => ⟨hf a w hw, trivial⟩) w hw).1

theorem get_bind {f : World → Work β} (hf : ∀ w, I w → Keeps I (f w)) :
    Keeps I ((get : Work World) >>= f) := fun w hw => hf w hw w hw

theorem attempt {x : Work α} (h : Keeps I x) : Keeps I x.attempt := h

end Keeps

/-- The work keeps the world sound and keeps to some places. -/
def Confined (here : Path) (root : Nat) (R : Place → Prop) (x : Work α) : Prop :=
  ∀ w : World, w.Stands here root → (x.run w).2.Stands here root ∧ w.Moved R (x.run w).2

namespace Confined

variable {here : Path} {root : Nat} {R R' : Place → Prop}

theorem of_still {x : Work α} (h : Still x) : Confined here root R x :=
  fun w hw => ⟨(h w).stands hw, (h w).moved⟩

theorem mono {x : Work α} (h : Confined here root R x) (hR : ∀ q, R q → R' q) :
    Confined here root R' x :=
  fun w hw => ⟨(h w hw).1, (h w hw).2.mono hR⟩

theorem bind {x : Work α} {f : α → Work β} (hx : Confined here root R x)
    (hf : ∀ a, Confined here root R (f a)) : Confined here root R (x >>= f) :=
  keeps_bind (I := World.Stands here root) (T := World.Moved R)
    (fun _ _ _ => World.Moved.trans) hx hf

/-- Bind with a fact about what is read. -/
theorem bind_yields {x : Work α} {f : α → Work β} {P : α → Prop} (hs : Still x)
    (hx : ∀ w, w.Stands here root → Yields w x P) (hf : ∀ a, P a → Confined here root R (f a)) :
    Confined here root R (x >>= f) := by
  intro w hw
  have hafter := hs w
  rw [run_bind]
  cases h : x.run w with
  | mk r v =>
    rw [h] at hafter
    cases r with
    | ok a =>
      have hP : P a := hx w hw w (World.SameFiles.refl w) a (by rw [h])
      obtain ⟨hstands, hmoved⟩ := hf a hP v (hafter.stands hw)
      exact ⟨hstands, hafter.moved.trans hmoved⟩
    | error e => exact ⟨hafter.stands hw, hafter.moved⟩

theorem get_bind {f : World → Work β}
    (hf : ∀ w, w.Stands here root → Confined here root R (f w)) :
    Confined here root R ((get : Work World) >>= f) := fun w hw => hf w hw w hw

theorem attempt {x : Work α} (h : Confined here root R x) : Confined here root R x.attempt := h

theorem filterMapM {f : α → Work (Option β)} {as : List α}
    (h : ∀ a ∈ as, Confined here root R (f a)) : Confined here root R (as.filterMapM f) := by
  induction as with
  | nil => exact of_still (Still.pure [])
  | cons a as ih =>
    have hrest : Confined here root R (as.filterMapM f) :=
      ih fun b hb => h b (List.mem_cons_of_mem _ hb)
    rw [List.filterMapM_cons]
    refine bind (h a (by simp)) fun found => ?_
    cases found with
    | none => exact hrest
    | some b => exact bind hrest fun bs => of_still (Still.pure (b :: bs))

end Confined

/-- The work keeps to some places, and removes no folder. -/
def Grows (here : Path) (root : Nat) (R : Place → Prop) (x : Work α) : Prop :=
  ∀ w : World, w.Stands here root → (x.run w).2.Stands here root ∧ w.Grown R (x.run w).2

namespace Grows

variable {here : Path} {root : Nat} {R R' : Place → Prop}

theorem confined {x : Work α} (h : Grows here root R x) : Confined here root R x :=
  fun w hw => ⟨(h w hw).1, (h w hw).2.toMoved⟩

theorem of_still {x : Work α} (h : Still x) : Grows here root R x :=
  fun w hw => ⟨(h w).stands hw, (h w).grown⟩

theorem mono {x : Work α} (h : Grows here root R x) (hR : ∀ q, R q → R' q) :
    Grows here root R' x :=
  fun w hw => ⟨(h w hw).1, (h w hw).2.mono hR⟩

theorem bind {x : Work α} {f : α → Work β} (hx : Grows here root R x)
    (hf : ∀ a, Grows here root R (f a)) : Grows here root R (x >>= f) :=
  keeps_bind (I := World.Stands here root) (T := World.Grown R)
    (fun _ _ _ => World.Grown.trans) hx hf

theorem get_bind {f : World → Work β} (hf : ∀ w, w.Stands here root → Grows here root R (f w)) :
    Grows here root R ((get : Work World) >>= f) := fun w hw => hf w hw w hw

end Grows

/-- The work removes no file. -/
def Adds (x : Work α) : Prop :=
  ∀ w q, (w.tree.bytes? q).isSome = true → ((x.run w).2.tree.bytes? q).isSome = true

namespace Adds

theorem of_still {x : Work α} (h : Still x) : Adds x := fun w q hq => by rw [(h w).tree, hq]

theorem bind {x : Work α} {f : α → Work β} (hx : Adds x) (hf : ∀ a, Adds (f a)) :
    Adds (x >>= f) := fun w =>
  (keeps_bind (I := fun _ => True)
    (T := fun w v => ∀ q, (w.tree.bytes? q).isSome = true → (v.tree.bytes? q).isSome = true)
    (fun _ _ _ h h' q hq => h' q (h q hq)) (fun w _ => ⟨trivial, hx w⟩)
    (fun a w _ => ⟨trivial, hf a w⟩) w trivial).2

theorem get_bind {f : World → Work β} (hf : ∀ w, Adds (f w)) :
    Adds ((get : Work World) >>= f) := fun w => hf w w

end Adds

/-- The work keeps to some places, for the files of one world. -/
def ConfinedAt (w : World) (here : Path) (root : Nat) (R : Place → Prop) (x : Work α) : Prop :=
  ∀ v : World, w.SameFiles v → v.Stands here root →
    (x.run v).2.Stands here root ∧ v.Moved R (x.run v).2

namespace ConfinedAt

variable {here : Path} {root : Nat} {R : Place → Prop} {w : World}

theorem of_confined {x : Work α} (h : Confined here root R x) : ConfinedAt w here root R x :=
  fun v _ hv => h v hv

theorem get_bind {f : World → Work β}
    (hf : ∀ v, w.SameFiles v → ConfinedAt w here root R (f v)) :
    ConfinedAt w here root R ((get : Work World) >>= f) := fun v hv hstands => hf v hv v hv hstands

end ConfinedAt

end Work

namespace Disk

open Work

variable {here : Path} {root : Nat} {p : Path} {α : Type}

/-! ## Reading -/

theorem still_refuse (p : Path) (r : Files.Refusal) : Still (refuse p r : Work α) :=
  Still.throw _

theorem still_bytes (p : Path) : Still (bytes p) := by
  refine Still.get_bind fun w => ?_
  split
  · exact Still.pure _
  · exact still_refuse p _
  · exact still_refuse p _
  · exact still_refuse p _

theorem still_text (p : Path) : Still (text p) := by
  refine Still.bind (still_bytes p) fun b => ?_
  split
  · exact Still.pure _
  · exact Still.throw _

theorem run_bytes {w : World} (h : w.Sound) (hp : p.Clean) {b : ByteArray}
    (hb : w.tree.bytes? (Path.spot w.here p) = some b) : (bytes p).run w = (.ok b, w) := by
  have hstat := (World.stat_eq_ok_iff h hp).mpr ⟨rfl, Tree.bytes?_eq_some_iff.mp hb⟩
  rw [bytes, run_get_bind, hstat]
  rfl

/-- The text of a file that holds some bytes, every line end read as a line feed. -/
def decoded (b : ByteArray) : Except Failure String :=
  match Text.decode? b with
  | some s => .ok (String.ofList (Text.unifyNewlines s.toList))
  | none => .error .undecodable

/-- A text that has been read is what the bytes at the place of the path stand for. -/
theorem stat_of_run_text {w v : World} {t : String} (h : (text p).run w = (.ok t, v)) :
    ∃ b, w.stat p = .ok (Path.place w.here p, .file b) ∧ decoded b = .ok t := by
  obtain ⟨b, u, hbytes, h⟩ := ok_of_run_bind h
  rw [bytes, run_get_bind] at hbytes
  split at hbytes
  · rename_i q b' hs
    obtain ⟨hb, -⟩ := Prod.mk.inj hbytes
    obtain rfl := Except.ok.inj hb
    refine ⟨b', World.place_of_stat hs ▸ hs, ?_⟩
    cases hdecode : Text.decode? b' with
    | some s =>
      rw [hdecode] at h
      rw [decoded, hdecode]
      exact congrArg Except.ok (Except.ok.inj (Prod.mk.inj h).1)
    | none =>
      rw [hdecode] at h
      exact nomatch h
  · exact nomatch hbytes
  · exact nomatch hbytes
  · exact nomatch hbytes

/-- What is read of a file that is found. -/
theorem result_text {w : World} {q : Place} {b : ByteArray} (h : w.stat p = .ok (q, .file b)) :
    ((text p).run w).1 = decoded b := by
  have hbytes : (bytes p).run w = (.ok b, w) := by
    rw [bytes, run_get_bind, h]
    rfl
  rw [text, run_bind, hbytes, decoded]
  dsimp only
  cases Text.decode? b <;> rfl

/-- A file is read alike wherever it holds the same bytes. -/
theorem agrees_text {w w' : World} (h : w.Sound) (h' : w'.Sound) (hp : p.Clean) {b : ByteArray}
    (hb : w.tree.bytes? (Path.spot w.here p) = some b)
    (hb' : w'.tree.bytes? (Path.spot w'.here p) = some b) : Agrees w w' (text p) (text p) := by
  refine Agrees.of_still (still_text p) (still_text p) fun v v' hv hv' => ?_
  rw [← hv.tree, ← hv.here] at hb
  rw [← hv'.tree, ← hv'.here] at hb'
  rw [text, run_bind, run_bind, run_bytes (hv.sound h) hp hb, run_bytes (hv'.sound h') hp hb']
  simp only
  split <;> rfl

/-! ## Writing -/

theorem run_put (q : Place) (e : Entry) (w : World) :
    (put q e).run w = (.ok (), { w with tree := w.tree.put q e }) := rfl

/-- Putting a file or a folder in a folder, where no folder is. -/
theorem put_stands {w : World} (hw : w.Stands here root) {q : Place} (hq : q ≠ [])
    (hn : ∀ n ∈ q, ValidName n) (hup : w.tree.get? q.dropLast = some .folder)
    (hthere : w.tree.get? q ≠ some .folder) (e : Entry) :
    World.Stands here root { w with tree := w.tree.put q e } := by
  refine ⟨⟨hw.sound.tree.put hq hn hup hthere e, hw.sound.here⟩, hw.here_eq, ?_⟩
  rw [Tree.get?_put hq, if_neg, hw.start]
  rintro rfl
  exact hthere hw.start

/-- A path that is found, with no folder at its place, lies in a folder. -/
theorem parent_of_locate {w : World} (hw : w.Stands here root) (hp : p.Tidy)
    (hroot : p.root = root) {q : Place} (hl : w.locate p = .ok q)
    (hthere : w.tree.get? q ≠ some .folder) :
    q = Path.place here p ∧ q ≠ [] ∧ (∀ n ∈ q, ValidName n) ∧
      w.tree.get? q.dropLast = some .folder := by
  have hplace := World.place_of_locate hl
  have hvalid : ∀ n ∈ q, ValidName n := hplace ▸ Path.valid_place hw.sound.here hp
  rw [hw.here_eq] at hplace
  rw [World.locate_eq, hw.here_eq, hroot] at hl
  have hparts : p.parts ≠ [] := by
    intro hnil
    rw [hnil] at hl
    obtain rfl := Except.ok.inj hl
    exact hthere hw.start
  obtain ⟨init, last, heq⟩ := (List.eq_nil_or_concat p.parts).resolve_left hparts
  rw [heq, List.concat_eq_append] at hl
  obtain ⟨up, -, hfolder, rfl⟩ := Files.last_step_of_walk hl
  unfold Path.step at hthere hplace hvalid ⊢
  split at hthere
  · -- Two points lead from a folder to the folder above it.
    refine absurd ?_ hthere
    by_cases hnil : up = []
    · rw [hnil]
      rfl
    · exact hw.sound.tree.parent hnil hfolder
  · rename_i hup
    rw [if_neg hup] at hplace hvalid ⊢
    exact ⟨hplace, List.append_ne_nil_of_right_ne_nil _ (by simp), hvalid, by simpa using hfolder⟩

/-- Putting something at the place of a path, where no folder is. -/
theorem put_grown {w : World} (hw : w.Stands here root) (hp : p.Tidy) (hroot : p.root = root)
    {q : Place} (hl : w.locate p = .ok q) (hthere : w.tree.get? q ≠ some .folder) {e : Entry}
    {R : Place → Prop} (hR : R q ∨ (w.tree.get? q = none ∧ ∀ b, e ≠ .file b)) :
    World.Stands here root { w with tree := w.tree.put q e } ∧
      w.Grown R { w with tree := w.tree.put q e } := by
  obtain ⟨-, hq, hn, hup⟩ := parent_of_locate hw hp hroot hl hthere
  have hget : ∀ q', (w.tree.put q e).get? q' = if q' = q then some e else w.tree.get? q' :=
    fun q' => Tree.get?_put hq e
  refine ⟨put_stands hw hq hn hup hthere e, ⟨rfl, rfl, rfl, rfl, fun q' hq' => ?_⟩, fun q' hf => ?_⟩
  · change (w.tree.put q e).get? q' = _ ∨ _ ∧ (w.tree.put q e).bytes? q' = _
    rw [Tree.bytes?, hget]
    by_cases heq : q' = q
    · subst heq
      obtain ⟨hnone, hbare⟩ := hR.resolve_left hq'
      refine Or.inr ⟨hnone, ?_⟩
      rw [if_pos rfl]
      cases e with
      | file b => exact absurd rfl (hbare b)
      | folder | lock => rfl
    · exact Or.inl (if_neg heq)
  · change (w.tree.put q e).get? q' = _
    rw [hget, if_neg, hf]
    rintro rfl
    exact hthere hf

/-- What has been put at the place of a path is found there. -/
theorem stat_put {w : World} {q : Place} (hl : w.locate p = .ok q)
    (hthere : w.tree.get? q ≠ some .folder) {e : Entry} :
    World.stat { w with tree := w.tree.put q e } p = .ok (q, e) := by
  have hq : q ≠ [] := by
    rintro rfl
    exact hthere rfl
  refine World.stat_iff_locate.mpr ⟨?_, Tree.get?_put_same w.tree q e hq⟩
  rw [World.locate_eq] at hl ⊢
  refine Files.walk_mono (fun q' hf => ?_) hl
  rw [Tree.get?_put hq, if_neg, hf]
  rintro rfl
  exact hthere hf

/-- Putting something where nothing was, or a file where a file was. -/
theorem adds_put {w : World} {q : Place} (hthere : w.tree.get? q ≠ some .folder) {e : Entry}
    (he : w.tree.get? q = none ∨ ∃ b, e = .file b) {q' : Place}
    (hb : (w.tree.bytes? q').isSome = true) : ((w.tree.put q e).bytes? q').isSome = true := by
  have hq : q ≠ [] := by
    rintro rfl
    exact hthere rfl
  by_cases heq : q' = q
  · subst heq
    rcases he with hnone | ⟨b, rfl⟩
    · rw [Tree.bytes?_eq_none_of_get? (Or.inl hnone)] at hb
      exact nomatch hb
    · rw [Tree.bytes?, Tree.get?_put_same w.tree q' _ hq]
      rfl
  · rw [Tree.bytes?, Tree.get?_put hq, if_neg heq]
    exact hb

theorem adds_tryFolder (p : Path) : Adds (tryFolder p) := by
  intro w q' hb
  rw [tryFolder, run_get_bind]
  cases hl : w.locate p with
  | error r => exact hb
  | ok q =>
    cases hget : w.tree.get? q with
    | some e =>
      simp only [hget]
      exact hb
    | none =>
      simp only [hget]
      rw [run_bind, run_put]
      exact adds_put (by rw [hget]; exact nofun) (Or.inl hget) hb

theorem tryFolder_grows (hp : p.Tidy) (hroot : p.root = root) :
    Grows here root (fun _ => False) (tryFolder p) := by
  intro w hw
  rw [tryFolder, run_get_bind]
  cases hl : w.locate p with
  | error r => exact ⟨hw, (World.SameFiles.refl w).grown⟩
  | ok q =>
    cases hget : w.tree.get? q with
    | some e =>
      simp only [hget]
      exact ⟨hw, (World.SameFiles.refl w).grown⟩
    | none =>
      have hthere : w.tree.get? q ≠ some .folder := by
        rw [hget]
        exact nofun
      simp only [hget]
      rw [run_bind, run_put]
      exact put_grown hw hp hroot hl hthere (Or.inr ⟨hget, nofun⟩)

theorem still_unlessFolder (p : Path) (r : Files.Refusal) : Still (unlessFolder p r) := by
  refine Still.get_bind fun w => ?_
  split
  · exact Still.pure _
  · exact still_refuse p r

theorem foldersFrom_grows (hp : p.Tidy) (hroot : p.root = root) (fuel : Nat) :
    Grows here root (fun _ => False) (foldersFrom fuel p) := by
  induction fuel generalizing p with
  | zero => exact Grows.of_still (still_refuse p _)
  | succ fuel ih =>
    have hlast : ∀ r, Grows here root (fun _ => False) (unlessFolder p r) :=
      fun r => Grows.of_still (still_unlessFolder p r)
    have htry : Grows here root (fun _ => False) (tryFolder p) := tryFolder_grows hp hroot
    rw [foldersFrom]
    refine Grows.bind htry fun found => ?_
    split
    · exact Grows.of_still (Still.pure _)
    · split
      · exact Grows.of_still (still_refuse p _)
      · refine Grows.bind (ih hp.parent hroot) fun _ => Grows.bind htry fun found => ?_
        split
        · exact Grows.of_still (Still.pure _)
        · exact hlast _
    · exact hlast _

/-- Making folders changes no file. -/
theorem folders_grows (hp : p.Tidy) (hroot : p.root = root) :
    Grows here root (fun _ => False) (folders p) := foldersFrom_grows hp hroot _

/-- Making the file of a lock changes no file. -/
theorem makeLock_grows (hp : p.Tidy) (hroot : p.root = root) :
    Grows here root (fun _ => False) (makeLock p) := by
  intro w hw
  rw [makeLock, run_get_bind]
  cases hl : w.locate p with
  | error r => exact ⟨hw, (World.SameFiles.refl w).grown⟩
  | ok q =>
    dsimp only
    split
    · exact ⟨hw, (World.SameFiles.refl w).grown⟩
    · exact ⟨hw, (World.SameFiles.refl w).grown⟩
    · rename_i hget
      have hthere : w.tree.get? q ≠ some .folder := by
        rw [hget]
        exact nofun
      rw [run_put]
      exact put_grown hw hp hroot hl hthere (Or.inr ⟨hget, nofun⟩)

/-- Where a folder has been made, it is found. -/
theorem stat_of_tryFolder {w v : World} (h : (tryFolder p).run w = (.ok none, v)) :
    ∃ q, v.stat p = .ok (q, .folder) := by
  rw [tryFolder, run_get_bind] at h
  cases hl : w.locate p with
  | error r =>
    rw [hl] at h
    exact nomatch h
  | ok q =>
    rw [hl] at h
    cases hget : w.tree.get? q with
    | some e =>
      simp only [hget] at h
      exact nomatch h
    | none =>
      simp only [hget] at h
      rw [run_bind, run_put] at h
      obtain ⟨-, rfl⟩ := Prod.mk.inj h
      exact ⟨q, stat_put hl (by rw [hget]; exact nofun)⟩

theorem stat_of_unlessFolder {r : Files.Refusal} {w v : World}
    (h : (unlessFolder p r).run w = (.ok (), v)) : ∃ q, v.stat p = .ok (q, .folder) := by
  rw [unlessFolder, run_get_bind] at h
  split at h
  · rename_i hfolder
    obtain ⟨-, rfl⟩ := Prod.mk.inj h
    exact World.isFolder_iff_stat.mp hfolder
  · exact nomatch h

theorem stat_of_foldersFrom {fuel : Nat} {w v : World}
    (h : (foldersFrom fuel p).run w = (.ok (), v)) : ∃ q, v.stat p = .ok (q, .folder) := by
  cases fuel with
  | zero => exact nomatch h
  | succ fuel =>
    rw [foldersFrom] at h
    obtain ⟨found, u, htry, h⟩ := ok_of_run_bind h
    split at h
    · obtain ⟨-, rfl⟩ := Prod.mk.inj h
      exact stat_of_tryFolder htry
    · split at h
      · exact nomatch h
      · obtain ⟨-, u', -, h⟩ := ok_of_run_bind h
        obtain ⟨found', u'', htry', h⟩ := ok_of_run_bind h
        split at h
        · obtain ⟨-, rfl⟩ := Prod.mk.inj h
          exact stat_of_tryFolder htry'
        · exact stat_of_unlessFolder h
    · exact stat_of_unlessFolder h

/-- Where folders have been made, the last of them is found. -/
theorem stat_of_folders {w v : World} (h : (folders p).run w = (.ok (), v)) :
    ∃ q, v.stat p = .ok (q, .folder) := stat_of_foldersFrom h

/-- A file that has been written is found. -/
theorem stat_of_writeBytes {b : ByteArray} {w v : World}
    (h : (writeBytes p b).run w = (.ok (), v)) :
    v.stat p = .ok (Path.place w.here p, .file b) := by
  rw [writeBytes, run_get_bind] at h
  cases hl : w.locate p with
  | error r =>
    rw [hl] at h
    exact nomatch h
  | ok q =>
    rw [hl] at h
    by_cases hthere : w.tree.get? q = some .folder
    · simp only [hthere] at h
      exact nomatch h
    · simp only at h
      rw [run_put] at h
      obtain ⟨-, rfl⟩ := Prod.mk.inj h
      rw [← World.place_of_locate hl]
      exact stat_put hl hthere

/-- A file is written at one place. -/
theorem writeBytes_grows (hp : p.Tidy) (hroot : p.root = root) (b : ByteArray) :
    Grows here root (· = Path.place here p) (writeBytes p b) := by
  intro w hw
  rw [writeBytes, run_get_bind]
  cases hl : w.locate p with
  | error r => exact ⟨hw, (World.SameFiles.refl w).grown⟩
  | ok q =>
    by_cases hthere : w.tree.get? q = some .folder
    · simp only [hthere]
      exact ⟨hw, (World.SameFiles.refl w).grown⟩
    · have hplace := World.place_of_locate hl
      rw [hw.here_eq] at hplace
      simp only
      rw [run_put]
      exact put_grown hw hp hroot hl hthere (Or.inl hplace)

theorem adds_foldersFrom (fuel : Nat) (p : Path) : Adds (foldersFrom fuel p) := by
  induction fuel generalizing p with
  | zero => exact Adds.of_still (still_refuse p _)
  | succ fuel ih =>
    have hlast : ∀ r, Adds (unlessFolder p r) := fun r => Adds.of_still (still_unlessFolder p r)
    rw [foldersFrom]
    refine Adds.bind (adds_tryFolder p) fun found => ?_
    split
    · exact Adds.of_still (Still.pure _)
    · split
      · exact Adds.of_still (still_refuse p _)
      · refine Adds.bind (ih p.parent) fun _ => Adds.bind (adds_tryFolder p) fun found => ?_
        split
        · exact Adds.of_still (Still.pure _)
        · exact hlast _
    · exact hlast _

theorem adds_writeBytes (p : Path) (b : ByteArray) : Adds (writeBytes p b) := by
  intro w q' hb
  rw [writeBytes, run_get_bind]
  cases hl : w.locate p with
  | error r => exact hb
  | ok q =>
    by_cases hthere : w.tree.get? q = some .folder
    · simp only [hthere]
      exact hb
    · simp only
      rw [run_put]
      exact adds_put hthere (Or.inr ⟨b, rfl⟩) hb

theorem write_grows (hp : p.Tidy) (hroot : p.root = root) (s : String) :
    Grows here root (· = Path.place here p) (write p s) := writeBytes_grows hp hroot _

theorem writeWhole_grows (hp : p.Tidy) (hroot : p.root = root) (text : Option String) :
    Grows here root (· = Path.place here p) (writeWhole p text) := by
  cases text with
  | some s => exact write_grows hp hroot s
  | none => exact Grows.bind (write_grows hp hroot "") fun _ => Grows.of_still (Still.throw _)

/-- Only a text that has bytes can have been written. -/
theorem of_run_writeWhole {text : Option String} {w v : World}
    (h : (writeWhole p text).run w = (.ok (), v)) :
    ∃ s, text = some s ∧ (write p s).run w = (.ok (), v) := by
  cases text with
  | some s => exact ⟨s, rfl, h⟩
  | none =>
    obtain ⟨_, u, -, h⟩ := ok_of_run_bind h
    exact nomatch h

theorem adds_writeWhole (p : Path) (text : Option String) : Adds (writeWhole p text) := by
  cases text with
  | some s => exact adds_writeBytes p _
  | none => exact Adds.bind (adds_writeBytes p _) fun _ => Adds.of_still (Still.throw _)

theorem writeBytes_confined (hp : p.Clean) (hroot : p.root = root) (b : ByteArray) :
    Confined here root (· = Path.spot here p) (writeBytes p b) :=
  Path.place_eq_spot hp ▸ (writeBytes_grows hp.tidy hroot b).confined

theorem write_confined (hp : p.Clean) (hroot : p.root = root) (s : String) :
    Confined here root (· = Path.spot here p) (write p s) := writeBytes_confined hp hroot _

/-! ## Removing -/

theorem remove_stands {w : World} (hw : w.Stands here root) {q : Place}
    (hq : ¬ q <+: Path.start here root) :
    World.Stands here root { w with tree := w.tree.remove q } := by
  have hne : q ≠ [] := by
    rintro rfl
    exact hq List.nil_prefix
  refine ⟨⟨hw.sound.tree.remove hne, hw.sound.here⟩, hw.here_eq, ?_⟩
  rw [Tree.get?_remove hne, if_neg hq, hw.start]

/-- A file is removed at one place. -/
theorem removeFile_grows (p : Path) :
    Grows here root (· = Path.place here p) (removeFile p) := by
  intro w hw
  rw [removeFile, run_get_bind]
  cases hs : w.stat p with
  | error r => exact ⟨hw, (World.SameFiles.refl w).grown⟩
  | ok found =>
    obtain ⟨q, e⟩ := found
    cases e with
    | folder | lock => exact ⟨hw, (World.SameFiles.refl w).grown⟩
    | file b =>
      have hplace := World.place_of_stat hs
      rw [hw.here_eq] at hplace
      have hget := (World.stat_iff_locate.mp hs).2
      -- Removing takes all that lies below, but below a file there is nothing.
      have hbelow : ∀ q', q <+: q' → q ≠ q' → w.tree.get? q' = none :=
        fun q' hpre hne => hw.sound.tree.nothing_below_file hget hpre hne
      have hnot : ∀ q', w.tree.get? q' = some .folder → ¬ q <+: q' := by
        intro q' hfolder hpre
        by_cases heq : q = q'
        · rw [heq, hfolder] at hget
          exact nomatch hget
        · rw [hbelow q' hpre heq] at hfolder
          exact nomatch hfolder
      have hstart := hnot _ hw.start
      have hne : q ≠ [] := by
        rintro rfl
        exact hstart List.nil_prefix
      refine ⟨remove_stands hw hstart, ⟨rfl, rfl, rfl, rfl, fun q' hq' => Or.inl ?_⟩,
        fun q' hf => ?_⟩
      · change (w.tree.remove q).get? q' = _
        rw [Tree.get?_remove hne]
        split
        · rename_i hpre
          refine (hbelow q' hpre ?_).symm
          rintro rfl
          exact hq' hplace
        · rfl
      · change (w.tree.remove q).get? q' = _
        rw [Tree.get?_remove hne, if_neg (hnot q' hf), hf]

/-- A file that has been removed was there and is there no more. -/
theorem bytes_of_removeFile {w v : World} (h : (removeFile p).run w = (.ok (), v)) :
    v.tree.bytes? (Path.place w.here p) = none := by
  rw [removeFile, run_get_bind] at h
  cases hs : w.stat p with
  | error r =>
    rw [hs] at h
    exact nomatch h
  | ok found =>
    obtain ⟨q, e⟩ := found
    rw [hs] at h
    cases e with
    | folder | lock => exact nomatch h
    | file b =>
      obtain ⟨-, rfl⟩ := Prod.mk.inj h
      rw [← World.place_of_stat hs]
      by_cases hq : q = []
      · rw [hq]
        rfl
      · refine Tree.bytes?_eq_none_of_get? (Or.inl ?_)
        change (w.tree.remove q).get? q = none
        rw [Tree.get?_remove hq, if_pos (List.prefix_refl q)]

theorem removeFile_confined (hp : p.Clean) :
    Confined here root (· = Path.spot here p) (removeFile p) :=
  Path.place_eq_spot hp ▸ (removeFile_grows p).confined

/-- A folder is removed with all that is in it. -/
theorem removeFolder_confined (hp : p.Clean) (hroot : p.root = root) (hparts : p.parts ≠ []) :
    Confined here root (Path.spot here p <+: ·) (removeFolder p) := by
  intro w hw
  rw [removeFolder, run_get_bind]
  cases hs : w.stat p with
  | error r => exact ⟨hw, (World.SameFiles.refl w).moved⟩
  | ok found =>
    obtain ⟨q, e⟩ := found
    cases e with
    | file | lock => exact ⟨hw, (World.SameFiles.refl w).moved⟩
    | folder =>
      obtain ⟨hspot, hget⟩ := (World.stat_eq_ok_iff hw.sound hp).mp hs
      rw [hw.here_eq] at hspot
      have hstart : ¬ q <+: Path.start here root := by
        intro hpre
        -- The path has parts behind its root, so it is longer than the start.
        have hlen := hpre.length_le
        rw [hspot, Path.spot, hroot, List.length_append] at hlen
        have := List.length_pos_iff.mpr hparts
        omega
      have hne : q ≠ [] := by
        rintro rfl
        exact hstart List.nil_prefix
      refine ⟨remove_stands hw hstart, rfl, rfl, rfl, rfl, fun q' hq' => Or.inl ?_⟩
      change (w.tree.remove q).get? q' = _
      rw [Tree.get?_remove hne, if_neg]
      rwa [hspot]

/-- A copy is written at one place. -/
theorem copy_confined (source : Path) (hp : p.Clean) (hroot : p.root = root) :
    Confined here root (· = Path.spot here p) (copy source p) := by
  have hrest : Confined here root (· = Path.spot here p)
      (bytes source >>= fun b => writeBytes p b) :=
    Confined.bind (Confined.of_still (still_bytes source)) fun b => writeBytes_confined hp hroot b
  refine Confined.get_bind fun w _ => ?_
  dsimp only
  split
  · split
    · exact Confined.bind (Confined.of_still (Still.throw _)) fun _ => hrest
    · exact hrest
  · exact hrest

end Disk

end AgentRelay
