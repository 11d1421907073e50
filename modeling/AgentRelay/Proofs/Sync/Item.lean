import AgentRelay.Proofs.Document.Writing
import AgentRelay.Proofs.Skill.RoundTrip
import AgentRelay.Sync.Item

/-
  Taking one item.

  A preview leaves the files alone (`still_takeCommand`, `still_takeSkill`). A
  run changes nothing but the target of the item (`takeCommand_confined`,
  `takeSkill_confined`). Where the files of the item and of its target are the
  same, an item that can be taken is announced by the preview with the same
  change (`foretells_takeCommand`, `foretells_takeSkill`).
-/

namespace AgentRelay.Sync

open Files (Place Tree Entry ValidName)
open Work

/-- The order as a preview or as a run. -/
def Order.as (o : Order) (preview : Bool) : Order := { o with preview := preview }

section
variable (o : Order) (preview : Bool)

@[simp] theorem Order.as_contents : (o.as preview).contents = o.contents := rfl

@[simp] theorem Order.as_only : (o.as preview).only = o.only := rfl

@[simp] theorem Order.as_verbose : (o.as preview).verbose = o.verbose := rfl

@[simp] theorem Order.as_skips (there : Bool) : (o.as preview).skips there = o.skips there := rfl

end

/-- An operation announces another. -/
def Announces (op op' : Operation) : Prop := op.change = op'.change ∧ op.path = op'.path

theorem still_tellMissing (a : Agent) (body : List Body.Segment) (label : String) :
    Still (tellMissing a body label) := Still.forM fun _ _ => Still.say _

theorem agrees_tellMissing (w w' : World) (a : Agent) (body : List Body.Segment)
    (label : String) : Agrees w w' (tellMissing a body label) (tellMissing a body label) :=
  Agrees.forM fun _ _ => Agrees.say _

/-! ## How an item ends -/

/-- What was found out is told, and then the item is written unless this is a
preview: what holds of the last step and does not mind the telling holds of all. -/
theorem of_finish {P : Work Operation → Prop} (a : Agent) (o : Order) (body : List Body.Segment)
    (label : String) {op : Operation} {write : Work Operation}
    (htell : ∀ x, P x → P (tellMissing a body label >>= fun _ => x))
    (hop : o.preview = true → P (pure op)) (hwrite : o.preview = false → P write) :
    P (
      have finish : PUnit → Work Operation := fun _ =>
        if o.preview = true then pure op else write
      if o.verbose = true then tellMissing a body label >>= finish else finish PUnit.unit) := by
  have hlast : P (if o.preview = true then pure op else write) := by
    split
    · rename_i hpreview
      exact hop hpreview
    · rename_i hpreview
      exact hwrite (Bool.eq_false_iff.mpr hpreview)
  dsimp only
  split
  · exact htell _ hlast
  · exact hlast

theorem confined_finish {here : Path} {root : Nat} {R : Place → Prop} (a : Agent) (o : Order)
    (body : List Body.Segment) (label : String) (op : Operation) {write : Work Operation}
    (h : Confined here root R write) :
    Confined here root R (
      have finish : PUnit → Work Operation := fun _ =>
        if o.preview = true then pure op else write
      if o.verbose = true then tellMissing a body label >>= finish else finish PUnit.unit) :=
  of_finish a o body label
    (fun _ hx => Confined.bind (Confined.of_still (still_tellMissing a body label)) fun _ => hx)
    (fun _ => Confined.of_still (Still.pure _)) fun _ => h

theorem grows_finish {here : Path} {root : Nat} {R : Place → Prop} (a : Agent) (o : Order)
    (body : List Body.Segment) (label : String) (op : Operation) {write : Work Operation}
    (h : Grows here root R write) :
    Grows here root R (
      have finish : PUnit → Work Operation := fun _ =>
        if o.preview = true then pure op else write
      if o.verbose = true then tellMissing a body label >>= finish else finish PUnit.unit) :=
  of_finish a o body label
    (fun _ hx => Grows.bind (Grows.of_still (still_tellMissing a body label)) fun _ => hx)
    (fun _ => Grows.of_still (Still.pure _)) fun _ => h

theorem foretells_finish {w w' : World} (a : Agent) (o : Order) (body : List Body.Segment)
    (label : String) {op : Operation} {write : Work Operation}
    (h : ∀ v op', (write.run v).1 = .ok op' → Announces op op') :
    Foretells w w' (fun _ => True) Announces
      (if (o.as true).verbose = true then do tellMissing a body label; return op else pure op)
      (if (o.as false).verbose = true then do tellMissing a body label; write else write) := by
  have hlast : Foretells w w' (fun _ => True) Announces (pure op) write :=
    Foretells.pure fun v op' hop _ => h v op' hop
  rw [Order.as_verbose, Order.as_verbose]
  split
  · exact Foretells.bind (agrees_tellMissing w w' a body label) fun _ => hlast
  · exact hlast

/-- An item is skipped in the preview when it is in the run. -/
theorem foretells_unless_skipped {w w' : World} (o : Order) (there : Bool) (target : Path)
    {x y : Work Operation} (h : Foretells w w' (fun _ => True) Announces x y) :
    Foretells w w' (fun _ => True) Announces
      (if (o.as true).skips there = true then pure ⟨.skipped, target, (o.as true).preview⟩ else x)
      (if (o.as false).skips there = true then pure ⟨.skipped, target, (o.as false).preview⟩
        else y) := by
  rw [Order.as_skips, Order.as_skips]
  split
  · refine Foretells.pure fun _ op hop _ => ?_
    obtain rfl := Except.ok.inj hop
    exact ⟨rfl, rfl⟩
  · exact h

/-- Writing an item ends with the operation that was decided on before. -/
theorem result_of_writing {α : Type} {x : Work α} {op op' : Operation} {v : World}
    (h : ((x >>= fun _ => (pure op : Work Operation)).run v).1 = .ok op') : op' = op := by
  rw [run_bind] at h
  cases hx : x.run v with
  | mk r u =>
    rw [hx] at h
    cases r with
    | ok a => exact (Except.ok.inj h).symm
    | error e => exact nomatch h

/-! ## Commands -/

theorem still_existingCommand (a : Agent) (target : Path) (there : Bool) :
    Still (existingCommand a target there) := by
  unfold existingCommand
  split
  · exact Still.bind (Command.still_read a 1 _) fun _ => Still.pure _
  · exact Still.pure _

theorem agrees_existingCommand {w w' : World} (h : w.Sound) (h' : w'.Sound) (a : Agent)
    {target : Path} (ht : target.Clean)
    (hsame : w.tree.bytes? (Path.spot w.here target) = w'.tree.bytes? (Path.spot w'.here target)) :
    Agrees w w' (existingCommand a target (w.isFile target))
      (existingCommand a target (w.isFile target)) := by
  unfold existingCommand
  split
  · rename_i hhub
    have hthere := (World.isFile_iff h ht).mp hhub.2
    exact Agrees.bind (Command.agrees_read h h' a 1 ht hsame hthere) fun _ => Agrees.pure _
  · exact Agrees.pure _

theorem still_takeCommand (s d : Agent) (o : Order) (file target : Path) :
    Still (takeCommand s d (o.as true) file target) := by
  unfold takeCommand
  refine Still.bind (Command.still_read s 0 _) fun command => ?_
  refine Still.bind (Still.ofExcept _) fun neutral => Still.get_bind fun w => ?_
  dsimp only
  split
  · exact Still.pure _
  · refine Still.bind (still_existingCommand d target _) fun existing => ?_
    refine Still.bind (Still.ofExcept _) fun text => ?_
    split
    · exact Still.bind (still_tellMissing d _ _) fun _ => Still.pure _
    · exact Still.pure _

/-- A command is written at its target. -/
theorem takeCommand_grows {here : Path} {root : Nat} (s d : Agent) (o : Order) (file : Path)
    {target : Path} (ht : target.Tidy) (hroot : target.root = root) :
    Grows here root (· = Path.place here target) (takeCommand s d o file target) := by
  unfold takeCommand
  refine Grows.bind (Grows.of_still (Command.still_read s 0 _)) fun command => ?_
  refine Grows.bind (Grows.of_still (Still.ofExcept _)) fun neutral => ?_
  refine Grows.get_bind fun w _ => ?_
  dsimp only
  split
  · exact Grows.of_still (Still.pure _)
  · refine Grows.bind (Grows.of_still (still_existingCommand d target _)) fun existing => ?_
    refine Grows.bind (Grows.of_still (Still.ofExcept _)) fun text => ?_
    refine grows_finish d o _ _ _ (Grows.bind ?_ fun _ => ?_)
    · exact (Disk.folders_grows ht.parent hroot).mono fun _ h => h.elim
    · exact Grows.bind (Disk.writeWhole_grows ht hroot _) fun _ => Grows.of_still (Still.pure _)

/-- No file is removed when a command is taken, also when that fails. -/
theorem adds_takeCommand (s d : Agent) (o : Order) (file target : Path) :
    Adds (takeCommand s d o file target) := by
  unfold takeCommand
  refine Adds.bind (Adds.of_still (Command.still_read s 0 _)) fun command => ?_
  refine Adds.bind (Adds.of_still (Still.ofExcept _)) fun neutral => Adds.get_bind fun w => ?_
  dsimp only
  split
  · exact Adds.of_still (Still.pure _)
  · refine Adds.bind (Adds.of_still (still_existingCommand d target _)) fun existing => ?_
    refine Adds.bind (Adds.of_still (Still.ofExcept _)) fun text => ?_
    refine of_finish d o _ _ (fun x hx => ?_) (fun _ => Adds.of_still (Still.pure _)) fun _ => ?_
    · exact Adds.bind (Adds.of_still (still_tellMissing d _ _)) fun _ => hx
    · refine Adds.bind (Disk.adds_foldersFrom _ _) fun _ => ?_
      exact Adds.bind (Disk.adds_writeWhole _ _) fun _ => Adds.of_still (Still.pure _)

theorem takeCommand_confined {here : Path} {root : Nat} (s d : Agent) (o : Order) (file : Path)
    {target : Path} (ht : target.Clean) (hroot : target.root = root) :
    Confined here root (· = Path.spot here target) (takeCommand s d o file target) :=
  Path.place_eq_spot ht ▸ (takeCommand_grows s d o file ht.tidy hroot).confined

/-- The preview of a command announces what the run does. -/
theorem foretells_takeCommand {w w' : World} (h : w.Sound) (h' : w'.Sound) (s d : Agent)
    (o : Order) {file target : Path} (hf : file.Clean) (ht : target.Clean)
    (hthere : (w.tree.bytes? (Path.spot w.here file)).isSome = true)
    (hfile : w.tree.bytes? (Path.spot w.here file) = w'.tree.bytes? (Path.spot w'.here file))
    (htarget : w.tree.bytes? (Path.spot w.here target) =
      w'.tree.bytes? (Path.spot w'.here target)) :
    Foretells w w' (fun _ => True) Announces (takeCommand s d (o.as true) file target)
      (takeCommand s d (o.as false) file target) := by
  unfold takeCommand
  refine Foretells.bind (Command.agrees_read h h' s 0 hf hfile hthere) fun command => ?_
  refine Foretells.bind (Agrees.ofExcept _) fun neutral => ?_
  refine Foretells.get_bind fun v v' hv hv' => ?_
  -- Whether the item is skipped depends on the target, which neither has touched.
  have hseen : v.isFile target = w.isFile target := by
    rw [Bool.eq_iff_iff, World.isFile_iff (hv.sound h) ht, World.isFile_iff h ht, hv.tree, hv.here]
  have hseen' : v'.isFile target = w.isFile target := by
    rw [Bool.eq_iff_iff, World.isFile_iff (hv'.sound h') ht, World.isFile_iff h ht, hv'.tree,
      hv'.here, htarget]
  rw [hseen, hseen']
  refine foretells_unless_skipped o _ target ?_
  refine Foretells.bind (agrees_existingCommand h h' d ht htarget) fun existing => ?_
  refine Foretells.bind (Agrees.ofExcept _) fun text => foretells_finish d o _ _ fun v op hop => ?_
  rw [← bind_assoc] at hop
  obtain rfl := result_of_writing hop
  exact ⟨rfl, rfl⟩

/-! ## Skills -/

theorem still_existingSkill (a : Agent) (target : Path) (there : Bool) :
    Still (existingSkill a target there) := by
  unfold existingSkill
  split
  · exact Still.bind (Skill.still_read a 1 _) fun _ => Still.pure _
  · exact Still.pure _

theorem agrees_existingSkill {w w' : World} (h : w.Sound) (h' : w'.Sound) (a : Agent)
    {target : Path} (ht : target.Clean) (hsame : Skill.SameBelow target w w') (there : Bool) :
    Agrees w w' (existingSkill a target there) (existingSkill a target there) := by
  unfold existingSkill
  split
  · exact Agrees.bind (Skill.agrees_read h h' a 1 ht hsame) fun _ => Agrees.pure _
  · exact Agrees.pure _

theorem still_takeSkill (s d : Agent) (o : Order) (folder target : Path) :
    Still (takeSkill s d (o.as true) folder target) := by
  unfold takeSkill
  refine Still.bind (Skill.still_read s 0 _) fun skill => ?_
  refine Still.bind (Still.ofExcept _) fun neutral => Still.get_bind fun w => ?_
  dsimp only
  split
  · exact Still.pure _
  · refine Still.bind (still_existingSkill d target _) fun existing => ?_
    split
    · exact Still.bind (still_tellMissing d _ _) fun _ => Still.pure _
    · exact Still.pure _

/-- The support files of a skill travel as they are. -/
theorem support_toNeutral {a : Agent} {destination : Option String} {s : Skill} {n : Neutral}
    (h : s.toNeutral a destination = .ok n) : n.background.support = some s.support := by
  obtain ⟨⟨shared, extras⟩, hsplit⟩ := Skill.split_of_toNeutral h
  rw [Skill.toNeutral_of_split destination hsplit] at h
  obtain rfl := Except.ok.inj h
  rfl

/-- A skill is written below its target. -/
theorem takeSkill_confined {here : Path} {root : Nat} (s d : Agent) (o : Order) {folder : Path}
    (hf : folder.Tidy) {target : Path} (ht : target.Clean) (hroot : target.root = root) :
    Confined here root (Path.spot here target <+: ·) (takeSkill s d o folder target) := by
  unfold takeSkill
  refine Confined.bind_yields (Skill.still_read s 0 _)
    (fun w hw => Skill.yields_read hw.sound s 0 hf) fun skill hskill => ?_
  refine Confined.bind_yields (Still.ofExcept _)
    (fun w _ => Yields.ofExcept fun n hn => ?_ : ∀ w, _ → Yields w _ fun n : Neutral =>
      n.background.support = some skill.support) fun neutral hneutral => ?_
  · cases hto : skill.toNeutral s (some d.name) with
    | ok n' =>
      rw [hto] at hn
      obtain rfl := Except.ok.inj hn
      exact support_toNeutral hto
    | error e =>
      rw [hto] at hn
      exact nomatch hn
  refine Confined.get_bind fun w _ => ?_
  dsimp only
  split
  · exact Confined.of_still (Still.pure _)
  · refine Confined.bind (Confined.of_still (still_existingSkill d target _)) fun existing => ?_
    refine confined_finish d o _ _ _ (Confined.bind (Skill.write_confined ht hroot d ?_ _) fun _ =>
      Confined.of_still (Still.pure _))
    rw [Neutral.toSkill, hneutral]
    exact hskill

/-- The preview of a skill announces what the run does. -/
theorem foretells_takeSkill {w w' : World} (h : w.Sound) (h' : w'.Sound) (s d : Agent)
    (o : Order) {folder target : Path} (hf : folder.Clean) (ht : target.Clean)
    (hfolder : Skill.SameBelow folder w w') (htarget : Skill.SameBelow target w w') :
    Foretells w w' (fun _ => True) Announces (takeSkill s d (o.as true) folder target)
      (takeSkill s d (o.as false) folder target) := by
  unfold takeSkill
  refine Foretells.bind (Skill.agrees_read h h' s 0 hf hfolder) fun skill => ?_
  refine Foretells.bind (Agrees.ofExcept _) fun neutral => ?_
  refine Foretells.get_bind fun v v' hv hv' => ?_
  rw [← Skill.isIn_eq (hv.sound h) (hv'.sound h') ht (htarget.of_sameFiles hv hv')]
  generalize Skill.isIn v target = there
  refine foretells_unless_skipped o _ target ?_
  refine Foretells.bind (agrees_existingSkill h h' d ht htarget there) fun existing => ?_
  refine foretells_finish d o _ _ fun v op hop => ?_
  obtain rfl := result_of_writing hop
  exact ⟨rfl, rfl⟩

end AgentRelay.Sync
