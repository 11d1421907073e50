import AgentRelay.Proofs.Files.Work

/-
  How work ends.

  `Ends P x` says that `x` stays in its home and working folder, and that what
  ends it early, if anything does, is a failure that `P` allows. Work on files
  fails only because the system refuses something or because bytes are no text
  (`Disk.ends_text`, `Disk.ends_write` and so on).
-/

namespace AgentRelay

namespace Work

variable {α β : Type} {P Q : Failure → Prop}

/-- The work stays where it is, and fails only as `P` allows. -/
def Ends (P : Failure → Prop) (x : Work α) : Prop :=
  ∀ w : World, ((x.run w).2.home = w.home ∧ (x.run w).2.here = w.here) ∧
    ∀ e, (x.run w).1 = .error e → P e

namespace Ends

theorem pure (a : α) : Ends P (pure a : Work α) := fun _ => ⟨⟨rfl, rfl⟩, nofun⟩

theorem throw {e : Failure} (h : P e) : Ends P (throw e : Work α) := by
  intro w
  refine ⟨⟨rfl, rfl⟩, fun e' he => ?_⟩
  obtain rfl := Except.error.inj he
  exact h

theorem ofExcept {r : Except Failure α} (h : ∀ e, r = .error e → P e) :
    Ends P (Work.ofExcept r) := by
  cases r with
  | ok a => exact pure a
  | error e => exact throw (h e rfl)

theorem modify {f : World → World} (h : ∀ w, (f w).home = w.home ∧ (f w).here = w.here) :
    Ends P (modify f : Work Unit) := fun w => ⟨h w, nofun⟩

theorem bind {x : Work α} {f : α → Work β} (hx : Ends P x) (hf : ∀ a, Ends P (f a)) :
    Ends P (x >>= f) := by
  intro w
  obtain ⟨hstay, hfail⟩ := hx w
  rw [run_bind]
  cases h : x.run w with
  | mk r v =>
    rw [h] at hstay hfail
    cases r with
    | ok a =>
      obtain ⟨hstay', hfail'⟩ := hf a v
      exact ⟨⟨hstay'.1.trans hstay.1, hstay'.2.trans hstay.2⟩, hfail'⟩
    | error e =>
      refine ⟨hstay, fun e' he => hfail e' ?_⟩
      rw [Except.error.inj he]

theorem get_bind {f : World → Work β} (hf : ∀ w, Ends P (f w)) :
    Ends P ((get : Work World) >>= f) := fun w => hf w w

/-- What is done about a failure may depend on it. -/
theorem attempt_bind {x : Work α} {f : Except Failure α → Work β} (hx : Ends Q x)
    (hok : ∀ a, Ends P (f (.ok a))) (herror : ∀ e, Q e → Ends P (f (.error e))) :
    Ends P (x.attempt >>= f) := by
  intro w
  obtain ⟨hstay, hfail⟩ := hx w
  rw [run_bind, run_attempt]
  have hrest : Ends P (f (x.run w).1) := by
    cases hr : (x.run w).1 with
    | ok a => exact hok a
    | error e => exact herror e (hfail e hr)
  obtain ⟨hstay', hfail'⟩ := hrest (x.run w).2
  exact ⟨⟨hstay'.1.trans hstay.1, hstay'.2.trans hstay.2⟩, hfail'⟩

theorem explain {g : Failure → Failure} {x : Work α} (hx : Ends Q x) (h : ∀ e, Q e → P (g e)) :
    Ends P (x.explain g) := by
  intro w
  obtain ⟨hstay, hfail⟩ := hx w
  refine ⟨hstay, fun e he => ?_⟩
  rw [run_explain] at he
  cases hr : (x.run w).1 with
  | ok a =>
    rw [hr] at he
    exact nomatch he
  | error e' =>
    rw [hr] at he
    obtain rfl := Except.error.inj he
    exact h e' (hfail e' hr)

theorem say (line : String) : Ends P (World.say line) := modify fun _ => ⟨rfl, rfl⟩

theorem warn (m : Warning) : Ends P (World.warn m) := modify fun _ => ⟨rfl, rfl⟩

theorem forM {f : α → Work PUnit} {as : List α} (hf : ∀ a ∈ as, Ends P (f a)) :
    Ends P (as.forM f) := by
  induction as with
  | nil => exact pure PUnit.unit
  | cons a as ih =>
    have hrest : Ends P (as.forM f) := ih fun b hb => hf b (List.mem_cons_of_mem _ hb)
    exact bind (hf a (by simp)) fun _ => hrest

theorem mapM {f : α → Work β} {as : List α} (hf : ∀ a ∈ as, Ends P (f a)) :
    Ends P (as.mapM f) := by
  induction as with
  | nil => exact pure []
  | cons a as ih =>
    rw [List.mapM_cons]
    refine bind (hf a (by simp)) fun b => bind ?_ fun bs => pure (b :: bs)
    exact ih fun a ha => hf a (List.mem_cons_of_mem _ ha)

theorem filterMapM {f : α → Work (Option β)} {as : List α} (hf : ∀ a ∈ as, Ends P (f a)) :
    Ends P (as.filterMapM f) := by
  induction as with
  | nil => exact pure []
  | cons a as ih =>
    have hrest : Ends P (as.filterMapM f) := ih fun b hb => hf b (List.mem_cons_of_mem _ hb)
    rw [List.filterMapM_cons]
    refine bind (hf a (by simp)) fun found => ?_
    cases found with
    | none => exact hrest
    | some b => exact bind hrest fun bs => pure (b :: bs)

end Ends

/-- What the work ends with, when it does not fail, has a property. -/
def Gives (P : α → Prop) (x : Work α) : Prop := ∀ w a, (x.run w).1 = .ok a → P a

namespace Gives

variable {P : α → Prop}

theorem pure {a : α} (h : P a) : Gives P (pure a : Work α) := by
  intro w b hb
  obtain rfl := Except.ok.inj hb
  exact h

theorem bind {x : Work β} {f : β → Work α} (hf : ∀ b, Gives P (f b)) : Gives P (x >>= f) := by
  intro w a ha
  rw [run_bind] at ha
  cases hx : x.run w with
  | mk r v =>
    rw [hx] at ha
    cases r with
    | ok b => exact hf b v a ha
    | error e => exact nomatch ha

end Gives

end Work

namespace Disk

open Work

variable {α : Type} {P : Failure → Prop} (hsystem : ∀ e, P (.system e))
include hsystem

theorem ends_refuse (p : Path) (r : Files.Refusal) : Ends P (refuse p r : Work α) :=
  Ends.throw (hsystem _)

theorem ends_bytes (p : Path) : Ends P (bytes p) := by
  refine Ends.get_bind fun w => ?_
  split
  · exact Ends.pure _
  · exact ends_refuse hsystem p _
  · exact ends_refuse hsystem p _
  · exact ends_refuse hsystem p _

theorem ends_text (hcode : P .undecodable) (p : Path) : Ends P (text p) := by
  refine Ends.bind (ends_bytes hsystem p) fun b => ?_
  split
  · exact Ends.pure _
  · exact Ends.throw hcode

theorem ends_writeBytes (p : Path) (b : ByteArray) : Ends P (writeBytes p b) := by
  refine Ends.get_bind fun w => ?_
  split
  · exact ends_refuse hsystem p _
  · split
    · exact ends_refuse hsystem p _
    · exact Ends.modify fun _ => ⟨rfl, rfl⟩

theorem ends_write (p : Path) (s : String) : Ends P (write p s) := ends_writeBytes hsystem p _

theorem ends_writeWhole (hcode : P .unencodable) (p : Path) (text : Option String) :
    Ends P (writeWhole p text) := by
  cases text with
  | some s => exact ends_write hsystem p s
  | none => exact Ends.bind (ends_write hsystem p "") fun _ => Ends.throw hcode

omit hsystem in
theorem ends_tryFolder (p : Path) : Ends P (tryFolder p) := by
  refine Ends.get_bind fun w => ?_
  split
  · exact Ends.pure _
  · split
    · exact Ends.pure _
    · exact Ends.bind (Ends.modify fun _ => ⟨rfl, rfl⟩) fun _ => Ends.pure _

theorem ends_unlessFolder (p : Path) (r : Files.Refusal) : Ends P (unlessFolder p r) := by
  refine Ends.get_bind fun w => ?_
  split
  · exact Ends.pure _
  · exact ends_refuse hsystem p r

theorem ends_foldersFrom (fuel : Nat) (p : Path) : Ends P (foldersFrom fuel p) := by
  induction fuel generalizing p with
  | zero => exact ends_refuse hsystem p _
  | succ fuel ih =>
    rw [foldersFrom]
    refine Ends.bind (ends_tryFolder p) fun found => ?_
    split
    · exact Ends.pure _
    · split
      · exact ends_refuse hsystem p _
      · refine Ends.bind (ih p.parent) fun _ => Ends.bind (ends_tryFolder p) fun found => ?_
        split
        · exact Ends.pure _
        · exact ends_unlessFolder hsystem p _
    · exact ends_unlessFolder hsystem p _

theorem ends_folders (p : Path) : Ends P (folders p) := ends_foldersFrom hsystem _ p

theorem ends_removeFile (p : Path) : Ends P (removeFile p) := by
  refine Ends.get_bind fun w => ?_
  split
  · exact ends_refuse hsystem p _
  · exact ends_refuse hsystem p _
  · exact ends_refuse hsystem p _
  · exact Ends.modify fun _ => ⟨rfl, rfl⟩

theorem ends_removeFolder (p : Path) : Ends P (removeFolder p) := by
  refine Ends.get_bind fun w => ?_
  split
  · exact ends_refuse hsystem p _
  · exact ends_refuse hsystem p _
  · exact ends_refuse hsystem p _
  · exact Ends.modify fun _ => ⟨rfl, rfl⟩

theorem ends_copy (source target : Path) : Ends P (copy source target) := by
  have hrest : Ends P (bytes source >>= fun b => writeBytes target b) :=
    Ends.bind (ends_bytes hsystem source) fun b => ends_writeBytes hsystem target b
  refine Ends.get_bind fun w => ?_
  dsimp only
  split
  · split
    · exact Ends.bind (Ends.throw (hsystem _)) fun _ => hrest
    · exact hrest
  · exact hrest

end Disk

end AgentRelay
