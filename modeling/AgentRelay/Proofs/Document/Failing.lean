import AgentRelay.Proofs.Document.Reading
import AgentRelay.Proofs.Except
import AgentRelay.Proofs.Files.Ends

/-
  How reading and writing documents fails.

  A failure about one document is either one that a run collects, about a file
  or about its notation, or one about a value: the notation is right, but a
  value in it has no meaning or no written form (`Failure.OfItem`). A text with
  half a surrogate pair is such a value where it is written.
-/

namespace AgentRelay

open Work

namespace Failure

/-- A failure about a value in a document whose notation is right. -/
def isValue : Failure → Bool
  | yaml f => f != .malformed
  | toml f => f != .malformed
  | misfit _ => true
  | unwritable => true
  | tooDeep => true
  | badKey _ => true
  | badName => true
  | unencodable => true
  | _ => false

/-- A failure about one document: it is collected, unless it is about a value. -/
def OfItem (e : Failure) : Prop := e.isCollected = !e.isValue

/-- A failure about one document, before bytes that are no text are told as one. -/
def OfFile (e : Failure) : Prop := e.OfItem ∨ e = .undecodable

theorem OfItem.isCollected_iff {e : Failure} (h : e.OfItem) :
    e.isCollected = true ↔ e.isValue = false := by
  rw [h, Bool.not_eq_true']

theorem ofItem_system (e : SystemError) : OfItem (.system e) := rfl

theorem ofFile_system (e : SystemError) : OfFile (.system e) := Or.inl rfl

theorem ofItem_about {e : Failure} (h : e.OfFile) (a : Agent) (what path : String) :
    (e.about a what path).OfItem := by
  rcases h with h | rfl
  · cases e <;> first | rfl | exact h
  · rfl

end Failure

open Failure

theorem Frontmatter.Error.ofItem_about (e : Frontmatter.Error) (a : Agent) (what path : String) :
    (e.about a what path).OfItem := by
  cases e with
  | unreadable f => cases f <;> rfl
  | notMapping k => rfl

/-! ## Texts -/

theorem Draft.ofItem_fieldsFailure (u : Yaml.Unwritable) : (Draft.fieldsFailure u).OfItem := by
  cases u <;> rfl

theorem Draft.ofItem_joined {fields : Mapping} {content : String} {e : Failure}
    (h : Draft.joined fields content = .error e) : e.OfItem := by
  obtain ⟨u, -, rfl⟩ := exists_of_mapError h
  exact Draft.ofItem_fieldsFailure u

namespace Command

theorem ofItem_text {c : Command} {e : Failure} (h : c.text = .error e) : e.OfItem := by
  cases c with
  | markdown fields content path =>
    rw [text] at h
    cases hj : Draft.joined fields content with
    | error e' =>
      rw [hj] at h
      obtain rfl := Except.error.inj h
      exact Draft.ofItem_joined hj
    | ok t =>
      rw [hj] at h
      exact nomatch h
  | plain content path => exact nomatch h
  | table prompt description fields path =>
    simp only [text] at h
    cases ht : Draft.tableOf (.text prompt) description fields with
    | error m =>
      rw [ht] at h
      obtain rfl := Except.error.inj h
      rfl
    | ok t =>
      rw [ht] at h
      obtain ⟨u, -, rfl⟩ := exists_of_mapError h
      cases u <;> rfl

theorem ofItem_ofTable {path : String} {fields : Mapping} {e : Failure}
    (h : ofTable path fields = .error e) : e.OfItem := by
  unfold ofTable at h
  cases hd : (Mapping.field fields descriptionKey).asText with
  | error m =>
    rw [hd] at h
    obtain rfl := Except.error.inj h
    rfl
  | ok v =>
    rw [hd] at h
    exact nomatch h

theorem ofItem_ofText {a : Agent} {doc : Nat} {path t : String} {e : Failure}
    (h : ofText a doc path t = .error e) : e.OfItem := by
  unfold ofText at h
  split at h
  · exact nomatch h
  · cases ht : Toml.readDocument t with
    | error f =>
      rw [ht] at h
      obtain rfl := Except.error.inj h
      cases f <;> rfl
    | ok fields =>
      rw [ht] at h
      exact ofItem_ofTable h
  · cases hs : Frontmatter.split doc t with
    | error f =>
      rw [hs] at h
      obtain rfl := Except.error.inj h
      exact f.ofItem_about a noun path
    | ok parts =>
      rw [hs] at h
      exact nomatch h

theorem ends_read (a : Agent) (doc : Nat) (path : String) : Ends OfItem (read a doc path) := by
  refine Ends.bind ?_ fun t => Ends.ofExcept fun e => ofItem_ofText
  refine Ends.explain (Disk.ends_text ofFile_system (Or.inr rfl) _) fun e he => ?_
  exact ofItem_about he a noun path

end Command

namespace Skill

/-! ## Reading skills -/

/-- A text is no skill's concern, once its failures are warnings. -/
theorem ends_load (folder : Path) (f : SupportFile) : Ends OfFile (load folder f) := by
  unfold load
  split
  · exact Ends.pure _
  · have htext : Ends (fun e => e.cause?.isSome = true) (Disk.text (folder.append f.path)) :=
      Disk.ends_text (P := fun e => e.cause?.isSome = true) (fun _ => rfl) rfl _
    refine Ends.attempt_bind htext (fun t => Ends.pure _) fun e he => ?_
    obtain ⟨cause, hcause⟩ := Option.isSome_iff_exists.mp he
    simp only [hcause]
    exact Ends.bind (Ends.warn _) fun _ => Ends.pure _

/-- The failures of a configuration are warnings, but for those about values. -/
theorem ends_readConfig (folder : Path) : Ends OfItem (readConfig folder) := by
  refine Ends.get_bind fun w => ?_
  split
  · exact Ends.pure _
  · have hread : Ends (fun e => e.cause?.isSome = true ∨ e.OfItem) (do
        Work.ofExcept ((Yaml.readValue 2 (← Disk.text (configPath folder))).mapError .yaml)) := by
      refine Ends.bind (Disk.ends_text (fun _ => Or.inl rfl) (Or.inl rfl) _) fun t => ?_
      refine Ends.ofExcept fun e he => ?_
      obtain ⟨f, -, rfl⟩ := exists_of_mapError he
      cases f <;> first | exact Or.inl rfl | exact Or.inr rfl
    refine Ends.attempt_bind hread (fun v => Ends.pure _) fun e he => ?_
    cases hcause : e.cause? with
    | some cause =>
      simp only [hcause]
      exact Ends.bind (Ends.warn _) fun _ => Ends.pure _
    | none =>
      simp only [hcause]
      rw [hcause] at he
      exact Ends.throw (he.resolve_left nofun)

theorem ends_readParts (a : Agent) (doc : Nat) (folder : String) :
    Ends OfFile (readParts a doc folder) := by
  have hrest : Ends OfFile (readOwn a doc folder) := by
    refine Ends.bind (Disk.ends_text ofFile_system (Or.inr rfl) _) fun t => ?_
    refine Ends.bind (Ends.ofExcept fun e he => ?_) fun parts => ?_
    · obtain ⟨f, -, rfl⟩ := exists_of_mapError he
      exact Or.inl (f.ofItem_about a noun folder)
    · refine Ends.get_bind fun w => Ends.bind (Ends.mapM fun f _ => ends_load _ f) fun _ => ?_
      exact Ends.pure _
  rw [readParts_eq]
  refine Ends.get_bind fun w => ?_
  split
  · exact Ends.bind (Ends.throw (ofFile_system _)) fun _ => hrest
  · exact hrest

theorem ends_read (a : Agent) (doc : Nat) (folder : String) : Ends OfItem (read a doc folder) := by
  refine Ends.bind (Ends.explain (ends_readParts a doc folder) fun e he => ?_) fun parts => ?_
  · exact ofItem_about he a noun folder
  · dsimp only
    split
    · exact Ends.bind (ends_readConfig _) fun _ => Ends.pure _
    · exact Ends.bind (Ends.pure _) fun _ => Ends.pure _

/-! ## Writing skills -/

theorem ends_writeSupport (source : Option Path) (target : Path) (f : SupportFile) :
    Ends OfItem (writeSupport source target f) := by
  unfold writeSupport
  refine Ends.bind (Disk.ends_folders ofItem_system _) fun _ => ?_
  split
  · split
    · exact Ends.pure _
    · refine Ends.get_bind fun w => ?_
      split
      · exact Ends.bind (Disk.ends_copy ofItem_system _ _) fun _ => Ends.pure _
      · exact Ends.pure _
  · split
    · exact Ends.pure _
    · exact Ends.bind (Disk.ends_write ofItem_system _ _) fun _ => Ends.pure _

theorem ends_removeConfig (folder : Path) : Ends OfItem (removeConfig folder) := by
  refine Ends.get_bind fun w => ?_
  split
  · refine Ends.bind (Disk.ends_removeFile ofItem_system _) fun _ => Ends.get_bind fun w => ?_
    split
    · exact Disk.ends_removeFolder ofItem_system _
    · exact Ends.pure _
  · exact Ends.pure _

theorem ends_writeConfig (folder : Path) (config : Mapping) :
    Ends OfItem (writeConfig folder config) := by
  unfold writeConfig
  refine Ends.bind (Disk.ends_folders ofItem_system _) fun _ => ?_
  refine Ends.bind (Ends.ofExcept fun e he => ?_) fun t => ?_
  · obtain ⟨u, -, rfl⟩ := exists_of_mapError he
    exact Draft.ofItem_fieldsFailure u
  · exact Ends.bind (Disk.ends_write ofItem_system _ _) fun _ => Ends.pure _

theorem ends_write (a : Agent) (s : Skill) (source : Option Path) (target : Path) :
    Ends OfItem (write a s source target) := by
  unfold write
  refine Ends.bind (Ends.ofExcept fun e => Draft.ofItem_joined) fun t => ?_
  refine Ends.bind (Disk.ends_folders ofItem_system _) fun _ => ?_
  refine Ends.bind (Disk.ends_write ofItem_system _ _) fun _ => ?_
  refine Ends.bind (Ends.filterMapM fun f _ => ends_writeSupport source target f) fun support => ?_
  split
  · split
    · exact Ends.bind (ends_writeConfig _ _) fun _ => Ends.pure _
    · exact Ends.bind (ends_removeConfig _) fun _ => Ends.pure _
  · exact Ends.pure _

end Skill

end AgentRelay
