import AgentRelay.Proofs.Except
import AgentRelay.Proofs.Mapping
import AgentRelay.Proofs.Value.Origins
import AgentRelay.Proofs.Value.SetOrder
import AgentRelay.Yaml.Value

/-
  What the values of documents are like.

  Whatever the text of a document is, the mapping that is read from it holds every key
  once (`distinct_of_readSource`), since no step of the reading puts a key into a mapping
  that has it (`keeps_document`); and what stands in it points nowhere outside of it
  (`no_loop_of_readSource`). Every origin in it is a node of the document
  (`from_readSource`).
-/

namespace AgentRelay.Yaml

/-- No two entries have the same key. -/
def DistinctKeys (es : List (Nat × Scalar × Nat)) : Prop :=
  es.Pairwise fun e f => e.2.1.same f.2.1 = false

namespace DistinctKeys

theorem key_of_mem_setEntry {es : List (Nat × Scalar × Nat)} {n v : Nat} {k : Scalar}
    {e : Nat × Scalar × Nat} (h : e ∈ Build.setEntry es n k v) :
    e.2.1 = k ∨ ∃ f ∈ es, e.2.1 = f.2.1 := by
  induction es with
  | nil => exact Or.inl (by rw [List.mem_singleton.mp h])
  | cons f es ih =>
    obtain ⟨m, j, w⟩ := f
    unfold Build.setEntry at h
    split at h
    · rcases List.mem_cons.mp h with rfl | h
      · exact Or.inr ⟨(m, j, w), by simp, rfl⟩
      · exact Or.inr ⟨e, List.mem_cons_of_mem _ h, rfl⟩
    · rcases List.mem_cons.mp h with rfl | h
      · exact Or.inr ⟨_, List.mem_cons_self, rfl⟩
      · rcases ih h with hk | ⟨g, hg, hk⟩
        · exact Or.inl hk
        · exact Or.inr ⟨g, List.mem_cons_of_mem _ hg, hk⟩

/-- An entry that is set leaves the keys distinct. -/
theorem setEntry {es : List (Nat × Scalar × Nat)} (h : DistinctKeys es) (n : Nat) (k : Scalar)
    (v : Nat) : DistinctKeys (Build.setEntry es n k v) := by
  induction es with
  | nil => exact List.pairwise_singleton _ _
  | cons e es ih =>
    obtain ⟨m, j, w⟩ := e
    obtain ⟨hfirst, hrest⟩ := List.pairwise_cons.mp h
    unfold Build.setEntry
    split
    · exact List.pairwise_cons.mpr ⟨hfirst, hrest⟩
    · rename_i hnew
      refine List.pairwise_cons.mpr ⟨fun f hf => ?_, ih hrest⟩
      rcases key_of_mem_setEntry hf with hk | ⟨g, hg, hk⟩
      · rw [hk]
        have hnew : ¬m = n ∧ j.same k = false := by simpa using hnew
        exact hnew.2
      · rw [hk]
        exact hfirst g hg

end DistinctKeys

/-- The origin is a node of the document. -/
def InDocument (doc : Nat) (o : Origin) : Prop := ∃ n, o = .node doc n

theorem from_ofTagged {o : Origin} {text : Phrase} {tag : Tag} {s : Scalar}
    (h : Scalar.ofTagged o text tag = .ok s) : s.From (· = o) := by
  unfold Scalar.ofTagged at h
  split at h
  case h_6 =>
    unfold readMoment at h
    dsimp only at h
    split at h
    · cases h
    · split at h <;> cases h <;> rfl
  all_goals
    first
      | (obtain ⟨x, -, rfl⟩ := exists_of_map_eq_ok h; trivial)
      | (cases h; trivial)
      | (cases h; cases text <;> trivial)
      | cases h

/-- The scalars in a part, the keys of a mapping among them. -/
def Part.scalars : Part → List Scalar
  | .scalar s => [s]
  | .set members => members
  | .map entries => entries.map fun e => e.2.1
  | _ => []

/-- A reading of a document on its way: every mapping that was filled so far has distinct
keys, and the days read so far are nodes of the document. -/
structure Building.Good (doc : Nat) (b : Building) : Prop where
  doc_eq : b.doc = doc
  distinct : ∀ n es, b.part? n = some (.map es) → DistinctKeys es
  scalars : ∀ n p, b.part? n = some p → ∀ s ∈ p.scalars, s.From (InDocument doc)

theorem Building.Good.start (doc : Nat) (nodes : Array Node) :
    (Building.start doc nodes).Good doc := by
  have hnone (n : Nat) (p : Part) : (Building.start doc nodes).part? n ≠ some p := by
    intro h
    simp only [Building.part?, Building.start, Array.getElem?_replicate] at h
    split at h <;> cases h
  exact ⟨rfl, fun n es h => absurd h (hnone n _), fun n p h => absurd h (hnone n p)⟩

theorem Building.Good.congr {doc : Nat} {b b' : Building} (h : b.Good doc)
    (hdoc : b'.doc = b.doc) (hparts : b'.parts = b.parts) : b'.Good doc := by
  have hpart (n : Nat) : b'.part? n = b.part? n := by rw [part?, part?, hparts]
  exact ⟨hdoc.trans h.doc_eq, fun n es hes => h.distinct n es (hpart n ▸ hes),
    fun n p hp => h.scalars n p (hpart n ▸ hp)⟩

namespace Build

variable {α β : Type}

/-- A step after which the reading is as good as before; what it comes to has a property
then. -/
def Keeps (doc : Nat) (x : Build α) (P : α → Prop) : Prop :=
  ∀ b a b', x.run b = .ok (a, b') → b.Good doc → P a ∧ b'.Good doc

/-! ## Rules -/

namespace Keeps

variable {doc : Nat} {P : α → Prop}

theorem pure {a : α} (h : P a) : Keeps doc (pure a : Build α) P := by
  intro b a' b' hrun hb
  obtain ⟨rfl, rfl⟩ := Prod.mk.inj (Except.ok.inj hrun)
  exact ⟨h, hb⟩

theorem throw (f : Fault) : Keeps doc (throw f : Build α) P := fun _ _ _ hrun => nomatch hrun

theorem lift {r : Except Fault α} (h : ∀ a, r = .ok a → P a) :
    Keeps doc (liftM r : Build α) P := by
  cases r with
  | ok a => exact pure (h a rfl)
  | error f => exact throw f

theorem bind {x : Build α} {f : α → Build β} {Q : β → Prop} (hx : Keeps doc x P)
    (hf : ∀ a, P a → Keeps doc (f a) Q) : Keeps doc (x >>= f) Q := by
  intro b c b' hrun hb
  change (StateT.run x b >>= fun p => (f p.1).run p.2) = _ at hrun
  cases hfirst : x.run b with
  | error e => rw [hfirst] at hrun; exact nomatch hrun
  | ok p =>
    rw [hfirst] at hrun
    obtain ⟨ha, hp⟩ := hx b p.1 p.2 hfirst hb
    exact hf p.1 ha p.2 c b' hrun hp

theorem after {x : Build α} {f : α → Build β} {Q : β → Prop} (hx : Keeps doc x fun _ => True)
    (hf : ∀ a, Keeps doc (f a) Q) : Keeps doc (x >>= f) Q := bind hx fun a _ => hf a

theorem get : Keeps doc (get : Build Building) (Building.Good doc) := by
  intro b a b' hrun hb
  obtain ⟨rfl, rfl⟩ := Prod.mk.inj (Except.ok.inj hrun)
  exact ⟨hb, hb⟩

theorem set {b : Building} (hb : b.Good doc) : Keeps doc (set b : Build Unit) fun _ => True := by
  intro _ _ b' hrun _
  obtain ⟨-, rfl⟩ := Prod.mk.inj (Except.ok.inj hrun)
  exact ⟨trivial, hb⟩

theorem modify {f : Building → Building} (h : ∀ b, b.Good doc → (f b).Good doc) :
    Keeps doc (modify f : Build Unit) fun _ => True := by
  intro b a b' hrun hb
  obtain ⟨-, rfl⟩ := Prod.mk.inj (Except.ok.inj hrun)
  exact ⟨trivial, h b hb⟩

theorem mapM {f : α → Build β} (h : ∀ a, Keeps doc (f a) fun _ => True) (as : List α) :
    Keeps doc (as.mapM f) fun _ => True := by
  induction as with
  | nil => exact pure trivial
  | cons a as ih =>
    rw [List.mapM_cons]
    exact after (h a) fun _ => after ih fun _ => pure trivial

theorem forM {f : α → Build PUnit} (h : ∀ a, Keeps doc (f a) fun _ => True) (as : List α) :
    Keeps doc (as.forM f) fun _ => True := by
  induction as with
  | nil => exact pure trivial
  | cons a as ih => exact after (h a) fun _ => ih

end Keeps

/-! ## The steps of a reading -/

variable {doc : Nat}

theorem keeps_node (n : Nat) : Keeps doc (node n) fun _ => True := by
  refine Keeps.bind Keeps.get fun b _ => ?_
  split
  · exact Keeps.pure trivial
  · exact Keeps.throw _

theorem keeps_tagOf (n : Nat) : Keeps doc (tagOf n) fun _ => True :=
  Keeps.after (keeps_node n) fun _ => Keeps.pure trivial

theorem keeps_entriesOf (n : Nat) : Keeps doc (entriesOf n) fun _ => True := by
  refine Keeps.after (keeps_node n) fun _ => ?_
  split
  · exact Keeps.pure trivial
  · exact Keeps.throw _

theorem keeps_change (n : Nat) (f : Node → Node) : Keeps doc (change n f) fun _ => True :=
  Keeps.modify fun _ hb => hb.congr rfl rfl

theorem keeps_become {n : Nat} {p : Part} (hp : ∀ es, p = .map es → DistinctKeys es)
    (hs : ∀ s ∈ p.scalars, s.From (InDocument doc)) :
    Keeps doc (become n p) fun _ => True := by
  refine Keeps.modify fun b hb => ?_
  have hpart (m : Nat) (p' : Part)
      (h : Building.part? { b with parts := b.parts.setIfInBounds n (some p) } m = some p') :
      p' = p ∨ b.part? m = some p' := by
    rw [Building.part?] at h
    by_cases hnm : n = m
    · subst hnm
      simp only [Array.getElem?_setIfInBounds_self] at h
      split at h
      · exact .inl (by simpa using h.symm)
      · cases h
    · simp only [Array.getElem?_setIfInBounds_ne hnm] at h
      exact .inr h
  refine ⟨hb.doc_eq, fun m es h => ?_, fun m p' h => ?_⟩
  · rcases hpart m _ h with heq | h
    · exact hp es heq.symm
    · exact hb.distinct m es h
  · rcases hpart m _ h with rfl | h
    · exact hs
    · exact hb.scalars m p' h

theorem keeps_firstValue (es : List (Nat × Nat)) : Keeps doc ( valueEntry? es) fun _ => True := by
  induction es with
  | nil => exact Keeps.pure trivial
  | cons e es ih =>
    refine Keeps.after (keeps_tagOf e.1) fun _ => ?_
    split
    · exact Keeps.pure trivial
    · exact ih

theorem keeps_textOf (fuel n : Nat) : Keeps doc (textOf fuel n) fun _ => True := by
  induction fuel generalizing n with
  | zero => exact Keeps.throw _
  | succ fuel ih =>
    refine Keeps.after (keeps_node n) fun _ => ?_
    split
    · exact Keeps.pure trivial
    · exact Keeps.throw _
    · refine Keeps.after (keeps_firstValue _) fun _ => ?_
      split
      · exact ih _
      · exact Keeps.throw _

theorem keeps_scalarOf (n : Nat) (node : Node) :
    Keeps doc (scalarOf n node) fun s => s.From (InDocument doc) := by
  refine Keeps.bind Keeps.get fun b hb => ?_
  have htagged {text : Phrase} {tag : Tag} (s : Scalar)
      (h : Scalar.ofTagged (.node b.doc n) text tag = .ok s) : s.From (InDocument doc) :=
    (from_ofTagged h).mono fun o ho => ⟨n, by rw [ho, hb.doc_eq]⟩
  dsimp only
  split <;> split
  · exact Keeps.throw _
  · exact Keeps.throw _
  · exact Keeps.after (keeps_textOf _ _) fun _ => Keeps.throw _
  · exact Keeps.after (keeps_textOf _ _) fun _ => Keeps.lift htagged

theorem keeps_make (n : Nat) :
    Keeps doc (make n) fun p => ∀ s ∈ p.scalars, s.From (InDocument doc) := by
  refine Keeps.bind Keeps.get fun b hb => ?_
  split
  · rename_i p hp
    exact Keeps.pure (hb.scalars n p hp)
  · refine Keeps.after (keeps_node n) fun node => ?_
    -- Neither a scalar nor a collection that is not filled yet has keys.
    have hkeyless : ∀ p : Part, (∀ es, p ≠ .map es) →
        (∀ s ∈ p.scalars, s.From (InDocument doc)) →
        Keeps doc (become n p >>= fun _ => Pure.pure p)
          fun p => ∀ s ∈ p.scalars, s.From (InDocument doc) := fun p hp hs =>
      Keeps.after (keeps_become (fun es h => absurd h (hp es)) hs) fun _ => Keeps.pure hs
    split
    · exact Keeps.after (Keeps.modify fun _ hb => hb.congr rfl rfl) fun _ =>
        hkeyless _ nofun fun s hs => absurd hs List.not_mem_nil
    · refine Keeps.bind (keeps_scalarOf n node) fun s hs => hkeyless _ nofun fun s' hs' => ?_
      rw [List.mem_singleton.mp hs']
      exact hs

theorem keeps_makeKey (n : Nat) :
    Keeps doc (makeKey n) fun s => s.From (InDocument doc) := by
  refine Keeps.bind (keeps_make n) fun p hp => ?_
  split
  · exact Keeps.pure (hp _ List.mem_cons_self)
  · exact Keeps.throw _

theorem keeps_fresh : Keeps doc fresh fun _ => True := by
  intro b a b' hrun hb
  obtain ⟨-, rfl⟩ := Prod.mk.inj (Except.ok.inj hrun)
  exact ⟨trivial, hb.congr rfl rfl⟩

theorem keeps_making (n : Nat) : Keeps doc (make n) fun _ => True :=
  fun b a b' hrun hb => ⟨trivial, (keeps_make n b a b' hrun hb).2⟩

theorem keeps_makePairs (ns : List Nat) : Keeps doc (makePairs ns) fun _ => True := by
  induction ns with
  | nil => exact Keeps.pure trivial
  | cons n ns ih =>
    refine Keeps.after (keeps_entriesOf n) fun _ => ?_
    split
    · refine Keeps.after (keeps_making _) fun _ => Keeps.after (keeps_making _) fun _ => ?_
      exact Keeps.after keeps_fresh fun _ => Keeps.after ih fun _ => Keeps.pure trivial
    · exact Keeps.throw _

/-- Entries with distinct keys, whose days are nodes of the document. -/
def GoodEntries (doc : Nat) (es : List (Nat × Scalar × Nat)) : Prop :=
  DistinctKeys es ∧ ∀ e ∈ es, e.2.1.From (InDocument doc)

theorem GoodEntries.setEntry {es : List (Nat × Scalar × Nat)} (h : GoodEntries doc es) (n : Nat)
    {k : Scalar} (hk : k.From (InDocument doc)) (v : Nat) :
    GoodEntries doc (Build.setEntry es n k v) := by
  refine ⟨h.1.setEntry n k v, fun e he => ?_⟩
  rcases DistinctKeys.key_of_mem_setEntry he with hkey | ⟨f, hf, hkey⟩
  · rw [hkey]
    exact hk
  · rw [hkey]
    exact h.2 f hf

theorem keeps_makeEntries (es : List (Nat × Nat)) {done : List (Nat × Scalar × Nat)}
    (hdone : GoodEntries doc done) : Keeps doc (makeEntries es done) (GoodEntries doc) := by
  induction es generalizing done with
  | nil => exact Keeps.pure hdone
  | cons e es ih =>
    refine Keeps.bind (keeps_makeKey e.1) fun k hk => Keeps.after (keeps_making e.2) fun _ => ?_
    exact ih (hdone.setEntry e.1 hk e.2)

theorem keeps_nextMerge? (i : Nat) (es : List (Nat × Nat)) :
    Keeps doc (nextMerge? i es) fun _ => True := by
  induction es generalizing i with
  | nil => exact Keeps.pure trivial
  | cons e es ih =>
    refine Keeps.after (keeps_tagOf e.1) fun tag => ?_
    split
    · exact Keeps.pure trivial
    · exact Keeps.after (keeps_change _ _) fun _ => ih _
    · exact ih _

/-- Entries are taken over between nodes, before any of them is in a mapping. -/
theorem keeps_flat (fuel : Nat) :
    (∀ n i merged, Keeps doc (flatten fuel n i merged) fun _ => True) ∧
      (∀ v, Keeps doc (takenFrom fuel v) fun _ => True) ∧
      ∀ n, Keeps doc (flatEntries fuel n) fun _ => True := by
  induction fuel with
  | zero =>
    refine ⟨fun n i merged => ?_, fun v => ?_, fun n => ?_⟩
    · rw [flatten]; exact Keeps.throw _
    · rw [takenFrom]; exact Keeps.throw _
    · rw [flatEntries]; exact Keeps.throw _
  | succ fuel ih =>
    obtain ⟨hflatten, htaken, hflat⟩ := ih
    refine ⟨fun n i merged => ?flatten, fun v => ?taken, fun n => ?flat⟩
    case flatten =>
      rw [flatten]
      refine Keeps.after (keeps_entriesOf n) fun es => Keeps.after (keeps_nextMerge? _ _) fun _ => ?_
      split
      · split
        · exact keeps_change _ _
        · exact Keeps.pure trivial
      · refine Keeps.after (keeps_change _ _) fun _ => Keeps.after (htaken _) fun _ => ?_
        exact hflatten _ _ _
    case taken =>
      rw [takenFrom]
      refine Keeps.after (keeps_node v) fun _ => ?_
      split
      · exact Keeps.throw _
      · exact hflat _
      · exact Keeps.after (Keeps.mapM hflat _) fun _ => Keeps.pure trivial
    case flat =>
      rw [flatEntries]
      refine Keeps.after (keeps_node n) fun _ => ?_
      split
      · exact Keeps.after (hflatten _ _ _) fun _ => keeps_entriesOf n
      · exact Keeps.throw _

theorem keeps_allEntries (n : Nat) : Keeps doc (allEntries n) (GoodEntries doc) := by
  refine Keeps.bind Keeps.get fun b _ => Keeps.after ((keeps_flat _).2.2 n) fun es => ?_
  exact keeps_makeEntries es ⟨List.Pairwise.nil, fun _ h => absurd h List.not_mem_nil⟩

/-- A set has the keys of its mapping as its members. -/
theorem membersOf_perm (doc : Nat) (keys : List Scalar) : (membersOf doc keys).Perm keys := by
  unfold membersOf
  dsimp only
  split
  · exact (SetOrder.copied_perm _).trans (SetOrder.ofKeys_perm keys)
  · exact SetOrder.ofKeys_perm keys

theorem keeps_fill (n : Nat) : Keeps doc (fill n) fun _ => True := by
  -- Items and pairs are nodes, and no scalars of the part itself.
  have hbare : ∀ p : Part, (∀ es, p ≠ .map es) → p.scalars = [] →
      Keeps doc (become n p) fun _ => True := fun p hp hs =>
    keeps_become (fun es h => absurd h (hp es)) fun s h => absurd (hs ▸ h) List.not_mem_nil
  refine Keeps.after (keeps_node n) fun node => ?_
  split
  · refine Keeps.after (Keeps.forM (fun i => ?_) _) fun _ => hbare _ nofun rfl
    exact Keeps.after (keeps_making i) fun _ => Keeps.pure trivial
  · exact Keeps.after (keeps_makePairs _) fun _ => hbare _ nofun rfl
  · exact Keeps.after (keeps_makePairs _) fun _ => hbare _ nofun rfl
  · refine Keeps.bind (keeps_allEntries n) fun es hes => keeps_become (fun es' h => ?_) ?_
    · exact Part.map.inj h ▸ hes.1
    · exact List.forall_mem_map.mpr hes.2
  · refine Keeps.bind (keeps_allEntries n) fun es hes => Keeps.bind Keeps.get fun b _ => ?_
    refine keeps_become nofun fun s hs => ?_
    exact List.forall_mem_map.mpr hes.2 s ((membersOf_perm b.doc _).mem_iff.mp hs)
  · exact Keeps.throw _

theorem keeps_fillAll (fuel : Nat) : Keeps doc (fillAll fuel) fun _ => True := by
  induction fuel with
  | zero => exact Keeps.pure trivial
  | succ fuel ih =>
    refine Keeps.bind Keeps.get fun b hb => ?_
    split
    · exact Keeps.pure trivial
    · exact Keeps.after (Keeps.set (hb.congr rfl rfl)) fun _ =>
        Keeps.after (keeps_fill _) fun _ => ih

theorem keeps_document (root : Nat) : Keeps doc (document root) fun _ => True :=
  Keeps.after (keeps_making root) fun _ => Keeps.bind Keeps.get fun _ _ => keeps_fillAll _

end Build

/-! ## What is read -/

/-- The keys of the mapping that a value is. -/
theorem keys_fillEntries (o : Origin) (v : Value) (m : Mapping) :
    (Value.fillEntries o v m).map (·.1) = m.map (·.1) := by
  induction m with
  | nil => rfl
  | cons e m ih => simp [Value.fillEntries, ih]

theorem mem_fillEntries {o : Origin} {v : Value} {m : Mapping} {e : Scalar × Value}
    (h : e ∈ Value.fillEntries o v m) : ∃ f ∈ m, e.2 = Value.fill o v f.2 := by
  induction m with
  | nil => exact absurd h List.not_mem_nil
  | cons f m ih =>
    rcases List.mem_cons.mp h with rfl | h
    · exact ⟨f, by simp, rfl⟩
    · obtain ⟨g, hg, hfilled⟩ := ih h
      exact ⟨g, List.mem_cons_of_mem _ hg, hfilled⟩

/-- A loop that is left points elsewhere, or was put there. -/
theorem loop_of_fill {o p : Origin} {v x : Value} {s : Shape} (h : Value.fill o v x = .loop s p) :
    (x = .loop s p ∧ p ≠ o) ∨ v = .loop s p := by
  cases x with
  | loop s' p' =>
    rw [Value.fill] at h
    split at h
    · exact Or.inr h
    · rename_i hne
      obtain ⟨rfl, rfl⟩ := Value.loop.inj h
      exact Or.inl ⟨rfl, hne⟩
  | _ => cases h

/-- The root of a document with the entries of a mapping is that mapping. -/
theorem exists_of_value_eq_map {b : Building} {fuel root : Nat} {o : Origin} {m : Mapping}
    (h : b.value (fuel + 1) [] root = .map o m) :
    o = .node b.doc root ∧ ∃ es, b.part? root = some (.map es) ∧
      m = es.map fun e => (e.2.1, b.value fuel [root] e.2.2) := by
  have hopen : (b.shape? root).filter (fun _ => ([] : List Nat).contains root) = none := by
    cases b.shape? root <;> rfl
  rw [Building.value, hopen] at h
  dsimp only at h
  split at h <;> cases h
  rename_i es hpart
  exact ⟨rfl, es, hpart, rfl⟩

/-- Inside the root, only the root is pointed at. -/
theorem eq_of_value_eq_loop {b : Building} {fuel root n : Nat} {s : Shape} {p : Origin}
    (h : b.value fuel [root] n = .loop s p) : p = .node b.doc root := by
  cases fuel with
  | zero => cases h
  | succ fuel =>
    rw [Building.value] at h
    dsimp only at h
    split at h
    · rename_i s' hloop
      obtain ⟨-, rfl⟩ := Value.loop.inj h
      have hin : [root].contains n = true := (Option.filter_eq_some_iff.mp hloop).2
      rw [List.contains_eq_mem, decide_eq_true_eq, List.mem_singleton] at hin
      rw [hin]
    · split at h <;> cases h

/-- Every origin in a value that was read is a node of the document. -/
theorem from_value {doc : Nat} {b : Building} (hb : b.Good doc) (fuel : Nat) (around : List Nat)
    (n : Nat) : (b.value fuel around n).From (InDocument doc) := by
  have hnode (n : Nat) : InDocument doc (.node b.doc n) := ⟨n, by rw [hb.doc_eq]⟩
  induction fuel generalizing around n with
  | zero => trivial
  | succ fuel ih =>
    rw [Building.value]
    dsimp only
    split
    · exact hnode n
    · split
      · rename_i s hpart
        exact hb.scalars n _ hpart s List.mem_cons_self
      · exact ⟨hnode n, Value.fromAll_iff.mpr (List.forall_mem_map.mpr fun i _ => ih _ i)⟩
      · refine ⟨hnode n, Value.fromAll_iff.mpr (List.forall_mem_map.mpr fun e _ => ?_)⟩
        exact ⟨hnode e.1, ih _ _, ih _ _, trivial⟩
      · rename_i members hpart
        exact ⟨hnode n, hb.scalars n _ hpart⟩
      · rename_i es hpart
        refine ⟨hnode n, Value.fromEntries_iff.mpr (List.forall_mem_map.mpr fun e he => ?_)⟩
        exact ⟨hb.scalars n _ hpart _ (List.mem_map_of_mem he), ih _ _⟩
      · trivial

section
variable {doc : Nat} {s : Source} {v : Value} {m : Mapping}

/-- A mapping that is read is that of the root of a document. -/
theorem exists_root (hread : readSource doc s = .ok v) (hm : v.entries? = some m) :
    ∃ (b : Building) (fuel root : Nat) (es : List (Nat × Scalar × Nat)) (n : Mapping),
      DistinctKeys es ∧ v = .map (.node b.doc root) n ∧
      m = Value.fillEntries (.node b.doc root) v
        (es.map fun e => (e.2.1, b.value fuel [root] e.2.2)) := by
  obtain ⟨found, -, hread⟩ := exists_of_bind_eq_ok hread
  cases found with
  | none =>
    obtain rfl := Except.ok.inj hread
    cases hm
  | some g =>
    obtain ⟨⟨_, b⟩, hdocument, hread⟩ := exists_of_bind_eq_ok hread
    obtain ⟨-, hb⟩ := Build.keeps_document g.root _ _ _ hdocument
      (Building.Good.start doc g.nodes)
    have hvalue : b.value (g.nodes.size + 1) [] g.root = v := Except.ok.inj hread
    cases v with
    | map o n =>
      obtain ⟨rfl, es, hpart, rfl⟩ := exists_of_value_eq_map hvalue
      exact ⟨b, g.nodes.size, g.root, es, _, hb.distinct _ _ hpart, rfl, (Option.some.inj hm).symm⟩
    | _ => cases hm

/-- A mapping that is read holds every key once. -/
theorem distinct_of_readSource (hread : readSource doc s = .ok v) (hm : v.entries? = some m) :
    m.Distinct := by
  obtain ⟨b, fuel, root, es, n, hes, -, rfl⟩ := exists_root hread hm
  rw [Mapping.distinct_iff_keys, keys_fillEntries, List.map_map]
  exact List.pairwise_map.mpr hes

/-- What stands in a mapping that is read points nowhere outside of the mapping. -/
theorem no_loop_of_readSource (hread : readSource doc s = .ok v) (hm : v.entries? = some m)
    {e : Scalar × Value} (he : e ∈ m) (shape : Shape) (o : Origin) : e.2 ≠ .loop shape o := by
  obtain ⟨b, fuel, root, es, n, -, hv, rfl⟩ := exists_root hread hm
  obtain ⟨x, hx, hfilled⟩ := mem_fillEntries he
  obtain ⟨entry, -, rfl⟩ := List.mem_map.mp hx
  rw [hfilled]
  intro hloop
  rcases loop_of_fill hloop with hinner | hself
  · exact hinner.2 (eq_of_value_eq_loop hinner.1)
  · rw [hv] at hself
    cases hself

/-- Every origin in what is read is a node of the document. -/
theorem from_readSource (hread : readSource doc s = .ok v) : v.From (InDocument doc) := by
  obtain ⟨found, -, hread⟩ := exists_of_bind_eq_ok hread
  cases found with
  | none =>
    obtain rfl := Except.ok.inj hread
    trivial
  | some g =>
    obtain ⟨⟨_, b⟩, hdocument, hread⟩ := exists_of_bind_eq_ok hread
    obtain ⟨-, hb⟩ := Build.keeps_document g.root _ _ _ hdocument
      (Building.Good.start doc g.nodes)
    obtain rfl := Except.ok.inj hread
    exact from_value hb _ _ _

end

end AgentRelay.Yaml
