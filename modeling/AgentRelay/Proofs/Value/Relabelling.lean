import AgentRelay.Document.Provenance
import AgentRelay.Proofs.Mapping
import Mathlib.Data.List.Basic

/-
  Values whose nodes have other numbers.

  The number of a node only says which places hold one collection. Reading and
  changing a mapping does not ask for it (`get?_via`, `set_via`, `merge_via`), and
  where different nodes stay different (`Faithful`), the parts of a value
  (`items?_via`, `entries?_via`) and its text (`display?_via`) are the same but for
  their own nodes.
-/

namespace AgentRelay

/-- What each node of a document stands for elsewhere. -/
abbrev Labels := Nat × Nat → Origin

/-- Every node stands for a node, and different nodes for different ones. -/
structure Labels.Faithful (g : Labels) : Prop where
  node : ∀ i, Value.isNode (g i) = true
  injective : Function.Injective g

def Origin.via (g : Labels) : Origin → Origin
  | .node doc n => g (doc, n)
  | .own => .own
  | .inlineTable => .inlineTable

def Scalar.via (g : Labels) : Scalar → Scalar
  | .date o d => .date (o.via g) d
  | .moment o m => .moment (o.via g) m
  | s => s

mutual

/-- The value with other nodes. -/
def Value.via (g : Labels) : Value → Value
  | .scalar s => .scalar (s.via g)
  | .seq o xs => .seq (o.via g) (Value.viaAll g xs)
  | .tuple o xs => .tuple (o.via g) (Value.viaAll g xs)
  | .set o xs => .set (o.via g) (xs.map (Scalar.via g))
  | .map o m => .map (o.via g) (Value.viaEntries g m)
  | .loop s o => .loop s (o.via g)

def Value.viaAll (g : Labels) : List Value → List Value
  | [] => []
  | x :: xs => x.via g :: Value.viaAll g xs

def Value.viaEntries (g : Labels) : List (Scalar × Value) → List (Scalar × Value)
  | [] => []
  | (k, v) :: m => (k.via g, v.via g) :: Value.viaEntries g m

end

/-- The mapping with other nodes. -/
def Mapping.via (g : Labels) (m : Mapping) : Mapping := m.map fun e => (e.1.via g, e.2.via g)

variable {g : Labels}

/-! ## What does not ask for nodes -/

@[simp] theorem Scalar.via_text (g : Labels) (s : String) : (Scalar.text s).via g = .text s := rfl

@[simp] theorem Value.via_scalar (g : Labels) (s : Scalar) :
    (Value.scalar s).via g = .scalar (s.via g) := by rw [via]

@[simp] theorem Value.via_phrase (g : Labels) (p : Phrase) : (Value.phrase p).via g = .phrase p := by
  cases p <;> simp [phrase, Scalar.phrase, Scalar.via]

theorem Value.viaAll_eq_map (g : Labels) (xs : List Value) : viaAll g xs = xs.map (via g) := by
  induction xs with
  | nil => simp [viaAll]
  | cons x xs ih => simp [viaAll, ih]

theorem Value.viaEntries_eq_via (g : Labels) (m : Mapping) : viaEntries g m = m.via g := by
  induction m with
  | nil => simp [viaEntries, Mapping.via]
  | cons e m ih =>
    obtain ⟨k, v⟩ := e
    simpa [viaEntries, Mapping.via] using ih

@[simp] theorem Value.via_seq (g : Labels) (o : Origin) (xs : List Value) :
    (Value.seq o xs).via g = .seq (o.via g) (xs.map (via g)) := by rw [via, viaAll_eq_map]

@[simp] theorem Value.via_tuple (g : Labels) (o : Origin) (xs : List Value) :
    (Value.tuple o xs).via g = .tuple (o.via g) (xs.map (via g)) := by rw [via, viaAll_eq_map]

@[simp] theorem Value.via_set (g : Labels) (o : Origin) (xs : List Scalar) :
    (Value.set o xs).via g = .set (o.via g) (xs.map (Scalar.via g)) := by rw [via]

@[simp] theorem Value.via_map (g : Labels) (o : Origin) (m : Mapping) :
    (Value.map o m).via g = .map (o.via g) (m.via g) := by rw [via, viaEntries_eq_via]

@[simp] theorem Value.via_loop (g : Labels) (s : Shape) (o : Origin) :
    (Value.loop s o).via g = .loop s (o.via g) := by rw [via]

@[simp] theorem Scalar.same_via (s t : Scalar) : (s.via g).same (t.via g) = s.same t := by
  cases s <;> cases t <;> rfl

@[simp] theorem Scalar.same_via_text (s : Scalar) (a : String) :
    (s.via g).same (.text a) = s.same (.text a) :=
  same_via (g := g) s (.text a)

@[simp] theorem Value.isNull_via (v : Value) : (v.via g).isNull = v.isNull := by
  cases v with
  | scalar s => cases s <;> simp [isNull, Scalar.via]
  | _ => simp [isNull]

@[simp] theorem Value.truthy_via (v : Value) : (v.via g).truthy = v.truthy := by
  cases v with
  | scalar s => cases s <;> simp [truthy, Scalar.via]
  | _ => simp [truthy, Mapping.via]

@[simp] theorem Value.bool?_via (v : Value) : (v.via g).bool? = v.bool? := by
  cases v with
  | scalar s => cases s <;> simp [bool?, Scalar.via]
  | _ => simp [bool?]

@[simp] theorem Value.phrase?_via (v : Value) : (v.via g).phrase? = v.phrase? := by
  cases v with
  | scalar s => cases s <;> simp [phrase?, Scalar.via]
  | _ => simp [phrase?]

@[simp] theorem Value.isMapping_via (v : Value) : (v.via g).isMapping = v.isMapping := by
  cases v with
  | loop s o => cases s <;> simp [isMapping]
  | _ => simp [isMapping]

namespace Mapping

@[simp] theorem via_nil (g : Labels) : via g [] = [] := rfl

@[simp] theorem via_cons (g : Labels) (k : Scalar) (v : Value) (m : Mapping) :
    via g ((k, v) :: m) = (k.via g, v.via g) :: via g m := rfl

theorem via_append (g : Labels) (m n : Mapping) : via g (m ++ n) = via g m ++ via g n :=
  List.map_append

@[simp] theorem isEmpty_via (m : Mapping) : (via g m).isEmpty = m.isEmpty := by
  cases m <;> rfl

theorem get?_via (m : Mapping) (key : Scalar) :
    get? (m.via g) (key.via g) = (get? m key).map (Value.via g) := by
  induction m with
  | nil => rfl
  | cons e m ih =>
    obtain ⟨k, v⟩ := e
    rw [via_cons, get?_cons, get?_cons, Scalar.same_via, ih]
    split <;> rfl

theorem get?_via_text (m : Mapping) (a : String) :
    get? (m.via g) (.text a) = (get? m (.text a)).map (Value.via g) := get?_via m (.text a)

theorem contains_via (m : Mapping) (key : Scalar) :
    contains (m.via g) (key.via g) = contains m key := by
  rw [contains, get?_via, Option.isSome_map, ← contains]

theorem field_via (m : Mapping) (key : String) :
    field (m.via g) key = (field m key).via g := by
  rw [field, get?_via_text, field]
  cases get? m (.text key) <;> simp [Scalar.via]

theorem set_via (m : Mapping) (key : Scalar) (v : Value) :
    set (m.via g) (key.via g) (v.via g) = (set m key v).via g := by
  induction m with
  | nil => rfl
  | cons e m ih =>
    obtain ⟨k, w⟩ := e
    rw [via_cons, set, set, Scalar.same_via, ih]
    split <;> rfl

theorem set_via_text (m : Mapping) (a : String) (v : Value) :
    set (m.via g) (.text a) (v.via g) = (set m (.text a) v).via g := set_via m (.text a) v

theorem merge_via (m n : Mapping) : merge (m.via g) (n.via g) = (merge m n).via g := by
  unfold merge
  induction n generalizing m with
  | nil => rfl
  | cons e n ih =>
    obtain ⟨k, v⟩ := e
    rw [via_cons, List.foldl_cons, List.foldl_cons, set_via, ih]

/-- Entries are chosen alike by what their nodes do not count for. -/
theorem filter_via {p q : Scalar × Value → Bool} (h : ∀ e, p (e.1.via g, e.2.via g) = q e)
    (m : Mapping) : (m.via g).filter p = via g (m.filter q) := by
  rw [via, List.filter_map]
  congr 2
  exact funext h

theorem without_via (m : Mapping) (key : String) :
    without (m.via g) key = (without m key).via g :=
  filter_via (fun e => by rw [Scalar.same_via_text]) m

theorem clean_via (m : Mapping) : clean (m.via g) = (clean m).via g :=
  filter_via (fun e => by rw [Value.isNull_via]) m

end Mapping

/-! ## What asks whether nodes are the same -/

namespace Labels.Faithful

theorem isNode_via (hg : g.Faithful) (o : Origin) : Value.isNode (o.via g) = Value.isNode o := by
  cases o with
  | node doc n => exact hg.node (doc, n)
  | _ => rfl

theorem via_inj (hg : g.Faithful) {o p : Origin} : o.via g = p.via g ↔ o = p := by
  refine ⟨fun h => ?_, fun h => by rw [h]⟩
  have hnode := congrArg Value.isNode h
  rw [hg.isNode_via, hg.isNode_via] at hnode
  cases o with
  | node doc n =>
    cases p with
    | node doc' n' => obtain ⟨rfl, rfl⟩ := Prod.mk.inj (hg.injective h); rfl
    | _ => cases hnode
  | own =>
    cases p with
    | own => rfl
    | node doc n => cases hnode
    | inlineTable => exact absurd h (by simp [Origin.via])
  | inlineTable =>
    cases p with
    | inlineTable => rfl
    | node doc n => cases hnode
    | own => exact absurd h (by simp [Origin.via])

mutual

theorem fill_via (hg : g.Faithful) (o : Origin) (v : Value) :
    ∀ x : Value, Value.fill (o.via g) (v.via g) (x.via g) = (Value.fill o v x).via g
  | .scalar s => by simp [Value.fill]
  | .seq p xs => by
    by_cases hp : p = o
    · simp [Value.fill, hp]
    · have hne : p.via g ≠ o.via g := fun h => hp (hg.via_inj.mp h)
      have hall := fillAll_via hg o v xs
      simp only [Value.viaAll_eq_map] at hall
      simp [Value.fill, hp, hne, hall]
  | .tuple p xs => by
    by_cases hp : p = o
    · simp [Value.fill, hp]
    · have hne : p.via g ≠ o.via g := fun h => hp (hg.via_inj.mp h)
      have hall := fillAll_via hg o v xs
      simp only [Value.viaAll_eq_map] at hall
      simp [Value.fill, hp, hne, hall]
  | .set p xs => by simp [Value.fill]
  | .map p m => by
    by_cases hp : p = o
    · simp [Value.fill, hp]
    · have hne : p.via g ≠ o.via g := fun h => hp (hg.via_inj.mp h)
      have hall := fillEntries_via hg o v m
      simp only [Value.viaEntries_eq_via] at hall
      simp [Value.fill, hp, hne, hall]
  | .loop s p => by
    by_cases hp : p = o
    · simp [Value.fill, hp]
    · have hne : p.via g ≠ o.via g := fun h => hp (hg.via_inj.mp h)
      simp [Value.fill, hp, hne]

theorem fillAll_via (hg : g.Faithful) (o : Origin) (v : Value) :
    ∀ xs : List Value, Value.fillAll (o.via g) (v.via g) (Value.viaAll g xs) =
      Value.viaAll g (Value.fillAll o v xs)
  | [] => by simp [Value.fillAll, Value.viaAll]
  | x :: xs => by
    simp only [Value.viaAll, Value.fillAll]
    rw [fill_via hg o v x, fillAll_via hg o v xs]

theorem fillEntries_via (hg : g.Faithful) (o : Origin) (v : Value) :
    ∀ m : List (Scalar × Value), Value.fillEntries (o.via g) (v.via g) (Value.viaEntries g m) =
      Value.viaEntries g (Value.fillEntries o v m)
  | [] => by simp [Value.fillEntries, Value.viaEntries]
  | (k, x) :: m => by
    simp only [Value.viaEntries, Value.fillEntries]
    rw [fill_via hg o v x, fillEntries_via hg o v m]

end

theorem items?_via (hg : g.Faithful) (v : Value) : (v.via g).items? = v.items?.map (List.map (Value.via g)) := by
  have hitems : ∀ (o : Origin) (xs : List Value) (w : Value),
      (if Value.isNode (o.via g) then Value.fillAll (o.via g) (w.via g) (xs.map (Value.via g))
        else xs.map (Value.via g)) =
      List.map (Value.via g) (if Value.isNode o then Value.fillAll o w xs else xs) := by
    intro o xs w
    rw [hg.isNode_via, ← Value.viaAll_eq_map, hg.fillAll_via]
    split <;> rw [Value.viaAll_eq_map]
  cases v with
  | seq o xs =>
    have hseq := hitems o xs (.seq o xs)
    rw [Value.via_seq] at hseq ⊢
    exact congrArg some hseq
  | tuple o xs =>
    have htuple := hitems o xs (.tuple o xs)
    rw [Value.via_tuple] at htuple ⊢
    exact congrArg some htuple
  | _ => simp [Value.items?]

theorem entries?_via (hg : g.Faithful) (v : Value) : (v.via g).entries? = v.entries?.map (Mapping.via g) := by
  cases v with
  | map o m =>
    have hfill := hg.fillEntries_via o (.map o m) m
    simp only [Value.viaEntries_eq_via, Value.via_map] at hfill
    simp only [Value.via_map, Value.entries?, hg.isNode_via, hfill, Option.map_some]
    split <;> rfl
  | _ => simp [Value.entries?]

/-! ## Texts of values -/

theorem scalar?_via (s : Scalar) : Literal.scalar? (s.via g) = Literal.scalar? s := by
  cases s <;> rfl

theorem contains_map_via (hg : g.Faithful) (around : List Origin) (o : Origin) :
    (around.map (Origin.via g)).contains (o.via g) = around.contains o := by
  induction around with
  | nil => rfl
  | cons p around ih =>
    rw [List.map_cons, List.contains_cons, List.contains_cons, ih]
    congr 1
    rw [Bool.eq_iff_iff, beq_iff_eq, beq_iff_eq, hg.via_inj]

theorem insideOf_via (hg : g.Faithful) (around : List Origin) (o : Origin) :
    (o.via g).insideOf (around.map (Origin.via g)) = (o.insideOf around).map (Origin.via g) := by
  rw [Origin.insideOf, Origin.insideOf, hg.isNode_via]
  split <;> rfl

mutual

theorem literalIn?_via (hg : g.Faithful) (around : List Origin) :
    ∀ v : Value, (v.via g).literalIn? (around.map (Origin.via g)) = v.literalIn? around
  | .scalar s => by simp [Value.literalIn?, scalar?_via]
  | .seq o xs => by
    have hall := literals?_via hg (o.insideOf around) xs
    rw [← hg.insideOf_via, Value.viaAll_eq_map] at hall
    simp only [Value.via_seq, Value.literalIn?, hg.contains_map_via, hall]
  | .tuple o xs => by
    have hall := literals?_via hg (o.insideOf around) xs
    rw [← hg.insideOf_via, Value.viaAll_eq_map] at hall
    simp only [Value.via_tuple, Value.literalIn?, hg.contains_map_via, hall]
  | .set o [] => by simp [Value.literalIn?]
  | .set o (x :: xs) => by
    have hmap : ((x :: xs).map (Scalar.via g)).mapM Literal.scalar? =
        (x :: xs).mapM Literal.scalar? := by
      rw [List.mapM_map]
      exact congrArg (fun f => (x :: xs).mapM f) (funext scalar?_via)
    simp only [Value.via_set, List.map_cons, Value.literalIn?] at hmap ⊢
    rw [hmap]
  | .map o m => by
    have hall := literalEntries?_via hg (o.insideOf around) m
    rw [← hg.insideOf_via, Value.viaEntries_eq_via] at hall
    simp only [Value.via_map, Value.literalIn?, hg.contains_map_via, hall]
  | .loop s o => by simp [Value.literalIn?]

theorem literals?_via (hg : g.Faithful) (around : List Origin) :
    ∀ xs : List Value, Value.literals? (around.map (Origin.via g)) (Value.viaAll g xs) =
      Value.literals? around xs
  | [] => by simp [Value.viaAll, Value.literals?]
  | x :: xs => by
    simp only [Value.viaAll, Value.literals?]
    rw [literalIn?_via hg around x, literals?_via hg around xs]

theorem literalEntries?_via (hg : g.Faithful) (around : List Origin) :
    ∀ m : List (Scalar × Value),
      Value.literalEntries? (around.map (Origin.via g)) (Value.viaEntries g m) =
        Value.literalEntries? around m
  | [] => by simp [Value.viaEntries, Value.literalEntries?]
  | (k, v) :: m => by
    simp only [Value.viaEntries, Value.literalEntries?, scalar?_via]
    rw [literalIn?_via hg around v, literalEntries?_via hg around m]

end

/-- A value has the text it had. -/
theorem display?_via (hg : g.Faithful) (v : Value) : (v.via g).display? = v.display? := by
  have hliteral : (v.via g).literal? = v.literal? := hg.literalIn?_via [] v
  cases v with
  | scalar s => cases s <;> rfl
  | seq o xs => rw [Value.via_seq] at hliteral ⊢; exact hliteral
  | tuple o xs => rw [Value.via_tuple] at hliteral ⊢; exact hliteral
  | set o xs => rw [Value.via_set] at hliteral ⊢; exact hliteral
  | map o m => rw [Value.via_map] at hliteral ⊢; exact hliteral
  | loop s o => rw [Value.via_loop] at hliteral ⊢; exact hliteral

theorem shown_via (hg : g.Faithful) (v : Value) : (v.via g).shown = v.shown := by
  rw [Value.shown, Value.phrase?_via, Value.displayed, hg.display?_via, ← Value.displayed,
    ← Value.shown]

theorem asText_via (hg : g.Faithful) (v : Value) : (v.via g).asText = v.asText := by
  rw [Value.asText, Value.isNull_via, hg.shown_via, ← Value.asText]

theorem itemTexts_via (hg : g.Faithful) (xs : List Value) : itemTexts (xs.map (Value.via g)) = itemTexts xs := by
  have hfilter : (xs.map (Value.via g)).filter (fun v => !v.isNull) =
      (xs.filter fun v => !v.isNull).map (Value.via g) := by
    rw [List.filter_map]
    congr 2
    exact funext fun v => congrArg Bool.not (Value.isNull_via v)
  rw [itemTexts, hfilter, List.mapM_map, itemTexts]
  exact congrArg (fun f => (xs.filter fun v => !v.isNull).mapM f) (funext hg.shown_via)

/-- A history is told whatever nodes it is told by. -/
theorem provenance_via (hg : g.Faithful) (v : Value) : provenance (v.via g) = provenance v := by
  have hitems : ((v.via g).items?.elim (.ok none) fun xs => (itemTexts xs).map nonempty? :
        Except Misfit (Option (List Phrase))) =
      v.items?.elim (.ok none) fun xs => (itemTexts xs).map nonempty? := by
    rw [hg.items?_via]
    cases v.items? with
    | none => rfl
    | some xs => simp only [Option.map_some, Option.elim_some, hg.itemTexts_via]
  cases v with
  | scalar s => cases s <;> rfl
  | seq o xs => rw [Value.via_seq] at hitems ⊢; exact hitems
  | tuple o xs => rw [Value.via_tuple] at hitems ⊢; exact hitems
  | set o xs => rw [Value.via_set] at hitems ⊢; exact hitems
  | map o m => rw [Value.via_map] at hitems ⊢; exact hitems
  | loop s o => rw [Value.via_loop] at hitems ⊢; exact hitems

end Labels.Faithful

end AgentRelay
