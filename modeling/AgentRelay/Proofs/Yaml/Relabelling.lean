import AgentRelay.Frontmatter
import AgentRelay.Proofs.Value.Relabelling
import AgentRelay.Yaml.Writer

/-
  The YAML of a mapping whose nodes have other numbers.

  A node has a name in the document exactly when it is met twice. So a mapping is
  written as before when its nodes stand for others that are met at the same places:
  different ones for different ones, and a node of its own for each that is met twice
  (`Sound`). Meeting the nodes (`Meetings.value_via`) and writing them
  (`Writer.value_via`) then go on in step, and the document is the same
  (`write_via`).
-/

namespace AgentRelay.Yaml

/-- What the nodes stand for can be told apart where the nodes can, and each node with
a name still is one. -/
structure Sound (g : Labels) (named : List Identity) : Prop where
  apart : ∀ i j k, identity? (g i) = some k → identity? (g j) = some k → i = j
  kept : ∀ i ∈ named, (identity? (g i)).isSome
  /-- No node stands for a table on one line. -/
  block : ∀ i, g i ≠ .inlineTable

theorem Sound.mono {g : Labels} {named more : List Identity} (h : Sound g more)
    (hs : ∀ i ∈ named, i ∈ more) : Sound g named :=
  ⟨h.apart, fun i hi => h.kept i (hs i hi), h.block⟩

theorem exists_identity {o : Origin} (h : Value.isNode o = true) : ∃ i, identity? o = some i := by
  cases o with
  | node doc n => exact ⟨(doc, n), rfl⟩
  | _ => cases h

theorem eq_node_of_identity {o : Origin} {i : Identity} (h : identity? o = some i) :
    o = .node i.1 i.2 := by
  cases o with
  | node doc n => obtain rfl := Option.some.inj h; rfl
  | _ => cases h

/-- Numbers that stay apart serve for every document. -/
theorem Sound.of_faithful {g : Labels} (h : g.Faithful) (named : List Identity) :
    Sound g named where
  apart i j k hi hj :=
    h.injective ((eq_node_of_identity hi).trans (eq_node_of_identity hj).symm)
  kept i _ := by
    obtain ⟨k, hk⟩ := exists_identity (h.node i)
    rw [hk]; rfl
  block i hi := by
    have hnode := h.node i
    rw [hi] at hnode
    cases hnode

/-- The identities that the nodes stand for. -/
def identities (g : Labels) (is : List Identity) : List Identity :=
  is.filterMap fun i => identity? (g i)

variable {g : Labels}

theorem identity?_node (doc n : Nat) : identity? (.node doc n) = some (doc, n) := rfl

theorem identity?_via_node (doc n : Nat) :
    identity? ((Origin.node doc n).via g) = identity? (g (doc, n)) := rfl

theorem mem_identities {is : List Identity} {i k : Identity} {named : List Identity}
    (hg : Sound g named) (hk : identity? (g i) = some k) : k ∈ identities g is ↔ i ∈ is := by
  refine ⟨fun h => ?_, fun h => List.mem_filterMap.mpr ⟨i, h, hk⟩⟩
  obtain ⟨j, hj, hjk⟩ := List.mem_filterMap.mp h
  rwa [← hg.apart j i k hjk hk]

theorem contains_identities {is : List Identity} {i k : Identity} {named : List Identity}
    (hg : Sound g named) (hk : identity? (g i) = some k) :
    (identities g is).contains k = is.contains i := by
  rw [Bool.eq_iff_iff, List.contains_iff_mem, List.contains_iff_mem, mem_identities hg hk]

@[simp] theorem originOf_via (s : Scalar) : originOf (s.via g) = (originOf s).via g := by
  cases s <;> rfl

/-! ## Meeting the nodes -/

namespace Meetings

def via (g : Labels) (m : Meetings) : Meetings := ⟨identities g m.seen, identities g m.twice⟩

/-- What was met twice stays so. -/
theorem twice_meet (o : Origin) (m : Meetings) {i : Identity} (h : i ∈ m.twice) :
    i ∈ (m.meet o).1.twice := by
  unfold meet
  split
  · exact h
  · split
    · split
      · exact h
      · exact List.mem_append_left _ h
    · exact h

theorem twice_scalar (s : Scalar) (m : Meetings) {i : Identity} (h : i ∈ m.twice) :
    i ∈ (m.scalar s).twice :=
  twice_meet _ _ h

theorem twice_scalars (xs : List Scalar) (m : Meetings) {i : Identity} (h : i ∈ m.twice) :
    i ∈ (xs.foldl (fun m s => m.scalar s) m).twice := by
  induction xs generalizing m with
  | nil => exact h
  | cons x xs ih => exact ih _ (twice_scalar x m h)

/-- A node met again ends the walk; met for the first time it goes on inside. -/
theorem twice_node {o : Origin} {m : Meetings} {inside : Meetings → Meetings} {i : Identity}
    (hin : ∀ n : Meetings, i ∈ n.twice → i ∈ (inside n).twice) (h : i ∈ m.twice) :
    i ∈ (let (n, again) := m.meet o; if again then n else inside n).twice := by
  have hmeet := twice_meet o m h
  dsimp only
  split
  · exact hmeet
  · exact hin _ hmeet

mutual

theorem twice_value {i : Identity} :
    ∀ (v : Value) (m : Meetings), i ∈ m.twice → i ∈ (value v m).twice
  | .scalar s, m, h => by rw [value]; exact twice_scalar s m h
  | .seq o xs, m, h => by rw [value]; exact twice_node (twice_values xs) h
  | .tuple o xs, m, h => by rw [value]; exact twice_node (twice_values xs) h
  | .loop s o, m, h => by rw [value]; exact twice_meet o m h
  | .set o xs, m, h => by rw [value]; exact twice_node (fun n => twice_scalars xs n) h
  | .map o es, m, h => by rw [value]; exact twice_node (twice_entries es) h

theorem twice_values {i : Identity} :
    ∀ (xs : List Value) (m : Meetings), i ∈ m.twice → i ∈ (values xs m).twice
  | [], m, h => by rw [values]; exact h
  | x :: xs, m, h => by rw [values]; exact twice_values xs _ (twice_value x m h)

theorem twice_entries {i : Identity} :
    ∀ (es : List (Scalar × Value)) (m : Meetings), i ∈ m.twice → i ∈ (entries es m).twice
  | [], m, h => by rw [entries]; exact h
  | (k, v) :: es, m, h => by
    rw [entries]
    exact twice_entries es _ (twice_value v _ (twice_scalar k m h))

end

/-- A node is met again exactly when what it stands for is. -/
theorem meet_via {o : Origin} {m : Meetings} (hg : Sound g (m.meet o).1.twice) :
    (m.via g).meet (o.via g) = ((m.meet o).1.via g, (m.meet o).2) := by
  cases o with
  | own => rfl
  | inlineTable => rfl
  | node doc n =>
    have hmeet : m.meet (.node doc n) =
        if m.seen.contains (doc, n) then
          (if m.twice.contains (doc, n) then m
            else { m with twice := m.twice ++ [(doc, n)] }, true)
        else ({ m with seen := (doc, n) :: m.seen }, false) := rfl
    cases hk : identity? (g (doc, n)) with
    | none =>
      -- What has no identity was not met before, or it would be met twice.
      have hnew : m.seen.contains (doc, n) = false := by
        refine Bool.eq_false_iff.mpr fun hseen => ?_
        have htwice : (doc, n) ∈ (m.meet (.node doc n)).1.twice := by
          rw [hmeet, if_pos hseen]
          dsimp only
          split
          · rename_i h
            exact List.contains_iff_mem.mp h
          · simp
        have hsome := hg.kept _ htwice
        rw [hk] at hsome
        cases hsome
      rw [hmeet, hnew, if_neg Bool.false_ne_true]
      simp [meet, identity?_via_node, hk, via, identities]
    | some k =>
      have hseen : (m.via g).seen.contains k = m.seen.contains (doc, n) :=
        contains_identities hg hk
      have htwice : (m.via g).twice.contains k = m.twice.contains (doc, n) :=
        contains_identities hg hk
      rw [hmeet]
      simp only [meet, identity?_via_node, hk, hseen, htwice]
      split
      · split
        · rfl
        · simp [via, identities, hk]
      · simp [via, identities, hk]

theorem scalar_via {s : Scalar} {m : Meetings} (hg : Sound g (m.scalar s).twice) :
    (m.via g).scalar (s.via g) = (m.scalar s).via g := by
  rw [scalar, originOf_via, meet_via hg, ← scalar]

theorem scalars_via {xs : List Scalar} {m : Meetings}
    (hg : Sound g (xs.foldl (fun m s => m.scalar s) m).twice) :
    (xs.map (Scalar.via g)).foldl (fun m s => m.scalar s) (m.via g) =
      (xs.foldl (fun m s => m.scalar s) m).via g := by
  induction xs generalizing m with
  | nil => rfl
  | cons x xs ih =>
    rw [List.map_cons, List.foldl_cons, List.foldl_cons,
      scalar_via (hg.mono fun i hi => twice_scalars xs _ hi), ih hg]

theorem node_via {o : Origin} {m : Meetings} {inside inside' : Meetings → Meetings}
    (hgrow : ∀ (n : Meetings) (i : Identity), i ∈ n.twice → i ∈ (inside n).twice)
    (hin : ∀ n : Meetings, Sound g (inside n).twice → inside' (n.via g) = (inside n).via g)
    (hg : Sound g (let (n, again) := m.meet o; if again then n else inside n).twice) :
    (let (n, again) := (m.via g).meet (o.via g); if again then n else inside' n) =
      (let (n, again) := m.meet o; if again then n else inside n).via g := by
  dsimp only at hg ⊢
  have hfirst : Sound g (m.meet o).1.twice := by
    refine hg.mono fun i hi => ?_
    split
    · exact hi
    · exact hgrow _ i hi
  rw [meet_via hfirst]
  dsimp only
  split
  · rfl
  · rename_i hagain
    rw [if_neg hagain] at hg
    exact hin _ hg

mutual

theorem value_via : ∀ (v : Value) (m : Meetings), Sound g (value v m).twice →
    value (v.via g) (m.via g) = (value v m).via g
  | .scalar s, m, hg => by
    rw [value] at hg ⊢
    rw [Value.via_scalar, value, scalar_via hg]
  | .seq o xs, m, hg => by
    rw [value] at hg ⊢
    rw [Value.via, value]
    exact node_via (fun n i => twice_values xs n) (fun n => values_via xs n) hg
  | .tuple o xs, m, hg => by
    rw [value] at hg ⊢
    rw [Value.via, value]
    exact node_via (fun n i => twice_values xs n) (fun n => values_via xs n) hg
  | .loop s o, m, hg => by
    rw [value] at hg ⊢
    rw [Value.via, value, meet_via hg]
  | .set o xs, m, hg => by
    rw [value] at hg ⊢
    rw [Value.via, value]
    let inside (xs : List Scalar) (m : Meetings) : Meetings := xs.foldl (fun m s => m.scalar s) m
    exact @node_via g o m (inside xs) (inside (xs.map (Scalar.via g)))
      (fun n i => twice_scalars xs n) (fun n hn => scalars_via hn) hg
  | .map o es, m, hg => by
    rw [value] at hg ⊢
    rw [Value.via, value]
    exact node_via (fun n i => twice_entries es n) (fun n => entries_via es n) hg

theorem values_via : ∀ (xs : List Value) (m : Meetings), Sound g (values xs m).twice →
    values (Value.viaAll g xs) (m.via g) = (values xs m).via g
  | [], m, _ => by rw [Value.viaAll, values, values]
  | x :: xs, m, hg => by
    rw [values] at hg ⊢
    rw [Value.viaAll, values, value_via x m (hg.mono fun i => twice_values xs _),
      values_via xs _ hg]

theorem entries_via : ∀ (es : List (Scalar × Value)) (m : Meetings),
    Sound g (entries es m).twice →
    entries (Value.viaEntries g es) (m.via g) = (entries es m).via g
  | [], m, _ => by rw [Value.viaEntries, entries, entries]
  | (k, v) :: es, m, hg => by
    rw [entries] at hg ⊢
    have hvalue := hg.mono fun i => twice_entries es _
    rw [Value.viaEntries, entries, scalar_via (hvalue.mono fun i => twice_value v _),
      value_via v _ hvalue, entries_via es _ hg]

end

end Meetings

/-! ## Writing the nodes -/

@[simp] theorem Written.of_via (s : Scalar) : Written.of (s.via g) = Written.of s := by
  cases s <;> rfl

namespace Writer

def via (g : Labels) (w : Writer) : Writer :=
  ⟨w.sheet, identities g w.named, identities g w.done⟩

@[simp] theorem sheet_via (w : Writer) : (w.via g).sheet = w.sheet := rfl

@[simp] theorem on_via (f : Sheet → Sheet) (w : Writer) : (w.via g).on f = (w.on f).via g := rfl

@[simp] theorem named_on (f : Sheet → Sheet) (w : Writer) : (w.on f).named = w.named := rfl

/-- Nodes have the numbers of their names, whatever they stand for. -/
theorem findIdx?_identities {named : List Identity} (hg : Sound g named) {i k : Identity}
    (hk : identity? (g i) = some k) :
    (identities g named).findIdx? (· == k) = named.findIdx? (· == i) := by
  induction named with
  | nil => rfl
  | cons j named ih =>
    obtain ⟨l, hl⟩ := Option.isSome_iff_exists.mp (hg.kept j (by simp))
    have hsame : (l == k) = (j == i) := by
      rw [Bool.eq_iff_iff, beq_iff_eq, beq_iff_eq]
      refine ⟨fun h => hg.apart j i k (h ▸ hl) hk, fun h => ?_⟩
      rw [h, hk] at hl
      exact (Option.some.inj hl).symm
    have hcons : identities g (j :: named) = l :: identities g named := by
      simp [identities, hl]
    rw [hcons, List.findIdx?_cons, List.findIdx?_cons, hsame,
      ih (hg.mono fun i hi => List.mem_cons_of_mem _ hi)]

theorem name?_via {w : Writer} (hg : Sound g w.named) (o : Origin) :
    (w.via g).name? (o.via g) = w.name? o := by
  cases o with
  | own => rfl
  | inlineTable => rfl
  | node doc n =>
    cases hk : identity? (g (doc, n)) with
    | none =>
      -- What has no identity has no name.
      have hnone : w.named.findIdx? (· == (doc, n)) = none := by
        rw [List.findIdx?_eq_none_iff]
        intro i hi
        refine Bool.eq_false_iff.mpr fun h => ?_
        obtain rfl := beq_iff_eq.mp h
        have hsome := hg.kept _ hi
        rw [hk] at hsome
        cases hsome
      have hleft : (w.via g).name? ((Origin.node doc n).via g) = none := by
        simp [name?, identity?_via_node, hk]
      have hright : w.name? (.node doc n) = none := by
        simp [name?, identity?, hnone]
      rw [hleft, hright]
    | some k =>
      have hidx : (w.via g).named.findIdx? (· == k) = w.named.findIdx? (· == (doc, n)) :=
        findIdx?_identities hg hk
      have hleft : (w.via g).name? ((Origin.node doc n).via g) =
          ((w.via g).named.findIdx? (· == k)).bind fun n =>
            some ('i' :: 'd' :: Number.padLeft 3 (Number.digitsOf (n + 1))) := by
        simp [name?, identity?_via_node, hk]
      rw [hleft, hidx]
      rfl

/-- Of a node with a name it is known alike whether it was written. -/
theorem isDone_via {w : Writer} (hg : Sound g w.named) {o : Origin}
    (h : (w.name? o).isSome = true) : (w.via g).isDone (o.via g) = w.isDone o := by
  cases o with
  | own => rfl
  | inlineTable => rfl
  | node doc n =>
    have hsome : (identity? (g (doc, n))).isSome := by
      refine hg.kept _ ?_
      by_contra hne
      have hnone : w.named.findIdx? (· == (doc, n)) = none := by
        rw [List.findIdx?_eq_none_iff]
        intro i hi
        refine Bool.eq_false_iff.mpr fun hsame => hne ?_
        exact beq_iff_eq.mp hsame ▸ hi
      simp [name?, identity?, hnone] at h
    obtain ⟨k, hk⟩ := Option.isSome_iff_exists.mp hsome
    have hdone : (w.via g).done.contains k = w.done.contains (doc, n) := contains_identities hg hk
    simp only [isDone, identity?_via_node, identity?_node, hk, hdone]

theorem node_via {w : Writer} (hg : Sound g w.named) {body body' : Writer → Writer}
    (hb : ∀ u : Writer, u.named = w.named → body' (u.via g) = (body u).via g) (o : Origin) :
    node (o.via g) body' (w.via g) = (node o body w).via g := by
  unfold node
  rw [name?_via hg]
  cases hname : w.name? o with
  | none => exact hb w rfl
  | some name =>
    dsimp only
    rw [isDone_via hg (by rw [hname]; rfl)]
    split
    · rfl
    · have hdone : identities g ((identity? o).toList ++ w.done) =
          (identity? (o.via g)).toList ++ identities g w.done := by
        cases o with
        | own => rfl
        | inlineTable => rfl
        | node doc n =>
          cases hk : identity? (g (doc, n)) <;>
            simp [identities, identity?_via_node, identity?_node, hk]
      have hnext : (⟨(w.on (Sheet.mark ('&' :: name) true false)).sheet, identities g w.named,
          (identity? (o.via g)).toList ++ identities g w.done⟩ : Writer) =
          via g ⟨(w.on (Sheet.mark ('&' :: name) true false)).sheet, w.named,
            (identity? o).toList ++ w.done⟩ := by
        rw [via, hdone]
      exact (congrArg body' hnext).trans (hb _ rfl)

theorem named_node {w : Writer} {body : Writer → Writer}
    (hb : ∀ u : Writer, (body u).named = u.named) (o : Origin) :
    (node o body w).named = w.named := by
  unfold node
  split
  · exact hb w
  · split
    · rfl
    · exact hb _

theorem written_via (simpleKey : Bool) (indent : Nat) (x : Written) (w : Writer) :
    written simpleKey indent x (w.via g) = (written simpleKey indent x w).via g := by
  unfold written
  dsimp only
  rw [on_via, ← apply_ite (via g)]
  cases style simpleKey x <;> rfl

@[simp] theorem named_written (simpleKey : Bool) (indent : Nat) (x : Written) (w : Writer) :
    (written simpleKey indent x w).named = w.named := by
  unfold written
  generalize style simpleKey x = kind
  have htagged : ∀ b : Bool, (if b then w.on (Sheet.mark (shortTag x.tag) true false) else w).named
      = w.named := by
    intro b
    cases b <;> rfl
  cases kind <;> exact htagged _

theorem scalar_via {w : Writer} (hg : Sound g w.named) (simpleKey : Bool) (indent : Nat)
    (s : Scalar) :
    scalar simpleKey indent (s.via g) (w.via g) = (scalar simpleKey indent s w).via g := by
  unfold scalar
  rw [Written.of_via, originOf_via]
  cases Written.of s with
  | error e => rfl
  | ok x => exact node_via hg (fun u _ => written_via _ _ _ u) _

@[simp] theorem named_scalar (simpleKey : Bool) (indent : Nat) (s : Scalar) (w : Writer) :
    (scalar simpleKey indent s w).named = w.named := by
  unfold scalar
  split
  · rfl
  · exact named_node (fun u => named_written _ _ _ u) _

theorem isSimpleKey_via {w : Writer} (hg : Sound g w.named) (s : Scalar) :
    (w.via g).isSimpleKey (s.via g) = w.isSimpleKey s := by
  unfold isSimpleKey
  rw [Written.of_via, originOf_via, name?_via hg]
  cases Written.of s with
  | error e => rfl
  | ok x =>
    dsimp only
    by_cases hname : (w.name? (originOf s)).isSome = true
    · rw [isDone_via hg hname]
    · simp only [hname, Bool.false_and, Bool.false_eq_true, if_false]

theorem key_via {w : Writer} (hg : Sound g w.named) (indent : Nat) (k : Scalar) :
    key indent (k.via g) (w.via g) = (key indent k w).via g := by
  unfold key
  dsimp only
  have hon : Sound g (w.on (Sheet.indentTo indent)).named := hg
  rw [on_via, isSimpleKey_via hon]
  split
  · rw [scalar_via hon, on_via]
  · have hmark : Sound g
        ((w.on (Sheet.indentTo indent)).on (Sheet.mark ['?'] true true)).named := hg
    rw [on_via, scalar_via hmark, on_via]

@[simp] theorem named_key (indent : Nat) (k : Scalar) (w : Writer) :
    (key indent k w).named = w.named := by
  unfold key
  dsimp only
  split <;> simp only [named_on, named_scalar]

@[simp] theorem brackets_via (opening closing : Char) (w : Writer) :
    brackets opening closing (w.via g) = (brackets opening closing w).via g := rfl

@[simp] theorem named_brackets (opening closing : Char) (w : Writer) :
    (brackets opening closing w).named = w.named := rfl

/-- The keys of a set, each with an empty value behind it. -/
theorem keys_via {w : Writer} (hg : Sound g w.named) (indent : Nat) (xs : List Scalar) :
    (xs.map (Scalar.via g)).foldl (fun w s => (w.key indent s).scalar false indent .null)
        (w.via g) =
      (xs.foldl (fun w s => (w.key indent s).scalar false indent .null) w).via g := by
  induction xs generalizing w with
  | nil => rfl
  | cons x xs ih =>
    have hkey : Sound g (w.key indent x).named := by rwa [named_key]
    have hnull := scalar_via hkey false indent .null
    rw [List.map_cons, List.foldl_cons, List.foldl_cons, key_via hg]
    rw [show (Scalar.null).via g = .null from rfl] at hnull
    rw [hnull, ih (by rwa [named_scalar, named_key])]

theorem named_keys (indent : Nat) (xs : List Scalar) (w : Writer) :
    (xs.foldl (fun w s => (w.key indent s).scalar false indent .null) w).named = w.named := by
  induction xs generalizing w with
  | nil => rfl
  | cons x xs ih => rw [List.foldl_cons, ih, named_scalar, named_key]

mutual

theorem named_value (asValue : Bool) (indent : Nat) :
    ∀ (v : Value) (w : Writer), (value asValue indent v w).named = w.named
  | .scalar s, w => by rw [value, named_scalar]
  | .seq o xs, w => by
    rw [value]
    refine named_node (fun u => ?_) o
    dsimp only
    split
    · rfl
    · exact named_items _ xs u
  | .tuple o xs, w => by
    rw [value]
    refine named_node (fun u => ?_) o
    dsimp only
    split
    · rfl
    · exact named_items _ xs u
  | .loop s o, w => by
    rw [value]
    exact named_node (fun u => rfl) o
  | .set o xs, w => by
    rw [value]
    refine named_node (fun u => ?_) o
    dsimp only
    split
    · rfl
    · exact named_keys _ xs _
  | .map o es, w => by
    rw [value]
    refine named_node (fun u => ?_) o
    split
    · rfl
    · exact named_entries _ es u

theorem named_items (indent : Nat) :
    ∀ (xs : List Value) (w : Writer), (items indent xs w).named = w.named
  | [], w => by rw [items]
  | x :: xs, w => by
    rw [items, named_items indent xs, named_value false indent x, named_on]

theorem named_entries (indent : Nat) :
    ∀ (es : List (Scalar × Value)) (w : Writer), (entries indent es w).named = w.named
  | [], w => by rw [entries]
  | (k, v) :: es, w => by
    rw [entries, named_entries indent es, named_value true indent v, named_key]

end

mutual

theorem value_via (asValue : Bool) (indent : Nat) :
    ∀ (v : Value) (w : Writer), Sound g w.named →
      value asValue indent (v.via g) (w.via g) = (value asValue indent v w).via g
  | .scalar s, w, hg => by rw [Value.via_scalar, value, value, scalar_via hg]
  | .seq o xs, w, hg => by
    rw [Value.via, value, value]
    refine node_via hg (fun u hu => ?_) o
    have hempty : (Value.viaAll g xs).isEmpty = xs.isEmpty := by
      rw [Value.viaAll_eq_map, List.isEmpty_map]
    simp only [sheet_via, hempty]
    split
    · rfl
    · exact items_via _ xs u (hu ▸ hg)
  | .tuple o xs, w, hg => by
    rw [Value.via, value, value]
    refine node_via hg (fun u hu => ?_) o
    have hempty : (Value.viaAll g xs).isEmpty = xs.isEmpty := by
      rw [Value.viaAll_eq_map, List.isEmpty_map]
    simp only [sheet_via, hempty]
    split
    · rfl
    · exact items_via _ xs u (hu ▸ hg)
  | .loop s o, w, hg => by
    rw [Value.via, value, value]
    have hbody : ∀ u : Writer, u.named = w.named → id (u.via g) = (id u).via g := fun _ _ => rfl
    exact node_via hg hbody o
  | .set o xs, w, hg => by
    rw [Value.via, value, value]
    refine node_via hg (fun u hu => ?_) o
    simp only [on_via, List.isEmpty_map]
    split
    · rfl
    · exact keys_via (by rw [named_on, hu]; exact hg) _ xs
  | .map o es, w, hg => by
    rw [Value.via, value, value]
    refine node_via hg (fun u hu => ?_) o
    have hempty : (Value.viaEntries g es).isEmpty = es.isEmpty := by
      rw [Value.viaEntries_eq_via, Mapping.isEmpty_via]
    simp only [hempty]
    split
    · rfl
    · exact entries_via _ es u (hu ▸ hg)

theorem items_via (indent : Nat) :
    ∀ (xs : List Value) (w : Writer), Sound g w.named →
      items indent (Value.viaAll g xs) (w.via g) = (items indent xs w).via g
  | [], w, _ => by rw [Value.viaAll, items, items]
  | x :: xs, w, hg => by
    rw [Value.viaAll, items, items, on_via, value_via false indent x _ (by rwa [named_on]),
      items_via indent xs _ (by rwa [named_value, named_on])]

theorem entries_via (indent : Nat) :
    ∀ (es : List (Scalar × Value)) (w : Writer), Sound g w.named →
      entries indent (Value.viaEntries g es) (w.via g) = (entries indent es w).via g
  | [], w, _ => by rw [Value.viaEntries, entries, entries]
  | (k, v) :: es, w, hg => by
    rw [Value.viaEntries, entries, entries, key_via hg,
      value_via true indent v _ (by rwa [named_key]),
      entries_via indent es _ (by rwa [named_value, named_key])]

end

end Writer

/-! ## What has a form -/

theorem checkScalars_via (ss : List Scalar) :
    checkScalars (ss.map (Scalar.via g)) = checkScalars ss := by
  induction ss with
  | nil => rfl
  | cons s ss ih => rw [List.map_cons, checkScalars, checkScalars, Written.of_via, ih]

theorem via_eq_inlineTable {named : List Identity} (hg : Sound g named) (o : Origin) :
    o.via g = .inlineTable ↔ o = .inlineTable := by
  cases o with
  | node doc n => exact ⟨fun h => absurd h (hg.block _), nofun⟩
  | own => exact ⟨nofun, nofun⟩
  | inlineTable => exact ⟨fun _ => rfl, fun _ => rfl⟩

mutual

theorem check_via {named : List Identity} (hg : Sound g named) :
    ∀ (depth : Nat) (v : Value), check depth (v.via g) = check depth v
  | depth, .scalar s => by
    rw [Value.via_scalar, check, check]
    exact checkScalars_via [s]
  | depth, .seq o xs => by rw [Value.via, check, check, checkAll_via hg (depth + 1) xs]
  | depth, .tuple o xs => by rw [Value.via, check, check, checkAll_via hg (depth + 1) xs]
  | depth, .set o xs => by rw [Value.via, check, check, checkScalars_via]
  | depth, .map o es => by
    rw [Value.via, check, check, checkEntries_via hg (depth + 1) es]
    simp only [via_eq_inlineTable hg]
  | depth, .loop s o => by rw [Value.via, check, check]

theorem checkAll_via {named : List Identity} (hg : Sound g named) :
    ∀ (depth : Nat) (xs : List Value), checkAll depth (Value.viaAll g xs) = checkAll depth xs
  | depth, [] => by rw [Value.viaAll]
  | depth, x :: xs => by
    rw [Value.viaAll, checkAll, checkAll, check_via hg depth x, checkAll_via hg depth xs]

theorem checkEntries_via {named : List Identity} (hg : Sound g named) :
    ∀ (depth : Nat) (es : List (Scalar × Value)),
      checkEntries depth (Value.viaEntries g es) = checkEntries depth es
  | depth, [] => by rw [Value.viaEntries]
  | depth, (k, v) :: es => by
    have hkey : checkScalars [k.via g] = checkScalars [k] := checkScalars_via [k]
    rw [Value.viaEntries, checkEntries, checkEntries, hkey, check_via hg depth v,
      checkEntries_via hg depth es]

end

/-- The document of a mapping whose nodes stand for others is the same. -/
theorem write_via {m : Mapping} (hg : Sound g (Meetings.entries m ⟨[], []⟩).twice) :
    write (m.via g) = write m := by
  have hmeet : Meetings.entries (m.via g) ⟨[], []⟩ =
      (Meetings.entries m ⟨[], []⟩).via g := by
    rw [← Value.viaEntries_eq_via]
    exact Meetings.entries_via m ⟨[], []⟩ hg
  have hcheck : checkEntries 1 (m.via g) = checkEntries 1 m := by
    rw [← Value.viaEntries_eq_via, checkEntries_via hg]
  have hwritten : (Writer.entries 0 (m.via g)
      ⟨Sheet.empty, identities g (Meetings.entries m ⟨[], []⟩).twice, []⟩) =
        (Writer.entries 0 m ⟨Sheet.empty, (Meetings.entries m ⟨[], []⟩).twice, []⟩).via g := by
    rw [← Value.viaEntries_eq_via]
    exact Writer.entries_via 0 m ⟨Sheet.empty, _, []⟩ hg
  have hnamed : (Meetings.via g (Meetings.entries m ⟨[], []⟩)).twice =
      identities g (Meetings.entries m ⟨[], []⟩).twice := rfl
  simp only [write, hcheck, hmeet, hnamed, Mapping.isEmpty_via, hwritten]
  split <;> rfl

end AgentRelay.Yaml

namespace AgentRelay.Frontmatter

variable {g : Labels}

/-- A document with fields in front is the same whatever nodes they have. -/
theorem join_via (hg : g.Faithful) (m : Mapping) (content : String) :
    join (m.via g) content = join m content := by
  simp only [join, Mapping.clean_via, Mapping.isEmpty_via,
    Yaml.write_via (Yaml.Sound.of_faithful hg _)]

end AgentRelay.Frontmatter
