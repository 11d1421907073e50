import AgentRelay.Proofs.Value.Relabelling
import AgentRelay.Toml.Writer

/-
  The TOML of a mapping whose nodes have other numbers.

  The writer asks for nodes only to find a table inside itself. Where different nodes
  stay different (`Labels.Faithful`) every value and every table is laid out as before
  (`value_via`, `table_via`), the tables below it are the same but for their nodes, and
  so is the document (`write_via`).
-/

namespace AgentRelay.Toml

variable {g : Labels}

namespace Writer

/-! ## Values on one line -/

@[simp] theorem scalar_via (s : Scalar) : scalar (s.via g) = scalar s := by
  cases s <;> rfl

theorem mapM_scalar_via (xs : List Scalar) :
    (xs.map (Scalar.via g)).mapM scalar = xs.mapM scalar := by
  rw [List.mapM_map]
  exact congrArg (fun f => xs.mapM f) (funext scalar_via)

theorem mapM_key_via (m : Mapping) :
    (m.via g).mapM (fun e => scalar e.1) = m.mapM fun e => scalar e.1 := by
  rw [Mapping.via, List.mapM_map]
  exact congrArg (fun f => m.mapM f) (funext fun e => scalar_via e.1)

/-- A value on one line is the same whatever nodes it has. -/
theorem value_via (hg : g.Faithful) (fuel : Nat) (v : Value) :
    value fuel (v.via g) = value fuel v := by
  induction fuel generalizing v with
  | zero => rfl
  | succ fuel ih =>
    have hall : ∀ xs : List Value, (xs.map (Value.via g)).mapM (value fuel) =
        xs.mapM (value fuel) := by
      intro xs
      rw [List.mapM_map]
      exact congrArg (fun f => xs.mapM f) (funext ih)
    -- A list is written by its items.
    have hitems : ((v.via g).items?.elim (.error .endless) fun xs =>
          (xs.mapM (value fuel)).map items : Except Unwritable Script) =
        v.items?.elim (.error .endless) fun xs => (xs.mapM (value fuel)).map items := by
      rw [hg.items?_via]
      cases v.items? with
      | none => rfl
      | some xs => simp only [Option.map_some, Option.elim_some, hall]
    cases v with
    | scalar s => rw [Value.via_scalar]; exact scalar_via s
    | set o xs => rw [Value.via_set, value, value, mapM_scalar_via]
    | map o m => rw [Value.via_map, value, value, mapM_key_via]
    | seq o xs => rw [Value.via_seq] at hitems ⊢; exact hitems
    | tuple o xs => rw [Value.via_tuple] at hitems ⊢; exact hitems
    | loop s o => rw [Value.via_loop] at hitems ⊢; exact hitems

@[simp] theorem isEmptyLike_via (v : Value) : isEmptyLike (v.via g) = isEmptyLike v := by
  cases v with
  | scalar s => cases s <;> simp [isEmptyLike, Scalar.via]
  | _ => simp [isEmptyLike]

/-- The text of the first of some items. -/
def firstShown? : Option (List Value) → Except Unwritable (Option (List Char))
  | some (x :: _) => (sized x.display?).map some
  | _ => .ok none

theorem firstShown?_via (hg : g.Faithful) (items : Option (List Value)) :
    firstShown? (items.map (List.map (Value.via g))) = firstShown? items := by
  rcases items with _ | _ | ⟨x, xs⟩
  · rfl
  · rfl
  · simp only [Option.map_some, List.map_cons, firstShown?, hg.display?_via]

theorem firstName?_via (hg : g.Faithful) (v : Value) : firstName? (v.via g) = firstName? v := by
  have hitems : firstShown? (v.via g).items? = firstShown? v.items? := by
    rw [hg.items?_via, firstShown?_via hg]
  cases v with
  | scalar s => cases s <;> rfl
  | seq o xs => rw [Value.via_seq] at hitems ⊢; exact hitems
  | tuple o xs => rw [Value.via_tuple] at hitems ⊢; exact hitems
  | set o xs => rw [Value.via_set] at hitems ⊢; exact hitems
  | map o m => rw [Value.via_map] at hitems ⊢; exact hitems
  | loop s o => rw [Value.via_loop] at hitems ⊢; exact hitems

theorem tableItems?_via (hg : g.Faithful) (v : Value) :
    tableItems? (v.via g) = (tableItems? v).map (List.map (Value.via g)) := by
  cases v with
  | seq o xs =>
    have hitems := hg.items?_via (.seq o xs)
    rw [Value.via_seq] at hitems
    have hany : (xs.map (Value.via g)).any Value.isMapping = xs.any Value.isMapping := by
      rw [List.any_map]
      exact congrArg (fun f => xs.any f) (funext Value.isMapping_via)
    simp only [Value.via_seq, tableItems?, hany, hitems]
    split <;> rfl
  | scalar s => simp [tableItems?]
  | tuple o xs => simp [tableItems?]
  | set o xs => simp [tableItems?]
  | map o m => simp [tableItems?]
  | loop s o => simp [tableItems?]

mutual

theorem depth_via : ∀ v : Value, depth (v.via g) = depth v
  | .scalar s => by rw [Value.via_scalar, depth, depth]
  | .seq o xs => by rw [Value.via, depth, depth, depths_via xs]
  | .tuple o xs => by rw [Value.via, depth, depth, depths_via xs]
  | .set o xs => by rw [Value.via, depth, depth]
  | .map o m => by rw [Value.via, depth, depth, entryDepths_via m]
  | .loop s o => by rw [Value.via, depth, depth]

theorem depths_via : ∀ xs : List Value, depths (Value.viaAll g xs) = depths xs
  | [] => by rw [Value.viaAll]
  | x :: xs => by rw [Value.viaAll, depths, depths, depth_via x, depths_via xs]

theorem entryDepths_via : ∀ m : List (Scalar × Value),
    entryDepths (Value.viaEntries g m) = entryDepths m
  | [] => by rw [Value.viaEntries]
  | (k, v) :: m => by
    rw [Value.viaEntries, entryDepths, entryDepths, depth_via v, entryDepths_via m]

end

/-! ## Tables -/

/-- Tables with other nodes. -/
def Tables.via (g : Labels) (ts : Tables) : Tables := ts.map fun e => (e.1, e.2.via g)

theorem Tables.set_via (ts : Tables) (name : List Char) (v : Value) :
    Tables.set (ts.via g) name (v.via g) = (Tables.set ts name v).via g := by
  induction ts with
  | nil => rfl
  | cons t ts ih =>
    have hcons : Tables.via g (t :: ts) = (t.1, t.2.via g) :: Tables.via g ts := rfl
    rw [hcons, Tables.set, Tables.set, ih]
    split <;> rfl

/-- Lines and the tables below them, with other nodes. -/
def behind (g : Labels) (l : Script × Tables) : Script × Tables := (l.1, l.2.via g)

/-- Tables that wait are put behind each other as before. -/
theorem foldl_set_via (name : List Char → List Char) (tables next : Tables) :
    (tables.via g).foldl (fun next e => Tables.set next (name e.1) e.2) (next.via g) =
      (tables.foldl (fun next e => Tables.set next (name e.1) e.2) next).via g := by
  induction tables generalizing next with
  | nil => rfl
  | cons t tables ih =>
    have hcons : Tables.via g (t :: tables) = (t.1, t.2.via g) :: Tables.via g tables := rfl
    rw [hcons, List.foldl_cons, List.foldl_cons, Tables.set_via, ih]

/-- A way to lay out tables that does not ask for their nodes. -/
def Even (g : Labels) (inner : List Char → Value → Laid) : Prop :=
  ∀ name v, inner name (v.via g) = (inner name v).map (behind g)

theorem level_via {inner : List Char → Value → Laid} (hi : Even g inner) (name : List Char)
    (ts : Tables) (acc : Script × Tables) :
    level inner name (ts.via g) (behind g acc) = (level inner name ts acc).map (behind g) := by
  induction ts generalizing acc with
  | nil => rfl
  | cons t ts ih =>
    obtain ⟨n, v⟩ := t
    obtain ⟨text, next⟩ := acc
    have hcons : Tables.via g ((n, v) :: ts) = (n, v.via g) :: Tables.via g ts := rfl
    have hacc : behind g (text, next) = (text, next.via g) := rfl
    rw [hcons, hacc, level, level, hi (under name n) v]
    cases inner (under name n) v with
    | error e => rfl
    | ok laid =>
      obtain ⟨own, tables⟩ := laid
      have hnext := foldl_set_via (g := g) (under n) tables next
      refine Eq.trans ?_ (ih (_, tables.foldl (fun next e => Tables.set next (under n e.1) e.2) next))
      rw [behind, ← hnext]
      rfl

theorem innerTables_via {inner : List Char → Value → Laid} (hi : Even g inner)
    (name : List Char) (fuel : Nat) (ts : Tables) :
    innerTables inner name fuel (ts.via g) = innerTables inner name fuel ts := by
  induction fuel generalizing ts with
  | zero => rfl
  | succ fuel ih =>
    cases ts with
    | nil => rfl
    | cons t ts =>
      have hlevel : level inner name (Tables.via g (t :: ts)) ([], []) =
          (level inner name (t :: ts) ([], [])).map (behind g) :=
        level_via hi name (t :: ts) ([], [])
      have hcons : Tables.via g (t :: ts) = (t.1, t.2.via g) :: Tables.via g ts := rfl
      rw [hcons] at hlevel ⊢
      rw [innerTables, innerTables, hlevel]
      cases level inner name (t :: ts) ([], []) with
      | error e => rfl
      | ok laid =>
        obtain ⟨text, next⟩ := laid
        exact congrArg (fun below => below.bind fun b => Except.ok (text ++ b)) (ih next)

theorem listTables_via {inner : List Char → Value → Laid} (hi : Even g inner) (fuel : Nat)
    (name : List Char) (xs : List Value) :
    listTables inner fuel name (xs.map (Value.via g)) = listTables inner fuel name xs := by
  induction xs with
  | nil => rfl
  | cons x xs ih =>
    rw [List.map_cons, listTables, listTables, hi name x, ih]
    cases inner name x with
    | error e => rfl
    | ok laid =>
      obtain ⟨own, tables⟩ := laid
      have hbelow := innerTables_via hi name fuel tables
      simp only [Except.map, behind, bind, Except.bind, hbelow]

/-- A layout whose tables have other nodes. -/
def Layout.via (g : Labels) (l : Layout) : Layout := ⟨l.lines, l.lists, l.tables.via g⟩

/-- What one entry adds to the layout of its table. -/
def placed (inner : List Char → Value → Laid) (fuel : Nat) (sup written : List Char) (v : Value)
    (l : Layout) : Except Unwritable Layout :=
  match v with
  | .map o es => .ok { l with tables := l.tables.set written (.map o es) }
  | v =>
    match tableItems? v with
    | some xs =>
      (listTables inner fuel (under sup written) xs).map fun more =>
        { l with lists := l.lists ++ more }
    | none =>
      if v.isNull then .ok l
      else (value maxDepth v).map fun line =>
        { l with lines := l.lines ++ (chars (written ++ " = ".toList) ++ line ++ chars ['\n']) }

theorem placed_of_ne_map {inner : List Char → Value → Laid} {fuel : Nat} {sup written : List Char}
    {v : Value} (hv : ∀ o es, v ≠ .map o es) (l : Layout) :
    placed inner fuel sup written v l =
      match tableItems? v with
      | some xs =>
        (listTables inner fuel (under sup written) xs).map fun more =>
          { l with lists := l.lists ++ more }
      | none =>
        if v.isNull then .ok l
        else (value maxDepth v).map fun line =>
          { l with lines := l.lines ++ (chars (written ++ " = ".toList) ++ line ++ chars ['\n']) } := by
  cases v with
  | map o es => exact absurd rfl (hv o es)
  | _ => rfl

/-- The entries are placed one behind the other. -/
theorem entries_cons (inner : List Char → Value → Laid) (fuel : Nat) (sup : List Char)
    (all m : Mapping) (k : Scalar) (w : Value) (l : Layout) :
    entries inner fuel sup all ((k, w) :: m) l =
      (named k).bind fun name =>
        match Mapping.get? all (.phrase name.2) with
        | none => .error (.badKey name.2.shown)
        | some v => (placed inner fuel sup name.1 v l).bind (entries inner fuel sup all m) := by
  rw [entries]
  cases named k with
  | error e => rfl
  | ok name =>
    obtain ⟨written, name⟩ := name
    simp only [bind, Except.bind]
    cases Mapping.get? all (.phrase name) with
    | none => rfl
    | some v =>
      dsimp only
      split
      · rename_i heq
        cases heq
      · rename_i o es heq
        obtain rfl := Option.some.inj heq
        rfl
      · rename_i u hu heq
        obtain rfl := Option.some.inj heq
        rw [placed_of_ne_map hu]
        cases tableItems? v with
        | some xs => dsimp only; cases listTables inner fuel (under sup written) xs <;> rfl
        | none =>
          dsimp only
          split
          · rfl
          · cases value maxDepth v <;> rfl

theorem placed_via (hg : g.Faithful) {inner : List Char → Value → Laid} (hi : Even g inner)
    (fuel : Nat) (sup written : List Char) (v : Value) (l : Layout) :
    placed inner fuel sup written (v.via g) (l.via g) =
      (placed inner fuel sup written v l).map (Layout.via g) := by
  -- Everything but a table is a list of tables, or stands on a line.
  have hrest : (match tableItems? (v.via g) with
        | some xs => (listTables inner fuel (under sup written) xs).map fun more =>
            ({ l.via g with lists := l.lists ++ more } : Layout)
        | none => if (v.via g).isNull then .ok (l.via g)
          else (value maxDepth (v.via g)).map fun line =>
            { l.via g with lines := l.lines ++ (chars (written ++ " = ".toList) ++ line ++ chars ['\n']) }) =
      Except.map (Layout.via g) (match tableItems? v with
        | some xs => (listTables inner fuel (under sup written) xs).map fun more =>
            ({ l with lists := l.lists ++ more } : Layout)
        | none => if v.isNull then .ok l
          else (value maxDepth v).map fun line =>
            { l with lines := l.lines ++ (chars (written ++ " = ".toList) ++ line ++ chars ['\n']) }) := by
    rw [tableItems?_via hg, Value.isNull_via, value_via hg]
    cases tableItems? v with
    | some xs =>
      simp only [Option.map_some, listTables_via hi]
      cases listTables inner fuel (under sup written) xs <;> rfl
    | none =>
      simp only [Option.map_none]
      split
      · rfl
      · cases value maxDepth v <;> rfl
  cases v with
  | map o es =>
    have hset := Tables.set_via (g := g) l.tables written (.map o es)
    rw [Value.via_map] at hset ⊢
    rw [placed, placed, Except.map, Layout.via, Layout.via, ← hset]
  | scalar s => rw [Value.via_scalar] at hrest ⊢; exact hrest
  | seq o xs => rw [Value.via_seq] at hrest ⊢; exact hrest
  | tuple o xs => rw [Value.via_tuple] at hrest ⊢; exact hrest
  | set o xs => rw [Value.via_set] at hrest ⊢; exact hrest
  | loop s o => rw [Value.via_loop] at hrest ⊢; exact hrest

theorem entries_via (hg : g.Faithful) {inner : List Char → Value → Laid} (hi : Even g inner)
    (fuel : Nat) (sup : List Char) (all m : Mapping) (l : Layout) :
    entries inner fuel sup (all.via g) (m.via g) (l.via g) =
      (entries inner fuel sup all m l).map (Layout.via g) := by
  induction m generalizing l with
  | nil => rfl
  | cons e m ih =>
    obtain ⟨k, w⟩ := e
    have hkey : named (k.via g) = named k := by cases k <;> rfl
    rw [Mapping.via_cons, entries_cons, entries_cons, hkey]
    cases named k with
    | error e => rfl
    | ok name =>
      obtain ⟨written, name⟩ := name
      have hget : Mapping.get? (all.via g) (.phrase name) =
          (Mapping.get? all (.phrase name)).map (Value.via g) := by
        rw [← Mapping.get?_via]
        cases name <;> rfl
      simp only [Except.bind, hget]
      cases Mapping.get? all (.phrase name) with
      | none => rfl
      | some v =>
        simp only [Option.map_some, placed_via hg hi]
        cases placed inner fuel sup written v l with
        | error e => rfl
        | ok next => exact ih next

/-- A table is laid out as before, with the tables below it. -/
theorem table_via (hg : g.Faithful) (fuel : Nat) : Even g (table fuel) := by
  induction fuel with
  | zero => exact fun _ _ => rfl
  | succ fuel ih =>
    intro sup v
    rw [table, table, hg.entries?_via]
    cases v.entries? with
    | none =>
      simp only [Option.map_none, isEmptyLike_via, firstName?_via hg]
      split
      · rfl
      · cases firstName? v with
        | error e => rfl
        | ok name =>
          cases name with
          | none => rfl
          | some name =>
            simp only [bind, Except.bind]
            cases keyName name <;> rfl
    | some m =>
      have hentries := entries_via hg ih fuel sup m m ⟨[], [], []⟩
      have hempty : Layout.via g ⟨[], [], []⟩ = ⟨[], [], []⟩ := rfl
      rw [hempty] at hentries
      simp only [Option.map_some, hentries]
      cases entries (table fuel) fuel sup m m ⟨[], [], []⟩ <;> rfl

/-! ## Levels -/

/-- The tables that are met stand for others, as their nodes do. -/
theorem identity?_via (v : Value) :
    identity? (v.via g) = (identity? v).bind fun i => identity? (.map (g i) []) := by
  have hany : ∀ (o : Origin) (m n : Mapping), identity? (.map o m) = identity? (.map o n) := by
    intro o m n
    cases o <;> rfl
  cases v with
  | map o m =>
    rw [Value.via_map, hany _ _ []]
    cases o with
    | node doc n => rfl
    | _ => rfl
  | _ => simp [identity?]

theorem identity?_injective (hg : g.Faithful) {i j k : Nat × Nat}
    (hi : identity? (.map (g i) []) = some k) (hj : identity? (.map (g j) []) = some k) :
    i = j := by
  have hnode : ∀ {o : Origin}, identity? (.map o []) = some k → o = .node k.1 k.2 := by
    intro o ho
    cases o with
    | node doc n => obtain rfl := Option.some.inj ho; rfl
    | _ => cases ho
  exact hg.injective ((hnode hi).trans (hnode hj).symm)

/-- The tables of a level as they are told apart. -/
def met (ts : Tables) : List (Nat × Nat) := ts.filterMap fun e => identity? e.2

theorem met_via (ts : Tables) :
    met (ts.via g) = (met ts).filterMap fun i => identity? (.map (g i) []) := by
  rw [met, met, Tables.via, List.filterMap_map, List.filterMap_filterMap]
  exact congrArg (fun f => ts.filterMap f) (funext fun e => identity?_via e.2)

/-- A table inside itself is found as before. -/
theorem any_met_via (hg : g.Faithful) (above here : List (Nat × Nat)) :
    (above.filterMap fun i => identity? (.map (g i) [])).any
        (here.filterMap fun i => identity? (.map (g i) [])).contains =
      above.any here.contains := by
  have hsome : ∀ i, ∃ k, identity? (.map (g i) []) = some k := by
    intro i
    have hnode := hg.node i
    cases h : g i with
    | node doc n => exact ⟨(doc, n), rfl⟩
    | _ => rw [h] at hnode; cases hnode
  rw [Bool.eq_iff_iff, List.any_eq_true, List.any_eq_true]
  simp only [List.contains_iff_mem, List.mem_filterMap]
  constructor
  · rintro ⟨k, ⟨i, hi, hik⟩, j, hj, hjk⟩
    exact ⟨i, hi, identity?_injective hg hik hjk ▸ hj⟩
  · rintro ⟨i, hi, hj⟩
    obtain ⟨k, hk⟩ := hsome i
    exact ⟨k, ⟨i, hi, hk⟩, i, hj, hk⟩

/-- One table behind the text, and the tables below it behind those that wait. -/
def levelStep (size : Nat) (acc : Script × Tables) (e : List Char × Value) :
    Except Unwritable (Script × Tables) :=
  (table size e.1 e.2).map fun laid =>
    (if !laid.1.isEmpty || laid.2.isEmpty then
      acc.1 ++ chars ((if isApart acc.1 then [] else ['\n']) ++ '[' :: e.1 ++ [']', '\n']) ++ laid.1
    else acc.1,
    laid.2.foldl (fun next s => Tables.set next (e.1 ++ '.' :: s.1) s.2) acc.2)

theorem levels_cons (size fuel : Nat) (above : List (Nat × Nat)) (text : Script)
    (t : List Char × Value) (ts : Tables) :
    levels size (fuel + 1) above text (t :: ts) =
      if above.any (met (t :: ts)).contains then .error .badValue
      else ((t :: ts).foldlM (levelStep size) (text, [])).bind fun next =>
        levels size fuel (above ++ met (t :: ts)) next.1 next.2 := by
  have hstep : (fun (acc : Script × Tables) (e : List Char × Value) => levelStep size acc e) =
      fun acc e => (table size e.1 e.2).bind fun laid => .ok
        (if !laid.1.isEmpty || laid.2.isEmpty then
          acc.1 ++ chars ((if isApart acc.1 then [] else ['\n']) ++ '[' :: e.1 ++ [']', '\n']) ++
            laid.1
        else acc.1,
        laid.2.foldl (fun next s => Tables.set next (e.1 ++ '.' :: s.1) s.2) acc.2) := by
    funext acc e
    rw [levelStep]
    cases table size e.1 e.2 <;> rfl
  rw [levels]
  split
  · rename_i h
    rw [if_pos (by exact h)]
    rfl
  · rename_i h
    rw [if_neg (by exact h)]
    change _ = ((t :: ts).foldlM (fun acc e => levelStep size acc e) (text, [])).bind _
    rw [hstep]
    rfl

theorem foldlM_levelStep_via (hg : g.Faithful) (size : Nat) (ts : Tables)
    (acc : Script × Tables) :
    (ts.via g).foldlM (levelStep size) (behind g acc) =
      (ts.foldlM (levelStep size) acc).map (behind g) := by
  induction ts generalizing acc with
  | nil => rfl
  | cons t ts ih =>
    have hcons : Tables.via g (t :: ts) = (t.1, t.2.via g) :: Tables.via g ts := rfl
    have hstep : levelStep size (behind g acc) (t.1, t.2.via g) =
        (levelStep size acc t).map (behind g) := by
      rw [levelStep, levelStep, table_via hg size t.1 t.2]
      cases table size t.1 t.2 with
      | error e => rfl
      | ok laid =>
        have hnext := foldl_set_via (g := g) (fun n => t.1 ++ '.' :: n) laid.2 acc.2
        have hempty : (laid.2.via g).isEmpty = laid.2.isEmpty := List.isEmpty_map
        simp only [Except.map, behind, hempty]
        rw [hnext]
        rfl
    rw [hcons, List.foldlM_cons, List.foldlM_cons, hstep]
    cases levelStep size acc t with
    | error e => rfl
    | ok next => exact ih next

theorem levels_via (hg : g.Faithful) (size fuel : Nat) (above : List (Nat × Nat))
    (text : Script) (ts : Tables) :
    levels size fuel (above.filterMap fun i => identity? (.map (g i) [])) text (ts.via g) =
      levels size fuel above text ts := by
  induction fuel generalizing above text ts with
  | zero => rfl
  | succ fuel ih =>
    cases ts with
    | nil => rfl
    | cons t ts =>
      have hfold := foldlM_levelStep_via hg size (t :: ts) (text, [])
      have hmet := met_via (g := g) (t :: ts)
      have hcons : Tables.via g (t :: ts) = (t.1, t.2.via g) :: Tables.via g ts := rfl
      have hacc : behind g (text, []) = (text, []) := rfl
      rw [hacc] at hfold
      rw [hcons] at hfold hmet ⊢
      rw [levels_cons, levels_cons, hmet, any_met_via hg, hfold, ← List.filterMap_append]
      split
      · rfl
      · cases (t :: ts).foldlM (levelStep size) (text, []) with
        | error e => rfl
        | ok next => exact ih _ next.1 next.2

end Writer

/-- The document of a mapping is the same whatever nodes it has. -/
theorem write_via (hg : g.Faithful) (m : Mapping) : write (m.via g) = write m := by
  have hvalue : Value.mapping (m.via g) = (Value.mapping m).via g := by
    rw [Value.mapping, Value.mapping, Value.via_map]
    rfl
  rw [write, write, hvalue, Writer.depth_via, Writer.table_via hg]
  cases Writer.table (4 * Writer.depth (Value.mapping m) + 8) [] (Value.mapping m) with
  | error e => rfl
  | ok laid =>
    obtain ⟨text, tables⟩ := laid
    have hlevels := Writer.levels_via hg (4 * Writer.depth (Value.mapping m) + 8)
      (4 * Writer.depth (Value.mapping m) + 8) [] text tables
    exact congrArg (fun r : Except Unwritable Writer.Script => r.bind fun t =>
      Except.ok (Phrase.ofPoints t)) hlevels

end AgentRelay.Toml
