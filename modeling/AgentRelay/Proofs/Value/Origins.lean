import AgentRelay.Proofs.Value.Relabelling
import AgentRelay.Proofs.Yaml.Relabelling

/-
  The origins in a value.

  `v.From P` says that every node, day and loop in a value has an origin with the
  property `P`. Other numbers change a value exactly where they change such an origin
  (`Value.via_eq_via_iff`). What is met when a mapping is written are origins in it
  (`Meetings.brings_entries`).
-/

namespace AgentRelay

open Yaml (Identity identity? Meetings)

/-- The origin of a day, if the scalar is one, has the property. -/
def Scalar.From (P : Origin → Prop) : Scalar → Prop
  | .date o _ => P o
  | .moment o _ => P o
  | _ => True

mutual

/-- Every origin in the value has the property. -/
def Value.From (P : Origin → Prop) : Value → Prop
  | .scalar s => s.From P
  | .seq o xs => P o ∧ Value.FromAll P xs
  | .tuple o xs => P o ∧ Value.FromAll P xs
  | .set o xs => P o ∧ ∀ s ∈ xs, s.From P
  | .map o m => P o ∧ Value.FromEntries P m
  | .loop _ o => P o

/-- Every origin in the items has the property. -/
def Value.FromAll (P : Origin → Prop) : List Value → Prop
  | [] => True
  | x :: xs => x.From P ∧ Value.FromAll P xs

/-- Every origin in the entries has the property. -/
def Value.FromEntries (P : Origin → Prop) : List (Scalar × Value) → Prop
  | [] => True
  | (k, v) :: m => k.From P ∧ v.From P ∧ Value.FromEntries P m

end

/-- Every origin in the mapping has the property. -/
def Mapping.From (P : Origin → Prop) (m : Mapping) : Prop := ∀ e ∈ m, e.1.From P ∧ e.2.From P

variable {P Q : Origin → Prop} {g h : Labels}

theorem Value.fromAll_iff {xs : List Value} : FromAll P xs ↔ ∀ x ∈ xs, x.From P := by
  induction xs with
  | nil => simp [FromAll]
  | cons x xs ih => simp [FromAll, ih]

theorem Value.fromEntries_iff {m : Mapping} : FromEntries P m ↔ m.From P := by
  induction m with
  | nil => simp [FromEntries, Mapping.From]
  | cons e m ih =>
    obtain ⟨k, v⟩ := e
    rw [FromEntries, ih]
    simp [Mapping.From, and_assoc]

theorem Scalar.From.mono (hPQ : ∀ o, P o → Q o) {s : Scalar} (h : s.From P) : s.From Q := by
  cases s with
  | date o d => exact hPQ o h
  | moment o m => exact hPQ o h
  | _ => trivial

theorem Scalar.via_eq_via_iff (s : Scalar) :
    s.via g = s.via h ↔ s.From fun o => o.via g = o.via h := by
  cases s <;> simp [Scalar.via, Scalar.From]

mutual

theorem Value.from_mono (hPQ : ∀ o, P o → Q o) : ∀ v : Value, v.From P → v.From Q
  | .scalar s, h => by
    unfold From at h ⊢
    exact h.mono hPQ
  | .seq o xs, h => by
    unfold From at h ⊢
    exact ⟨hPQ o h.1, fromAll_mono hPQ xs h.2⟩
  | .tuple o xs, h => by
    unfold From at h ⊢
    exact ⟨hPQ o h.1, fromAll_mono hPQ xs h.2⟩
  | .set o xs, h => by
    unfold From at h ⊢
    exact ⟨hPQ o h.1, fun s hs => (h.2 s hs).mono hPQ⟩
  | .map o m, h => by
    unfold From at h ⊢
    exact ⟨hPQ o h.1, fromEntries_mono hPQ m h.2⟩
  | .loop _ o, h => by
    unfold From at h ⊢
    exact hPQ o h

theorem Value.fromAll_mono (hPQ : ∀ o, P o → Q o) :
    ∀ xs : List Value, FromAll P xs → FromAll Q xs
  | [], h => by unfold FromAll; trivial
  | x :: xs, h => by
    unfold FromAll at h ⊢
    exact ⟨from_mono hPQ x h.1, fromAll_mono hPQ xs h.2⟩

theorem Value.fromEntries_mono (hPQ : ∀ o, P o → Q o) :
    ∀ m : List (Scalar × Value), FromEntries P m → FromEntries Q m
  | [], h => by unfold FromEntries; trivial
  | (k, v) :: m, h => by
    unfold FromEntries at h ⊢
    exact ⟨h.1.mono hPQ, from_mono hPQ v h.2.1, fromEntries_mono hPQ m h.2.2⟩

end

theorem Scalar.From.and {s : Scalar} (h : s.From P) (h' : s.From Q) : s.From fun o => P o ∧ Q o := by
  cases s with
  | date o d => exact ⟨h, h'⟩
  | moment o m => exact ⟨h, h'⟩
  | _ => trivial

mutual

theorem Value.from_and : ∀ v : Value, v.From P → v.From Q → v.From fun o => P o ∧ Q o
  | .scalar s, h, h' => by
    unfold From at h h' ⊢
    exact h.and h'
  | .seq o xs, h, h' => by
    unfold From at h h' ⊢
    exact ⟨⟨h.1, h'.1⟩, fromAll_and xs h.2 h'.2⟩
  | .tuple o xs, h, h' => by
    unfold From at h h' ⊢
    exact ⟨⟨h.1, h'.1⟩, fromAll_and xs h.2 h'.2⟩
  | .set o xs, h, h' => by
    unfold From at h h' ⊢
    exact ⟨⟨h.1, h'.1⟩, fun s hs => (h.2 s hs).and (h'.2 s hs)⟩
  | .map o m, h, h' => by
    unfold From at h h' ⊢
    exact ⟨⟨h.1, h'.1⟩, fromEntries_and m h.2 h'.2⟩
  | .loop _ o, h, h' => by
    unfold From at h h' ⊢
    exact ⟨h, h'⟩

theorem Value.fromAll_and :
    ∀ xs : List Value, FromAll P xs → FromAll Q xs → FromAll (fun o => P o ∧ Q o) xs
  | [], _, _ => by unfold FromAll; trivial
  | x :: xs, h, h' => by
    unfold FromAll at h h' ⊢
    exact ⟨from_and x h.1 h'.1, fromAll_and xs h.2 h'.2⟩

theorem Value.fromEntries_and : ∀ m : List (Scalar × Value),
    FromEntries P m → FromEntries Q m → FromEntries (fun o => P o ∧ Q o) m
  | [], _, _ => by unfold FromEntries; trivial
  | (k, v) :: m, h, h' => by
    unfold FromEntries at h h' ⊢
    exact ⟨h.1.and h'.1, from_and v h.2.1 h'.2.1, fromEntries_and m h.2.2 h'.2.2⟩

end

mutual

/-- Two ways to number the nodes of a value come to the same exactly when they do for its
origins. -/
theorem Value.via_eq_via_iff :
    ∀ v : Value, v.via g = v.via h ↔ v.From fun o => o.via g = o.via h
  | .scalar s => by simp [From, Scalar.via_eq_via_iff]
  | .seq o xs => by
    unfold From
    rw [via, via, ← viaAll_eq_viaAll_iff xs]
    simp
  | .tuple o xs => by
    unfold From
    rw [via, via, ← viaAll_eq_viaAll_iff xs]
    simp
  | .set o xs => by
    unfold From
    simp [Scalar.via_eq_via_iff, List.map_inj_left]
  | .map o m => by
    unfold From
    rw [via, via, ← viaEntries_eq_viaEntries_iff m]
    simp
  | .loop _ o => by
    unfold From
    simp

theorem Value.viaAll_eq_viaAll_iff :
    ∀ xs : List Value, viaAll g xs = viaAll h xs ↔ FromAll (fun o => o.via g = o.via h) xs
  | [] => by simp [viaAll, FromAll]
  | x :: xs => by
    unfold FromAll
    rw [viaAll, viaAll, ← via_eq_via_iff x, ← viaAll_eq_viaAll_iff xs]
    exact List.cons.injEq .. ▸ Iff.rfl

theorem Value.viaEntries_eq_viaEntries_iff : ∀ m : List (Scalar × Value),
    viaEntries g m = viaEntries h m ↔ FromEntries (fun o => o.via g = o.via h) m
  | [] => by simp [viaEntries, FromEntries]
  | (k, v) :: m => by
    unfold FromEntries
    rw [viaEntries, viaEntries, ← Scalar.via_eq_via_iff k, ← via_eq_via_iff v,
      ← viaEntries_eq_viaEntries_iff m]
    simp [and_assoc]

end

theorem Scalar.from_via (s : Scalar) : (s.via g).From P ↔ s.From fun o => P (o.via g) := by
  cases s <;> exact Iff.rfl

mutual

/-- The origins in a value with other numbers. -/
theorem Value.from_via : ∀ v : Value, (v.via g).From P ↔ v.From fun o => P (o.via g)
  | .scalar s => by
    rw [via]
    exact s.from_via
  | .seq o xs => by
    rw [via]
    exact and_congr Iff.rfl (fromAll_via xs)
  | .tuple o xs => by
    rw [via]
    exact and_congr Iff.rfl (fromAll_via xs)
  | .set o xs => by
    rw [via]
    exact and_congr Iff.rfl (List.forall_mem_map.trans
      (forall₂_congr fun s _ => s.from_via))
  | .map o m => by
    rw [via]
    exact and_congr Iff.rfl (fromEntries_via m)
  | .loop _ o => by
    rw [via]
    exact Iff.rfl

theorem Value.fromAll_via : ∀ xs : List Value,
    FromAll P (viaAll g xs) ↔ FromAll (fun o => P (o.via g)) xs
  | [] => Iff.rfl
  | x :: xs => and_congr (from_via x) (fromAll_via xs)

theorem Value.fromEntries_via : ∀ m : List (Scalar × Value),
    FromEntries P (viaEntries g m) ↔ FromEntries (fun o => P (o.via g)) m
  | [] => Iff.rfl
  | (k, v) :: m => and_congr k.from_via (and_congr (from_via v) (fromEntries_via m))

end

mutual

/-- Filling a place brings no new origins. -/
theorem Value.from_fill {o : Origin} {v : Value} (hv : v.From P) :
    ∀ x : Value, x.From P → (fill o v x).From P
  | .scalar s, hx => hx
  | .seq p xs, hx => by
    unfold fill
    split
    · exact hx
    · exact ⟨hx.1, fromAll_fill hv xs hx.2⟩
  | .tuple p xs, hx => by
    unfold fill
    split
    · exact hx
    · exact ⟨hx.1, fromAll_fill hv xs hx.2⟩
  | .set p xs, hx => hx
  | .map p m, hx => by
    unfold fill
    split
    · exact hx
    · exact ⟨hx.1, fromEntries_fill hv m hx.2⟩
  | .loop s p, hx => by
    unfold fill
    split
    · exact hv
    · exact hx

theorem Value.fromAll_fill {o : Origin} {v : Value} (hv : v.From P) :
    ∀ xs : List Value, FromAll P xs → FromAll P (fillAll o v xs)
  | [], _ => trivial
  | x :: xs, hx => ⟨from_fill hv x hx.1, fromAll_fill hv xs hx.2⟩

theorem Value.fromEntries_fill {o : Origin} {v : Value} (hv : v.From P) :
    ∀ m : List (Scalar × Value), FromEntries P m → FromEntries P (fillEntries o v m)
  | [], _ => trivial
  | (_, x) :: m, hx => ⟨hx.1, from_fill hv x hx.2.1, fromEntries_fill hv m hx.2.2⟩

end

/-- The entries of a collection hold no other origins than the collection. -/
theorem Value.from_entries? {v : Value} (hv : v.From P) {m : Mapping} (h : v.entries? = some m) :
    m.From P := by
  cases v with
  | map o es =>
    have hes := hv
    unfold From at hes
    have hm := Option.some.inj h
    split at hm
    · rw [← hm]
      exact fromEntries_iff.mp (fromEntries_fill hv es hes.2)
    · rw [← hm]
      exact fromEntries_iff.mp hes.2
  | _ => cases h

/-! ## Mappings -/

namespace Mapping

variable {m : Mapping}

theorem From.mono (hPQ : ∀ o, P o → Q o) (h : m.From P) : m.From Q :=
  fun e he => ⟨(h e he).1.mono hPQ, Value.from_mono hPQ _ (h e he).2⟩

theorem From.and (h : m.From P) (h' : m.From Q) : m.From fun o => P o ∧ Q o :=
  fun e he => ⟨(h e he).1.and (h' e he).1, Value.from_and _ (h e he).2 (h' e he).2⟩

theorem From.sub {n : Mapping} (h : m.From P) (hs : n ⊆ m) : Mapping.From P n :=
  fun e he => h e (hs he)

theorem From.cons {e : Scalar × Value} (he : e.1.From P ∧ e.2.From P) (h : m.From P) :
    Mapping.From P (e :: m) := List.forall_mem_cons.mpr ⟨he, h⟩

theorem From.set (h : m.From P) {k : Scalar} (hk : k.From P) {v : Value} (hv : v.From P) :
    Mapping.From P (Mapping.set m k v) := by
  induction m with
  | nil => exact From.cons ⟨hk, hv⟩ h
  | cons e m ih =>
    obtain ⟨j, w⟩ := e
    obtain ⟨he, hm⟩ := List.forall_mem_cons.mp h
    unfold Mapping.set
    split
    · exact From.cons ⟨he.1, hv⟩ hm
    · exact From.cons he (ih hm)

theorem From.get? (h : m.From P) {k : Scalar} {v : Value} (hv : Mapping.get? m k = some v) :
    v.From P := by
  obtain ⟨_, he, -⟩ := mem_of_get? hv
  exact (h _ he).2

theorem from_via : Mapping.From P (m.via g) ↔ m.From fun o => P (o.via g) := by
  rw [← Value.viaEntries_eq_via, ← Value.fromEntries_iff, Value.fromEntries_via,
    Value.fromEntries_iff]

theorem via_eq_via_iff : m.via g = m.via h ↔ m.From fun o => o.via g = o.via h := by
  rw [← Value.viaEntries_eq_via, ← Value.viaEntries_eq_via, Value.viaEntries_eq_viaEntries_iff,
    Value.fromEntries_iff]

end Mapping

/-! ## Numbers that stay -/

/-- Every node stands for itself. -/
def Labels.same : Labels := fun i => .node i.1 i.2

theorem Labels.faithful_same : Labels.Faithful Labels.same where
  node _ := rfl
  injective i j h := by
    obtain ⟨h1, h2⟩ := Origin.node.inj h
    exact Prod.ext h1 h2

theorem Origin.via_same (o : Origin) : o.via Labels.same = o := by cases o <;> rfl

theorem Scalar.via_same (s : Scalar) : s.via Labels.same = s := by
  cases s <;> simp [Scalar.via, Origin.via_same]

mutual

theorem Value.via_same : ∀ v : Value, v.via Labels.same = v
  | .scalar s => by rw [via, s.via_same]
  | .seq o xs => by rw [via, o.via_same, viaAll_same xs]
  | .tuple o xs => by rw [via, o.via_same, viaAll_same xs]
  | .set o xs => by
    rw [via, o.via_same, List.map_congr_left fun s _ => s.via_same, List.map_id']
  | .map o m => by rw [via, o.via_same, viaEntries_same m]
  | .loop _ o => by rw [via, o.via_same]

theorem Value.viaAll_same : ∀ xs : List Value, viaAll Labels.same xs = xs
  | [] => rfl
  | x :: xs => by rw [viaAll, via_same x, viaAll_same xs]

theorem Value.viaEntries_same :
    ∀ m : List (Scalar × Value), viaEntries Labels.same m = m
  | [] => rfl
  | (k, v) :: m => by rw [viaEntries, k.via_same, via_same v, viaEntries_same m]

end

theorem Mapping.via_same (m : Mapping) : m.via Labels.same = m := by
  rw [← Value.viaEntries_eq_via, Value.viaEntries_same]

/-- A value keeps its numbers exactly when its origins do. -/
theorem Value.via_eq_self_iff (v : Value) : v.via g = v ↔ v.From fun o => o.via g = o := by
  have hiff := v.via_eq_via_iff (g := g) (h := Labels.same)
  simpa only [via_same, Origin.via_same] using hiff

theorem Mapping.via_eq_self_iff {m : Mapping} : m.via g = m ↔ m.From fun o => o.via g = o := by
  have hiff := via_eq_via_iff (m := m) (g := g) (h := Labels.same)
  simpa only [via_same, Origin.via_same] using hiff

/-! ## What is met -/

namespace Yaml.Meetings

/-- Every identity met, once or twice, is one of before, or that of an origin with the
property. -/
structure Brings (P : Origin → Prop) (m m' : Meetings) : Prop where
  seen : ∀ i ∈ m'.seen, i ∈ m.seen ∨ P (.node i.1 i.2)
  twice : ∀ i ∈ m'.twice, i ∈ m.twice ∨ P (.node i.1 i.2)

theorem Brings.refl (m : Meetings) : Brings P m m := ⟨fun _ h => .inl h, fun _ h => .inl h⟩

theorem Brings.trans {m m' m'' : Meetings} (h : Brings P m m') (h' : Brings P m' m'') :
    Brings P m m'' where
  seen i hi := (h'.seen i hi).elim (h.seen i) .inr
  twice i hi := (h'.twice i hi).elim (h.twice i) .inr

theorem brings_meet {o : Origin} (ho : P o) (m : Meetings) : Brings P m (m.meet o).1 := by
  unfold meet
  split
  · exact Brings.refl m
  · rename_i j hj
    have hnode : P (.node j.1 j.2) := by
      rw [← eq_node_of_identity hj]
      exact ho
    split
    · split
      · exact Brings.refl m
      · refine ⟨fun _ h => .inl h, fun i hi => ?_⟩
        rcases List.mem_append.mp hi with hi | hi
        · exact .inl hi
        · rw [List.mem_singleton.mp hi]
          exact .inr hnode
    · refine ⟨fun i hi => ?_, fun _ h => .inl h⟩
      rcases List.mem_cons.mp hi with rfl | hi
      · exact .inr hnode
      · exact .inl hi

theorem brings_scalar {s : Scalar} (hs : s.From P) (m : Meetings) : Brings P m (m.scalar s) := by
  cases s with
  | date o d => exact brings_meet hs m
  | moment o t => exact brings_meet hs m
  | _ => exact Brings.refl m

theorem brings_scalars {xs : List Scalar} (hxs : ∀ s ∈ xs, s.From P) (m : Meetings) :
    Brings P m (xs.foldl (fun m s => m.scalar s) m) := by
  induction xs generalizing m with
  | nil => exact Brings.refl m
  | cons s xs ih =>
    obtain ⟨hs, hxs⟩ := List.forall_mem_cons.mp hxs
    exact (brings_scalar hs m).trans (ih hxs _)

/-- A node met again ends the walk; met for the first time it goes on inside. -/
theorem brings_node {o : Origin} (ho : P o) (m : Meetings) {inside : Meetings → Meetings}
    (hin : ∀ n, Brings P n (inside n)) :
    Brings P m (let (n, again) := m.meet o; if again then n else inside n) := by
  dsimp only
  split
  · exact brings_meet ho m
  · exact (brings_meet ho m).trans (hin _)

mutual

theorem brings_value : ∀ (v : Value), v.From P → ∀ m, Brings P m (value v m)
  | .scalar s, h, m => by
    rw [value]
    exact brings_scalar h m
  | .seq o xs, h, m => by
    rw [value]
    exact brings_node h.1 m fun n => brings_values xs h.2 n
  | .tuple o xs, h, m => by
    rw [value]
    exact brings_node h.1 m fun n => brings_values xs h.2 n
  | .loop _ o, h, m => by
    rw [value]
    exact brings_meet h m
  | .set o xs, h, m => by
    rw [value]
    exact brings_node h.1 m fun n => brings_scalars h.2 n
  | .map o es, h, m => by
    rw [value]
    exact brings_node h.1 m fun n => brings_entries es h.2 n

theorem brings_values : ∀ (xs : List Value), Value.FromAll P xs → ∀ m, Brings P m (values xs m)
  | [], _, m => by
    rw [values]
    exact Brings.refl m
  | x :: xs, h, m => by
    rw [values]
    exact (brings_value x h.1 m).trans (brings_values xs h.2 _)

theorem brings_entries : ∀ (es : List (Scalar × Value)), Value.FromEntries P es →
    ∀ m, Brings P m (entries es m)
  | [], _, m => by
    rw [entries]
    exact Brings.refl m
  | (k, v) :: es, h, m => by
    rw [entries]
    exact ((brings_scalar h.1 m).trans (brings_value v h.2.1 _)).trans
      (brings_entries es h.2.2 _)

end

theorem entries_append (m n : Mapping) (x : Meetings) :
    entries (m ++ n) x = entries n (entries m x) := by
  induction m generalizing x with
  | nil => rw [List.nil_append, entries]
  | cons e m ih =>
    obtain ⟨k, v⟩ := e
    rw [List.cons_append, entries, ih, entries]

/-- What was never met is met at most once. -/
theorem not_twice_meet {i : Identity} {m : Meetings} (hseen : i ∉ m.seen) (htwice : i ∉ m.twice)
    (o : Origin) : i ∉ (m.meet o).1.twice := by
  unfold meet
  split
  · exact htwice
  · rename_i j _
    split
    · rename_i hj
      split
      · exact htwice
      · intro hi
        rcases List.mem_append.mp hi with hi | hi
        · exact htwice hi
        · rw [List.mem_singleton.mp hi] at hseen
          exact hseen (List.contains_iff_mem.mp hj)
    · exact htwice

/-- A node that is no more than the last collection of a mapping is not met twice. -/
theorem not_twice_of_last {i : Identity} {m : Mapping} (hm : m.From (· ≠ .node i.1 i.2))
    {n : Mapping} (hn : n.From (· ≠ .node i.1 i.2)) (key : String) (o : Origin) :
    i ∉ (entries (m ++ [(.text key, .map o n)]) ⟨[], []⟩).twice := by
  have hfirst := brings_entries m (Value.fromEntries_iff.mpr hm) ⟨[], []⟩
  have hseen : i ∉ (entries m ⟨[], []⟩).seen := fun hi =>
    (hfirst.seen i hi).elim List.not_mem_nil fun hne => hne rfl
  have htwice : i ∉ (entries m ⟨[], []⟩).twice := fun hi =>
    (hfirst.twice i hi).elim List.not_mem_nil fun hne => hne rfl
  have hmeet := not_twice_meet hseen htwice o
  rw [entries_append, entries, entries, value]
  change i ∉ (if ((entries m ⟨[], []⟩).meet o).2 then ((entries m ⟨[], []⟩).meet o).1
    else entries n ((entries m ⟨[], []⟩).meet o).1).twice
  split
  · exact hmeet
  · intro hi
    have hlast := brings_entries n (Value.fromEntries_iff.mpr hn) ((entries m ⟨[], []⟩).meet o).1
    exact (hlast.twice i hi).elim hmeet fun hne => hne rfl

end Yaml.Meetings

end AgentRelay
