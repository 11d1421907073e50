import AgentRelay.Proofs.Settings.Merge
import AgentRelay.Settings.Cascade

/-
  Settings resolved path by path.

  Nested mappings are trees: no mapping stands inside itself. Two of them always come
  together, and what is reached along a path of keys afterwards is known from what is
  reached in the two layers (`Resolves`). What the upper layer has there counts, and what
  it has above the path cuts off what lies below (`reach?_upper`); where it has nothing,
  and only mappings meet on the way, the lower layer counts (`reach?_lower`). A layer that
  was laid over once, or that is the mapping itself, changes nothing.
-/

namespace AgentRelay

/-! ## Paths of keys -/

namespace Value

/-- What is reached from a value along a path of keys. -/
def reach? : Value → List Scalar → Option Value
  | v, [] => some v
  | v, k :: ks => v.entries?.bind fun m => (Mapping.get? m k).bind fun w => w.reach? ks

/-- A mapping is reached along the path. -/
def HasMapping (v : Value) (ks : List Scalar) : Prop :=
  ∃ w, v.reach? ks = some w ∧ w.isMapping = true

theorem reach?_append (v : Value) (ks js : List Scalar) :
    v.reach? (ks ++ js) = (v.reach? ks).bind fun w => w.reach? js := by
  induction ks generalizing v with
  | nil => rfl
  | cons k ks ih => simp only [List.cons_append, reach?, ih, Option.bind_assoc]

/-- Below a value that is no mapping there is nothing. -/
theorem reach?_of_not_mapping {v : Value} (h : v.isMapping = false) (k : Scalar)
    (ks : List Scalar) : v.reach? (k :: ks) = none := by
  have hentries : v.entries? = none := by
    cases v with
    | map o m => cases h
    | _ => rfl
  rw [reach?, hentries]
  rfl

/-- A value whose mappings have distinct keys and do not stand inside themselves, down to
closed values that are no mappings. -/
inductive Nested : Value → Prop
  | leaf {v : Value} : v.isMapping = false → (∀ o, v.sealedFrom o = true) → Nested v
  | map {o : Origin} {m : Mapping} : m.Distinct → (∀ e ∈ m, Nested e.2) → Nested (.map o m)

theorem Nested.sealedFrom {v : Value} (h : v.Nested) (o : Origin) : v.sealedFrom o = true := by
  induction h with
  | leaf _ hclosed => exact hclosed o
  | map _ _ ih =>
    rw [Value.sealedFrom, sealedEntries_iff.mpr ih]
    exact Bool.or_true _

theorem nested_scalar (s : Scalar) : Nested (.scalar s) := by
  refine .leaf ?_ fun o => rfl
  cases s <;> rfl

end Value

/-- What is reached along a path of keys. -/
def Mapping.reach? (m : Mapping) (ks : List Scalar) : Option Value := (Value.mapping m).reach? ks

/-- A mapping is reached along the path. -/
def Mapping.HasMapping (m : Mapping) (ks : List Scalar) : Prop := (Value.mapping m).HasMapping ks

/-- A mapping of nested values, with distinct keys. -/
structure Mapping.Nested (m : Mapping) : Prop where
  distinct : m.Distinct
  values : ∀ e ∈ m, e.2.Nested

namespace Mapping.Nested

variable {m n : Mapping} {o : Origin} {k : Scalar} {v : Value}

protected theorem map (h : m.Nested) (o : Origin) : (Value.map o m).Nested :=
  .map h.distinct h.values

theorem nil : Mapping.Nested [] := ⟨List.Pairwise.nil, nofun⟩

theorem sealed (h : m.Nested) : m.Sealed := fun o =>
  Value.sealedEntries_iff.mpr fun e he => (h.values e he).sealedFrom o

theorem value (h : m.Nested) (hv : get? m k = some v) : v.Nested := by
  obtain ⟨j, hmem, -⟩ := mem_of_get? hv
  exact h.values _ hmem

theorem reach?_cons (h : m.Nested) (o : Origin) (k : Scalar) (ks : List Scalar) :
    (Value.map o m).reach? (k :: ks) = (get? m k).bind fun w => w.reach? ks := by
  rw [Value.reach?, Value.entries?_map_of_sealed h.sealed]
  rfl

theorem hasMapping_cons (h : m.Nested) (hv : get? m k = some v) {ks : List Scalar} :
    (Value.map o m).HasMapping (k :: ks) ↔ v.HasMapping ks := by
  unfold Value.HasMapping
  rw [h.reach?_cons, hv]
  rfl

theorem set (h : m.Nested) (k : Scalar) (hv : v.Nested) : (set m k v).Nested := by
  refine ⟨h.distinct.set k v, ?_⟩
  obtain ⟨-, hvalues⟩ := h
  induction m with
  | nil => simpa [Mapping.set] using hv
  | cons e m ih =>
    obtain ⟨j, w⟩ := e
    obtain ⟨hw, hrest⟩ := List.forall_mem_cons.mp hvalues
    rw [Mapping.set]
    split
    · exact List.forall_mem_cons.mpr ⟨hv, hrest⟩
    · exact List.forall_mem_cons.mpr ⟨hw, ih hrest⟩

/-- A mapping without mappings. -/
theorem of_scalars (hd : m.Distinct) (h : ∀ e ∈ m, ∃ s, e.2 = .scalar s) : m.Nested := by
  refine ⟨hd, fun e he => ?_⟩
  obtain ⟨s, hs⟩ := h e he
  rw [hs]
  exact Value.nested_scalar s

end Mapping.Nested

theorem Value.Nested.exists_map {v : Value} (h : v.Nested) (hmap : v.isMapping = true) :
    ∃ o m, v = .map o m ∧ Mapping.Nested m := by
  cases h with
  | leaf hleaf _ => rw [hleaf] at hmap; cases hmap
  | map hd hvalues => exact ⟨_, _, rfl, hd, hvalues⟩

theorem Value.Nested.entries {o : Origin} {m : Mapping} (h : (Value.map o m).Nested) :
    m.Nested := by
  cases h with
  | leaf hleaf _ => cases hleaf
  | map hd hvalues => exact ⟨hd, hvalues⟩

namespace Settings

variable {lower upper : Mapping}

/-! ## Nested mappings come together -/

theorem nested_defaults : defaults.Nested := by
  have hrun : runDefaults.Nested := .of_scalars (by decide) (by simp [runDefaults])
  have hfolders : folderDefaults.Nested := .of_scalars (by decide) (by simp [folderDefaults])
  refine ⟨by decide, ?_⟩
  simp [defaults, Value.mapping, hrun.map, hfolders.map]

theorem spread_eq_self {m : Mapping} (h : ∀ e ∈ m, ∀ n, spreadValue n e.2 = e.2) (n : Nat) :
    spread n m = m := by
  cases n with
  | zero => rfl
  | succ n =>
    have hentry : ∀ e ∈ m, (e.1, spreadValue n e.2) = e := fun e he => by rw [h e he n]
    rw [spread_succ, List.map_congr_left hentry, List.map_id']

theorem spreadValue_of_nested {v : Value} (h : v.Nested) (n : Nat) : spreadValue n v = v := by
  induction h generalizing n with
  | @leaf v hleaf _ =>
    cases v with
    | map o m => cases hleaf
    | _ => rfl
  | map hd hvalues ih =>
    have hsealed := (Mapping.Nested.mk hd hvalues).sealed
    rw [spreadValue, Value.entries?_map_of_sealed hsealed, Option.getD_some, spread_eq_self ih]

theorem spread_of_nested {m : Mapping} (h : m.Nested) (n : Nat) : spread n m = m :=
  spread_eq_self (fun e he => spreadValue_of_nested (h.values e he)) n

theorem clash_eq_false {lower : Mapping}
    (h : ∀ e ∈ upper, clashAt (Mapping.get? lower e.1) e.2 = false) :
    clash lower upper = false := by
  induction upper with
  | nil => rfl
  | cons e upper ih =>
    obtain ⟨he, hrest⟩ := List.forall_mem_cons.mp h
    rw [clash, he, ih hrest]
    rfl

theorem clashAt_of_nested {l : Option Value} {y : Value} (hl : ∀ x ∈ l, x.Nested)
    (hy : y.Nested) : clashAt l y = false := by
  induction hy generalizing l with
  | leaf hleaf _ =>
    unfold clashAt
    split
    · cases hleaf
    · exact hleaf
    · cases hleaf
    · rfl
  | map hd _ ih =>
    unfold clashAt
    split
    · rename_i hmap
      cases hmap
      refine clash_eq_false fun e he => ih e he fun x hx => ?_
      exact (hl _ rfl).entries.value hx
    · cases hl _ rfl with
      | leaf hleaf _ => cases hleaf
    · rename_i hmap
      cases hmap
    · rfl

/-- Nested mappings can always be laid over one another. -/
theorem layered?_of_nested (hl : lower.Nested) (hu : upper.Nested) :
    layered? lower upper = some (layered lower upper) := by
  have hclash : clash lower upper = false := clash_eq_false fun e he =>
    clashAt_of_nested (fun _ hx => hl.value hx) (hu.values e he)
  unfold layered?
  dsimp only
  rw [spread_of_nested hl, spread_of_nested hu, hclash]
  rfl

/-- Each value that comes in is nested when the two it is made of are. -/
theorem nested_layered_of (hl : lower.Nested)
    (h : ∀ e ∈ upper, ∀ l : Option Value, (∀ x ∈ l, x.Nested) →
      (layeredValue l e.2).Nested) : (layered lower upper).Nested := by
  induction upper generalizing lower with
  | nil => rwa [layered]
  | cons e upper ih =>
    obtain ⟨he, hrest⟩ := List.forall_mem_cons.mp h
    rw [layered]
    exact ih (hl.set e.1 (he _ fun _ hx => hl.value hx)) hrest

theorem nested_layeredValue {l : Option Value} {y : Value} (hl : ∀ x ∈ l, x.Nested)
    (hy : y.Nested) : (layeredValue l y).Nested := by
  induction hy generalizing l with
  | leaf hleaf hclosed =>
    rw [layeredValue_of_not_map fun _ _ _ _ _ h => by rw [h] at hleaf; cases hleaf]
    exact .leaf hleaf hclosed
  | map hd hvalues ih =>
    unfold layeredValue
    split
    · rename_i hmap
      cases hmap
      refine Mapping.Nested.map (nested_layered_of (hl _ rfl).entries fun e he l hl => ?_) _
      exact ih e he hl
    · exact .map hd hvalues

theorem nested_layered (hl : lower.Nested) (hu : upper.Nested) : (layered lower upper).Nested :=
  nested_layered_of hl fun e he _ hl => nested_layeredValue hl (hu.values e he)

/-! ## What is reached after both layers -/

/-- Of two values of which one is no mapping the upper one counts. -/
theorem layeredValue_of_not_both {x y : Value} (h : ¬(x.isMapping = true ∧ y.isMapping = true)) :
    layeredValue (some x) y = y :=
  layeredValue_of_not_map fun _ _ _ _ hx hy => h ⟨by rw [Option.some.inj hx]; rfl, by rw [hy]; rfl⟩

theorem layeredValue_none (y : Value) : layeredValue none y = y :=
  layeredValue_of_not_map fun _ _ _ _ => nofun

/-- The first step of a path into two mappings of which one was laid over the other. -/
theorem reach?_layeredValue_cons {m n : Mapping} {o p : Origin} (hm : m.Nested) (hn : n.Nested)
    (k : Scalar) (ks : List Scalar) :
    (layeredValue (some (.map o m)) (.map p n)).reach? (k :: ks) =
      match Mapping.get? n k with
      | some v => (layeredValue (Mapping.get? m k) v).reach? ks
      | none => (Mapping.get? m k).bind fun u => u.reach? ks := by
  rw [layeredValue, (nested_layered hm hn).reach?_cons, get?_layered hn.distinct]
  cases Mapping.get? n k <;> rfl

/-- What the upper layer has counts, unless two mappings meet. -/
theorem reach?_upper {x y w : Value} {ks : List Scalar} (hx : x.Nested) (hy : y.Nested)
    (hw : y.reach? ks = some w) (hmeet : ¬(x.HasMapping ks ∧ w.isMapping = true)) :
    (layeredValue (some x) y).reach? ks = some w := by
  induction ks generalizing x y with
  | nil =>
    obtain rfl := Option.some.inj hw
    rw [layeredValue_of_not_both fun h => hmeet ⟨⟨x, rfl, h.1⟩, h.2⟩]
    rfl
  | cons k ks ih =>
    by_cases hboth : x.isMapping = true ∧ y.isMapping = true
    · obtain ⟨o, m, rfl, hm⟩ := hx.exists_map hboth.1
      obtain ⟨p, n, rfl, hn⟩ := hy.exists_map hboth.2
      rw [hn.reach?_cons] at hw
      obtain ⟨v, hv, hw⟩ := Option.bind_eq_some_iff.mp hw
      rw [reach?_layeredValue_cons hm hn, hv]
      cases hu : Mapping.get? m k with
      | none => exact (congrArg (Value.reach? · ks) (layeredValue_none v)).trans hw
      | some u =>
        exact ih (hm.value hu) (hn.value hv) hw fun h =>
          hmeet ⟨(hm.hasMapping_cons hu).mpr h.1, h.2⟩
    · rwa [layeredValue_of_not_both hboth]

/-- Where the upper layer has nothing, and two mappings meet all the way, the lower layer
counts. -/
theorem reach?_lower {x y : Value} {ks : List Scalar} (hx : x.Nested) (hy : y.Nested)
    (hnone : y.reach? ks = none)
    (hmeet : ∀ ps v, ps <+: ks → ps ≠ ks → y.reach? ps = some v →
      v.isMapping = true ∧ x.HasMapping ps) :
    (layeredValue (some x) y).reach? ks = x.reach? ks := by
  induction ks generalizing x y with
  | nil => cases hnone
  | cons k ks ih =>
    obtain ⟨hymap, x', hx', hxmap⟩ := hmeet [] y List.nil_prefix nofun rfl
    obtain rfl := Option.some.inj hx'
    obtain ⟨o, m, rfl, hm⟩ := hx.exists_map hxmap
    obtain ⟨p, n, rfl, hn⟩ := hy.exists_map hymap
    rw [hn.reach?_cons] at hnone
    rw [reach?_layeredValue_cons hm hn, hm.reach?_cons]
    cases hv : Mapping.get? n k with
    | none => rfl
    | some v =>
      rw [hv] at hnone
      have hbelow : ∀ ps w, ps <+: ks → ps ≠ ks → v.reach? ps = some w →
          w.isMapping = true ∧ (Value.map o m).HasMapping (k :: ps) := by
        intro ps w hps hne hw
        refine hmeet (k :: ps) w (List.cons_prefix_cons.mpr ⟨rfl, hps⟩) (by simpa using hne) ?_
        rw [hn.reach?_cons, hv]
        exact hw
      -- something stands below the key, as the path goes on behind it
      have hne : [] ≠ ks := by
        rintro rfl
        cases hnone
      obtain ⟨-, u', hu', -⟩ := hbelow [] v List.nil_prefix hne rfl
      rw [hm.reach?_cons] at hu'
      obtain ⟨u, hu, -⟩ := Option.bind_eq_some_iff.mp hu'
      rw [hu]
      refine ih (hm.value hu) (hn.value hv) hnone fun ps w hps hne hw => ?_
      exact (hbelow ps w hps hne hw).imp_right (hm.hasMapping_cons hu).mp

/-- What a mapping has along every path of keys, when it is one with another one laid over
it. -/
structure Resolves (lower upper m : Mapping) : Prop where
  /-- A value of the upper layer that is no mapping counts. -/
  value : ∀ ks v, upper.reach? ks = some v → v.isMapping = false → m.reach? ks = some v
  /-- What the upper layer does not reach, through nothing but mappings in both, is left as
  it is. -/
  keeps : ∀ ks, upper.reach? ks = none →
    (∀ ps v, ps <+: ks → ps ≠ ks → upper.reach? ps = some v →
      v.isMapping = true ∧ lower.HasMapping ps) →
    m.reach? ks = lower.reach? ks
  /-- There is nothing below a value of the upper layer that is no mapping. -/
  cuts : ∀ ks ps v, ps <+: ks → ps ≠ ks → upper.reach? ps = some v → v.isMapping = false →
    m.reach? ks = none
  /-- A mapping of the upper layer where the lower one has none counts as a whole. -/
  replaces : ∀ ks v, upper.reach? ks = some v → v.isMapping = true → ¬ lower.HasMapping ks →
    ∀ js, m.reach? (ks ++ js) = upper.reach? (ks ++ js)

theorem reach?_layered_of_upper (hl : lower.Nested) (hu : upper.Nested) {ks : List Scalar}
    {v : Value} (hv : upper.reach? ks = some v)
    (hmeet : ¬(lower.HasMapping ks ∧ v.isMapping = true)) :
    (layered lower upper).reach? ks = some v := by
  have hreach := reach?_upper (hl.map .own) (hu.map .own) hv hmeet
  rwa [layeredValue] at hreach

theorem resolves_layered (hl : lower.Nested) (hu : upper.Nested) :
    Resolves lower upper (layered lower upper) where
  value ks v hv hleaf := reach?_layered_of_upper hl hu hv (by simp [hleaf])
  keeps ks hnone hmeet := by
    have hreach := reach?_lower (hl.map .own) (hu.map .own) hnone hmeet
    rwa [layeredValue] at hreach
  cuts ks ps v hps hne hv hleaf := by
    obtain ⟨js, rfl⟩ := hps
    have hreach := reach?_layered_of_upper hl hu hv (by simp [hleaf])
    cases js with
    | nil => simp at hne
    | cons j js =>
      rw [Mapping.reach?] at hreach ⊢
      rw [Value.reach?_append, hreach]
      exact Value.reach?_of_not_mapping hleaf j js
  replaces ks v hv hmap hlower js := by
    have hreach := reach?_layered_of_upper hl hu hv fun h => hlower h.1
    rw [Mapping.reach?] at hreach hv ⊢
    rw [Mapping.reach?, Value.reach?_append, Value.reach?_append, hreach, hv]

/-! ## Layers that change nothing -/

/-- Nothing changes when every value is there as it would come in. -/
theorem layered_eq_self
    (h : ∀ e ∈ upper, Mapping.get? lower e.1 =
      some (layeredValue (Mapping.get? lower e.1) e.2)) : layered lower upper = lower := by
  induction upper with
  | nil => rw [layered]
  | cons e upper ih =>
    obtain ⟨he, hrest⟩ := List.forall_mem_cons.mp h
    rw [layered, Mapping.set_eq_self he, ih hrest]

theorem layeredValue_self {v : Value} (h : v.Nested) : layeredValue (some v) v = v := by
  induction h with
  | leaf hleaf _ => exact layeredValue_of_not_both (by simp [hleaf])
  | map hd _ ih =>
    rw [layeredValue, layered_eq_self fun e he => ?_]
    rw [Mapping.get?_of_entry hd he, ih e he]

theorem layered_self {m : Mapping} (h : m.Nested) : layered m m = m := by
  refine layered_eq_self fun e he => ?_
  rw [Mapping.get?_of_entry h.distinct he, layeredValue_self (h.values e he)]

/-- A mapping that every value was laid over once already changes nothing. -/
theorem layered_again (hd : upper.Distinct)
    (h : ∀ e ∈ upper, ∀ l, layeredValue (some (layeredValue l e.2)) e.2 = layeredValue l e.2) :
    layered (layered lower upper) upper = layered lower upper := by
  refine layered_eq_self fun e he => ?_
  rw [get?_layered hd, Mapping.get?_of_entry hd he]
  exact congrArg some (h e he _).symm

theorem layeredValue_again {v : Value} (h : v.Nested) (l : Option Value) :
    layeredValue (some (layeredValue l v)) v = layeredValue l v := by
  induction h generalizing l with
  | leaf hleaf hclosed =>
    rw [layeredValue_of_not_both (by simp [hleaf]),
      layeredValue_of_not_map fun _ _ _ _ _ hv => by rw [hv] at hleaf; cases hleaf]
  | @map p n hd hvalues ih =>
    by_cases hmeet : ∃ o m, l = some (.map o m)
    · obtain ⟨o, m, rfl⟩ := hmeet
      rw [layeredValue, layeredValue, layered_again hd ih]
    · rw [layeredValue_of_not_map fun o m _ _ hl _ => hmeet ⟨o, m, hl⟩]
      exact layeredValue_self (.map hd hvalues)

/-- A mapping laid over one that shares no key with it comes behind it. -/
theorem layered_of_lacks (hd : upper.Distinct) (h : ∀ e ∈ upper, lower.Lacks e.1) :
    layered lower upper = lower ++ upper := by
  induction upper generalizing lower with
  | nil => rw [layered, List.append_nil]
  | cons e upper ih =>
    obtain ⟨hfirst, hrest⟩ := Mapping.Distinct.cons_iff.mp hd
    obtain ⟨he, hlacks⟩ := List.forall_mem_cons.mp h
    have hbehind : ∀ f ∈ upper, Mapping.Lacks (lower ++ [e]) f.1 := fun f hf g hg =>
      (List.mem_append.mp hg).elim (hlacks f hf g) fun hg =>
        List.mem_singleton.mp hg ▸ hfirst f hf
    rw [layered, Mapping.get?_eq_none_iff.mpr he, layeredValue_none, Mapping.set_of_lacks he,
      ih hrest hbehind, List.append_assoc]
    rfl

/-- Nested settings are resolved path by path by the last layer that has anything there.
Laying the same layer over them again changes nothing, nor does a mapping laid over itself,
or over or under nothing. -/
theorem layers_resolve (hl : lower.Nested) (hu : upper.Nested) :
    ∃ m, layered? lower upper = some m ∧ m.Nested ∧ Resolves lower upper m ∧
      layered? m upper = some m ∧ layered? lower lower = some lower ∧
      layered? lower [] = some lower ∧ layered? [] lower = some lower := by
  have hm := nested_layered hl hu
  have hagain : layered (layered lower upper) upper = layered lower upper :=
    layered_again hu.distinct fun e he => layeredValue_again (hu.values e he)
  refine ⟨_, layered?_of_nested hl hu, hm, resolves_layered hl hu, ?_, ?_, ?_, ?_⟩
  · rw [layered?_of_nested hm hu, hagain]
  · rw [layered?_of_nested hl hl, layered_self hl]
  · rw [layered?_of_nested hl .nil, layered]
  · have hlacks : ∀ e ∈ lower, Mapping.Lacks [] e.1 := fun _ _ _ h => absurd h List.not_mem_nil
    rw [layered?_of_nested .nil hl, layered_of_lacks hl.distinct hlacks, List.nil_append]

/-- A project that deletes orphans and chooses no folders at all. -/
def deletingProject : Mapping :=
  [(.text runKey, Value.mapping [(.text deleteOrphansKey, .bool true)]), (.text foldersKey, .null)]

/-- Over the defaults the project's own settings count, the other settings of the section
are left as they are, and there are no folders any more. -/
theorem project_over_defaults :
    ∃ m, layered? defaults deletingProject = some m ∧
      m.reach? [.text runKey, .text deleteOrphansKey] = some (.bool true) ∧
      m.reach? [.text runKey, .text keepExistingKey] = some (.bool false) ∧
      m.reach? [.text foldersKey, .text Agent.claude.name] = none ∧
      layered? m deletingProject = some m := by
  have hproject : deletingProject.Nested := by
    have hrun : Mapping.Nested [(.text deleteOrphansKey, .bool true)] :=
      .of_scalars (by decide) (by simp)
    refine ⟨by decide, ?_⟩
    simp [deletingProject, Value.mapping, hrun.map, Value.nested_scalar]
  obtain ⟨m, hm, -, hresolves, hagain, -⟩ := layers_resolve nested_defaults hproject
  refine ⟨m, hm, hresolves.value _ _ rfl rfl, ?_, ?_, hagain⟩
  · refine (hresolves.keeps _ rfl fun ps v hps hne hv => ?_).trans rfl
    rcases List.prefix_cons_iff.mp hps with rfl | ⟨qs, rfl, hqs⟩
    · obtain rfl := Option.some.inj hv
      exact ⟨rfl, _, rfl, rfl⟩
    · rcases List.prefix_cons_iff.mp hqs with rfl | ⟨rs, rfl, hrs⟩
      · obtain rfl := Option.some.inj hv
        exact ⟨rfl, _, rfl, rfl⟩
      · rw [List.prefix_nil.mp hrs] at hne
        exact absurd rfl hne
  · exact hresolves.cuts _ [.text foldersKey] .null ⟨_, rfl⟩ nofun rfl rfl

end Settings

end AgentRelay
