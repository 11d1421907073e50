import AgentRelay.Proofs.Except
import AgentRelay.Proofs.Settings.Merge
import AgentRelay.Settings.Cascade

/-
  When settings can be compared with the settings that are known.

  A complaint names a key, so settings whose keys have texts can always be compared. Of the
  others it depends on where the key without a text is: in the settings themselves and in
  the two sections it is named, deeper down it is not (`complaints_eq_ok_iff`).
-/

namespace AgentRelay.Settings

/-- Every key of the mapping has a text. -/
def Named (m : Mapping) : Prop := ∀ k ∈ m.map (·.1), (Value.scalar k).display?.isSome

/-- Every key of the settings and of the sections has a text. -/
structure Nameable (m : Mapping) : Prop where
  keys : Named m
  sections : ∀ e ∈ m, e.1 = .text runKey ∨ e.1 = .text foldersKey →
    ∀ n, e.2.entries? = some n → Named n

theorem keyText_eq_ok_iff {k : Scalar} :
    (∃ s, keyText k = .ok s) ↔ (Value.scalar k).display?.isSome := by
  unfold keyText Value.displayed
  cases (Value.scalar k).display? <;> simp

theorem complaintsUnder_eq_ok_iff {outer : Scalar} {m known : Mapping} :
    (∃ c, complaintsUnder outer m known = .ok c) ↔
      ∀ e ∈ m, ∃ key, fullKey outer e.1 = .ok key ∧
        ∃ c, complaintsAbout key e.2 (Mapping.get? known e.1) = .ok c := by
  induction m with
  | nil => exact ⟨fun _ e he => absurd he List.not_mem_nil, fun _ => ⟨[], by rw [complaintsUnder]⟩⟩
  | cons e m ih =>
    rw [complaintsUnder, List.forall_mem_cons, ← ih]
    constructor
    · rintro ⟨c, hc⟩
      obtain ⟨key, hkey, hc⟩ := exists_of_bind_eq_ok hc
      obtain ⟨first, hfirst, hc⟩ := exists_of_bind_eq_ok hc
      obtain ⟨rest, hrest, -⟩ := exists_of_bind_eq_ok hc
      exact ⟨⟨key, hkey, first, hfirst⟩, rest, hrest⟩
    · rintro ⟨⟨key, hkey, first, hfirst⟩, rest, hrest⟩
      rw [hkey]
      refine ⟨first ++ rest, ?_⟩
      change (complaintsAbout key e.2 (Mapping.get? known e.1) >>= _) = _
      rw [hfirst]
      change (complaintsUnder outer m known >>= _) = _
      rw [hrest]
      rfl

theorem keyText_text (s : String) : keyText (.text s) = .ok s := by
  rw [keyText, Value.displayed, Value.display?_text]
  exact congrArg Except.ok String.ofList_toList

/-- Unless two mappings are compared, it is only looked at what kind of value there is. -/
theorem exists_complaintsAbout {key : Scalar} (hkey : (Value.scalar key).display?.isSome)
    {v : Value} {known : Option Value}
    (h : ∀ o m p n, v = .map o m → known ≠ some (.map p n)) :
    ∃ c, complaintsAbout key v known = .ok c := by
  obtain ⟨s, hs⟩ := keyText_eq_ok_iff.mpr hkey
  cases known with
  | none => exact ⟨_, by rw [complaintsAbout, unknownKey, quoted, hs]; rfl⟩
  | some x =>
    have hkind : complaintsAbout key v (some x) =
        if v.isNull then .ok [] else kindComplaint key v x := by
      cases v with
      | map o m =>
        cases x with
        | map p n => exact absurd rfl (h o m p n rfl)
        | _ => rw [complaintsAbout]; exact fun _ _ _ _ _ => nofun
      | _ => rw [complaintsAbout]; exact nofun
    rw [hkind]
    split
    · exact ⟨[], rfl⟩
    · unfold kindComplaint
      dsimp only
      split
      · exact ⟨[], rfl⟩
      · rw [quoted, hs]
        exact ⟨_, rfl⟩

theorem named_of_keys {m n : Mapping} (h : m.map (·.1) = n.map (·.1)) : Named m ↔ Named n := by
  rw [Named, Named, h]

/-- The entries of a section can be complained about when their keys have texts. -/
theorem complaintsUnder_section {outer : String} (houter : outer ≠ "") {m known : Mapping}
    (hknown : ∀ k x, Mapping.get? known k = some x → ∃ s, x = .scalar s) :
    (∃ c, complaintsUnder (.text outer) m known = .ok c) ↔ Named m := by
  have htrue : (Value.scalar (.text outer)).truthy = true := by
    simpa [Value.truthy] using houter
  have hfull : ∀ k, fullKey (.text outer) k =
      (keyText k).map fun s => .text (outer ++ "." ++ s) := by
    intro k
    rw [fullKey, htrue, keyText_text]
    cases keyText k <;> rfl
  rw [complaintsUnder_eq_ok_iff, Named, List.forall_mem_map]
  refine forall₂_congr fun e he => ⟨?_, fun h => ?_⟩
  · rintro ⟨key, hkey, -⟩
    rw [hfull] at hkey
    obtain ⟨s, hs, -⟩ := exists_of_map_eq_ok hkey
    exact keyText_eq_ok_iff.mp ⟨s, hs⟩
  · obtain ⟨s, hs⟩ := keyText_eq_ok_iff.mpr h
    refine ⟨.text (outer ++ "." ++ s), by rw [hfull, hs]; rfl, ?_⟩
    refine exists_complaintsAbout rfl fun o m p n _ hmap => ?_
    obtain ⟨s, hs⟩ := hknown e.1 _ hmap
    cases hs

theorem get?_defaults (k : Scalar) :
    Mapping.get? defaults k =
      if k = .text runKey then some (Value.mapping runDefaults)
      else if k = .text foldersKey then some (Value.mapping folderDefaults) else none := by
  rw [defaults, Mapping.get?, Mapping.get?, Mapping.get?]
  simp only [Scalar.same_text_iff']

theorem scalar_of_runDefaults {k : Scalar} {x : Value} (h : Mapping.get? runDefaults k = some x) :
    ∃ s, x = .scalar s := by
  obtain ⟨j, hmem, -⟩ := Mapping.mem_of_get? h
  have hall : ∀ e ∈ runDefaults, ∃ s, e.2 = .scalar s := by simp [runDefaults]
  exact hall _ hmem

theorem scalar_of_folderDefaults {k : Scalar} {x : Value}
    (h : Mapping.get? folderDefaults k = some x) : ∃ s, x = .scalar s := by
  obtain ⟨j, hmem, -⟩ := Mapping.mem_of_get? h
  obtain ⟨a, -, ha⟩ := List.mem_map.mp hmem
  exact ⟨.null, (congrArg Prod.snd ha).symm⟩

/-- Settings can be complained about when their keys have texts. -/
theorem complaints_eq_ok_iff {m : Mapping} :
    (∃ c, complaints m defaults = .ok c) ↔ Nameable m := by
  have hdepth : depth defaults + 1 = 2 := by decide +kernel
  have hfull : ∀ k, fullKey (.text "") k = .ok k := fun _ => rfl
  have habout : ∀ e : Scalar × Value, (∃ key, fullKey (.text "") e.1 = .ok key ∧
      ∃ c, complaintsAbout key (spreadValue 1 e.2) (Mapping.get? defaults e.1) = .ok c) ↔
      (Value.scalar e.1).display?.isSome ∧ (e.1 = .text runKey ∨ e.1 = .text foldersKey →
        ∀ n, e.2.entries? = some n → Named n) := by
    rintro ⟨k, v⟩
    have hsection : ∀ (name : String) (known : Mapping), name ≠ "" →
        (∀ j x, Mapping.get? known j = some x → ∃ s, x = .scalar s) →
        ((∃ c, complaintsAbout (.text name) (spreadValue 1 v) (some (Value.mapping known)) = .ok c) ↔
          ∀ n, v.entries? = some n → Named n) := by
      intro name known hname hknown
      cases v with
      | map o n =>
        change (∃ c, complaintsUnder (.text name) _ known = .ok c) ↔ _
        rw [complaintsUnder_section hname hknown, named_of_keys (keys_spread _ _)]
        exact ⟨fun h n hn => Option.some.inj hn ▸ h, fun h => h _ rfl⟩
      | _ => exact ⟨fun _ n => nofun, fun _ => exists_complaintsAbout rfl fun _ _ _ _ => nofun⟩
    have hkey : (∃ key, fullKey (.text "") k = .ok key ∧
        ∃ c, complaintsAbout key (spreadValue 1 v) (Mapping.get? defaults k) = .ok c) ↔
        ∃ c, complaintsAbout k (spreadValue 1 v) (Mapping.get? defaults k) = .ok c := by
      simp [hfull]
    rw [hkey, get?_defaults]
    by_cases hrun : k = .text runKey
    · subst hrun
      rw [if_pos rfl, hsection runKey runDefaults (by decide) fun _ _ => scalar_of_runDefaults]
      exact ⟨fun h => ⟨rfl, fun _ => h⟩, fun h => h.2 (Or.inl rfl)⟩
    · rw [if_neg hrun]
      by_cases hfolders : k = .text foldersKey
      · subst hfolders
        rw [if_pos rfl, hsection foldersKey folderDefaults (by decide) fun _ _ =>
          scalar_of_folderDefaults]
        exact ⟨fun h => ⟨rfl, fun _ => h⟩, fun h => h.2 (Or.inr rfl)⟩
      · rw [if_neg hfolders]
        refine ⟨?_, fun h => exists_complaintsAbout h.1 fun _ _ _ _ _ => nofun⟩
        rintro ⟨c, hc⟩
        rw [complaintsAbout, unknownKey, quoted] at hc
        obtain ⟨q, hq, -⟩ := exists_of_map_eq_ok hc
        obtain ⟨text, htext, -⟩ := exists_of_map_eq_ok hq
        obtain ⟨text', htext', -⟩ := exists_of_map_eq_ok htext
        refine ⟨keyText_eq_ok_iff.mp ⟨text', htext'⟩, ?_⟩
        exact fun h => absurd h (not_or.mpr ⟨hrun, hfolders⟩)
  rw [complaints, hdepth, spread_succ, complaintsUnder_eq_ok_iff, List.forall_mem_map]
  constructor
  · intro h
    refine ⟨List.forall_mem_map.mpr fun e he => ?_, fun e he => ?_⟩
    · exact ((habout e).mp (h e he)).1
    · exact ((habout e).mp (h e he)).2
  · rintro ⟨hkeys, hsections⟩ e he
    exact (habout e).mpr ⟨List.forall_mem_map.mp hkeys e he, hsections e he⟩

end AgentRelay.Settings
