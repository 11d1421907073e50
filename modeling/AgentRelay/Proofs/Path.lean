import AgentRelay.CommandName
import AgentRelay.Proofs.Files.Tree
import AgentRelay.Proofs.Text

/-
  Paths and their names.

  Every written path is `Tidy`: written down and read again it is what it was
  (`ofText_text`). The names of a `Clean` path, which has no two points, can be
  names of places. A sorted listing of paths is known by its members
  (`eq_of_sorted`).
-/

namespace AgentRelay

open Files (ValidName)

namespace Path

/-- A name between slashes; it may be two points. -/
def IsName (n : String) : Prop := n ≠ "" ∧ n ≠ "." ∧ '/' ∉ n.toList

instance (n : String) : Decidable (IsName n) := inferInstanceAs (Decidable (_ ∧ _))

theorem isName_of_valid {n : String} (h : ValidName n) : IsName n := ⟨h.1, h.2.1, h.2.2.2⟩

theorem valid_of_isName {n : String} (h : IsName n) (hup : n ≠ "..") : ValidName n :=
  ⟨h.1, h.2.1, hup, h.2.2⟩

/-- The path can be written down. -/
structure Tidy (p : Path) : Prop where
  root : p.root ≤ 2
  names : ∀ n ∈ p.parts, IsName n

/-- The path has no two points, and its names can be told apart. -/
structure Clean (p : Path) : Prop where
  root : p.root ≤ 2
  names : ∀ n ∈ p.parts, ValidName n

theorem Clean.tidy {p : Path} (h : p.Clean) : p.Tidy :=
  ⟨h.root, fun n hn => isName_of_valid (h.names n hn)⟩

/-! ## Reading paths -/

theorem rootOf_le (cs : List Char) : rootOf cs ≤ 2 := by
  simp only [rootOf]
  split <;> omega

theorem names_ofChars {cs : List Char} {n : String} (h : n ∈ (ofChars cs).parts) : IsName n := by
  obtain ⟨p, hp, rfl⟩ := List.mem_map.mp h
  obtain ⟨hsplit, hpart⟩ := List.mem_filter.mp hp
  rw [isPart, Bool.and_eq_true, Bool.not_eq_true', bne_iff_ne] at hpart
  refine ⟨fun he => ?_, fun he => ?_, ?_⟩
  · have : p = [] := by simpa using congrArg String.toList he
    simp [this] at hpart
  · have : p = ['.'] := by simpa using congrArg String.toList he
    exact hpart.2 this
  · rw [String.toList_ofList]
    exact Text.not_mem_of_mem_splitOn hsplit

theorem tidy_ofChars (cs : List Char) : (ofChars cs).Tidy :=
  ⟨rootOf_le cs, fun _ => names_ofChars⟩

/-- A written path is clean as soon as it has no two points. -/
theorem clean_ofChars {cs : List Char} (h : ".." ∉ (ofChars cs).parts) : (ofChars cs).Clean :=
  ⟨rootOf_le cs, fun _ hn => valid_of_isName (names_ofChars hn) fun he => h (he ▸ hn)⟩

theorem takeWhile_slashes {root : Nat} {cs : List Char} (h : cs.head? ≠ some '/') :
    (List.replicate root '/' ++ cs).takeWhile (· == '/') = List.replicate root '/' := by
  have hcs : cs.takeWhile (· == '/') = [] := by
    cases cs with
    | nil => rfl
    | cons c cs =>
      have hc : c ≠ '/' := by simpa using h
      simp [hc]
  rw [List.takeWhile_append_of_pos (by simp), hcs, List.append_nil]

theorem splitOn_slashes (root : Nat) (cs : List Char) :
    Text.splitOn '/' (List.replicate root '/' ++ cs) =
      List.replicate root [] ++ Text.splitOn '/' cs := by
  induction root with
  | zero => rfl
  | succ n ih => rw [List.replicate_succ, List.cons_append, Text.splitOn, if_pos rfl, ih]; rfl

theorem head?_joinWith {names : List String} (h : ∀ n ∈ names, IsName n) :
    (Text.joinWith ['/'] (names.map String.toList)).head? ≠ some '/' := by
  cases names with
  | nil => simp [Text.joinWith]
  | cons n rest =>
    obtain ⟨hne, -, hslash⟩ := h n (by simp)
    have htext : n.toList ≠ [] := fun he => hne (String.toList_inj.mp (by simpa using he))
    obtain ⟨c, cs, hcs⟩ := List.exists_cons_of_ne_nil htext
    have hc : c ≠ '/' := fun he => hslash (by simp [hcs, he])
    cases rest with
    | nil => simpa [Text.joinWith, hcs] using hc
    | cons m rest => simpa [Text.joinWith, hcs] using hc

theorem isPart_of_isName {n : String} (h : IsName n) : isPart n.toList = true := by
  obtain ⟨hne, hpoint, -⟩ := h
  have h1 : n.toList ≠ [] := fun he => hne (String.toList_inj.mp (by simpa using he))
  have h2 : n.toList ≠ ['.'] := fun he => hpoint (String.toList_inj.mp (by simpa using he))
  simp [isPart, h1, h2]

/-- The path that names with slashes between them stand for. -/
theorem ofChars_joinWith {names : List String} (h : ∀ n ∈ names, IsName n) {root : Nat}
    (hroot : root ≤ 2) :
    ofChars (List.replicate root '/' ++ Text.joinWith ['/'] (names.map String.toList)) =
      ⟨root, names⟩ := by
  have hslashes : rootOf (List.replicate root '/' ++
      Text.joinWith ['/'] (names.map String.toList)) = root := by
    rw [rootOf, takeWhile_slashes (head?_joinWith h), List.length_replicate]
    exact if_pos hroot
  have hempty : (List.replicate root ([] : List Char)).filter isPart = [] := by simp [isPart]
  rw [ofChars, hslashes, splitOn_slashes, List.filter_append, hempty, List.nil_append]
  cases names with
  | nil => rfl
  | cons n rest =>
    have hkept : ((n :: rest).map String.toList).filter isPart = (n :: rest).map String.toList := by
      rw [List.filter_eq_self]
      intro p hp
      obtain ⟨m, hm, rfl⟩ := List.mem_map.mp hp
      exact isPart_of_isName (h m hm)
    have hsep : ∀ p ∈ (n :: rest).map String.toList, '/' ∉ p := by
      intro p hp
      obtain ⟨m, hm, rfl⟩ := List.mem_map.mp hp
      exact (h m hm).2.2
    rw [Text.splitOn_joinWith (by simp) hsep, hkept, List.map_map]
    simp [Function.comp_def]

/-- A path is read as it was written. -/
theorem ofText_text {p : Path} (h : p.Tidy) : ofText p.text = p := by
  rw [ofText, text, String.toList_ofList, chars]
  split
  · rename_i hempty
    obtain ⟨root, parts⟩ := p
    obtain ⟨rfl, hparts⟩ := hempty
    obtain rfl := List.isEmpty_iff.mp hparts
    rfl
  · exact ofChars_joinWith h.names h.root

/-! ## Paths behind paths -/

namespace Tidy

variable {p q : Path}

theorem join (hp : p.Tidy) (hq : q.Tidy) : (p.join q).Tidy := by
  unfold Path.join
  split
  · exact hq
  · refine ⟨hp.root, fun n hn => ?_⟩
    rcases List.mem_append.mp hn with hn | hn
    · exact hp.names n hn
    · exact hq.names n hn

theorem append (hp : p.Tidy) (text : String) : (p.append text).Tidy := hp.join (tidy_ofChars _)

theorem parent (hp : p.Tidy) : p.parent.Tidy :=
  ⟨hp.root, fun n hn => hp.names n ((List.dropLast_subset _) hn)⟩

/-- A path with further names behind it. -/
theorem behind (hp : p.Tidy) {names : List String} (hn : ∀ n ∈ names, ValidName n) :
    (Path.mk p.root (p.parts ++ names)).Tidy := by
  refine ⟨hp.root, fun n hmem => ?_⟩
  rcases List.mem_append.mp hmem with hmem | hmem
  · exact hp.names n hmem
  · exact isName_of_valid (hn n hmem)

end Tidy

namespace Clean

variable {p q : Path}

theorem join (hp : p.Clean) (hq : q.Clean) : (p.join q).Clean := by
  unfold Path.join
  split
  · exact hq
  · refine ⟨hp.root, fun n hn => ?_⟩
    rcases List.mem_append.mp hn with hn | hn
    · exact hp.names n hn
    · exact hq.names n hn

theorem parent (hp : p.Clean) : p.parent.Clean :=
  ⟨hp.root, fun n hn => hp.names n ((List.dropLast_subset _) hn)⟩

/-- A clean path with further names behind it. -/
theorem behind (hp : p.Clean) {names : List String} (hn : ∀ n ∈ names, ValidName n) :
    (Path.mk p.root (p.parts ++ names)).Clean := by
  refine ⟨hp.root, fun n hmem => ?_⟩
  rcases List.mem_append.mp hmem with hmem | hmem
  · exact hp.names n hmem
  · exact hn n hmem

end Clean

theorem ofText_name {n : String} (h : ValidName n) : ofText n = ⟨0, [n]⟩ := by
  have hnames : ∀ m ∈ [n], IsName m := by simpa using isName_of_valid h
  have := ofChars_joinWith hnames (Nat.zero_le 2)
  simpa [ofText, Text.joinWith] using this

/-- A relative path behind another. -/
theorem append_way (p : Path) {text : String} {names : List String}
    (h : ofText text = ⟨0, names⟩) : p.append text = ⟨p.root, p.parts ++ names⟩ := by
  rw [append, h, join]
  rfl

theorem append_name (p : Path) {n : String} (h : ValidName n) :
    p.append n = ⟨p.root, p.parts ++ [n]⟩ := append_way p (ofText_name h)

theorem below?_behind (base : Path) (names : List String) :
    base.below? ⟨base.root, base.parts ++ names⟩ = some ⟨0, names⟩ := by
  simp [below?]

/-! ## The order of paths -/

theorem partsLe_total (as bs : List String) : (partsLe as bs || partsLe bs as) = true := by
  induction as generalizing bs with
  | nil => rfl
  | cons a as ih =>
    cases bs with
    | nil => simp [partsLe]
    | cons b bs =>
      by_cases hab : a = b
      · simpa [partsLe, hab] using ih bs
      · have hlt : a < b ∨ b < a := by
          rcases String.le_total a b with hle | hle
          · exact Or.inl (String.not_le.mp fun hge => hab (String.le_antisymm hle hge))
          · exact Or.inr (String.not_le.mp fun hge => hab (String.le_antisymm hge hle))
        simpa [partsLe, hab, Ne.symm hab] using hlt

theorem partsLe_antisymm {as bs : List String} (h : partsLe as bs = true)
    (h' : partsLe bs as = true) : as = bs := by
  induction as generalizing bs with
  | nil =>
    cases bs with
    | nil => rfl
    | cons b bs => exact nomatch h'
  | cons a as ih =>
    cases bs with
    | nil => exact nomatch h
    | cons b bs =>
      by_cases hab : a = b
      · subst hab
        rw [partsLe, if_pos rfl] at h h'
        rw [ih h h']
      · rw [partsLe, if_neg hab, decide_eq_true_eq] at h
        rw [partsLe, if_neg (Ne.symm hab), decide_eq_true_eq] at h'
        exact absurd h' (String.lt_asymm h)

theorem partsLe_trans {as bs cs : List String} (h : partsLe as bs = true)
    (h' : partsLe bs cs = true) : partsLe as cs = true := by
  induction as generalizing bs cs with
  | nil => rfl
  | cons a as ih =>
    cases bs with
    | nil => exact nomatch h
    | cons b bs =>
      cases cs with
      | nil => exact nomatch h'
      | cons c cs =>
        rw [partsLe] at h h' ⊢
        by_cases hab : a = b
        · subst hab
          rw [if_pos rfl] at h
          by_cases hac : a = c
          · rw [if_pos hac] at h' ⊢
            exact ih h h'
          · rwa [if_neg hac] at h' ⊢
        · rw [if_neg hab, decide_eq_true_eq] at h
          by_cases hbc : b = c
          · subst hbc
            rw [if_neg hab, decide_eq_true_eq]
            exact h
          · -- Both steps are decided by the first names.
            rw [if_neg hbc, decide_eq_true_eq] at h'
            have hlt : a < c := String.lt_trans h h'
            have hac : a ≠ c := by
              rintro rfl
              exact String.lt_irrefl a hlt
            rw [if_neg hac, decide_eq_true_eq]
            exact hlt

theorem le_total (p q : Path) : (le p q || le q p) = true := by
  unfold le
  by_cases h : p.root = q.root
  · rw [if_pos h, if_pos h.symm]
    exact partsLe_total p.parts q.parts
  · rw [if_neg h, if_neg (Ne.symm h), Bool.or_eq_true, decide_eq_true_eq, decide_eq_true_eq]
    omega

theorem le_antisymm {p q : Path} (h : le p q = true) (h' : le q p = true) : p = q := by
  unfold le at h h'
  by_cases hroot : p.root = q.root
  · rw [if_pos hroot] at h
    rw [if_pos hroot.symm] at h'
    have hparts := partsLe_antisymm h h'
    cases p
    cases q
    simp_all
  · rw [if_neg hroot, decide_eq_true_eq] at h
    rw [if_neg (Ne.symm hroot), decide_eq_true_eq] at h'
    omega

theorem le_trans {p q r : Path} (h : le p q = true) (h' : le q r = true) : le p r = true := by
  unfold le at h h' ⊢
  by_cases hpq : p.root = q.root
  · rw [if_pos hpq] at h
    by_cases hqr : q.root = r.root
    · rw [if_pos hqr] at h'
      rw [if_pos (hpq.trans hqr)]
      exact partsLe_trans h h'
    · rw [if_neg hqr] at h'
      rwa [if_neg (hpq ▸ hqr), hpq]
  · rw [if_neg hpq, decide_eq_true_eq] at h
    by_cases hqr : q.root = r.root
    · rw [if_neg (hqr ▸ hpq), ← hqr, decide_eq_true_eq]
      exact h
    · rw [if_neg hqr, decide_eq_true_eq] at h'
      have hlt : p.root < r.root := Nat.lt_trans h h'
      rw [if_neg (Nat.ne_of_lt hlt), decide_eq_true_eq]
      exact hlt

theorem pairwise_sorted (ps : List Path) : (sorted ps).Pairwise fun p q => le p q = true := by
  have htrans : ∀ p q r, le p q = true → le q r = true → le p r = true := fun _ _ _ => le_trans
  exact List.pairwise_mergeSort htrans le_total ps

theorem mem_sorted {ps : List Path} {p : Path} : p ∈ sorted ps ↔ p ∈ ps := List.mem_mergeSort

theorem nodup_sorted {ps : List Path} : (sorted ps).Nodup ↔ ps.Nodup :=
  (List.mergeSort_perm ps le).nodup_iff

/-- A sorted listing is known by its members. -/
theorem eq_of_sorted {ps qs : List Path} (hp : ps.Pairwise fun p q => le p q = true)
    (hq : qs.Pairwise fun p q => le p q = true) (hpn : ps.Nodup) (hqn : qs.Nodup)
    (h : ∀ p, p ∈ ps ↔ p ∈ qs) : ps = qs :=
  List.Perm.eq_of_pairwise (fun _ _ _ _ => le_antisymm) hp hq
    ((List.perm_ext_iff_of_nodup hpn hqn).mpr h)

end Path

end AgentRelay
