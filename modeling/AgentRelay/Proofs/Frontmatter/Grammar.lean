import Mathlib.Order.WellFounded
import AgentRelay.Proofs.Frontmatter

/-
  The texts that have a block of fields.

  A block stands between two lines of three dashes: the first line of the text
  (`Opens`) and the first one behind it that closes the block (`Closes`, `Cuts`). That is
  what is found (`block?_eq_some_iff`), and a text without such lines has no fields
  (`split_of_not_closed`). So the fields and the content that were joined are found again
  (`split_of_written`).
-/

namespace AgentRelay.Frontmatter

/-- Three dashes, with spaces and tabs behind them. -/
def Dashes (line : List Char) : Prop :=
  ∃ blanks, line = ['-', '-', '-'] ++ blanks ∧ ∀ c ∈ blanks, c = ' ' ∨ c = '\t'

def lineEnds : List (List Char) := [['\n'], ['\r', '\n']]

/-- The first line of a text are three dashes, with `rest` behind it. -/
def Opens (text rest : List Char) : Prop :=
  ∃ line eol, Dashes line ∧ eol ∈ lineEnds ∧ text = line ++ (eol ++ rest)

/-- A line of three dashes stands behind the block and in front of the content; it may be the
last line of the text without a line end. The flag says that a line starts with `rest`. -/
structure Closes (lineStart : Bool) (rest block content : List Char) : Prop where
  starts : (block = [] ∧ lineStart = true) ∨ block.getLast? = some '\n'
  ends : ∃ line eol, Dashes line ∧ (eol ∈ lineEnds ∨ (eol = [] ∧ content = [])) ∧
    rest = block ++ (line ++ (eol ++ content))

/-- The first line that closes the block. -/
structure Cuts (lineStart : Bool) (rest block content : List Char) : Prop where
  closes : Closes lineStart rest block content
  first : ∀ earlier more, Closes lineStart rest earlier more → block.length ≤ earlier.length

/-- A text has a block of fields with the content behind it. -/
def HasBlock (text block content : List Char) : Prop :=
  ∃ rest, Opens text rest ∧ Cuts true rest block content

/-! ## Lines of three dashes -/

theorem dropWhile_of_blanks {blanks : List Char} (h : ∀ c ∈ blanks, c = ' ' ∨ c = '\t')
    (rest : List Char) :
    (blanks ++ rest).dropWhile (fun c => c == ' ' || c == '\t') =
      rest.dropWhile fun c => c == ' ' || c == '\t' :=
  List.dropWhile_append_of_pos fun c hc => by simpa using h c hc

theorem afterRule_eq_some_iff {last : Bool} {cs rest : List Char} :
    afterRule last cs = some rest ↔ ∃ line eol, Dashes line ∧
      (eol ∈ lineEnds ∨ (last = true ∧ eol = [] ∧ rest = [])) ∧ cs = line ++ (eol ++ rest) := by
  constructor
  · intro h
    unfold afterRule at h
    split at h
    · exact nomatch h
    · rename_i tail hdrop
      obtain rfl := (Text.dropStart?_eq_some_iff _ _ _).mp hdrop
      have hdashes : Dashes (['-', '-', '-'] ++ tail.takeWhile fun c => c == ' ' || c == '\t') :=
        ⟨_, rfl, fun c hc => by simpa using List.all_eq_true.mp List.all_takeWhile c hc⟩
      have htext : ∀ {back}, (tail.dropWhile fun c => c == ' ' || c == '\t') = back →
          ['-', '-', '-'] ++ tail =
            (['-', '-', '-'] ++ tail.takeWhile fun c => c == ' ' || c == '\t') ++ back := by
        rintro back rfl
        rw [List.append_assoc, List.takeWhile_append_dropWhile]
      split at h
      · rename_i hback
        split at h
        · rename_i hlast
          obtain rfl := Option.some.inj h
          exact ⟨_, [], hdashes, .inr ⟨hlast, rfl, rfl⟩, htext hback⟩
        · exact nomatch h
      · rename_i back hback
        obtain rfl := Option.some.inj h
        exact ⟨_, ['\n'], hdashes, .inl (by simp [lineEnds]), htext hback⟩
      · rename_i back hback
        obtain rfl := Option.some.inj h
        exact ⟨_, ['\r', '\n'], hdashes, .inl (by simp [lineEnds]), htext hback⟩
      · exact nomatch h
  · rintro ⟨line, eol, ⟨blanks, rfl, hblanks⟩, heol, rfl⟩
    have hdrop : Text.dropStart? ['-', '-', '-'] (['-', '-', '-'] ++ blanks ++ (eol ++ rest)) =
        some (blanks ++ (eol ++ rest)) :=
      (Text.dropStart?_eq_some_iff _ _ _).mpr (List.append_assoc ..)
    unfold afterRule
    simp only [hdrop, dropWhile_of_blanks hblanks]
    rcases heol with heol | ⟨rfl, rfl, rfl⟩
    · simp only [lineEnds, List.mem_cons, List.not_mem_nil, or_false] at heol
      rcases heol with rfl | rfl <;> rfl
    · rfl

theorem opens_iff {text rest : List Char} : Opens text rest ↔ afterRule false text = some rest := by
  simp [Opens, afterRule_eq_some_iff]

/-! ## The end of the block -/

variable {lineStart : Bool} {c : Char} {cs rest block content : List Char}

theorem closes_nil_iff :
    Closes lineStart rest [] content ↔ lineStart = true ∧ afterRule true rest = some content := by
  rw [afterRule_eq_some_iff]
  constructor
  · rintro ⟨⟨-, hstart⟩ | hlast, line, eol, hdashes, heol, hrest⟩
    · exact ⟨hstart, line, eol, hdashes, heol.imp_right fun h => ⟨rfl, h⟩, hrest⟩
    · exact nomatch hlast
  · rintro ⟨hstart, line, eol, hdashes, heol, hrest⟩
    exact ⟨.inl ⟨rfl, hstart⟩, line, eol, hdashes, heol.imp_right And.right, hrest⟩

theorem closes_cons_iff :
    Closes lineStart (c :: cs) (c :: block) content ↔ Closes (c == '\n') cs block content := by
  have hstarts : (c :: block).getLast? = some '\n' ↔
      (block = [] ∧ (c == '\n') = true) ∨ block.getLast? = some '\n' := by
    cases block with
    | nil => simp
    | cons d block => simp [List.getLast?_cons_cons]
  constructor
  · rintro ⟨⟨hnil, -⟩ | hlast, line, eol, hdashes, heol, hrest⟩
    · exact nomatch hnil
    · exact ⟨hstarts.mp hlast, line, eol, hdashes, heol, (List.cons.inj hrest).2⟩
  · rintro ⟨hstart, line, eol, hdashes, heol, rfl⟩
    exact ⟨.inr (hstarts.mpr hstart), line, eol, hdashes, heol, rfl⟩

theorem head_of_closes {d : Char} (h : Closes lineStart (c :: cs) (d :: block) content) : d = c := by
  obtain ⟨line, eol, -, -, hrest⟩ := h.ends
  exact (List.cons.inj hrest).1.symm

theorem not_closes_nil : ¬ Closes lineStart [] block content := by
  rintro ⟨-, line, eol, ⟨blanks, rfl, -⟩, -, hrest⟩
  have hlen := congrArg List.length hrest
  simp only [List.length_append, List.length_cons, List.length_nil] at hlen
  omega

/-- The text is cut at the first line that closes the block. -/
theorem cutAtRule_eq_some_iff :
    cutAtRule lineStart cs = some (block, content) ↔ Cuts lineStart cs block content := by
  induction cs generalizing lineStart block with
  | nil =>
    constructor
    · intro h
      cases h
    · exact fun h => absurd h.closes not_closes_nil
  | cons c cs ih =>
    rw [cutAtRule]
    cases hrule : if lineStart then afterRule true (c :: cs) else none with
    | some back =>
      -- The block is empty, and nothing closes it earlier.
      have hclose : ∀ content, Closes lineStart (c :: cs) [] content ↔ content = back := by
        intro content
        rw [closes_nil_iff]
        cases lineStart with
        | false => cases hrule
        | true =>
          rw [if_pos rfl] at hrule
          simp [hrule, eq_comm]
      constructor
      · intro h
        obtain ⟨rfl, rfl⟩ := Prod.mk.inj (Option.some.inj h)
        exact ⟨(hclose back).mpr rfl, fun _ _ _ => Nat.zero_le _⟩
      · rintro ⟨hcloses, hfirst⟩
        obtain rfl := List.length_eq_zero_iff.mp
          (Nat.le_zero.mp (hfirst [] back ((hclose back).mpr rfl)))
        rw [(hclose content).mp hcloses]
    | none =>
      have hopen : ∀ content, ¬ Closes lineStart (c :: cs) [] content := by
        intro content h
        obtain ⟨rfl, hafter⟩ := closes_nil_iff.mp h
        rw [if_pos rfl, hafter] at hrule
        cases hrule
      simp only [Option.map_eq_some_iff, Prod.exists, Prod.mk.injEq]
      constructor
      · rintro ⟨block, content, h, rfl, rfl⟩
        obtain ⟨hcloses, hfirst⟩ := ih.mp h
        refine ⟨closes_cons_iff.mpr hcloses, fun earlier more hearlier => ?_⟩
        cases earlier with
        | nil => exact absurd hearlier (hopen more)
        | cons d earlier =>
          obtain rfl := head_of_closes hearlier
          exact Nat.succ_le_succ (hfirst earlier more (closes_cons_iff.mp hearlier))
      · rintro ⟨hcloses, hfirst⟩
        cases block with
        | nil => exact absurd hcloses (hopen content)
        | cons d block =>
          obtain rfl := head_of_closes hcloses
          refine ⟨block, content, ih.mpr ⟨closes_cons_iff.mp hcloses, fun earlier more h => ?_⟩,
            rfl, rfl⟩
          exact Nat.le_of_succ_le_succ (hfirst (d :: earlier) more (closes_cons_iff.mpr h))

/-- Where a line closes the block, one is the first. -/
theorem exists_cuts (h : Closes lineStart cs block content) :
    ∃ block content, Cuts lineStart cs block content := by
  obtain ⟨n, ⟨block, content, hcloses, rfl⟩, hfirst⟩ := WellFounded.has_min Nat.lt_wfRel.wf
    {n | ∃ block content, Closes lineStart cs block content ∧ block.length = n}
    ⟨_, block, content, h, rfl⟩
  exact ⟨block, content, hcloses, fun earlier more hearlier =>
    Nat.le_of_not_lt (hfirst earlier.length ⟨earlier, more, hearlier, rfl⟩)⟩

/-! ## The block of a text -/

theorem block?_eq_some_iff {text : List Char} :
    block? text = some (block, content) ↔ HasBlock text block content := by
  simp only [block?, HasBlock, Option.bind_eq_some_iff, opens_iff, cutAtRule_eq_some_iff]

/-- A text has a block exactly when a later line closes the one its first line opens. -/
theorem exists_block_iff {text : List Char} : (∃ block content, HasBlock text block content) ↔
    ∃ rest block content, Opens text rest ∧ Closes true rest block content := by
  constructor
  · rintro ⟨block, content, rest, hopens, hcuts⟩
    exact ⟨rest, block, content, hopens, hcuts.closes⟩
  · rintro ⟨rest, block, content, hopens, hcloses⟩
    obtain ⟨block, content, hcuts⟩ := exists_cuts hcloses
    exact ⟨block, content, rest, hopens, hcuts⟩

theorem split_of_hasBlock (doc : Nat) {text : String} (h : HasBlock text.toList block content) :
    split doc text = (fields doc (String.ofList block)).map fun m => (m, String.ofList content) := by
  unfold split
  rw [block?_eq_some_iff.mpr h]

theorem split_of_not_hasBlock (doc : Nat) {text : String}
    (h : ¬ ∃ block content, HasBlock text.toList block content) :
    split doc text = .ok ([], text) := by
  have hnone : block? text.toList = none :=
    Option.eq_none_iff_forall_ne_some.mpr fun ⟨block, content⟩ hsome =>
      h ⟨block, content, block?_eq_some_iff.mp hsome⟩
  unfold split
  rw [hnone]

/-! ## Fields and content that were joined -/

/-- What was joined is split into what is read from the block that was written, and the
content with its last line ended. -/
theorem split_of_written (doc : Nat) {d : Mapping} {dump : String} (hne : d.clean ≠ [])
    (hdump : Yaml.write d.clean = .ok dump) (content : String) :
    ∃ text, join d content = .ok text ∧
      split doc text = (fields doc dump).map fun m => (m, ended content) := by
  obtain ⟨lines, hlines, hall⟩ := Yaml.exists_lines_of_write hdump
  have hempty : d.clean.isEmpty = false := by simpa using hne
  refine ⟨rule ++ dump ++ rule ++ ended content, ?_, ?_⟩
  · unfold join
    simp only [hempty, hdump]
    rfl
  · have hblock := block?_between hlines (ended content).toList
    unfold split
    rw [String.toList_append, String.toList_append, String.toList_append, hall, hblock]
    simp only [← hall, String.ofList_toList]

theorem clean_ne_nil {d : Mapping} (h : ∃ e ∈ d, e.2.isNull = false) : d.clean ≠ [] := by
  obtain ⟨e, he, hnull⟩ := h
  exact List.ne_nil_of_mem (List.mem_filter.mpr ⟨he, by simp [hnull]⟩)

/-- A mapping is the other one but for its nodes. -/
def SameFields (n m : Mapping) : Prop := ∃ g : Labels, n.via g = m

/-- The fields come back when the block they were written as is loaded. -/
def LoadsBack (doc : Nat) (dump : String) (m : Mapping) : Prop :=
  ∃ v n, Yaml.readValue doc dump = .ok v ∧ v.entries? = some n ∧ SameFields n m

theorem fields_of_loadsBack {doc : Nat} {dump : String} {m : Mapping}
    (h : LoadsBack doc dump m) : ∃ n, fields doc dump = .ok n ∧ SameFields n m := by
  obtain ⟨v, n, hread, hentries, hsame⟩ := h
  refine ⟨n, ?_, hsame⟩
  unfold fields
  rw [hread]
  cases v with
  | map o es => simp only [hentries]
  | _ => cases hentries

/-- Splitting accepts exactly the texts whose first line opens a block that a later line
closes, gives the block up to the first such line to the loader, and leaves every other text
as it is. Where the fields that were written come back from the loader, splitting undoes
joining. -/
theorem split_exact (doc : Nat) :
    (∀ text : String, (∃ block content, HasBlock text.toList block content) ↔
      ∃ rest block content, Opens text.toList rest ∧ Closes true rest block content) ∧
    (∀ text block content, HasBlock (String.toList text) block content → split doc text =
      (fields doc (String.ofList block)).map fun m => (m, String.ofList content)) ∧
    (∀ text : String, (¬ ∃ block content, HasBlock text.toList block content) →
      split doc text = .ok ([], text)) ∧
    ∀ (d : Mapping) (content dump : String), (∃ e ∈ d, e.2.isNull = false) →
      Yaml.write d.clean = .ok dump → LoadsBack doc dump d.clean →
        ∃ text n, join d content = .ok text ∧ split doc text = .ok (n, ended content) ∧
          SameFields n d.clean := by
  refine ⟨fun _ => exists_block_iff, fun _ _ _ => split_of_hasBlock doc,
    fun _ => split_of_not_hasBlock doc, fun d content dump hsome hdump hback => ?_⟩
  obtain ⟨text, hjoin, hsplit⟩ := split_of_written doc (clean_ne_nil hsome) hdump content
  obtain ⟨n, hfields, hsame⟩ := fields_of_loadsBack hback
  rw [hfields] at hsplit
  exact ⟨text, n, hjoin, hsplit, hsame⟩

def single? : Value → Option Scalar
  | .scalar s => some s
  | _ => none

/-- The keys of a mapping with the single values under them. -/
def singles (m : Mapping) : List (Scalar × Option Scalar) := m.map fun e => (e.1, single? e.2)

theorem eq_of_single? {v w : Value} (hw : (single? w).isSome) (h : single? v = single? w) :
    v = w := by
  cases w with
  | scalar s => cases v <;> simp_all [single?]
  | _ => cases hw

/-- Single values determine their mapping. -/
theorem eq_of_singles {n m : Mapping} (hm : ∀ e ∈ m, (single? e.2).isSome)
    (h : singles n = singles m) : n = m := by
  induction m generalizing n with
  | nil => exact List.map_eq_nil_iff.mp h
  | cons e m ih =>
    obtain ⟨f, n', rfl, hhead, htail⟩ := List.map_eq_cons_iff.mp h
    obtain ⟨hkey, hvalue⟩ := Prod.mk.inj hhead
    have hf : f = e := Prod.ext hkey (eq_of_single? (hm e List.mem_cons_self) hvalue)
    rw [hf, ih (fun e he => hm e (List.mem_cons_of_mem _ he)) htail]

/-- The fields of a command; one of them is left out. -/
def reviewFields : Mapping :=
  [(.text "description", .text "Review"), (.text "model", .null), (.text "steps", .int 2)]

def reviewBlock : String := "description: Review\nsteps: 2\n"

theorem loadsBack_reviewBlock : LoadsBack 1 reviewBlock reviewFields.clean := by
  have hread : ((Yaml.readValue 1 reviewBlock).toOption.bind Value.entries?).map singles =
      some (singles reviewFields.clean) := by decide +kernel
  obtain ⟨n, hn, hsingles⟩ := Option.map_eq_some_iff.mp hread
  obtain ⟨v, hv, hentries⟩ := Option.bind_eq_some_iff.mp hn
  have hsingle : ∀ e ∈ reviewFields.clean, (single? e.2).isSome := by decide
  rw [eq_of_singles hsingle hsingles] at hentries
  exact ⟨v, _, eq_ok_of_toOption hv, hentries, fun _ => .own, rfl⟩

/-- A text with a block that a longer line of dashes does not close, one without a block, and
fields that are joined with a content and found again. -/
theorem review_splits :
    (split 1 "---\t\r\na: b\n----\n---" =
      (fields 1 "a: b\n----\n").map fun m => (m, "")) ∧
    split 1 "--- x\n---\n" = .ok ([], "--- x\n---\n") ∧
    ∃ text n, join reviewFields "Look at it" = .ok text ∧
      split 1 text = .ok (n, "Look at it\n") ∧ SameFields n reviewFields.clean := by
  obtain ⟨-, hblock, hnone, hjoin⟩ := split_exact 1
  refine ⟨?_, ?_, ?_⟩
  · exact hblock _ "a: b\n----\n".toList [] (block?_eq_some_iff.mp (by decide))
  · refine hnone _ fun ⟨block, content, h⟩ => ?_
    have hfound := block?_eq_some_iff.mpr h
    rw [show block? "--- x\n---\n".toList = none by decide] at hfound
    exact nomatch hfound
  · exact hjoin reviewFields "Look at it" reviewBlock ⟨_, List.mem_cons_self, rfl⟩
      (by decide +kernel) loadsBack_reviewBlock

end AgentRelay.Frontmatter
